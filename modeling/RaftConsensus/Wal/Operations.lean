import RaftConsensus.Wal.Indexed

namespace RaftConsensus.Wal

open List AList

variable {w w' : Wal} {log : List LogEntry} {s i : ℕ} {e : LogEntry} {seg : Segment}

def rebuilt (w : Wal) : Wal :=
  let index := w.segments.foldl (fun m seg ↦ rebuildIndex seg.baseIndex 0 seg.records m) ∅
  ⟨w.segments, index, index.keys.foldl max 0⟩

namespace Holds

theorem mono (h : Holds w log s) {s' : ℕ} (hs : s ≤ s') : Holds w log s' :=
  { h with live := fun i hi ↦ h.live i (hs.trans_lt hi) }

theorem exists_current (h : Holds w log s) : ∃ cur, w.segments.getLast? = some cur ∧
    w.segments = w.segments.dropLast ++ [cur] := by
  have hne := h.nonempty
  exact ⟨_, getLast?_eq_some_getLast hne, (dropLast_append_getLast hne).symm⟩

theorem mem_index_le (h : Holds w log s) (hi : i ∈ w.index) : i ≤ log.length := by
  obtain ⟨e, -, -, hpos, hlog⟩ := h.get_of_mem hi
  have := (List.getElem?_eq_some_iff.mp hlog).1
  omega

theorem last_le (h : Holds w log s) : w.lastIndex ≤ log.length := by
  by_cases h0 : w.lastIndex = 0
  · omega
  · exact h.mem_index_le (h.last_mem h0)

theorem max_last (h : Holds w log s) (hs : s ≤ log.length) : max w.lastIndex s = log.length := by
  have hle := h.last_le
  rcases hs.eq_or_lt with rfl | hlt
  · omega
  · have := h.le_last (h.live log.length hlt le_rfl)
    omega

theorem indexed (h : Holds w log s) : Indexed w s log.length where
  nonempty := h.nonempty
  ascending := h.before.imp fun hb ↦ hb.1
  base_le := h.base_le
  live := h.live
  found i ie hi := by
    obtain ⟨seg, hseg, hb, e, he, rfl⟩ := h.found i ie hi
    have hmem := mem_of_getElem? he
    exact ⟨hb ▸ (h.record seg hseg e hmem).1, h.index_le hseg hmem, seg, hseg, hb, e, he, rfl⟩
  order i j ie je hi hj hb hlt := by
    obtain ⟨x, hx, hxb, a, ha, rfl⟩ := h.found i ie hi
    obtain ⟨y, hy, hyb, b, hb', rfl⟩ := h.found j je hj
    have hxy := h.find_segment hx
    rw [hxb, hb, ← hyb, h.find_segment hy] at hxy
    obtain rfl := Option.some.inj hxy
    obtain ⟨hm, rfl⟩ := List.getElem?_eq_some_iff.mp ha
    obtain ⟨hn, rfl⟩ := List.getElem?_eq_some_iff.mp hb'
    by_contra hle
    rcases (not_lt.mp hle).eq_or_lt with heq | hgt
    · simp only [heq, lt_irrefl] at hlt
    · have := pairwise_iff_getElem.mp (h.order y hy) je.offset ie.offset hn hm hgt
      omega

theorem rotateSegment (h : Holds w log s) (hl : w.lastIndex = log.length)
    (hb : ∀ seg ∈ w.segments, seg.baseIndex ≤ log.length) : Holds w.rotateSegment log s := by
  have hi := h.indexed.rotateSegment hl hb
  have hmem {seg : Segment} (hs : seg ∈ w.rotateSegment.segments) :
      seg ∈ w.segments ∨ seg.records = [] := by
    rcases mem_append.mp hs with hs | hs
    · exact .inl hs
    · exact .inr (mem_singleton.mp hs ▸ rfl)
  refine ⟨hi.nonempty, ?_, hi.base_le, ?_, ?_, fun i ie hl ↦ (hi.found i ie hl).2.2, h.live, h.last⟩
  · refine pairwise_append.mpr ⟨h.before, pairwise_singleton _ _, fun a ha b hb' ↦ ?_⟩
    cases mem_singleton.mp hb'
    change a.baseIndex < w.lastIndex + 1 ∧ ∀ e ∈ a.records, e.index < w.lastIndex + 1
    rw [hl]
    exact ⟨Nat.lt_succ_of_le (hb a ha), fun e he ↦ Nat.lt_succ_of_le (h.index_le ha he)⟩
  · intro seg hs e he
    rcases hmem hs with hs | hnil
    · exact h.record seg hs e he
    · rw [hnil] at he
      cases he
  · intro seg hs
    rcases hmem hs with hs | hnil
    · exact h.order seg hs
    · rw [hnil]
      exact .nil

theorem writeEntry (h : Holds w log s) {cur : Segment} (hcur : w.segments.getLast? = some cur)
    (hi : e.index = log.length + 1) : Holds (w.writeEntry cur e) (log ++ [e]) s := by
  have hcurmem : cur ∈ w.segments := mem_of_getLast? hcur
  have hw := h.indexed.writeEntry hcur hi
  have hlen : (log ++ [e]).length = log.length + 1 := by simp
  rw [← hlen] at hw
  have hlog {k : ℕ} {x : LogEntry} (hx : log[k]? = some x) : (log ++ [e])[k]? = some x := by
    rw [getElem?_append_left (List.getElem?_eq_some_iff.mp hx).1]
    exact hx
  have hmem {seg : Segment} (hs : seg ∈ (w.writeEntry cur e).segments) :
      seg ∈ w.segments ∨ seg = { cur with records := cur.records ++ [e] } := by
    rcases mem_append.mp hs with hs | hs
    · exact .inl (dropLast_subset _ hs)
    · exact .inr (mem_singleton.mp hs)
  refine ⟨hw.nonempty, ?_, hw.base_le, ?_, ?_, fun i ie hl ↦ (hw.found i ie hl).2.2, hw.live, ?_⟩
  · have hbefore := h.before
    rw [(dropLast_append_getLast? cur hcur).symm] at hbefore
    obtain ⟨hbold, -, hbcur⟩ := pairwise_append.mp hbefore
    refine pairwise_append.mpr ⟨hbold, pairwise_singleton _ _, fun a ha b hb ↦ ?_⟩
    cases mem_singleton.mp hb
    exact hbcur a ha cur (mem_singleton_self cur)
  · intro seg hs x hx
    rcases hmem hs with hs | rfl
    · obtain ⟨hb, hp, hl⟩ := h.record seg hs x hx
      exact ⟨hb, hp, hlog hl⟩
    · rcases mem_append.mp hx with hx | hx
      · obtain ⟨hb, hp, hl⟩ := h.record cur hcurmem x hx
        exact ⟨hb, hp, hlog hl⟩
      · cases mem_singleton.mp hx
        exact ⟨hi ▸ h.base_le cur hcurmem, by omega, by simp [hi]⟩
  · intro seg hs
    rcases hmem hs with hs | rfl
    · exact h.order seg hs
    · refine pairwise_append.mpr ⟨h.order cur hcurmem, pairwise_singleton _ _, fun a ha b hb ↦ ?_⟩
      cases mem_singleton.mp hb
      have := h.index_le hcurmem ha
      omega
  · have hself : e.index ∈ (w.writeEntry cur e).index := (mem_insert _).mpr (.inl rfl)
    refine le_antisymm (le_foldl_max.2 _ (mem_keys.mp hself)) ?_
    rcases foldl_max_mem (l := (w.writeEntry cur e).index.keys) (m := 0) with h0 | hm
    · exact h0.trans_le (Nat.zero_le _)
    · have := hw.mem_le (mem_keys.mpr hm)
      change _ ≤ e.index
      omega

theorem appendEntry (h : Holds w log s) (hi : e.index = log.length + 1) :
    Holds (w.appendEntry e) (log ++ [e]) s := by
  obtain ⟨cur, hcur, -⟩ := h.exists_current
  have hw := h.writeEntry hcur hi
  unfold Wal.appendEntry
  rw [hcur]
  dsimp only
  split
  · refine hw.rotateSegment (by simp [Wal.writeEntry, hi]) fun seg hs ↦ ?_
    rw [length_append, length_singleton]
    rcases mem_append.mp hs with hs | hs
    · exact h.base_le seg (dropLast_subset _ hs)
    · cases mem_singleton.mp hs
      exact h.base_le cur (mem_of_getLast? hcur)
  · exact hw

theorem deleteRange (h : Holds w log s) {cur : Segment} {lo hi : ℕ} (hle : lo ≤ hi)
    (hcur : w.segments.getLast? = some cur) {log' : List LogEntry}
    (hcut : ∀ j ie, w.index.lookup j = some ie → ¬(lo ≤ j ∧ j ≤ hi) →
      cur.baseIndex = ie.baseIndex →
      (w.cutCurrent lo hi cur).records[ie.offset]? = cur.records[ie.offset]?)
    (hleft : ∀ seg ∈ w.segmentsLeft lo hi cur, seg.baseIndex ≤ log'.length + 1 ∧
      ∀ e ∈ seg.records, log'[e.index - 1]? = some e)
    (hlive : ∀ j, i < j → j ≤ log'.length → j ∈ w.index ∧ ¬(lo ≤ j ∧ j ≤ hi)) :
    Holds (w.deleteRange lo hi) log' i := by
  -- each segment that is left has the base of one from before, and a part of its records
  have hold {seg : Segment} (hx : seg ∈ w.segmentsLeft lo hi cur) :
      ∃ x ∈ w.segments, seg.baseIndex = x.baseIndex ∧ seg.records.Sublist x.records := by
    rcases mem_segmentsLeft hcur hx with ⟨hx, -⟩ | ⟨rfl, hm, -⟩
    · exact ⟨seg, dropLast_subset _ hx, rfl, List.Sublist.refl _⟩
    · exact ⟨cur, hm, cutCurrent_baseIndex lo hi cur, cutCurrent_sublist lo hi cur⟩
  have hrecord {seg : Segment} {e : LogEntry} (hx : seg ∈ w.segmentsLeft lo hi cur)
      (he : e ∈ seg.records) : seg.baseIndex ≤ e.index ∧ 0 < e.index := by
    obtain ⟨x, hxm, hb, hr⟩ := hold hx
    obtain ⟨hbe, hpos, -⟩ := h.record x hxm e (hr.subset he)
    exact ⟨hb ▸ hbe, hpos⟩
  have hdel : Indexed (w.deleteRange lo hi) i log'.length := by
    refine h.indexed.delete hle hcur hcut (fun x hx ↦ (hleft x hx).1) (fun j ie hl ↦ ?_) hlive
    obtain ⟨x, hx, -, e, he, rfl⟩ := h.indexed.found_segmentsLeft hcur (hcut j ie) hl
    have hmem := mem_of_getElem? he
    have hlt := (List.getElem?_eq_some_iff.mp ((hleft x hx).2 e hmem)).1
    have := (hrecord hx hmem).2
    omega
  obtain ⟨-, hsegs⟩ := Indexed.deleteRange_eq hcur hle
  have hlast : (w.deleteRange lo hi).lastIndex = (w.deleteRange lo hi).index.keys.foldl max 0 := by
    unfold Wal.deleteRange
    rw [if_neg (by omega), hcur]
    dsimp only
    split_ifs <;> rfl
  refine ⟨hdel.nonempty, ?_, hdel.base_le, ?_, ?_,
    fun j ie hl ↦ (hdel.found j ie hl).2.2, hdel.live, hlast⟩
  · rcases hsegs with ⟨hsegs, -⟩ | ⟨hsegs, -⟩
    · rw [hsegs]
      refine List.Pairwise.sublist (segmentsLeft_sublist w lo hi cur) ?_
      have hbefore := h.before
      rw [(dropLast_append_getLast? cur hcur).symm] at hbefore
      obtain ⟨ho, -, hc⟩ := pairwise_append.mp hbefore
      refine pairwise_append.mpr ⟨ho.filter _, pairwise_singleton _ _, fun a ha b hb ↦ ?_⟩
      cases mem_singleton.mp hb
      rw [Segment.Before, cutCurrent_baseIndex]
      exact hc a (mem_of_mem_filter ha) cur (mem_singleton_self cur)
    · rw [hsegs]
      exact pairwise_singleton _ _
  · rcases hsegs with ⟨hsegs, -⟩ | ⟨hsegs, -⟩
    · intro seg hx e he
      rw [hsegs] at hx
      obtain ⟨hbe, hpos⟩ := hrecord hx he
      exact ⟨hbe, hpos, (hleft seg hx).2 e he⟩
    · rw [hsegs]
      intro seg hx e he
      cases mem_singleton.mp hx
      cases he
  · rcases hsegs with ⟨hsegs, -⟩ | ⟨hsegs, -⟩
    · intro seg hx
      rw [hsegs] at hx
      obtain ⟨x, hxm, -, hr⟩ := hold hx
      exact (h.order x hxm).sublist hr
    · rw [hsegs]
      intro seg hx
      cases mem_singleton.mp hx
      exact .nil

theorem compact (h : Holds w log s) : Holds (w.compact i) log (max s i) := by
  unfold Wal.compact
  split_ifs with hnone
  · exact h.mono (le_max_left s i)
  obtain ⟨cur, hcur, -⟩ := h.exists_current
  refine h.deleteRange (by omega) hcur (fun j ie hj hout _ ↦ ?_) (fun seg hx ↦ ?_) fun j hij hj ↦ ?_
  · have hmem := lookup_isSome.mp (hj ▸ rfl : (w.index.lookup j).isSome)
    have hfirst := h.firstIndex_le hmem
    have hlast := h.le_last hmem
    rw [cutCurrent_of_lt _ cur (by omega)]
  · rcases mem_segmentsLeft hcur hx with ⟨hx, -⟩ | ⟨rfl, hm, -⟩
    · have hm := dropLast_subset _ hx
      exact ⟨h.base_le seg hm, fun e he ↦ (h.record seg hm e he).2.2⟩
    · rw [cutCurrent_baseIndex]
      exact ⟨h.base_le cur hm,
        fun e he ↦ (h.record cur hm e ((cutCurrent_sublist _ _ cur).subset he)).2.2⟩
  · exact ⟨h.live j (by omega) hj, by omega⟩

section Open

variable {m : AList (fun _ : ℕ ↦ IndexEntry)} {base offset : ℕ} {records : List LogEntry}

theorem lookup_rebuildIndex {ie : IndexEntry}
    (hl : (rebuildIndex base offset records m).lookup i = some ie) :
    m.lookup i = some ie ∨ ie.baseIndex = base ∧ offset ≤ ie.offset ∧
      ∃ e, records[ie.offset - offset]? = some e ∧ e.index = i := by
  induction records generalizing m offset with
  | nil => exact .inl hl
  | cons e rest ih =>
    rcases ih hl with hm | ⟨hb, ho, x, hx, hxi⟩
    · by_cases hi : i = e.index
      · subst hi
        rw [lookup_insert] at hm
        cases hm
        exact .inr ⟨rfl, le_rfl, e, by simp, rfl⟩
      · rw [lookup_insert_ne hi] at hm
        exact .inl hm
    · refine .inr ⟨hb, by omega, x, ?_, hxi⟩
      rw [show ie.offset - offset = ie.offset - (offset + 1) + 1 by omega, getElem?_cons_succ]
      exact hx

theorem mem_rebuildIndex :
    i ∈ rebuildIndex base offset records m ↔ i ∈ m ∨ ∃ e ∈ records, e.index = i := by
  induction records generalizing m offset with
  | nil => simp [rebuildIndex]
  | cons e rest ih =>
    rw [rebuildIndex, ih, mem_insert]
    simp only [mem_cons, exists_eq_or_imp]
    rw [or_assoc, or_left_comm, eq_comm (a := i)]

variable {segments : List Segment}

theorem lookup_rebuilt {ie : IndexEntry}
    (hl : (segments.foldl (fun m seg ↦ rebuildIndex seg.baseIndex 0 seg.records m) m).lookup i =
      some ie) :
    m.lookup i = some ie ∨ ∃ seg ∈ segments, seg.baseIndex = ie.baseIndex ∧
      ∃ e, seg.records[ie.offset]? = some e ∧ e.index = i := by
  induction segments generalizing m with
  | nil => exact .inl hl
  | cons seg rest ih =>
    rcases ih hl with hm | ⟨x, hx, hspec⟩
    · rcases lookup_rebuildIndex hm with hm | ⟨hb, -, hspec⟩
      · exact .inl hm
      · exact .inr ⟨seg, mem_cons_self, hb.symm, hspec⟩
    · exact .inr ⟨x, mem_cons_of_mem seg hx, hspec⟩

theorem mem_rebuilt :
    i ∈ segments.foldl (fun m seg ↦ rebuildIndex seg.baseIndex 0 seg.records m) m ↔
      i ∈ m ∨ ∃ seg ∈ segments, ∃ e ∈ seg.records, e.index = i := by
  induction segments generalizing m with
  | nil => simp
  | cons seg rest ih =>
    rw [foldl_cons, ih, mem_rebuildIndex]
    simp only [mem_cons, exists_eq_or_imp]
    rw [or_assoc]

theorem rebuilt (h : Holds w log s) : Holds w.rebuilt log s := by
  refine { h with found := ?_, live := ?_, last := rfl }
  · intro i ie hi
    rcases lookup_rebuilt hi with hm | hspec
    · cases hm
    · exact hspec
  · intro i hsi hi
    obtain ⟨ie, hie⟩ := Option.isSome_iff_exists.mp (lookup_isSome.mpr (h.live i hsi hi))
    obtain ⟨seg, hseg, -, e, he, hei⟩ := h.found i ie hie
    exact mem_rebuilt.mpr (.inr ⟨seg, hseg, e, mem_of_getElem? he, hei⟩)

theorem reopen (h : Holds w log s) : w.reopen = some w.rebuilt := by
  have hsort : w.segments.insertionSort (fun a b ↦ a.baseIndex ≤ b.baseIndex) = w.segments :=
    (h.before.imp fun hb ↦ hb.1.le).insertionSort_eq
  unfold Wal.reopen
  dsimp only
  rw [hsort]
  refine if_pos ?_
  by_cases h0 : w.rebuilt.lastIndex = 0
  · exact .inl h0
  · obtain ⟨e, he, -⟩ := h.rebuilt.get_of_mem (h.rebuilt.last_mem h0)
    exact .inr (Option.isSome_iff_exists.mpr ⟨e, he⟩)

end Open

end Holds

end RaftConsensus.Wal
