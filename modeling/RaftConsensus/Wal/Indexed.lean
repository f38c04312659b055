import RaftConsensus.Wal.Invariant

namespace RaftConsensus

open List AList

namespace Wal

variable {w : Wal} {s l i j lo hi : ℕ} {e : LogEntry} {cur x y : Segment} {ie je : IndexEntry}

def writeEntry (w : Wal) (cur : Segment) (e : LogEntry) : Wal where
  segments := w.segments.dropLast ++ [{ cur with records := cur.records ++ [e] }]
  index := w.index.insert e.index ⟨cur.baseIndex, cur.records.length⟩
  lastIndex := e.index

/-- The index finds the entries above `s` up to `l`, each in its file, and those of one file in
the order of their indices. Unlike with `Holds` dead records may lie between them. -/
structure Indexed (w : Wal) (s l : ℕ) : Prop where
  nonempty : w.segments ≠ []
  ascending : w.segments.Pairwise (·.baseIndex < ·.baseIndex)
  base_le : ∀ seg ∈ w.segments, seg.baseIndex ≤ l + 1
  found : ∀ i ie, w.index.lookup i = some ie → ie.baseIndex ≤ i ∧ i ≤ l ∧
    ∃ seg ∈ w.segments, seg.baseIndex = ie.baseIndex ∧
      ∃ e, seg.records[ie.offset]? = some e ∧ e.index = i
  order : ∀ i j ie je, w.index.lookup i = some ie → w.index.lookup j = some je →
    ie.baseIndex = je.baseIndex → i < j → ie.offset < je.offset
  live : ∀ i, s < i → i ≤ l → i ∈ w.index

theorem lookup_dropIndexes (lo hi i : ℕ) : (w.dropIndexes lo hi).lookup i =
    if lo ≤ i ∧ i ≤ hi then none else w.index.lookup i := by
  rw [dropIndexes, Maps.lookup_foldl_erase_keys]
  by_cases hr : lo ≤ i ∧ i ≤ hi
  · rw [if_pos hr]
    by_cases hk : i ∈ w.index.keys
    · rw [if_pos (mem_filter.mpr ⟨hk, decide_eq_true hr⟩)]
    · rw [if_neg fun hm ↦ hk (mem_of_mem_filter hm)]
      exact lookup_eq_none.mpr hk
  · have hout : i ∉ w.index.keys.filter fun idx ↦ lo ≤ idx ∧ idx ≤ hi :=
      fun hm ↦ hr (of_decide_eq_true (mem_filter.mp hm).2)
    rw [if_neg hr, if_neg hout]

theorem cutCurrent_baseIndex (lo hi : ℕ) (cur : Segment) :
    (w.cutCurrent lo hi cur).baseIndex = cur.baseIndex := by
  unfold cutCurrent truncateSegmentAt
  split_ifs <;> try rfl
  split <;> rfl

theorem cutCurrent_sublist (lo hi : ℕ) (cur : Segment) :
    (w.cutCurrent lo hi cur).records.Sublist cur.records := by
  unfold cutCurrent truncateSegmentAt
  split_ifs
  · exact List.Sublist.refl _
  · split
    · exact List.Sublist.refl _
    · exact take_sublist _ _
  · exact List.Sublist.refl _

theorem cutCurrent_of_lt (lo : ℕ) (cur : Segment) (hl : hi < w.lastIndex) :
    w.cutCurrent lo hi cur = cur := by
  unfold cutCurrent
  rw [if_neg (by omega : ¬ w.lastIndex ≤ hi), ite_self]

theorem keepSegment_of_lookup {seg : Segment} (hl : w.index.lookup i = some ie)
    (hb : seg.baseIndex = ie.baseIndex) (hout : ¬(lo ≤ i ∧ i ≤ hi)) :
    w.keepSegment lo hi seg = true := by
  have howned : i ∈ w.owned seg.baseIndex := by
    refine mem_filter.mpr ⟨lookup_isSome.mp (by rw [hl]; rfl), ?_⟩
    simp [hl, hb]
  unfold keepSegment
  rw [Bool.or_eq_true, any_eq_true]
  refine .inr ⟨i, howned, ?_⟩
  simpa only [Bool.not_eq_true', Bool.and_eq_false_iff, decide_eq_false_iff_not, not_and_or]
    using hout

theorem segmentsLeft_sublist (w : Wal) (lo hi : ℕ) (cur : Segment) :
    (w.segmentsLeft lo hi cur).Sublist
      (w.segments.dropLast.filter (w.keepSegment lo hi) ++ [w.cutCurrent lo hi cur]) := by
  unfold segmentsLeft
  dsimp only
  split_ifs
  · exact sublist_append_left _ _
  · exact List.Sublist.refl _

theorem mem_segmentsLeft {seg : Segment} (hcur : w.segments.getLast? = some cur)
    (hx : seg ∈ w.segmentsLeft lo hi cur) :
    seg ∈ w.segments.dropLast ∧ w.keepSegment lo hi seg = true ∨
      seg = w.cutCurrent lo hi cur ∧ cur ∈ w.segments ∧
        cur.baseIndex ≤ (w.dropIndexes lo hi).keys.foldl max 0 := by
  unfold segmentsLeft at hx
  dsimp only at hx
  have hcurmem : cur ∈ w.segments := mem_of_getLast? hcur
  split_ifs at hx with hbase
  · exact .inl (mem_filter.mp hx)
  · rcases mem_append.mp hx with hx | hx
    · exact .inl (mem_filter.mp hx)
    · rw [cutCurrent_baseIndex, not_lt] at hbase
      exact .inr ⟨mem_singleton.mp hx, hcurmem, hbase⟩

theorem mem_owned {base : ℕ} : i ∈ w.owned base ↔
    ∃ ie, w.index.lookup i = some ie ∧ ie.baseIndex = base := by
  unfold owned
  rw [mem_filter, ← AList.mem_keys, ← lookup_isSome]
  cases w.index.lookup i <;> simp

theorem truncateSegmentAt_eq (lo : ℕ) (seg : Segment) :
    (w.truncateSegmentAt seg lo).records = seg.records ∧
        (∀ i ∈ w.owned seg.baseIndex, i < lo) ∨
      ∃ i k, lo ≤ i ∧ w.index.lookup i = some ⟨seg.baseIndex, k⟩ ∧
        (w.truncateSegmentAt seg lo).records = seg.records.take k ∧
        ∀ j k', lo ≤ j → w.index.lookup j = some ⟨seg.baseIndex, k'⟩ → k ≤ k' := by
  unfold truncateSegmentAt
  split
  · rename_i hnone
    refine .inl ⟨rfl, fun i hi ↦ ?_⟩
    by_contra hlo
    obtain ⟨ie, hie, -⟩ := mem_owned.mp hi
    have hnil := filterMap_eq_nil_iff.mp (min?_eq_none_iff.mp hnone) i
      (mem_filter.mpr ⟨hi, decide_eq_true (not_lt.mp hlo)⟩)
    rw [hie] at hnil
    cases hnil
  · rename_i k hk
    obtain ⟨hmem, hmin⟩ := min?_eq_some_iff.mp hk
    obtain ⟨i, hi, hoff⟩ := mem_filterMap.mp hmem
    obtain ⟨hown, hlo⟩ := mem_filter.mp hi
    obtain ⟨ie, hie, hb⟩ := mem_owned.mp hown
    rw [hie] at hoff
    cases hoff
    refine .inr ⟨i, ie.offset, of_decide_eq_true hlo, hb ▸ hie, rfl, fun j k' hj hl ↦ hmin k' ?_⟩
    refine mem_filterMap.mpr ⟨j, mem_filter.mpr ⟨?_, decide_eq_true hj⟩, by rw [hl]; rfl⟩
    exact mem_owned.mpr ⟨_, hl, rfl⟩

namespace Indexed

theorem empty : Indexed .empty 0 0 where
  nonempty := nofun
  ascending := pairwise_singleton _ _
  base_le seg hseg := by
    cases mem_singleton.mp hseg
    exact Nat.zero_le _
  found := nofun
  order := nofun
  live i hi hle := absurd hi (by omega)

theorem exists_current (h : Indexed w s l) : ∃ cur, w.segments.getLast? = some cur :=
  ⟨_, getLast?_eq_some_getLast h.nonempty⟩

theorem segment_unique (h : Indexed w s l) (hx : x ∈ w.segments) (hy : y ∈ w.segments)
    (hb : x.baseIndex = y.baseIndex) : x = y :=
  eq_of_ascending h.ascending hx hy hb

theorem mem_le (h : Indexed w s l) (hi : i ∈ w.index) : i ≤ l := by
  obtain ⟨ie, hie⟩ := Option.isSome_iff_exists.mp (lookup_isSome.mpr hi)
  exact (h.found i ie hie).2.1

theorem offset_lt (h : Indexed w s l) (hx : x ∈ w.segments) (hi : w.index.lookup i = some ie)
    (hb : x.baseIndex = ie.baseIndex) : ie.offset < x.records.length := by
  obtain ⟨-, -, y, hy, hyb, e, he, -⟩ := h.found i ie hi
  cases h.segment_unique hx hy (hb.trans hyb.symm)
  exact (List.getElem?_eq_some_iff.mp he).1

theorem writeEntry (h : Indexed w s l) (hcur : w.segments.getLast? = some cur)
    (he : e.index = l + 1) : Indexed (w.writeEntry cur e) s (l + 1) := by
  have hcurmem : cur ∈ w.segments := mem_of_getLast? hcur
  have hsegs : w.segments = w.segments.dropLast ++ [cur] :=
    (dropLast_append_getLast? cur hcur).symm
  have hlookup {i : ℕ} {ie : IndexEntry} (hi : (w.writeEntry cur e).index.lookup i = some ie) :
      i = l + 1 ∧ ie = ⟨cur.baseIndex, cur.records.length⟩ ∨
        i ≤ l ∧ w.index.lookup i = some ie := by
    by_cases hie : i = e.index
    · subst hie
      rw [Wal.writeEntry, lookup_insert] at hi
      exact .inl ⟨he, (Option.some.inj hi).symm⟩
    · rw [Wal.writeEntry, lookup_insert_ne hie] at hi
      exact .inr ⟨(h.found i ie hi).2.1, hi⟩
  refine ⟨append_ne_nil_of_right_ne_nil _ (by simp), ascending_replace h.ascending hcur rfl,
    ?_, ?_, ?_, ?_⟩
  · intro seg hseg
    rcases mem_append.mp hseg with hseg | hseg
    · exact (h.base_le seg (dropLast_subset _ hseg)).trans (Nat.le_succ _)
    · cases mem_singleton.mp hseg
      exact (h.base_le cur hcurmem).trans (Nat.le_succ _)
  · intro i ie hi
    rcases hlookup hi with ⟨rfl, rfl⟩ | ⟨-, hi⟩
    · exact ⟨h.base_le cur hcurmem, le_rfl, _, mem_append_right _ (mem_singleton_self _),
        rfl, e, by simp, he⟩
    · obtain ⟨hb, hle, seg, hseg, hsb, a, ha, hai⟩ := h.found i ie hi
      refine ⟨hb, hle.trans (Nat.le_succ l), ?_⟩
      rw [hsegs] at hseg
      rcases mem_append.mp hseg with hseg | hseg
      · exact ⟨seg, mem_append_left _ hseg, hsb, a, ha, hai⟩
      · cases mem_singleton.mp hseg
        refine ⟨_, mem_append_right _ (mem_singleton_self _), hsb, a, ?_, hai⟩
        rw [getElem?_append_left (List.getElem?_eq_some_iff.mp ha).1]
        exact ha
  · intro i j ie je hi hj hb hlt
    rcases hlookup hj with ⟨rfl, rfl⟩ | ⟨hjl, hj⟩
    · rcases hlookup hi with ⟨rfl, -⟩ | ⟨-, hi⟩
      · omega
      · exact h.offset_lt hcurmem hi hb.symm
    · rcases hlookup hi with ⟨rfl, -⟩ | ⟨-, hi⟩
      · omega
      · exact h.order i j ie je hi hj hb hlt
  · intro i hs hle
    rw [Wal.writeEntry, mem_insert, he]
    rcases hle.eq_or_lt with rfl | hlt
    · exact .inl rfl
    · exact .inr (h.live i hs (Nat.le_of_lt_succ hlt))

theorem rotateSegment (h : Indexed w s l) (hl : w.lastIndex = l)
    (hb : ∀ seg ∈ w.segments, seg.baseIndex ≤ l) : Indexed w.rotateSegment s l := by
  refine ⟨append_ne_nil_of_right_ne_nil _ (by simp), ?_, ?_, ?_, h.order, h.live⟩
  · refine pairwise_append.mpr ⟨h.ascending, pairwise_singleton _ _, fun a ha b hb' ↦ ?_⟩
    cases mem_singleton.mp hb'
    have := hb a ha
    change a.baseIndex < w.lastIndex + 1
    omega
  · intro seg hseg
    rcases mem_append.mp hseg with hseg | hseg
    · exact h.base_le seg hseg
    · cases mem_singleton.mp hseg
      exact (congrArg (· + 1) hl).le
  · intro i ie hi
    obtain ⟨hbi, hil, seg, hseg, hx⟩ := h.found i ie hi
    exact ⟨hbi, hil, seg, mem_append_left _ hseg, hx⟩

theorem cutCurrent_spares (h : Indexed w s l) (hl : w.index.lookup i = some ie) (hlo : i < lo)
    (hb : cur.baseIndex = ie.baseIndex) :
    (w.cutCurrent lo hi cur).records[ie.offset]? = cur.records[ie.offset]? := by
  unfold cutCurrent
  split_ifs
  · rfl
  · rcases w.truncateSegmentAt_eq lo cur with ⟨heq, -⟩ | ⟨j, k, hj, hlj, heq, -⟩
    · rw [heq]
    · rw [heq, getElem?_take_of_lt]
      exact h.order i j ie _ hl hlj hb.symm (by omega)
  · rfl

theorem dropIndexes_last (h : Indexed w s l) (lo : ℕ) (hn : l ≤ hi) :
    (w.dropIndexes lo hi).keys.foldl max 0 = 0 ∨ (w.dropIndexes lo hi).keys.foldl max 0 < lo := by
  refine foldl_max_mem.imp id fun hm ↦ ?_
  have hsome := lookup_isSome.mpr (AList.mem_keys.mpr hm)
  rw [lookup_dropIndexes] at hsome
  split_ifs at hsome with hout
  · cases hsome
  · have := h.mem_le (lookup_isSome.mp hsome)
    omega

theorem older_base_le (h : Indexed w s l) (hx : x ∈ w.segments.dropLast) : x.baseIndex ≤ l := by
  obtain ⟨cur, hcur⟩ := h.exists_current
  have hlt := lt_last_of_ascending h.ascending hcur hx
  have := h.base_le cur (mem_of_getLast? hcur)
  omega

theorem keepSegment_tail (h : Indexed w s l) (hn : l ≤ hi) (hx : x ∈ w.segments.dropLast)
    (hkeep : w.keepSegment lo hi x = true) :
    x.baseIndex + w.segmentEntryCount x < lo ∨ ∃ i ∈ w.owned x.baseIndex, i < lo := by
  unfold keepSegment skips at hkeep
  simp only [Bool.or_eq_true, decide_eq_true_eq, any_eq_true, Bool.not_eq_true',
    Bool.and_eq_false_iff, decide_eq_false_iff_not] at hkeep
  have hbase := h.older_base_le hx
  rcases hkeep with (hlt | hlt) | ⟨i, hi', hout⟩
  · omega
  · exact .inl hlt
  · obtain ⟨ie, hie, -⟩ := mem_owned.mp hi'
    have := (h.found i ie hie).2.1
    exact .inr ⟨i, hi', by omega⟩

theorem segmentsLeft_base (h : Indexed w s l) (hn : l ≤ hi) (hcur : w.segments.getLast? = some cur)
    (hx : x ∈ w.segmentsLeft lo hi cur) : x.baseIndex = 0 ∨ x.baseIndex < lo := by
  rcases mem_segmentsLeft hcur hx with ⟨hm, hkeep⟩ | ⟨rfl, -, hbase⟩
  · rcases h.keepSegment_tail hn hm hkeep with hlt | ⟨i, hi', hlo⟩
    · omega
    · obtain ⟨ie, hie, hb⟩ := mem_owned.mp hi'
      have := (h.found i ie hie).1
      omega
  · rw [cutCurrent_baseIndex]
    rcases h.dropIndexes_last lo hn with h0 | hlt <;> omega

theorem found_segmentsLeft (h : Indexed w s l) (hcur : w.segments.getLast? = some cur)
    (hcut : w.index.lookup i = some ie → ¬(lo ≤ i ∧ i ≤ hi) → cur.baseIndex = ie.baseIndex →
      (w.cutCurrent lo hi cur).records[ie.offset]? = cur.records[ie.offset]?)
    (hl : (w.dropIndexes lo hi).lookup i = some ie) :
    ∃ x ∈ w.segmentsLeft lo hi cur, x.baseIndex = ie.baseIndex ∧
      ∃ e, x.records[ie.offset]? = some e ∧ e.index = i := by
  have hmax : i ≤ (w.dropIndexes lo hi).keys.foldl max 0 :=
    le_foldl_max.2 i (AList.mem_keys.mp (lookup_isSome.mp (by rw [hl]; rfl)))
  rw [lookup_dropIndexes] at hl
  split_ifs at hl with hout
  obtain ⟨hb, -, x, hx, hxb, e, he, hei⟩ := h.found i ie hl
  unfold segmentsLeft
  dsimp only
  rw [(dropLast_append_getLast? cur hcur).symm] at hx
  rcases mem_append.mp hx with hold | hx
  · have hkeep := mem_filter.mpr ⟨hold, keepSegment_of_lookup hl hxb hout⟩
    refine ⟨x, ?_, hxb, e, he, hei⟩
    split_ifs
    · exact hkeep
    · exact mem_append_left _ hkeep
  · cases mem_singleton.mp hx
    have hbase := cutCurrent_baseIndex (w := w) lo hi cur
    rw [if_neg (by omega)]
    exact ⟨_, mem_append_right _ (mem_singleton_self _), hbase.trans hxb, e,
      (hcut hl hout hxb).trans he, hei⟩

theorem segmentsLeft_ascending (h : Indexed w s l) (hcur : w.segments.getLast? = some cur) :
    (w.segmentsLeft lo hi cur).Pairwise (·.baseIndex < ·.baseIndex) := by
  have hcut := ascending_replace h.ascending hcur (cutCurrent_baseIndex (w := w) lo hi cur)
  exact hcut.sublist ((segmentsLeft_sublist w lo hi cur).trans (filter_sublist.append_right _))

theorem deleteRange_eq (hcur : w.segments.getLast? = some cur) (hle : lo ≤ hi) :
    (w.deleteRange lo hi).index = w.dropIndexes lo hi ∧
      ((w.deleteRange lo hi).segments = w.segmentsLeft lo hi cur ∧ w.segmentsLeft lo hi cur ≠ [] ∨
        (w.deleteRange lo hi).segments = [⟨(w.dropIndexes lo hi).keys.foldl max 0 + 1, []⟩] ∧
          w.segmentsLeft lo hi cur = []) := by
  unfold Wal.deleteRange
  rw [if_neg (by omega), hcur]
  dsimp only
  by_cases hne : w.segmentsLeft lo hi cur = []
  · rw [if_pos hne, hne]
    exact ⟨rfl, .inr ⟨rfl, rfl⟩⟩
  · rw [if_neg hne]
    exact ⟨rfl, .inl ⟨rfl, hne⟩⟩

/-- What is left of the index up to `l'` is found where it was. -/
theorem delete (h : Indexed w s l) (hle : lo ≤ hi) (hcur : w.segments.getLast? = some cur)
    {s' l' : ℕ}
    (hcut : ∀ i ie, w.index.lookup i = some ie → ¬(lo ≤ i ∧ i ≤ hi) → cur.baseIndex = ie.baseIndex →
      (w.cutCurrent lo hi cur).records[ie.offset]? = cur.records[ie.offset]?)
    (hbase : ∀ x ∈ w.segmentsLeft lo hi cur, x.baseIndex ≤ l' + 1)
    (hmax : ∀ i ie, (w.dropIndexes lo hi).lookup i = some ie → i ≤ l')
    (hlive : ∀ i, s' < i → i ≤ l' → i ∈ w.index ∧ ¬(lo ≤ i ∧ i ≤ hi)) :
    Indexed (w.deleteRange lo hi) s' l' := by
  obtain ⟨hindex, hsegs⟩ := deleteRange_eq hcur hle
  have hfound (i : ℕ) (ie : IndexEntry) (hl : (w.dropIndexes lo hi).lookup i = some ie) :=
    h.found_segmentsLeft hcur (hcut i ie) hl
  have hold {i : ℕ} {ie : IndexEntry} (hl : (w.dropIndexes lo hi).lookup i = some ie) :
      w.index.lookup i = some ie := by
    rw [lookup_dropIndexes] at hl
    split_ifs at hl
    exact hl
  constructor
  · rcases hsegs with ⟨hsegs, hne⟩ | ⟨hsegs, -⟩
    · exact hsegs ▸ hne
    · exact hsegs ▸ cons_ne_nil _ _
  · rcases hsegs with ⟨hsegs, -⟩ | ⟨hsegs, -⟩
    · exact hsegs ▸ h.segmentsLeft_ascending hcur
    · exact hsegs ▸ pairwise_singleton _ _
  · rcases hsegs with ⟨hsegs, -⟩ | ⟨hsegs, -⟩
    · exact hsegs ▸ hbase
    · rw [hsegs]
      intro seg hseg
      cases mem_singleton.mp hseg
      change _ + 1 ≤ l' + 1
      rcases foldl_max_mem (m := 0) (l := (w.dropIndexes lo hi).keys) with h0 | hm
      · omega
      · obtain ⟨ie, hie⟩ :=
          Option.isSome_iff_exists.mp (lookup_isSome.mpr (AList.mem_keys.mpr hm))
        exact Nat.succ_le_succ (hmax _ ie hie)
  · rw [hindex]
    intro i ie hl
    obtain ⟨x, hx, hspec⟩ := hfound i ie hl
    refine ⟨(h.found i ie (hold hl)).1, hmax i ie hl, x, ?_, hspec⟩
    rcases hsegs with ⟨hsegs, -⟩ | ⟨-, hnil⟩
    · exact hsegs ▸ hx
    · rw [hnil] at hx
      cases hx
  · rw [hindex]
    exact fun i j ie je hl hj ↦ h.order i j ie je (hold hl) (hold hj)
  · rw [hindex]
    intro i hs hil
    obtain ⟨hm, hout⟩ := hlive i hs hil
    rw [← lookup_isSome, lookup_dropIndexes, if_neg hout, lookup_isSome]
    exact hm

theorem deleteRange (h : Indexed w s l) (hlo : 0 < lo) (hle : lo ≤ l + 1) :
    Indexed (w.deleteRange lo (l + 1)) s (lo - 1) := by
  obtain ⟨cur, hcur⟩ := h.exists_current
  refine h.delete hle hcur (fun i ie hl hout hb ↦ ?_) (fun x hx ↦ ?_) (fun i ie hl ↦ ?_)
    fun i hs hil ↦ ⟨h.live i hs (by omega), by omega⟩
  · have := (h.found i ie hl).2.1
    exact h.cutCurrent_spares hl (by omega) hb
  · have := h.segmentsLeft_base (Nat.le_succ l) hcur hx
    omega
  · rw [lookup_dropIndexes] at hl
    split_ifs at hl with hout
    have := (h.found i ie hl).2.1
    omega

end Indexed

end Wal

end RaftConsensus
