import RaftConsensus.Wal.Mapped
import RaftConsensus.Wal.Reopen

namespace RaftConsensus.OpenWal.Mapped

open List

variable {w : OpenWal} {m : ℕ → Option LogRecord} {l i j lo hi : ℕ} {r : LogRecord}
  {ie je : Wal.IndexEntry} {seg cur : OpenSegment}

/-- The index of the log over the bases of its segments; deletions are decided on these alone. -/
def shape (w : OpenWal) : Wal :=
  ⟨w.segments.map fun seg ↦ ⟨seg.baseIndex, []⟩, w.index, w.lastIndex⟩

theorem lookup_dropIndexes (w : OpenWal) (lo hi i : ℕ) : (w.dropIndexes lo hi).lookup i =
    if lo ≤ i ∧ i ≤ hi then none else w.index.lookup i :=
  Wal.lookup_dropIndexes (w := shape w) lo hi i

theorem keepSegment_of_lookup (hl : w.index.lookup i = some ie) (hb : seg.baseIndex = ie.baseIndex)
    (hout : ¬(lo ≤ i ∧ i ≤ hi)) : w.keepSegment lo hi seg = true :=
  have hkeep : (shape w).keepSegment lo hi ⟨seg.baseIndex, []⟩ = true :=
    Wal.keepSegment_of_lookup hl hb hout
  hkeep

theorem mem_owned {base : ℕ} : i ∈ w.owned base ↔
    ∃ ie, w.index.lookup i = some ie ∧ ie.baseIndex = base := Wal.mem_owned (w := shape w)

theorem truncateAt_eq (w : OpenWal) (seg : OpenSegment) (lo : ℕ) : w.truncateAt seg lo = seg ∨
    ∃ i ie, lo ≤ i ∧ w.index.lookup i = some ie ∧ ie.baseIndex = seg.baseIndex ∧
      w.truncateAt seg lo =
        { seg with content := seg.content.take ie.offset, cursor := ie.offset, size := ie.offset }
        := by
  unfold truncateAt
  split
  · exact .inl rfl
  · rename_i k hk
    obtain ⟨i, hi, hoff⟩ := mem_filterMap.mp (min?_mem hk)
    obtain ⟨hown, hlo⟩ := mem_filter.mp hi
    obtain ⟨ie, hie, hb⟩ := mem_owned.mp hown
    rw [hie] at hoff
    cases hoff
    exact .inr ⟨i, ie, of_decide_eq_true hlo, hie, hb, rfl⟩

theorem cutCurrent_eq (w : OpenWal) (lo hi : ℕ) (cur : OpenSegment) : w.cutCurrent lo hi cur = cur ∨
    w.lastIndex ≤ hi ∧ ∃ i ie, lo ≤ i ∧ w.index.lookup i = some ie ∧ ie.baseIndex = cur.baseIndex ∧
      w.cutCurrent lo hi cur =
        { cur with content := cur.content.take ie.offset, cursor := ie.offset, size := ie.offset }
        := by
  unfold cutCurrent
  split_ifs with hskip hlast
  · exact .inl rfl
  · exact (truncateAt_eq w cur lo).imp_right fun h ↦ ⟨hlast, h⟩
  · exact .inl rfl

theorem cutCurrent_baseIndex (w : OpenWal) (lo hi : ℕ) (cur : OpenSegment) :
    (w.cutCurrent lo hi cur).baseIndex = cur.baseIndex := by
  rcases cutCurrent_eq w lo hi cur with heq | ⟨-, i, ie, -, -, -, heq⟩ <;> rw [heq]

theorem mem_segmentsLeft (hx : seg ∈ w.segmentsLeft lo hi cur) :
    seg ∈ w.segments.dropLast ∧ w.keepSegment lo hi seg = true ∨
      seg = w.cutCurrent lo hi cur ∧ cur.baseIndex ≤ (w.dropIndexes lo hi).keys.foldl max 0 := by
  unfold segmentsLeft at hx
  dsimp only at hx
  split_ifs at hx with hbase
  · exact .inl (mem_filter.mp hx)
  · rcases mem_append.mp hx with hx | hx
    · exact .inl (mem_filter.mp hx)
    · exact .inr ⟨mem_singleton.mp hx, not_lt.mp hbase⟩

theorem base_segmentsLeft (hcur : w.segments.getLast? = some cur)
    (hx : seg ∈ w.segmentsLeft lo hi cur) : ∃ x ∈ w.segments, x.baseIndex = seg.baseIndex := by
  rcases mem_segmentsLeft hx with ⟨hm, -⟩ | ⟨rfl, -⟩
  · exact ⟨seg, dropLast_subset _ hm, rfl⟩
  · exact ⟨cur, mem_of_getLast? hcur, (cutCurrent_baseIndex w lo hi cur).symm⟩

theorem ascending_segmentsLeft (h : Mapped w m l) (hcur : w.segments.getLast? = some cur)
    (lo hi : ℕ) : (w.segmentsLeft lo hi cur).Pairwise (·.baseIndex < ·.baseIndex) := by
  have hcut := ascending_replace h.ascending hcur (cutCurrent_baseIndex w lo hi cur)
  unfold segmentsLeft
  dsimp only
  split_ifs
  · exact hcut.sublist (filter_sublist.trans (sublist_append_left _ _))
  · exact hcut.sublist (filter_sublist.append_right _)

theorem atEnd_segmentsLeft (h : Mapped w m l) (hcur : w.segments.getLast? = some cur)
    (hx : seg ∈ w.segmentsLeft lo hi cur) :
    seg.cursor = seg.content.length ∧ seg.size = seg.content.length := by
  have hcurmem : cur ∈ w.segments := mem_of_getLast? hcur
  rcases mem_segmentsLeft hx with ⟨hm, -⟩ | ⟨rfl, -⟩
  · exact h.atEnd seg (dropLast_subset _ hm)
  · rcases cutCurrent_eq w lo hi cur with heq | ⟨-, i, ie, -, hi', hb, heq⟩
    · rw [heq]
      exact h.atEnd cur hcurmem
    · obtain ⟨-, -, -, x, hx, hxb, r, -, -, hst⟩ := h.found i ie hi'
      cases h.segment_unique hx hcurmem (hxb.trans hb)
      rw [heq, length_take, min_eq_left hst.1]
      exact ⟨rfl, rfl⟩

theorem found_segmentsLeft (h : Mapped w m l) (hcur : w.segments.getLast? = some cur)
    (hl : w.index.lookup i = some ie) (hout : ¬(lo ≤ i ∧ i ≤ hi)) :
    ∃ seg ∈ w.segmentsLeft lo hi cur, seg.baseIndex = ie.baseIndex ∧
      ∃ r, m i = some r ∧ r.index.toNat = i ∧ Stored seg ie.offset r := by
  have hmax : i ≤ (w.dropIndexes lo hi).keys.foldl max 0 := by
    refine le_foldl_max.2 i (AList.mem_keys.mp (AList.lookup_isSome.mp ?_))
    rw [lookup_dropIndexes, if_neg hout, hl]
    rfl
  obtain ⟨-, -, hcov, seg, hseg, hb, r, hr, hri, hst⟩ := h.found i ie hl
  have hlast := (h.mem_le (AList.lookup_isSome.mp (by rw [hl]; rfl))).2.2
  unfold segmentsLeft
  dsimp only
  rw [(dropLast_append_getLast? cur hcur).symm] at hseg
  rcases mem_append.mp hseg with hold | hseg
  · have hkeep := mem_filter.mpr ⟨hold, keepSegment_of_lookup hl hb hout⟩
    refine ⟨seg, ?_, hb, r, hr, hri, hst⟩
    split_ifs
    · exact hkeep
    · exact mem_append_left _ hkeep
  · cases mem_singleton.mp hseg
    have hbase := hcov.1
    rw [if_neg (by omega)]
    refine ⟨_, mem_append_right _ (mem_singleton_self _),
      (cutCurrent_baseIndex w lo hi cur).trans hb, r, hr, hri, ?_⟩
    rcases cutCurrent_eq w lo hi cur with heq | ⟨hall, j, je, hj, hlj, hjb, heq⟩
    · rwa [heq]
    · have horder := h.order i j ie je r hl hlj (hb.symm.trans hjb.symm) (by omega) hr
      rw [heq]
      refine ⟨?_, hst.take horder⟩
      have := hst.le
      rw [length_take]
      omega

theorem deleteRange_eq (hle : lo ≤ hi) (hcur : w.segments.getLast? = some cur) :
    (w.deleteRange lo hi).index = w.dropIndexes lo hi ∧
      (w.deleteRange lo hi).lastIndex = (w.dropIndexes lo hi).keys.foldl max 0 ∧
      (w.segmentsLeft lo hi cur ≠ [] →
        (w.deleteRange lo hi).segments = w.segmentsLeft lo hi cur) := by
  unfold OpenWal.deleteRange
  rw [if_neg (by omega), hcur]
  dsimp only
  split_ifs with hnil
  · exact ⟨rfl, rfl, fun hne ↦ absurd hnil hne⟩
  · exact ⟨rfl, rfl, fun _ ↦ rfl⟩

theorem deleteRange (h : Mapped w m l) {l' : ℕ} (hle : lo ≤ hi)
    (hcur : w.segments.getLast? = some cur)
    (hleft : ∀ seg ∈ w.segmentsLeft lo hi cur, seg.baseIndex ≤ l' + 1)
    (hlive : ∀ i ∈ w.index, ¬(lo ≤ i ∧ i ≤ hi) → i ≤ l') :
    Mapped (w.deleteRange lo hi) (fun i ↦ if lo ≤ i ∧ i ≤ hi then none else m i) l' := by
  have hfound {i : ℕ} {ie : Wal.IndexEntry} (hi' : (w.dropIndexes lo hi).lookup i = some ie) :
      w.index.lookup i = some ie ∧ ¬(lo ≤ i ∧ i ≤ hi) := by
    rw [lookup_dropIndexes] at hi'
    split_ifs at hi' with hout
    exact ⟨hi', hout⟩
  have hmissing (i : ℕ) (hi' : (w.dropIndexes lo hi).lookup i = none) :
      (if lo ≤ i ∧ i ≤ hi then none else m i) = none := by
    rw [lookup_dropIndexes] at hi'
    split_ifs at hi' ⊢
    · rfl
    · exact h.missing i hi'
  have horder (i j : ℕ) (ie je : Wal.IndexEntry) (r : LogRecord)
      (hi' : (w.dropIndexes lo hi).lookup i = some ie)
      (hj : (w.dropIndexes lo hi).lookup j = some je) (hb : ie.baseIndex = je.baseIndex)
      (hlt : i < j) (hr : (if lo ≤ i ∧ i ≤ hi then none else m i) = some r) :
      ie.offset + r.encodeRecord.length ≤ je.offset := by
    rw [if_neg (hfound hi').2] at hr
    exact h.order i j ie je r (hfound hi').1 (hfound hj).1 hb hlt hr
  unfold OpenWal.deleteRange
  rw [if_neg (by omega), hcur]
  dsimp only
  have hnone : w.segmentsLeft lo hi cur = [] → ∀ i, (w.dropIndexes lo hi).lookup i = none := by
    intro hnil i
    cases hi' : (w.dropIndexes lo hi).lookup i with
    | none => rfl
    | some ie =>
      obtain ⟨seg, hseg, -⟩ := h.found_segmentsLeft hcur (hfound hi').1 (hfound hi').2
      rw [hnil] at hseg
      cases hseg
  by_cases hnil : w.segmentsLeft lo hi cur = []
  · have hzero : (w.dropIndexes lo hi).keys.foldl max 0 = 0 := by
      refine foldl_max_mem.resolve_right fun hm ↦ ?_
      exact AList.lookup_eq_none.mp (hnone hnil _) (AList.mem_keys.mpr hm)
    rw [if_pos hnil, hnil, hzero]
    refine ⟨nofun, pairwise_singleton _ _, fun seg hs ↦ ?_, fun seg hs ↦ ?_, fun i ie hi' ↦ ?_,
      horder, hmissing, hzero.symm⟩
    · cases mem_singleton.mp hs
      exact Nat.succ_le_succ (Nat.zero_le _)
    · cases mem_singleton.mp hs
      exact ⟨rfl, rfl⟩
    · have hsome : (w.dropIndexes lo hi).lookup i = some ie := hi'
      rw [hnone hnil i] at hsome
      cases hsome
  · rw [if_neg hnil]
    refine ⟨hnil, h.ascending_segmentsLeft hcur lo hi, hleft,
      fun seg hs ↦ h.atEnd_segmentsLeft hcur hs, fun i ie hi' ↦ ?_, horder, hmissing, rfl⟩
    obtain ⟨hl, hout⟩ := hfound hi'
    obtain ⟨hpos, -, hcov, -⟩ := h.found i ie hl
    obtain ⟨seg, hseg, hb, r, hr, hx⟩ := h.found_segmentsLeft hcur hl hout
    refine ⟨hpos, hlive i (AList.lookup_isSome.mp (by rw [hl]; rfl)) hout,
      ⟨hcov.1, fun x hx hbx ↦ ?_⟩,
      seg, hseg, hb, r, ?_, hx⟩
    · obtain ⟨y, hy, hyb⟩ := base_segmentsLeft hcur hx
      have := hcov.2 y hy (by omega)
      omega
    · rw [if_neg hout, hr]

end RaftConsensus.OpenWal.Mapped
