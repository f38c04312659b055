import RaftConsensus.Wal.Serving

namespace RaftConsensus.OpenWal

open List

variable {w : OpenWal} {m : ℕ → Option LogRecord} {l i j lo hi : ℕ} {seg cur : OpenSegment}
  {ie : Wal.IndexEntry}

/-- What `Compact` is expected to do to a log with entries up to `lastIndex`. -/
structure CompactLaw (w : OpenWal) (i : ℕ) : Prop where
  last : (w.compact i).lastIndex = w.lastIndex
  above : ∀ j, i < j → (w.compact i).get j = w.get j
  below : ∀ j ≤ i, (w.compact i).get j = .error .notFound
  first : (w.compact i).firstIndex = i + 1

namespace Mapped

theorem last_mem (h : Mapped w m l) (h0 : 0 < w.lastIndex) : w.lastIndex ∈ w.index := by
  rw [h.last] at h0 ⊢
  exact foldl_max_mem.resolve_left h0.ne'

theorem lookup_compact (h : Mapped w m l) (i j : ℕ) :
    (w.compact i).index.lookup j = if j ≤ i then none else w.index.lookup j := by
  have hlow {j : ℕ} (hj : j = 0 ∨ j < w.firstIndex) : w.index.lookup j = none := by
    refine AList.lookup_eq_none.mpr fun hmem ↦ ?_
    have := (h.mem_le hmem).1
    have := h.firstIndex_le hmem
    omega
  unfold OpenWal.compact
  by_cases hskip : i = 0 ∨ i < w.firstIndex
  · rw [if_pos hskip]
    split_ifs with hj
    · exact hlow (by omega)
    · rfl
  · obtain ⟨cur, hcur, -⟩ := h.exists_current
    rw [if_neg hskip, (deleteRange_eq (by omega) hcur).1, lookup_dropIndexes]
    by_cases hj : j < w.firstIndex
    · rw [hlow (.inr hj), ite_self, ite_self]
    · exact if_congr (and_iff_right (not_lt.mp hj)) rfl rfl

theorem compact_below (h : Mapped w m l) (hj : j ≤ i) : (w.compact i).get j = .error .notFound := by
  refine get_of_none ?_
  rw [h.lookup_compact, if_pos hj]

theorem le_max_dropIndexes (lo : ℕ) (hl : w.index.lookup j = some ie) (hij : hi < j) :
    j ≤ (w.dropIndexes lo hi).keys.foldl max 0 := by
  refine le_foldl_max.2 j (AList.mem_keys.mp (AList.lookup_isSome.mp ?_))
  rw [lookup_dropIndexes, if_neg (by omega), hl]
  rfl

theorem mem_compact (h : Mapped w m l) (hseg : seg ∈ w.segments)
    (hl : w.index.lookup j = some ie) (hb : seg.baseIndex = ie.baseIndex) (hij : i < j) :
    seg ∈ (w.compact i).segments := by
  unfold OpenWal.compact
  split_ifs with hskip
  · exact hseg
  · obtain ⟨cur, hcur, hsegs⟩ := h.exists_current
    have hlast := (h.mem_le (AList.lookup_isSome.mp (by rw [hl]; rfl))).2.2
    have hcov := (h.found j ie hl).2.2.1.1
    have hmax := le_max_dropIndexes w.firstIndex hl hij
    have hleft : seg ∈ w.segmentsLeft w.firstIndex i cur := by
      have hcut : w.cutCurrent w.firstIndex i cur = cur := by
        unfold cutCurrent
        rw [if_neg (by omega : ¬ w.lastIndex ≤ i), ite_self]
      unfold segmentsLeft
      dsimp only
      rw [hcut]
      rw [hsegs] at hseg
      rcases mem_append.mp hseg with hold | hseg
      · have hkeep := mem_filter.mpr ⟨hold, keepSegment_of_lookup hl hb (by omega :
          ¬(w.firstIndex ≤ j ∧ j ≤ i))⟩
        split_ifs
        · exact hkeep
        · exact mem_append_left _ hkeep
      · cases mem_singleton.mp hseg
        rw [if_neg (by omega)]
        exact mem_append_right _ (mem_singleton_self _)
    rwa [(deleteRange_eq (by omega) hcur).2.2 (ne_nil_of_mem hleft)]

theorem compact_above (h : Mapped w m l) (hmax : l < FileWal.maxUint64) (hij : i < j) :
    (w.compact i).get j = w.get j := by
  have hlook := h.lookup_compact i j
  rw [if_neg (by omega)] at hlook
  cases hl : w.index.lookup j with
  | none =>
    rw [hl] at hlook
    rw [get_of_none hlook, get_of_none hl]
  | some ie =>
    rw [hl] at hlook
    obtain ⟨-, -, -, seg, hseg, hb, -⟩ := h.found j ie hl
    rw [(h.compact i).get_of_lookup hmax hlook (h.mem_compact hseg hl hb hij) hb,
      h.get_of_lookup hmax hl hseg hb]

theorem lastIndex_compact (h : Mapped w m l) (hi : 0 < i) (hle : i ≤ w.lastIndex) :
    (w.compact i).lastIndex = w.lastIndex ↔ i < w.lastIndex := by
  have hc := h.compact i
  have hlast := h.last_mem (by omega)
  have hmem (j : ℕ) : j ∈ (w.compact i).index ↔ i < j ∧ j ∈ w.index := by
    rw [← AList.lookup_isSome, h.lookup_compact, ← AList.lookup_isSome]
    split_ifs with hj
    · exact iff_of_false Bool.false_ne_true (by omega)
    · exact (and_iff_right (not_le.mp hj)).symm
  refine ⟨fun heq ↦ ?_, fun hlt ↦ le_antisymm ?_ ?_⟩
  · have hpos : 0 < (w.compact i).lastIndex := by omega
    have := ((hmem _).mp (hc.last_mem hpos)).1
    omega
  · rcases Nat.eq_zero_or_pos (w.compact i).lastIndex with h0 | hpos
    · omega
    · exact (h.mem_le ((hmem _).mp (hc.last_mem hpos)).2).2.2
  · exact (hc.mem_le ((hmem _).mpr ⟨hlt, hlast⟩)).2.2

theorem exists_first (h : Mapped w m l) : ∃ seg ∈ w.segments, seg.baseIndex = w.firstIndex := by
  have hne := h.nonempty
  unfold firstIndex
  cases hs : w.segments with
  | nil => exact absurd hs hne
  | cons seg rest => exact ⟨seg, mem_cons_self, rfl⟩

theorem le_base_segmentsLeft (h : Mapped w m l) (hcur : w.segments.getLast? = some cur)
    (hseg : seg ∈ w.segments) (hb : seg.baseIndex = i + 1) {x : OpenSegment}
    (hx : x ∈ w.segmentsLeft w.firstIndex i cur) : i + 1 ≤ x.baseIndex := by
  rcases mem_segmentsLeft hx with ⟨hm, hkeep⟩ | ⟨rfl, -⟩
  · have hfirst := h.firstIndex_le_base (dropLast_subset _ hm)
    unfold keepSegment skips at hkeep
    simp only [Bool.or_eq_true, decide_eq_true_eq, any_eq_true, Bool.not_eq_true',
      Bool.and_eq_false_iff, decide_eq_false_iff_not] at hkeep
    rcases hkeep with (hlt | hlt) | ⟨j, hj, hout⟩
    · exact hlt
    · omega
    · obtain ⟨je, hje, hjb⟩ := mem_owned.mp hj
      have hge := h.firstIndex_le (AList.lookup_isSome.mp (by rw [hje]; rfl))
      have hcov := (h.found j je hje).2.2.1.2 seg hseg
      omega
  · rw [cutCurrent_baseIndex, ← hb]
    exact h.base_le_current (dropLast_append_getLast? cur hcur).symm hseg

theorem exists_segmentsLeft (lo : ℕ) (hcur : w.segments.getLast? = some cur)
    (hseg : seg ∈ w.segments) (hb : hi < seg.baseIndex) (hl : w.index.lookup j = some ie)
    (hj : seg.baseIndex ≤ j) :
    ∃ x ∈ w.segmentsLeft lo hi cur, x.baseIndex = seg.baseIndex := by
  have hmax := le_max_dropIndexes lo hl (hb.trans_le hj)
  have hskip : w.keepSegment lo hi seg = true := by
    unfold keepSegment skips
    rw [decide_eq_true hb, Bool.true_or, Bool.true_or]
  unfold segmentsLeft
  dsimp only
  rw [(dropLast_append_getLast? cur hcur).symm] at hseg
  rcases mem_append.mp hseg with hold | hseg
  · have hkeep := mem_filter.mpr ⟨hold, hskip⟩
    refine ⟨seg, ?_, rfl⟩
    split_ifs
    · exact hkeep
    · exact mem_append_left _ hkeep
  · cases mem_singleton.mp hseg
    rw [if_neg (by omega)]
    exact ⟨_, mem_append_right _ (mem_singleton_self _), cutCurrent_baseIndex w lo hi _⟩

theorem firstIndex_compact (h : Mapped w m l) (hi : 0 < i) (hlt : i < w.lastIndex) :
    (w.compact i).firstIndex = i + 1 ↔ ∃ seg ∈ w.segments, seg.baseIndex = i + 1 := by
  by_cases hskip : i < w.firstIndex
  · have hsame : w.compact i = w := if_pos (.inr hskip)
    rw [hsame]
    constructor
    · intro heq
      rw [← heq]
      exact h.exists_first
    · rintro ⟨seg, hseg, hb⟩
      have := h.firstIndex_le_base hseg
      omega
  · obtain ⟨cur, hcur, -⟩ := h.exists_current
    obtain ⟨ie, hie⟩ :=
      Option.isSome_iff_exists.mp (AList.lookup_isSome.mpr (h.last_mem (by omega)))
    have hdel : w.compact i = w.deleteRange w.firstIndex i := if_neg (by omega)
    have hc := h.compact i
    rw [hdel] at hc ⊢
    have hleft : (w.deleteRange w.firstIndex i).segments = w.segmentsLeft w.firstIndex i cur := by
      have hout : ¬(w.firstIndex ≤ w.lastIndex ∧ w.lastIndex ≤ i) := by omega
      obtain ⟨x, hx, -⟩ := h.found_segmentsLeft hcur hie hout
      exact (deleteRange_eq (by omega) hcur).2.2 (ne_nil_of_mem hx)
    obtain ⟨x, hx, hxb⟩ := hc.exists_first
    rw [hleft] at hx
    constructor
    · intro heq
      obtain ⟨y, hy, hyb⟩ := base_segmentsLeft hcur hx
      exact ⟨y, hy, by omega⟩
    · rintro ⟨seg, hseg, hb⟩
      have hlow : i < seg.baseIndex := by omega
      obtain ⟨y, hy, hyb⟩ := exists_segmentsLeft w.firstIndex hcur hseg hlow hie (by omega)
      have hle := h.le_base_segmentsLeft hcur hseg hb hx
      have hge := hc.firstIndex_le_base (hleft ▸ hy)
      omega

end Mapped

namespace History

/-- Compaction is by the law exactly if it does not take the last entry and goes to the end of a
segment: the first index of the log is the base of its first segment, and the last index is the
highest one that is left. -/
theorem compactLaw_iff {h : History} {ops : List Op} (hs : empty.steps ops = some h) (hi : 0 < i)
    (hle : i ≤ h.wal.lastIndex) : h.wal.CompactLaw i ↔
      i < h.wal.lastIndex ∧ ∃ seg ∈ h.wal.segments, seg.baseIndex = i + 1 := by
  have hh := sound_empty.steps hs
  constructor
  · intro law
    have hlt := (hh.mapped.lastIndex_compact hi hle).mp law.last
    exact ⟨hlt, (hh.mapped.firstIndex_compact hi hlt).mp law.first⟩
  · rintro ⟨hlt, hseg⟩
    exact ⟨(hh.mapped.lastIndex_compact hi hle).mpr hlt,
      fun j hj ↦ hh.mapped.compact_above hh.last_lt hj, fun j hj ↦ hh.mapped.compact_below hj,
      (hh.mapped.firstIndex_compact hi hlt).mpr hseg⟩

theorem appendEntry_full {r : LogRecord} (hr : segmentSize ≤ r.data.length) :
    OpenWal.empty.appendEntry r = ⟨[OpenSegment.write ⟨0, [], 0, 0⟩ r.encodeRecord,
      ⟨r.index.toNat + 1, [], 0, 0⟩], AList.insert r.index.toNat ⟨0, 0⟩ ∅, r.index.toNat⟩ := by
  have hfull : segmentSize ≤ (OpenSegment.write ⟨0, [], 0, 0⟩ r.encodeRecord).size := by
    change segmentSize ≤ 0 + r.encodeRecord.length
    rw [LogRecord.length_encodeRecord]
    omega
  exact if_pos hfull

/-- The first entry fills its segment, and compaction takes just this segment. -/
theorem compactLaw_rotated : ∃ (data : Bytes) (h : History),
    empty.steps [.append [record 1 data, record 2 []]] = some h ∧ h.wal.CompactLaw 1 := by
  obtain ⟨data, hdata⟩ : ∃ data : Bytes, data.length = segmentSize :=
    ⟨_, length_replicate (a := 0)⟩
  have hrun : empty.steps [.append [record 1 data, record 2 []]] =
      some ⟨(OpenWal.empty.appendEntry (record 1 data)).appendEntry (record 2 []), _, _⟩ := rfl
  have hlaw := compactLaw_iff (i := 1) hrun (by decide)
  rw [appendEntry_full (r := record 1 data) hdata.ge] at hrun hlaw
  exact ⟨data, _, hrun, (hlaw (by decide : 1 ≤ 2)).mpr ⟨(by decide : 1 < 2), _,
    mem_cons_of_mem _ (mem_singleton_self _), rfl⟩⟩

/-- Three entries in one segment: the first index stays, and if all three are compacted, the last
index is lost. -/
theorem compact_in_segment : ∃ h,
    empty.steps [.append [record 1 [], record 2 [], record 3 []]] = some h ∧
      h.wal.lastIndex = 3 ∧ (h.wal.compact 2).firstIndex = 0 ∧ (h.wal.compact 3).lastIndex = 0 ∧
      ¬ h.wal.CompactLaw 2 ∧ ¬ h.wal.CompactLaw 3 := by
  have hrun : (empty.steps [.append [record 1 [], record 2 [], record 3 []]]).map (fun h ↦
      (h.wal.lastIndex, (h.wal.compact 2).firstIndex, (h.wal.compact 3).lastIndex)) =
        some (3, 0, 0) := by decide +kernel
  obtain ⟨h, hh, he⟩ := Option.map_eq_some_iff.mp hrun
  simp only [Prod.mk.injEq] at he
  refine ⟨h, hh, he.1, he.2.1, he.2.2, fun law ↦ ?_, fun law ↦ ?_⟩
  · have := law.first
    omega
  · have := law.last
    omega

end History

end RaftConsensus.OpenWal
