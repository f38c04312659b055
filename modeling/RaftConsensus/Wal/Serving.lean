import RaftConsensus.Wal.Deleting
import RaftConsensus.Scripts

namespace RaftConsensus.OpenWal

open LogRecord List Function

variable {w : OpenWal} {m : ℕ → Option LogRecord} {l i lo hi : ℕ} {r : LogRecord}
  {seg : OpenSegment}

namespace Mapped

theorem firstIndex_le_base (h : Mapped w m l) (hseg : seg ∈ w.segments) :
    w.firstIndex ≤ seg.baseIndex := by
  have hasc := h.ascending
  unfold firstIndex
  split
  · exact Nat.zero_le _
  · rename_i x rest hx
    rw [hx] at hseg hasc
    rcases mem_cons.mp hseg with rfl | hseg
    · exact le_rfl
    · exact ((pairwise_cons.mp hasc).1 seg hseg).le

theorem firstIndex_le (h : Mapped w m l) (hi : i ∈ w.index) : w.firstIndex ≤ i := by
  obtain ⟨ie, hie⟩ := Option.isSome_iff_exists.mp (AList.lookup_isSome.mpr hi)
  obtain ⟨-, -, hcov, seg, hseg, hb, -⟩ := h.found i ie hie
  have := h.firstIndex_le_base hseg
  have := hcov.1
  omega

theorem eq_none (h : Mapped w m l) (hi : i ∉ w.index) : m i = none :=
  h.missing i (AList.lookup_eq_none.mpr hi)

theorem compact (h : Mapped w m l) (k : ℕ) :
    Mapped (w.compact k) (fun j ↦ if j ≤ k then none else m j) l := by
  have hlow {j : ℕ} (hj : j = 0 ∨ j < w.firstIndex) : m j = none := by
    refine h.eq_none fun hmem ↦ ?_
    have := (h.mem_le hmem).1
    have := h.firstIndex_le hmem
    omega
  unfold OpenWal.compact
  split_ifs with hskip
  · have hsame : (fun j ↦ if j ≤ k then none else m j) = m := by
      funext j
      split_ifs with hj
      · exact (hlow (by omega)).symm
      · rfl
    rwa [hsame]
  · obtain ⟨cur, hcur, -⟩ := h.exists_current
    have hbase : ∀ seg ∈ w.segmentsLeft w.firstIndex k cur, seg.baseIndex ≤ l + 1 := by
      intro seg hseg
      obtain ⟨x, hx, hb⟩ := base_segmentsLeft hcur hseg
      exact hb ▸ h.base_le x hx
    have hdel := h.deleteRange (by omega : w.firstIndex ≤ k) hcur hbase
      fun j hj _ ↦ (h.mem_le hj).2.1
    have hsame : (fun j ↦ if w.firstIndex ≤ j ∧ j ≤ k then none else m j) =
        fun j ↦ if j ≤ k then none else m j := by
      funext j
      by_cases hj : j < w.firstIndex
      · rw [hlow (.inr hj), ite_self, ite_self]
      · exact if_congr (and_iff_right (not_lt.mp hj)) rfl rfl
    rwa [hsame] at hdel

theorem base_deleteTail (h : Mapped w m l) (hl : l ≤ hi) {cur : OpenSegment}
    (hcur : w.segments.getLast? = some cur) (hseg : seg ∈ w.segmentsLeft lo hi cur) :
    seg.baseIndex = 0 ∨ seg.baseIndex < lo := by
  have hlive {j : ℕ} (hj : j ∈ w.index) (hout : ¬(lo ≤ j ∧ j ≤ hi)) : j < lo := by
    have := (h.mem_le hj).2.1
    omega
  rcases mem_segmentsLeft hseg with ⟨hm, hkeep⟩ | ⟨rfl, hbase⟩
  · have hbl : seg.baseIndex ≤ l := by
      have hlt := lt_last_of_ascending h.ascending hcur hm
      have := h.base_le cur (mem_of_getLast? hcur)
      omega
    unfold keepSegment skips at hkeep
    simp only [Bool.or_eq_true, decide_eq_true_eq, any_eq_true, Bool.not_eq_true',
      Bool.and_eq_false_iff, decide_eq_false_iff_not] at hkeep
    rcases hkeep with (hlt | hlt) | ⟨j, hj, hout⟩
    · omega
    · omega
    · obtain ⟨ie, hie, hb⟩ := mem_owned.mp hj
      have hcov := (h.found j ie hie).2.2.1.1
      have := hlive (AList.lookup_isSome.mp (by rw [hie]; rfl)) (by omega)
      omega
  · rw [cutCurrent_baseIndex]
    rcases foldl_max_mem (m := 0) (l := (w.dropIndexes lo hi).keys) with h0 | hmem
    · omega
    · have hsome := AList.lookup_isSome.mpr (AList.mem_keys.mpr hmem)
      rw [lookup_dropIndexes] at hsome
      split_ifs at hsome with hout
      · cases hsome
      · have := hlive (AList.lookup_isSome.mp hsome) hout
        omega

theorem deleteTail (h : Mapped w m l) (lo hi : ℕ) :
    Mapped (w.deleteRange lo hi) (fun j ↦ if lo ≤ j ∧ j ≤ hi then none else m j)
      (if l ≤ hi then min l (lo - 1) else l) := by
  rcases lt_or_ge hi lo with hlt | hle
  · have hsame : (fun j ↦ if lo ≤ j ∧ j ≤ hi then none else m j) = m :=
      funext fun j ↦ if_neg (by omega)
    have hnone : w.deleteRange lo hi = w := if_pos hlt
    rw [hsame, hnone]
    split_ifs with hl
    · rwa [min_eq_left (by omega)]
    · exact h
  · obtain ⟨cur, hcur, -⟩ := h.exists_current
    refine h.deleteRange hle hcur (fun seg hseg ↦ ?_) fun j hj hout ↦ ?_
    · obtain ⟨x, hx, hb⟩ := base_segmentsLeft hcur hseg
      have := h.base_le x hx
      split_ifs with hl
      · have := h.base_deleteTail hl hcur hseg
        omega
      · omega
    · have := (h.mem_le hj).2.1
      split_ifs <;> omega

theorem append {records : List LogRecord} (h : Mapped w m l)
    (hr : records.map (·.index.toNat) = range' (l + 1) records.length) :
    Mapped (records.foldl OpenWal.appendEntry w)
      (records.foldl (fun m r ↦ update m r.index.toNat (some r)) m) (l + records.length) := by
  induction records generalizing w m l with
  | nil => exact h
  | cons r rest ih =>
    rw [map_cons, length_cons, range'_succ, List.cons.injEq] at hr
    have hrest := ih (h.appendEntry hr.1) hr.2
    rw [foldl_cons, foldl_cons, length_cons, hr.1]
    rwa [Nat.add_right_comm, Nat.add_assoc] at hrest

/-- What is served for an index is right exactly if the record of the map can be read back. -/
theorem get_iff (h : Mapped w m l) (hmax : l < FileWal.maxUint64) (i : ℕ) :
    w.get i = (m i).elim (.error .notFound) .ok ↔ ∀ r, m i = some r → r.Fits := by
  cases hi : w.index.lookup i with
  | none =>
    rw [get_of_none hi, h.missing i hi]
    exact iff_of_true rfl fun r hr ↦ by cases hr
  | some ie =>
    obtain ⟨-, -, -, seg, hseg, hb, r, hr, -, -, tail, htail⟩ := h.found i ie hi
    rw [h.get_of_lookup hmax hi hseg hb, hr, ← htail]
    by_cases hfit : r.Fits
    · rw [decodeRecord_encodeRecord hfit]
      exact iff_of_true rfl fun x hx ↦ Option.some.inj hx ▸ hfit
    · refine iff_of_false (fun heq ↦ ?_) fun hall ↦ hfit (hall r rfl)
      cases hd : decodeRecord (r.encodeRecord ++ tail) with
      | none =>
        rw [hd] at heq
        cases heq
      | some x =>
        rw [hd] at heq
        cases Except.ok.inj heq
        exact decodeRecord_ne hfit tail hd

end Mapped

/-- An open log with the map it stands for: what was appended last at an index and has not been
deleted since; `last` is the index of the last entry of the log, compacted or not. -/
structure History where
  wal : OpenWal
  entries : ℕ → Option LogRecord
  last : ℕ

namespace History

variable {h h' : History}

inductive Op
  | append (records : List LogRecord)
  | deleteRange (lo hi : ℕ)
  | compact (index : ℕ)

def empty : History := ⟨.empty, fun _ ↦ none, 0⟩

/-- Appends continue the log with contiguous indices, of which the largest one is not used, and
deletions go to the end of what is there. -/
def step (h : History) : Op → Option History
  | .append records =>
    if records.map (·.index.toNat) = range' (h.last + 1) records.length ∧
        h.last + records.length < FileWal.maxUint64 then
      some ⟨records.foldl appendEntry h.wal,
        records.foldl (fun m r ↦ Function.update m r.index.toNat (some r)) h.entries,
        h.last + records.length⟩
    else none
  | .deleteRange lo hi =>
    if h.wal.lastIndex ≤ hi then
      some ⟨h.wal.deleteRange lo hi, fun i ↦ if lo ≤ i ∧ i ≤ hi then none else h.entries i,
        if h.last ≤ hi then min h.last (lo - 1) else h.last⟩
    else none
  | .compact index =>
    some ⟨h.wal.compact index, fun i ↦ if i ≤ index then none else h.entries i, h.last⟩

def steps : History → List Op → Option History := Script.run step

structure Sound (h : History) : Prop where
  mapped : h.wal.Mapped h.entries h.last
  last_lt : h.last < FileWal.maxUint64

theorem sound_empty : empty.Sound := ⟨.empty, by decide⟩

theorem Sound.step {op : Op} (hh : h.Sound) (hs : h.step op = some h') : h'.Sound := by
  cases op with
  | append records =>
    simp only [History.step, Option.ite_none_right_eq_some, Option.some.injEq] at hs
    obtain ⟨⟨hr, hlt⟩, rfl⟩ := hs
    exact ⟨hh.mapped.append hr, hlt⟩
  | deleteRange lo hi =>
    simp only [History.step, Option.ite_none_right_eq_some, Option.some.injEq] at hs
    obtain ⟨-, rfl⟩ := hs
    refine ⟨hh.mapped.deleteTail lo hi, ?_⟩
    have := hh.last_lt
    dsimp only
    split_ifs <;> omega
  | compact index =>
    cases hs
    exact ⟨hh.mapped.compact index, hh.last_lt⟩

theorem Sound.steps {ops : List Op} (hh : h.Sound) (hs : h.steps ops = some h') : h'.Sound :=
  Script.invariant (fun _ _ _ hs hh ↦ hh.step hs) hs hh

def Serves (h : History) (i : ℕ) : Prop := h.wal.get i = (h.entries i).elim (.error .notFound) .ok

/-- An open log serves its map, but for a record whose data does not go into the length field. -/
theorem serves_iff {ops : List Op} (hs : empty.steps ops = some h) (i : ℕ) :
    h.Serves i ↔ ∀ r, h.entries i = some r → r.Fits :=
  have hh := sound_empty.steps hs
  hh.mapped.get_iff hh.last_lt i

def record (index : UInt64) (data : Bytes) : LogRecord := ⟨1, index, data, 0⟩

/-- Entry 2 is deleted and written again, behind what is left of the file. -/
def rewritten : List Op :=
  [.append [record 1 [1], record 2 [2], record 3 [3]], .deleteRange 2 3, .append [record 2 [4]],
    .compact 1]

theorem serves_rewritten : ∃ h, empty.steps rewritten = some h ∧
    h.entries 2 = some (record 2 [4]) ∧ h.Serves 1 ∧ h.Serves 2 ∧ h.Serves 3 := by
  have hrun : (empty.steps rewritten).map (fun h ↦ (h.entries 1, h.entries 2, h.entries 3)) =
      some (none, some (record 2 [4]), none) := by decide +kernel
  obtain ⟨h, hh, he⟩ := Option.map_eq_some_iff.mp hrun
  simp only [Prod.mk.injEq] at he
  refine ⟨h, hh, he.2.1, (serves_iff hh 1).mpr fun r hr ↦ ?_, (serves_iff hh 2).mpr fun r hr ↦ ?_,
    (serves_iff hh 3).mpr fun r hr ↦ ?_⟩
  · rw [he.1] at hr
    cases hr
  · rw [he.2.1] at hr
    cases hr
    decide
  · rw [he.2.2] at hr
    cases hr

/-- The length field of an entry of four gigabytes is that of an empty one. -/
theorem oversized_unserved : ∃ (data : Bytes) (h : History), data.length = 2 ^ 32 ∧
    empty.steps [.append [record 1 data]] = some h ∧ h.entries 1 = some (record 1 data) ∧
      ¬ h.Serves 1 := by
  obtain ⟨data, hdata⟩ : ∃ data : Bytes, data.length = 2 ^ 32 := ⟨_, length_replicate (a := 0)⟩
  have hfit : ¬ (record 1 data).Fits := by
    unfold Fits record
    dsimp only
    rw [hdata]
    decide
  have hstep : empty.steps [.append [record 1 data]] = some ⟨appendEntry .empty (record 1 data),
      update (fun _ ↦ none) 1 (some (record 1 data)), 1⟩ := rfl
  have hsound := sound_empty.steps hstep
  have hentry : update (fun _ ↦ none) 1 (some (record 1 data)) 1 = some (record 1 data) :=
    update_self _ _ _
  refine ⟨data, _, hdata, hstep, hentry, fun hserves ↦ hfit ?_⟩
  exact (hsound.mapped.get_iff hsound.last_lt 1).mp hserves _ hentry

end History

end RaftConsensus.OpenWal
