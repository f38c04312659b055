import RaftConsensus.Wal.OpenFiles

namespace RaftConsensus

open LogRecord List AList Function

namespace OpenWal

variable {w : OpenWal} {m : ℕ → Option LogRecord} {l i j lo hi : ℕ} {r : LogRecord}
  {ie je : Wal.IndexEntry} {seg cur : OpenSegment}

def Stored (seg : OpenSegment) (offset : ℕ) (r : LogRecord) : Prop :=
  offset ≤ seg.content.length ∧ r.encodeRecord <+: seg.content.drop offset

/-- The segment owns index `i`: it begins at or below it, and every later one above it. -/
def Covers (segments : List OpenSegment) (base i : ℕ) : Prop :=
  base ≤ i ∧ ∀ x ∈ segments, base < x.baseIndex → i < x.baseIndex

/-- The log serves the map `m`, whose keys are at most `l`: every live index leads to its record in
a file, the records of one file lie one behind the other, and the cursor is at the end of each. -/
structure Mapped (w : OpenWal) (m : ℕ → Option LogRecord) (l : ℕ) : Prop where
  nonempty : w.segments ≠ []
  ascending : w.segments.Pairwise (·.baseIndex < ·.baseIndex)
  base_le : ∀ seg ∈ w.segments, seg.baseIndex ≤ l + 1
  atEnd : ∀ seg ∈ w.segments, seg.cursor = seg.content.length ∧ seg.size = seg.content.length
  found : ∀ i ie, w.index.lookup i = some ie → 0 < i ∧ i ≤ l ∧ Covers w.segments ie.baseIndex i ∧
    ∃ seg ∈ w.segments, seg.baseIndex = ie.baseIndex ∧
      ∃ r, m i = some r ∧ r.index.toNat = i ∧ Stored seg ie.offset r
  order : ∀ i j ie je r, w.index.lookup i = some ie → w.index.lookup j = some je →
    ie.baseIndex = je.baseIndex → i < j → m i = some r →
    ie.offset + r.encodeRecord.length ≤ je.offset
  missing : ∀ i, w.index.lookup i = none → m i = none
  last : w.lastIndex = w.index.keys.foldl max 0

theorem Stored.le (h : Stored seg i r) : i + r.encodeRecord.length ≤ seg.content.length := by
  have hlen := h.2.length_le
  rw [length_drop] at hlen
  have := h.1
  omega

theorem Stored.write (h : Stored seg i r) (data : Bytes) : Stored (seg.write data) i r := by
  refine ⟨h.1.trans ?_, ?_⟩
  · change _ ≤ (seg.content ++ data).length
    rw [length_append]
    omega
  · change _ <+: (seg.content ++ data).drop i
    rw [drop_append_of_le_length h.1]
    exact h.2.trans (prefix_append _ _)

theorem stored_write (seg : OpenSegment) (r : LogRecord) :
    Stored (seg.write r.encodeRecord) seg.content.length r := by
  refine ⟨?_, ?_⟩
  · change _ ≤ (seg.content ++ r.encodeRecord).length
    rw [length_append]
    omega
  · change _ <+: (seg.content ++ r.encodeRecord).drop seg.content.length
    rw [drop_left]

theorem Stored.take (h : Stored seg i r) {k : ℕ} (hk : i + r.encodeRecord.length ≤ k) :
    r.encodeRecord <+: (seg.content.take k).drop i := by
  rw [drop_take]
  exact prefix_take_iff.mpr ⟨h.2, by omega⟩

namespace Mapped

theorem empty : Mapped .empty (fun _ ↦ none) 0 where
  nonempty := nofun
  ascending := pairwise_singleton _ _
  base_le seg hseg := by
    cases mem_singleton.mp hseg
    exact Nat.zero_le _
  atEnd seg hseg := by
    cases mem_singleton.mp hseg
    exact ⟨rfl, rfl⟩
  found := nofun
  order := nofun
  missing _ _ := rfl
  last := rfl

theorem exists_current (h : Mapped w m l) : ∃ cur, w.segments.getLast? = some cur ∧
    w.segments = w.segments.dropLast ++ [cur] := by
  have hne := h.nonempty
  exact ⟨_, getLast?_eq_some_getLast hne, (dropLast_append_getLast hne).symm⟩

theorem segment_unique (h : Mapped w m l) {x y : OpenSegment} (hx : x ∈ w.segments)
    (hy : y ∈ w.segments) (hb : x.baseIndex = y.baseIndex) : x = y :=
  eq_of_ascending h.ascending hx hy hb

theorem base_le_current (h : Mapped w m l) (hsegs : w.segments = w.segments.dropLast ++ [cur])
    (hseg : seg ∈ w.segments) : seg.baseIndex ≤ cur.baseIndex := by
  have hasc := h.ascending
  rw [hsegs] at hasc hseg
  rcases mem_append.mp hseg with hseg | hseg
  · exact ((pairwise_append.mp hasc).2.2 seg hseg cur (mem_singleton_self cur)).le
  · rw [mem_singleton.mp hseg]

theorem mem_le (h : Mapped w m l) (hi : i ∈ w.index) : 0 < i ∧ i ≤ l ∧ i ≤ w.lastIndex := by
  obtain ⟨ie, hie⟩ := Option.isSome_iff_exists.mp (lookup_isSome.mpr hi)
  obtain ⟨hpos, hle, -⟩ := h.found i ie hie
  refine ⟨hpos, hle, ?_⟩
  rw [h.last]
  exact le_foldl_max.2 i hi

theorem lt_upperBound (h : Covers w.segments (ie.baseIndex) i) (hmax : i < FileWal.maxUint64) :
    i < w.upperBoundForSegment ie.baseIndex := by
  refine FileWal.lt_foldl_min.mpr ⟨hmax, fun b hb ↦ ?_⟩
  obtain ⟨hb, hlt⟩ := mem_filter.mp hb
  obtain ⟨x, hx, rfl⟩ := mem_map.mp hb
  exact h.2 x hx (of_decide_eq_true hlt)

theorem readRecordAtBounded_eq (h : Stored seg i r) :
    readRecordAtBounded seg.content i seg.content.length = decodeRecord (seg.content.drop i) := by
  obtain ⟨tail, htail⟩ := h.2
  have hle := h.le
  have hlength := (r.header_encodeRecord tail).2.1
  rw [htail] at hlength
  rw [length_encodeRecord] at hle
  unfold readRecordAtBounded
  dsimp only
  rw [hlength, if_neg]
  have hmod := Nat.mod_le (r.data.length + 9) (2 ^ 32)
  omega

theorem get_of_lookup (h : Mapped w m l) (hmax : l < FileWal.maxUint64)
    (hi : w.index.lookup i = some ie) (hseg : seg ∈ w.segments)
    (hb : seg.baseIndex = ie.baseIndex) :
    w.get i = (decodeRecord (seg.content.drop ie.offset)).elim (.error .corruptLog) .ok := by
  obtain ⟨hpos, hle, hcov, x, hx, hxb, r, -, -, hst⟩ := h.found i ie hi
  cases h.segment_unique hx hseg (hxb.trans hb.symm)
  have hlast := (h.mem_le (lookup_isSome.mp (by rw [hi]; rfl))).2.2
  have hbound := lt_upperBound hcov (hle.trans_lt hmax)
  have hfind := find?_of_ascending h.ascending hseg
  rw [hb] at hfind
  unfold get getEntry
  rw [if_neg (by omega), hi]
  dsimp only
  rw [hfind]
  dsimp only
  rw [hb, if_neg (by have := hcov.1; omega), (h.atEnd seg hseg).2, readRecordAtBounded_eq hst]
  cases decodeRecord (seg.content.drop ie.offset) <;> rfl

theorem get_of_none (hi : w.index.lookup i = none) : w.get i = .error .notFound := by
  unfold get getEntry
  rw [hi]
  split_ifs <;> rfl

def writeEntry (w : OpenWal) (cur : OpenSegment) (r : LogRecord) : OpenWal where
  segments := w.segments.dropLast ++ [cur.write r.encodeRecord]
  index := w.index.insert r.index.toNat ⟨cur.baseIndex, cur.cursor⟩
  lastIndex := r.index.toNat

theorem writeEntry_mapped (h : Mapped w m l) (hcur : w.segments.getLast? = some cur)
    (hr : r.index.toNat = l + 1) :
    Mapped (writeEntry w cur r) (update m (l + 1) (some r)) (l + 1) := by
  have hsegs : w.segments = w.segments.dropLast ++ [cur] :=
    (dropLast_append_getLast? cur hcur).symm
  have hcurmem : cur ∈ w.segments := mem_of_getLast? hcur
  have hmem {seg : OpenSegment} (hs : seg ∈ (writeEntry w cur r).segments) :
      seg ∈ w.segments.dropLast ∨ seg = cur.write r.encodeRecord :=
    (mem_append.mp hs).imp_right mem_singleton.mp
  have hbase {seg : OpenSegment} (hs : seg ∈ (writeEntry w cur r).segments) :
      ∃ x ∈ w.segments, x.baseIndex = seg.baseIndex := by
    rcases hmem hs with hs | rfl
    · exact ⟨seg, dropLast_subset _ hs, rfl⟩
    · exact ⟨cur, hcurmem, rfl⟩
  have hlookup {i : ℕ} {ie : Wal.IndexEntry} (hi : (writeEntry w cur r).index.lookup i = some ie) :
      i = l + 1 ∧ ie = ⟨cur.baseIndex, cur.cursor⟩ ∨ i ≤ l ∧ w.index.lookup i = some ie := by
    unfold writeEntry at hi
    dsimp only at hi
    rw [hr] at hi
    by_cases hie : i = l + 1
    · rw [hie, lookup_insert] at hi
      exact .inl ⟨hie, (Option.some.inj hi).symm⟩
    · rw [lookup_insert_ne hie] at hi
      exact .inr ⟨(h.found i ie hi).2.1, hi⟩
  have hold {i : ℕ} (hi : i ≤ l) : update m (l + 1) (some r) i = m i :=
    update_of_ne (by omega) _ _
  obtain ⟨hcursor, hsize⟩ := h.atEnd cur hcurmem
  refine ⟨append_ne_nil_of_right_ne_nil _ (by simp), ascending_replace h.ascending hcur rfl,
    ?_, ?_, ?_, ?_, ?_, ?_⟩
  · intro seg hs
    obtain ⟨x, hx, hb⟩ := hbase hs
    have := h.base_le x hx
    omega
  · intro seg hs
    rcases hmem hs with hs | rfl
    · exact h.atEnd seg (dropLast_subset _ hs)
    · unfold OpenSegment.write
      dsimp only
      rw [length_append, hsize]
      exact ⟨rfl, rfl⟩
  · intro i ie hi
    rcases hlookup hi with ⟨rfl, rfl⟩ | ⟨hle, hi⟩
    · refine ⟨Nat.succ_pos l, le_rfl, ⟨h.base_le cur hcurmem, fun x hx hbx ↦ ?_⟩, _,
        mem_append_right _ (mem_singleton_self _), rfl, r, update_self _ _ _, hr, ?_⟩
      · obtain ⟨y, hy, hby⟩ := hbase hx
        have := h.base_le_current hsegs hy
        dsimp only at hbx
        omega
      · dsimp only
        rw [hcursor]
        exact stored_write cur r
    · obtain ⟨hpos, -, hcov, seg, hseg, hb, x, hx, hxi, hst⟩ := h.found i ie hi
      refine ⟨hpos, by omega, ⟨hcov.1, fun y hy hby ↦ ?_⟩, ?_⟩
      · obtain ⟨z, hz, hbz⟩ := hbase hy
        have := hcov.2 z hz (by omega)
        omega
      · rw [hsegs] at hseg
        rcases mem_append.mp hseg with hseg | hseg
        · exact ⟨seg, mem_append_left _ hseg, hb, x, (hold hle).trans hx, hxi, hst⟩
        · cases mem_singleton.mp hseg
          exact ⟨_, mem_append_right _ (mem_singleton_self _), hb, x, (hold hle).trans hx, hxi,
            hst.write _⟩
  · intro i j ie je x hi hj hb hlt hx
    rcases hlookup hi with ⟨rfl, -⟩ | ⟨hle, hi⟩
    · rcases hlookup hj with ⟨rfl, -⟩ | ⟨hjl, -⟩ <;> omega
    · rw [hold hle] at hx
      rcases hlookup hj with ⟨rfl, rfl⟩ | ⟨-, hj⟩
      · obtain ⟨-, -, -, seg, hseg, hsb, y, hy, -, hst⟩ := h.found i ie hi
        rw [hx] at hy
        cases hy
        cases h.segment_unique hseg hcurmem (hsb.trans hb)
        dsimp only
        rw [hcursor]
        exact hst.le
      · exact h.order i j ie je x hi hj hb hlt hx
  · intro i hi
    unfold writeEntry at hi
    dsimp only at hi
    rw [hr] at hi
    by_cases hie : i = l + 1
    · rw [hie, lookup_insert] at hi
      cases hi
    · rw [lookup_insert_ne hie] at hi
      rw [update_of_ne hie]
      exact h.missing i hi
  · change r.index.toNat = (w.index.insert r.index.toNat
      ⟨cur.baseIndex, cur.cursor⟩).keys.foldl max 0
    rw [hr]
    have hself : l + 1 ∈ (w.index.insert (l + 1) ⟨cur.baseIndex, cur.cursor⟩).keys :=
      mem_keys.mp ((mem_insert _).mpr (.inl rfl))
    refine le_antisymm (le_foldl_max.2 _ hself) ?_
    rcases foldl_max_mem (m := 0) (l := (w.index.insert (l + 1) ⟨cur.baseIndex, cur.cursor⟩).keys)
      with h0 | hm
    · omega
    · rcases (mem_insert _).mp (mem_keys.mpr hm) with heq | hm
      · exact heq.le
      · have := (h.mem_le hm).2.1
        omega

theorem createNewSegment (h : Mapped w m l) (hl : w.lastIndex = l)
    (hb : ∀ seg ∈ w.segments, seg.baseIndex ≤ l) :
    Mapped (w.createNewSegment (w.lastIndex + 1)) m l := by
  have hmem {seg : OpenSegment} (hs : seg ∈ (w.createNewSegment (w.lastIndex + 1)).segments) :
      seg ∈ w.segments ∨ seg = ⟨l + 1, [], 0, 0⟩ := by
    rw [← hl]
    exact (mem_append.mp hs).imp_right mem_singleton.mp
  refine ⟨append_ne_nil_of_right_ne_nil _ (by simp), ?_, ?_, ?_, ?_, h.order, h.missing, h.last⟩
  · refine pairwise_append.mpr ⟨h.ascending, pairwise_singleton _ _, fun a ha b hb' ↦ ?_⟩
    cases mem_singleton.mp hb'
    have := hb a ha
    change a.baseIndex < w.lastIndex + 1
    omega
  · intro seg hs
    rcases hmem hs with hs | rfl
    · exact h.base_le seg hs
    · exact le_rfl
  · intro seg hs
    rcases hmem hs with hs | rfl
    · exact h.atEnd seg hs
    · exact ⟨rfl, rfl⟩
  · intro i ie hi
    obtain ⟨hpos, hle, hcov, seg, hseg, hx⟩ := h.found i ie hi
    refine ⟨hpos, hle, ⟨hcov.1, fun x hx hbx ↦ ?_⟩, seg, mem_append_left _ hseg, hx⟩
    rcases hmem hx with hx | rfl
    · exact hcov.2 x hx hbx
    · exact Nat.lt_succ_of_le hle

theorem appendEntry (h : Mapped w m l) (hr : r.index.toNat = l + 1) :
    Mapped (w.appendEntry r) (update m (l + 1) (some r)) (l + 1) := by
  obtain ⟨cur, hcur, -⟩ := h.exists_current
  have hwrite := writeEntry_mapped h hcur hr
  unfold OpenWal.appendEntry
  rw [hcur]
  dsimp only
  split_ifs
  · refine createNewSegment hwrite hr fun seg hs ↦ ?_
    rcases mem_append.mp hs with hs | hs
    · exact h.base_le seg (dropLast_subset _ hs)
    · cases mem_singleton.mp hs
      exact h.base_le cur (mem_of_getLast? hcur)
  · exact hwrite

end Mapped

end OpenWal

end RaftConsensus
