import RaftConsensus.Wal.Operations
import RaftConsensus.Wal.Recovery

namespace RaftConsensus

open LogRecord List AList

structure EntryCodec where
  toRecord : LogEntry → LogRecord
  index_toRecord : ∀ e, e.index < 2 ^ 64 → (toRecord e).index.toNat = e.index
  length_data : ∀ e, (toRecord e).data.length = e.size

namespace FileWal

section Append

variable (w : FileWal)

def createNewSegment (baseIndex : ℕ) : FileWal :=
  { w with segments := w.segments ++ [⟨baseIndex, []⟩] }

def appendEntry (r : LogRecord) : FileWal :=
  match w.segments.getLast? with
  | none => w
  | some cur =>
    let seg : SegmentFile := { cur with content := cur.content ++ r.encodeRecord }
    let w : FileWal :=
      { segments := w.segments.dropLast ++ [seg]
        index := w.index.insert r.index.toNat ⟨cur.baseIndex, cur.content.length⟩
        lastIndex := r.index.toNat }
    if segmentSize ≤ seg.content.length then w.createNewSegment (w.lastIndex + 1) else w

end Append

section Represents

variable (c : EntryCodec) {fw : FileWal} {w : Wal} {log : List LogEntry} {s i : ℕ}
  {seg : Wal.Segment} {segments : List Wal.Segment} {a b : Option Wal.IndexEntry}

def file (seg : Wal.Segment) : SegmentFile :=
  ⟨seg.baseIndex, encodeAll (seg.records.map c.toRecord)⟩

/-- Two entries of the index name the same record of a segment, the one by its offset in bytes and
the other by its number. -/
inductive Placed (segments : List Wal.Segment) :
    Option Wal.IndexEntry → Option Wal.IndexEntry → Prop
  | none : Placed segments none none
  | some {seg : Wal.Segment} {k : ℕ} (hseg : seg ∈ segments) (hk : k ≤ seg.records.length) :
    Placed segments
      (some ⟨seg.baseIndex, (encodeAll ((seg.records.take k).map c.toRecord)).length⟩)
      (some ⟨seg.baseIndex, k⟩)

structure Represents (fw : FileWal) (w : Wal) : Prop where
  segments : fw.segments = w.segments.map (file c)
  lastIndex : fw.lastIndex = w.lastIndex
  lookup : ∀ i, Placed c w.segments (fw.index.lookup i) (w.index.lookup i)

structure Writable (log : List LogEntry) : Prop where
  length_lt : log.length < maxUint64
  fits : ∀ e ∈ log, (c.toRecord e).Fits

variable {c}

theorem Placed.mono (h : Placed c segments a b) {segments' : List Wal.Segment}
    (hs : ∀ seg ∈ segments, ∃ seg' ∈ segments', seg'.baseIndex = seg.baseIndex ∧
      seg.records <+: seg'.records) : Placed c segments' a b := by
  cases h with
  | none => exact .none
  | @some seg k hseg hk =>
    obtain ⟨seg', hseg', hb, t, ht⟩ := hs seg hseg
    have htake : seg.records.take k = seg'.records.take k := by
      rw [← ht, take_append_of_le_length hk]
    rw [← hb, htake]
    refine .some hseg' ?_
    rw [← ht, length_append]
    omega

theorem length_file (c : EntryCodec) (seg : Wal.Segment) :
    (file c seg).content.length = seg.size := by
  unfold file Wal.Segment.size
  dsimp only
  induction seg.records with
  | nil => rfl
  | cons e rest ih =>
    rw [map_cons, encodeAll_cons, length_append, length_encodeRecord, c.length_data, ih,
      map_cons, sum_cons]

theorem lt_foldl_min {l : List ℕ} {n : ℕ} : i < l.foldl min n ↔ i < n ∧ ∀ b ∈ l, i < b := by
  induction l generalizing n with
  | nil => simp
  | cons x l ih =>
    rw [foldl_cons, ih, lt_min_iff, and_assoc]
    simp

theorem Represents.lt_upperBound (h : Represents c fw w) (hh : w.Holds log s) {e : LogEntry}
    (hseg : seg ∈ w.segments) (he : e ∈ seg.records) (hmax : e.index < maxUint64) :
    e.index < fw.upperBoundForSegment seg.baseIndex := by
  refine lt_foldl_min.mpr ⟨hmax, fun b hb ↦ ?_⟩
  obtain ⟨hb, hlt⟩ := mem_filter.mp hb
  rw [h.segments, map_map] at hb
  obtain ⟨x, hx, rfl⟩ := mem_map.mp hb
  have hlt : seg.baseIndex < x.baseIndex := of_decide_eq_true hlt
  rcases hh.before_or hseg hx with hbx | rfl | hbx
  · exact hbx.2 e he
  · omega
  · exact absurd hbx.1 hlt.asymm

theorem decodeRecord_file {k : ℕ} {e : LogEntry} (he : seg.records[k]? = some e)
    (hfit : (c.toRecord e).Fits) :
    decodeRecord ((file c seg).content.drop
      (encodeAll ((seg.records.take k).map c.toRecord)).length) = some (c.toRecord e) := by
  obtain ⟨hk, rfl⟩ := List.getElem?_eq_some_iff.mp he
  have hsplit : (file c seg).content = encodeAll ((seg.records.take k).map c.toRecord) ++
      ((c.toRecord seg.records[k]).encodeRecord ++
        encodeAll ((seg.records.drop (k + 1)).map c.toRecord)) := by
    rw [← encodeAll_cons, ← map_cons, ← drop_eq_getElem_cons hk, ← encodeAll_append,
      ← map_append, take_append_drop]
    rfl
  rw [hsplit, drop_left, decodeRecord_encodeRecord hfit]

theorem Represents.get (h : Represents c fw w) (hh : w.Holds log s) (hw : Writable c log) (i : ℕ) :
    (fw.get i).toOption = (w.get i).map c.toRecord := by
  have hplace := h.lookup i
  unfold FileWal.get
  cases hf : fw.index.lookup i with
  | none =>
    rw [hf] at hplace
    have hnone : w.index.lookup i = none := by
      generalize w.index.lookup i = b at hplace
      cases hplace
      rfl
    have hget : w.get i = none := by
      refine Option.eq_none_iff_forall_ne_some.mpr fun e he ↦ ?_
      exact lookup_eq_none.mp hnone (Wal.Holds.mem_of_get he)
    rw [hget]
    split_ifs <;> rfl
  | some ie =>
    rw [hf] at hplace
    generalize hl : w.index.lookup i = b at hplace
    cases hplace with
    | @some seg k hseg hk =>
      obtain ⟨e, hget, rfl, hpos, hlog⟩ := hh.get_of_lookup hl
      obtain ⟨x, hx, hb, y, hy, hyi⟩ := hh.found _ _ hl
      have hfx := hh.find_segment hx
      rw [hb, hh.find_segment hseg] at hfx
      cases hfx
      have hyrec := hh.record seg hseg y (mem_of_getElem? hy)
      have hye : y = e := by
        have := hyrec.2.2
        rw [hyi, hlog] at this
        exact (Option.some.inj this).symm
      subst hye
      have hle := hh.le_last (lookup_isSome.mp (by rw [hl]; rfl))
      have hfind : fw.segments.find? (·.baseIndex = seg.baseIndex) = some (file c seg) := by
        have hcomp : ((fun f : SegmentFile ↦ decide (f.baseIndex = seg.baseIndex)) ∘ file c) =
            fun x ↦ decide (x.baseIndex = seg.baseIndex) := rfl
        rw [h.segments, find?_map, hcomp, hh.find_segment hseg]
        rfl
      have hmem := mem_of_getElem? hy
      have hlen := (hh.index_le hseg hmem).trans_lt hw.length_lt
      have hbound := h.lt_upperBound hh hseg hmem hlen
      have hread := decodeRecord_file hy (hw.fits _ (mem_of_getElem? hlog))
      rw [h.lastIndex, if_neg (by omega), hget]
      dsimp only
      rw [hfind]
      dsimp only
      rw [hread, if_neg]
      · rfl
      · change ¬(y.index < seg.baseIndex ∨ fw.upperBoundForSegment seg.baseIndex ≤ y.index)
        omega

theorem Represents.appendEntry (h : Represents c fw w) (hh : w.Holds log s) {e : LogEntry}
    (he : e.index < 2 ^ 64) :
    Represents c (fw.appendEntry (c.toRecord e)) (w.appendEntry e) := by
  obtain ⟨cur, hcur, hsegs⟩ := hh.exists_current
  have hfcur : fw.segments.getLast? = some (file c cur) := by
    rw [h.segments, getLast?_map, hcur]
    rfl
  let cur' : Wal.Segment := { cur with records := cur.records ++ [e] }
  have hfile : file c cur' =
      ⟨cur.baseIndex, (file c cur).content ++ (c.toRecord e).encodeRecord⟩ := by
    simp [file, cur', encodeAll]
  have hsize : ((file c cur).content ++ (c.toRecord e).encodeRecord).length = cur'.size := by
    rw [← length_file c cur', hfile]
  have hold : fw.segments.dropLast ++
      [⟨cur.baseIndex, (file c cur).content ++ (c.toRecord e).encodeRecord⟩] =
      (w.segments.dropLast ++ [cur']).map (file c) := by
    rw [h.segments, map_append, map_dropLast, ← hfile]
    rfl
  have hindex {segments : List Wal.Segment}
      (hsub : w.segments.dropLast ++ [cur'] ⊆ segments) (i : ℕ) : Placed c segments
        ((fw.index.insert (c.toRecord e).index.toNat
          ⟨cur.baseIndex, (file c cur).content.length⟩).lookup i)
        ((w.index.insert e.index ⟨cur.baseIndex, cur.records.length⟩).lookup i) := by
    have hmem : cur' ∈ segments := hsub (mem_append_right _ (mem_singleton_self _))
    rw [c.index_toRecord e he]
    by_cases hi : i = e.index
    · subst hi
      rw [lookup_insert, lookup_insert]
      have hplaced : Placed c segments _ (some ⟨cur'.baseIndex, cur.records.length⟩) :=
        .some hmem (by simp [cur'])
      rwa [show cur'.records.take cur.records.length = cur.records from take_left] at hplaced
    · rw [lookup_insert_ne hi, lookup_insert_ne hi]
      refine (h.lookup i).mono fun seg hseg ↦ ?_
      rw [hsegs] at hseg
      rcases mem_append.mp hseg with hseg | hseg
      · exact ⟨seg, hsub (mem_append_left _ hseg), rfl, prefix_rfl⟩
      · cases mem_singleton.mp hseg
        exact ⟨cur', hmem, rfl, prefix_append _ _⟩
  unfold FileWal.appendEntry Wal.appendEntry
  rw [hcur, hfcur]
  dsimp only
  by_cases hfull : segmentSize ≤ cur'.size
  · rw [if_pos (hsize ▸ hfull), if_pos hfull]
    refine ⟨?_, c.index_toRecord e he, hindex (subset_append_left _ _)⟩
    refine (congrArg (· ++ _) hold).trans ?_
    rw [c.index_toRecord e he]
    change _ = map (file c) (w.segments.dropLast ++ [cur'] ++ [⟨e.index + 1, []⟩])
    simp only [map_append]
    rfl
  · rw [if_neg (hsize ▸ hfull), if_neg hfull]
    exact ⟨hold, c.index_toRecord e he, hindex (List.Subset.refl _)⟩

end Represents

end FileWal

end RaftConsensus
