import RaftConsensus.Wal.Indexed
import RaftConsensus.Node

namespace RaftConsensus

open List Function

/-- How the calls for one record end: the write of it, and when it fills the segment the fsync of
that segment and the creation of the next one. A failed write may leave a part of its bytes in the
file; `torn` counts those that the size of the segment has come to include. -/
structure WriteCall where
  write : Bool
  sync : Bool
  create : Bool
  torn : ℕ

def WriteCall.fine (c : WriteCall) : Bool := c.write && c.sync && c.create

/-- The calls of one `Append`: those for each record, by its place in the batch, and the fsync at
the end. -/
structure AppendCalls where
  record : ℕ → WriteCall
  fsync : Bool

namespace AppendCalls

def fine (o : AppendCalls) (n : ℕ) : Bool :=
  (List.range n).all (fun k ↦ (o.record k).fine) && o.fsync

def clean (o : AppendCalls) (n : ℕ) : Bool := !(o.record 0).write || o.fine n

theorem clean_tail {o : AppendCalls} {n : ℕ} (h : o.clean (n + 1) = true) : o.clean n = true := by
  unfold clean fine at h ⊢
  rw [range_succ, all_append] at h
  simp only [Bool.or_eq_true, Bool.and_eq_true] at h ⊢
  exact h.imp_right fun hf ↦ ⟨hf.1.1, hf.2⟩

end AppendCalls

/-- A write-ahead log on files whose writes and fsyncs may fail. `synced base` counts the records
of a segment, from its start, that a successful fsync has covered. -/
structure UnsureWal where
  wal : Wal
  synced : ℕ → ℕ
  writeSeq : ℕ
  syncedSeq : ℕ

namespace UnsureWal

open Wal

variable {d d' : UnsureWal} {s l i : ℕ} {e : LogEntry} {c : WriteCall} {o : AppendCalls}
  {entries : List LogEntry}

def empty : UnsureWal := ⟨.empty, fun _ ↦ 0, 0, 0⟩

def cover (d : UnsureWal) : UnsureWal :=
  match d.wal.segments.getLast? with
  | none => d
  | some cur => { d with synced := Function.update d.synced cur.baseIndex cur.records.length }

def rotateSegment (d : UnsureWal) (c : WriteCall) : UnsureWal × Bool :=
  if !c.sync then (d, false)
  else if !c.create then (d.cover, false)
  else
    ({ d.cover with
      wal := d.wal.rotateSegment
      synced := Function.update d.cover.synced (d.wal.lastIndex + 1) 0 }, true)

/-- The record is in the index from here on, whatever the later calls report. -/
def appendEntry (d : UnsureWal) (e : LogEntry) (c : WriteCall) : UnsureWal × Bool :=
  if !c.write then (d, false)
  else
    match d.wal.segments.getLast? with
    | none => (d, true)
    | some cur =>
      let size := Segment.size { cur with records := cur.records ++ [e] }
      let d := { d with wal := d.wal.writeEntry cur e }
      if segmentSize ≤ size + c.torn then d.rotateSegment c else (d, true)

def appendEntries (d : UnsureWal) (o : AppendCalls) : ℕ → List LogEntry → UnsureWal × Bool
  | _, [] => (d, true)
  | k, e :: rest =>
    match d.appendEntry e (o.record k) with
    | (d, false) => (d, false)
    | (d, true) => d.appendEntries o (k + 1) rest

def fsyncCurrent (d : UnsureWal) (ok : Bool) : UnsureWal × Bool :=
  if ok then (d.cover, true) else (d, false)

def groupSync (d : UnsureWal) (seq : ℕ) (ok : Bool) : UnsureWal × Bool :=
  if seq ≤ d.syncedSeq then (d, true)
  else
    match d.fsyncCurrent ok with
    | (d, false) => (d, false)
    | (d, true) => ({ d with syncedSeq := max d.syncedSeq d.writeSeq }, true)

def append (d : UnsureWal) (entries : List LogEntry) (o : AppendCalls) : UnsureWal × Bool :=
  if entries = [] then (d, true)
  else
    match d.appendEntries o 0 entries with
    | (d, false) => (d, false)
    | (d, true) =>
      let d := { d with writeSeq := d.writeSeq + 1 }
      d.groupSync d.writeSeq o.fsync

/-- Of a file that is cut, and of one that is created anew, no more is covered than what is
in it. -/
def deleteRange (d : UnsureWal) (lo hi : ℕ) : UnsureWal :=
  let wal := d.wal.deleteRange lo hi
  { d with
    wal := wal
    synced := fun base ↦ min (d.synced base)
      ((wal.segments.find? (·.baseIndex = base)).elim 0 (·.records.length)) }

/-- The entry `i` is in a file, in the part that a successful fsync has covered. -/
def durable (d : UnsureWal) (i : ℕ) : Bool :=
  (d.wal.index.lookup i).any fun ie ↦ d.wal.segments.any fun seg ↦
    seg.baseIndex = ie.baseIndex && (seg.records[ie.offset]?).any (·.index = i) &&
      ie.offset < d.synced seg.baseIndex

/-- What is not in the segment that is written to is covered. -/
def Pending (d : UnsureWal) : Prop :=
  ∀ i ie, d.wal.index.lookup i = some ie → ie.offset < d.synced ie.baseIndex ∨
    ∃ cur, d.wal.segments.getLast? = some cur ∧ cur.baseIndex = ie.baseIndex

/-- The entries above `s` up to `l` are there, and everything that is there is covered. -/
structure Intact (d : UnsureWal) (s l : ℕ) : Prop where
  indexed : d.wal.Indexed s l
  covered : ∀ i ie, d.wal.index.lookup i = some ie → ie.offset < d.synced ie.baseIndex
  seq : d.syncedSeq ≤ d.writeSeq

theorem Intact.empty : Intact .empty 0 0 := ⟨.empty, nofun, le_rfl⟩

theorem Intact.durable (h : d.Intact s l) (hs : s < i) (hi : i ≤ l) : d.durable i = true := by
  obtain ⟨ie, hie⟩ := Option.isSome_iff_exists.mp (AList.lookup_isSome.mpr (h.indexed.live i hs hi))
  obtain ⟨-, -, seg, hseg, hb, e, he, hei⟩ := h.indexed.found i ie hie
  unfold UnsureWal.durable
  rw [hie, Option.any_some, any_eq_true]
  refine ⟨seg, hseg, ?_⟩
  rw [he, hb]
  simp [hei, h.covered i ie hie]

theorem cover_wal (d : UnsureWal) : d.cover.wal = d.wal ∧ d.cover.writeSeq = d.writeSeq ∧
    d.cover.syncedSeq = d.syncedSeq := by
  unfold cover
  split <;> exact ⟨rfl, rfl, rfl⟩

theorem Pending.cover (h : d.Pending) (hi : d.wal.Indexed s l) :
    ∀ i ie, d.wal.index.lookup i = some ie → ie.offset < d.cover.synced ie.baseIndex := by
  intro i ie hl
  obtain ⟨cur, hcur⟩ := hi.exists_current
  unfold UnsureWal.cover
  rw [hcur]
  by_cases hb : ie.baseIndex = cur.baseIndex
  · dsimp only
    rw [hb, update_self]
    exact hi.offset_lt (mem_of_getLast? hcur) hl hb.symm
  · dsimp only
    rw [update_of_ne hb]
    refine (h i ie hl).resolve_right ?_
    rintro ⟨x, hx, hxb⟩
    rw [hcur] at hx
    cases hx
    exact hb hxb.symm

theorem pending_writeEntry (h : d.Pending) {cur : Wal.Segment}
    (hcur : d.wal.segments.getLast? = some cur) :
    Pending { d with wal := d.wal.writeEntry cur e } := by
  intro i ie hl
  by_cases hie : i = e.index
  · subst hie
    rw [writeEntry, AList.lookup_insert] at hl
    cases hl
    exact .inr ⟨_, getLast?_concat, rfl⟩
  · rw [writeEntry, AList.lookup_insert_ne hie] at hl
    refine (h i ie hl).imp_right ?_
    rintro ⟨x, hx, hxb⟩
    rw [hcur] at hx
    cases hx
    exact ⟨_, getLast?_concat, hxb⟩

theorem appendEntry_ok (hi : d.wal.Indexed s l) (hp : d.Pending) (he : e.index = l + 1)
    (h : d.appendEntry e c = (d', true)) : d'.wal.Indexed s (l + 1) ∧ d'.Pending ∧
      d'.writeSeq = d.writeSeq ∧ d'.syncedSeq = d.syncedSeq := by
  obtain ⟨cur, hcur⟩ := hi.exists_current
  have hw := hi.writeEntry hcur he
  have hpw := pending_writeEntry (e := e) hp hcur
  unfold appendEntry at h
  rw [hcur] at h
  split at h
  · cases h
  · dsimp only at h
    generalize hd : ({ d with wal := d.wal.writeEntry cur e } : UnsureWal) = d₁ at h hpw
    have hw₁ : d₁.wal.Indexed s (l + 1) := hd ▸ hw
    have hlast : d₁.wal.lastIndex = l + 1 := hd ▸ he
    have hseq : d₁.writeSeq = d.writeSeq ∧ d₁.syncedSeq = d.syncedSeq := hd ▸ ⟨rfl, rfl⟩
    split at h
    · unfold rotateSegment at h
      split at h
      · cases h
      · split at h
        · cases h
        · cases h
          obtain ⟨-, hws, hss⟩ := d₁.cover_wal
          have hbase (seg : Wal.Segment) (hseg : seg ∈ d₁.wal.segments) :
              seg.baseIndex ≤ l + 1 := by
            subst hd
            rcases mem_append.mp hseg with hseg | hseg
            · exact hi.base_le seg (dropLast_subset _ hseg)
            · cases mem_singleton.mp hseg
              exact hi.base_le cur (mem_of_getLast? hcur)
          refine ⟨hw₁.rotateSegment hlast hbase, fun i ie hl ↦ .inl ?_, hws.trans hseq.1,
            hss.trans hseq.2⟩
          have hcov := hpw.cover hw₁ i ie hl
          obtain ⟨-, -, seg, hseg, hb, -⟩ := hw₁.found i ie hl
          have := hbase seg hseg
          dsimp only
          rw [update_of_ne (by omega)]
          exact hcov
    · cases h
      exact ⟨hw₁, hpw, hseq⟩

theorem appendEntries_ok {k : ℕ} (hi : d.wal.Indexed s l) (hp : d.Pending)
    (hc : Raft.contiguous (l + 1) entries) (h : d.appendEntries o k entries = (d', true)) :
    d'.wal.Indexed s (l + entries.length) ∧ d'.Pending ∧ d'.writeSeq = d.writeSeq ∧
      d'.syncedSeq = d.syncedSeq := by
  induction entries generalizing d l k with
  | nil =>
    cases h
    exact ⟨hi, hp, rfl, rfl⟩
  | cons e rest ih =>
    rw [Raft.contiguous_cons] at hc
    unfold appendEntries at h
    generalize ha : d.appendEntry e (o.record k) = q at h
    obtain ⟨d₁, _ | _⟩ := q
    · cases h
    · obtain ⟨hi₁, hp₁, hw, hs⟩ := appendEntry_ok hi hp hc.1 ha
      obtain ⟨hi₂, hp₂, hw₂, hs₂⟩ := ih hi₁ hp₁ hc.2 h
      rw [length_cons, Nat.add_comm rest.length, ← Nat.add_assoc]
      exact ⟨hi₂, hp₂, hw₂.trans hw, hs₂.trans hs⟩

theorem Intact.append_ok (h : d.Intact s l) (hc : Raft.contiguous (l + 1) entries)
    (ha : d.append entries o = (d', true)) : d'.Intact s (l + entries.length) := by
  unfold append at ha
  split at ha
  · rename_i hnil
    cases ha
    rw [hnil]
    exact h
  · generalize hae : d.appendEntries o 0 entries = q at ha
    obtain ⟨d₁, _ | _⟩ := q
    · cases ha
    · obtain ⟨hi, hp, hws, hss⟩ :=
        appendEntries_ok h.indexed (fun i ie hl ↦ .inl (h.covered i ie hl)) hc hae
      have hseq := h.seq
      unfold groupSync fsyncCurrent at ha
      dsimp only at ha
      rw [if_neg (by omega)] at ha
      cases hf : o.fsync with
      | false =>
        rw [hf] at ha
        cases ha
      | true =>
        rw [hf] at ha
        cases ha
        generalize hd : ({ d₁ with writeSeq := d₁.writeSeq + 1 } : UnsureWal) = d₂
        have hi₂ : d₂.wal.Indexed s (l + entries.length) := hd ▸ hi
        have hp₂ : d₂.Pending := hd ▸ hp
        obtain ⟨hwal, hw₂, hs₂⟩ := d₂.cover_wal
        have hle : d₂.syncedSeq ≤ d₂.writeSeq := by
          rw [← hd]
          dsimp only
          omega
        refine ⟨?_, ?_, ?_⟩
        · change d₂.cover.wal.Indexed _ _
          rw [hwal]
          exact hi₂
        · change ∀ i ie, d₂.cover.wal.index.lookup i = some ie → _
          rw [hwal]
          exact hp₂.cover hi₂
        · change max d₂.cover.syncedSeq d₂.cover.writeSeq ≤ d₂.cover.writeSeq
          rw [hw₂, hs₂]
          exact max_le hle le_rfl

theorem appendEntries_fine {k : ℕ} (h : ∀ j < k + entries.length, (o.record j).fine = true) :
    (d.appendEntries o k entries).2 = true := by
  induction entries generalizing d k with
  | nil => rfl
  | cons e rest ih =>
    have hk := h k (by rw [length_cons]; omega)
    simp only [WriteCall.fine, Bool.and_eq_true] at hk
    obtain ⟨⟨hw, hs⟩, hc⟩ := hk
    have hone : (d.appendEntry e (o.record k)).2 = true := by
      unfold appendEntry rotateSegment
      simp only [hw, hs, hc, Bool.not_true, Bool.false_eq_true, if_false]
      split
      · rfl
      · split <;> rfl
    unfold appendEntries
    generalize d.appendEntry e (o.record k) = q at hone
    obtain ⟨d₁, b⟩ := q
    cases hone
    exact ih fun j hj ↦ h j (by rw [length_cons]; omega)

theorem append_fine (h : o.fine entries.length = true) : (d.append entries o).2 = true := by
  simp only [AppendCalls.fine, Bool.and_eq_true, all_eq_true, mem_range] at h
  have hall : (d.appendEntries o 0 entries).2 = true := appendEntries_fine (by simpa using h.1)
  unfold append
  split
  · rfl
  · generalize d.appendEntries o 0 entries = q at hall
    obtain ⟨d₁, b⟩ := q
    cases hall
    dsimp only
    unfold groupSync fsyncCurrent
    rw [h.2]
    split <;> rfl

theorem append_clean (hc : o.clean entries.length = true) (h : d.append entries o = (d', false)) :
    d' = d := by
  rcases Bool.or_eq_true_iff.mp hc with hw | hf
  · unfold append at h
    split at h
    · cases h
    · rename_i hne
      obtain ⟨e, rest, rfl⟩ := exists_cons_of_ne_nil hne
      have hone : d.appendEntries o 0 (e :: rest) = (d, false) := by
        unfold appendEntries appendEntry
        rw [if_pos hw]
      rw [hone] at h
      cases h
      rfl
  · have hok := append_fine (d := d) hf
    rw [h] at hok
    cases hok

theorem Intact.deleteRange {lo : ℕ} (h : d.Intact s l) (hlo : 0 < lo) (hle : lo ≤ l + 1) :
    (d.deleteRange lo (l + 1)).Intact s (lo - 1) := by
  have hi := h.indexed.deleteRange hlo hle
  refine ⟨hi, fun i ie hl ↦ ?_, h.seq⟩
  obtain ⟨-, -, seg, hseg, hb, e, he, -⟩ := hi.found i ie hl
  have hfind : (d.wal.deleteRange lo (l + 1)).segments.find? (·.baseIndex = ie.baseIndex) =
      some seg := by
    have hsome : ((d.wal.deleteRange lo (l + 1)).segments.find?
        (·.baseIndex = ie.baseIndex)).isSome = true :=
      find?_isSome.mpr ⟨seg, hseg, decide_eq_true hb⟩
    obtain ⟨x, hx⟩ := Option.isSome_iff_exists.mp hsome
    have hxb : x.baseIndex = ie.baseIndex := by simpa using find?_some hx
    rw [hx, hi.segment_unique (mem_of_find?_eq_some hx) hseg (hxb.trans hb.symm)]
  have hold : d.wal.index.lookup i = some ie := by
    obtain ⟨cur, hcur⟩ := h.indexed.exists_current
    have hindex := (Wal.Indexed.deleteRange_eq hcur hle).1
    change (d.wal.deleteRange lo (l + 1)).index.lookup i = some ie at hl
    rw [hindex, lookup_dropIndexes] at hl
    split_ifs at hl
    exact hl
  change ie.offset < min _ _
  rw [hfind]
  exact lt_min (h.covered i ie hold) (List.getElem?_eq_some_iff.mp he).1

end UnsureWal

end RaftConsensus
