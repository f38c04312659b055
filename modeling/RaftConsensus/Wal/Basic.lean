import RaftConsensus.Store
import Mathlib.Data.List.Sort

namespace RaftConsensus

def segmentSize : ℕ := 64 * 1024 * 1024

def recordHeaderSize : ℕ := 25

/-- A segment file with the records it holds, in the order in which they were written. -/
structure Wal.Segment where
  baseIndex : ℕ
  records : List LogEntry
deriving DecidableEq

def Wal.Segment.size (s : Wal.Segment) : ℕ := (s.records.map fun e ↦ recordHeaderSize + e.size).sum

/-- Where an entry is found: the base of the segment that owns it, and its offset there, counted
in records. -/
structure Wal.IndexEntry where
  baseIndex : ℕ
  offset : ℕ
deriving DecidableEq

/-- An open write-ahead log; the last segment is the one that is written to. -/
structure Wal where
  segments : List Wal.Segment
  index : AList (fun _ : ℕ ↦ Wal.IndexEntry)
  lastIndex : ℕ
deriving DecidableEq

namespace Wal

variable (w : Wal)

def empty : Wal := ⟨[⟨0, []⟩], ∅, 0⟩

def upperBound (base : ℕ) : Option ℕ :=
  ((w.segments.map Segment.baseIndex).filter (base < ·)).min?

def get (idx : ℕ) : Option LogEntry :=
  if idx = 0 ∨ w.lastIndex < idx then none
  else
    (w.index.lookup idx).bind fun ie ↦
      (w.segments.find? (·.baseIndex = ie.baseIndex)).bind fun seg ↦
        if idx < seg.baseIndex ∨ (w.upperBound seg.baseIndex).any (· ≤ idx) then none
        else seg.records[ie.offset]?

def firstIndex : ℕ :=
  match w.segments with
  | [] => 0
  | seg :: _ => seg.baseIndex

def createNewSegment (baseIndex : ℕ) : Wal := { w with segments := w.segments ++ [⟨baseIndex, []⟩] }

def rotateSegment : Wal := w.createNewSegment (w.lastIndex + 1)

def appendEntry (e : LogEntry) : Wal :=
  match w.segments.getLast? with
  | none => w
  | some cur =>
    let seg : Segment := { cur with records := cur.records ++ [e] }
    let w : Wal :=
      { segments := w.segments.dropLast ++ [seg]
        index := w.index.insert e.index ⟨cur.baseIndex, cur.records.length⟩
        lastIndex := e.index }
    if segmentSize ≤ seg.size then w.rotateSegment else w

def segmentEntryCount (seg : Segment) : ℕ := (w.index.keys.filter (seg.baseIndex ≤ ·)).length

def owned (base : ℕ) : List ℕ :=
  w.index.keys.filter fun idx ↦ (w.index.lookup idx).any (·.baseIndex = base)

def truncateSegmentAt (seg : Segment) (lo : ℕ) : Segment :=
  match (((w.owned seg.baseIndex).filter (lo ≤ ·)).filterMap fun idx ↦
      (w.index.lookup idx).map IndexEntry.offset).min? with
  | none => seg
  | some offset => { seg with records := seg.records.take offset }

def skips (lo hi : ℕ) (seg : Segment) : Bool :=
  hi < seg.baseIndex || seg.baseIndex + w.segmentEntryCount seg < lo

/-- An older segment is deleted when it has no live entry outside of `lo` to `hi`. -/
def keepSegment (lo hi : ℕ) (seg : Segment) : Bool :=
  w.skips lo hi seg || (w.owned seg.baseIndex).any fun idx ↦ !(lo ≤ idx && idx ≤ hi)

/-- The segment that is written to is only ever cut, and only when the deletion goes to the end. -/
def cutCurrent (lo hi : ℕ) (cur : Segment) : Segment :=
  if w.skips lo hi cur then cur else if w.lastIndex ≤ hi then w.truncateSegmentAt cur lo else cur

def dropIndexes (lo hi : ℕ) : AList (fun _ : ℕ ↦ IndexEntry) :=
  (w.index.keys.filter fun idx ↦ lo ≤ idx ∧ idx ≤ hi).foldl (fun m idx ↦ m.erase idx) w.index

/-- What is left of the segments; `cur`, the last of them, goes when it begins above every entry. -/
def segmentsLeft (lo hi : ℕ) (cur : Segment) : List Segment :=
  let older := w.segments.dropLast.filter (w.keepSegment lo hi)
  let cur := w.cutCurrent lo hi cur
  if (w.dropIndexes lo hi).keys.foldl max 0 < cur.baseIndex then older else older ++ [cur]

def deleteRange (lo hi : ℕ) : Wal :=
  if hi < lo then w
  else
    match w.segments.getLast? with
    | none => w
    | some cur =>
      let segments := w.segmentsLeft lo hi cur
      let index := w.dropIndexes lo hi
      let lastIndex := index.keys.foldl max 0
      let w : Wal := ⟨segments, index, lastIndex⟩
      if segments = [] then w.createNewSegment (lastIndex + 1) else w

def compact (index : ℕ) : Wal :=
  if index = 0 ∨ index < w.firstIndex then w else w.deleteRange w.firstIndex index

/-- The index entries of one segment, from the record at `offset` on. -/
def rebuildIndex (base : ℕ) : ℕ → List LogEntry → AList (fun _ : ℕ ↦ IndexEntry) →
    AList (fun _ : ℕ ↦ IndexEntry)
  | _, [], m => m
  | offset, e :: rest, m => rebuildIndex base (offset + 1) rest (m.insert e.index ⟨base, offset⟩)

/-- `NewWAL` on the segment files of an earlier run, in the order of their names. `none` when
the last entry cannot be read. -/
def reopen : Option Wal :=
  let segments := w.segments.insertionSort (fun a b ↦ a.baseIndex ≤ b.baseIndex)
  let index := segments.foldl (fun m seg ↦ rebuildIndex seg.baseIndex 0 seg.records m) ∅
  let w : Wal := ⟨segments, index, index.keys.foldl max 0⟩
  if w.lastIndex = 0 ∨ (w.get w.lastIndex).isSome then some w else none

end Wal

end RaftConsensus
