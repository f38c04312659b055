import RaftConsensus.Wal.Files

/-! An open write-ahead log with its file handles: content, write cursor and recorded size. -/

namespace RaftConsensus

open Encoding LogRecord

structure OpenSegment where
  baseIndex : ℕ
  content : Bytes
  cursor : ℕ
  size : ℕ
deriving DecidableEq

/-- The file is opened for appending: a write goes to its end wherever the cursor is, and leaves the
cursor behind it. -/
def OpenSegment.write (seg : OpenSegment) (data : Bytes) : OpenSegment :=
  { seg with
    content := seg.content ++ data
    cursor := seg.content.length + data.length
    size := seg.size + data.length }

/-- The last segment is the current one. -/
structure OpenWal where
  segments : List OpenSegment
  index : FileIndex
  lastIndex : ℕ
deriving DecidableEq

namespace OpenWal

variable (w : OpenWal)

def empty : OpenWal := ⟨[⟨0, [], 0, 0⟩], ∅, 0⟩

def upperBoundForSegment (base : ℕ) : ℕ :=
  ((w.segments.map OpenSegment.baseIndex).filter (base < ·)).foldl min FileWal.maxUint64

/-- A size of 0 is not taken for a bound. -/
def readRecordAtBounded (content : Bytes) (offset statSize : ℕ) : Option LogRecord :=
  let dataLen := ofBigEndian (((content.drop offset).drop 4).take 4) - 9
  if 0 < statSize ∧ statSize < offset + recordHeaderSize + dataLen then none
  else decodeRecord (content.drop offset)

def getEntry (idx : ℕ) : Except WalError LogRecord :=
  match w.index.lookup idx with
  | none => .error .notFound
  | some ie =>
    match w.segments.find? (·.baseIndex = ie.baseIndex) with
    | none => .error .notFound
    | some seg =>
      if idx < seg.baseIndex ∨ w.upperBoundForSegment seg.baseIndex ≤ idx then .error .notFound
      else
        match readRecordAtBounded seg.content ie.offset seg.size with
        | none => .error .corruptLog
        | some r => .ok r

def get (idx : ℕ) : Except WalError LogRecord :=
  if idx = 0 ∨ w.lastIndex < idx then .error .notFound else w.getEntry idx

def firstIndex : ℕ :=
  match w.segments with
  | [] => 0
  | seg :: _ => seg.baseIndex

def createNewSegment (baseIndex : ℕ) : OpenWal :=
  { w with segments := w.segments ++ [⟨baseIndex, [], 0, 0⟩] }

def appendEntry (r : LogRecord) : OpenWal :=
  match w.segments.getLast? with
  | none => w
  | some cur =>
    let seg := cur.write r.encodeRecord
    let w : OpenWal :=
      { segments := w.segments.dropLast ++ [seg]
        index := w.index.insert r.index.toNat ⟨cur.baseIndex, cur.cursor⟩
        lastIndex := r.index.toNat }
    if segmentSize ≤ seg.size then w.createNewSegment (w.lastIndex + 1) else w

def segmentEntryCount (base : ℕ) : ℕ := (w.index.keys.filter (base ≤ ·)).length

def owned (base : ℕ) : List ℕ :=
  w.index.keys.filter fun idx ↦ (w.index.lookup idx).any (·.baseIndex = base)

/-- `truncateCurrentSegmentAt`: the file is cut at the lowest offset of a live record of the segment
with an index from `lo` on. -/
def truncateAt (seg : OpenSegment) (lo : ℕ) : OpenSegment :=
  match (((w.owned seg.baseIndex).filter (lo ≤ ·)).filterMap fun idx ↦
      (w.index.lookup idx).map Wal.IndexEntry.offset).min? with
  | none => seg
  | some offset => { seg with content := seg.content.take offset, cursor := offset, size := offset }

def skips (lo hi base : ℕ) : Bool := hi < base || base + w.segmentEntryCount base < lo

/-- `segmentIndexBounds`: an older segment is deleted when its live entries are all in the range. -/
def keepSegment (lo hi : ℕ) (seg : OpenSegment) : Bool :=
  w.skips lo hi seg.baseIndex || (w.owned seg.baseIndex).any fun idx ↦ !(lo ≤ idx && idx ≤ hi)

def cutCurrent (lo hi : ℕ) (cur : OpenSegment) : OpenSegment :=
  if w.skips lo hi cur.baseIndex then cur
  else if w.lastIndex ≤ hi then w.truncateAt cur lo else cur

def dropIndexes (lo hi : ℕ) : FileIndex :=
  (w.index.keys.filter fun idx ↦ lo ≤ idx ∧ idx ≤ hi).foldl (fun m idx ↦ m.erase idx) w.index

def segmentsLeft (lo hi : ℕ) (cur : OpenSegment) : List OpenSegment :=
  let older := w.segments.dropLast.filter (w.keepSegment lo hi)
  if (w.dropIndexes lo hi).keys.foldl max 0 < cur.baseIndex then older
  else older ++ [w.cutCurrent lo hi cur]

def deleteRange (lo hi : ℕ) : OpenWal :=
  if hi < lo then w
  else
    match w.segments.getLast? with
    | none => w
    | some cur =>
      let segments := w.segmentsLeft lo hi cur
      let index := w.dropIndexes lo hi
      let lastIndex := index.keys.foldl max 0
      let w : OpenWal := ⟨segments, index, lastIndex⟩
      if segments = [] then w.createNewSegment (lastIndex + 1) else w

def compact (index : ℕ) : OpenWal :=
  if index = 0 ∨ index < w.firstIndex then w else w.deleteRange w.firstIndex index

end OpenWal

end RaftConsensus
