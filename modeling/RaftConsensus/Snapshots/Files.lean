import Mathlib.Data.List.Sort
import RaftConsensus.Encoding
import RaftConsensus.Store

/-! The snapshot store with its files: the temporary files, the sidecars, and compression. -/

namespace RaftConsensus.SnapshotFiles

open Encoding

structure SnapshotMeta where
  id : String
  index : ℕ
  term : ℕ
  configuration : Configuration
  version : ℕ
deriving DecidableEq

def snapFooterMagic : Bytes := [83, 78, 65, 80]

def snapFooterSize : ℕ := 8

def footer (content : Bytes) : Bytes :=
  snapFooterMagic ++ bigEndian 4 (checksumIEEE content).toNat

def verifysnapChecksum (f : Bytes) (mustVerify : Bool) : Option ℕ :=
  if f.length < snapFooterSize then if mustVerify then none else some 0
  else
    let footer := f.drop (f.length - snapFooterSize)
    if footer.take 4 ≠ snapFooterMagic then if mustVerify then none else some 0
    else if (checksumIEEE (f.take (f.length - snapFooterSize))).toNat =
        ofBigEndian (footer.drop 4) then
      some (f.length - snapFooterSize)
    else none

/-- Compression of a stream in pieces. `written` is what the writer has passed on after them, and
`finish` is what closing it adds; the header is written even if there is no data. -/
structure Gzip where
  written : List Bytes → Bytes
  finish : List Bytes → Bytes
  decompress : Bytes → Option Bytes
  written_nil : written [] = []
  round_trip : ∀ chunks, decompress (written chunks ++ finish chunks) = some chunks.flatten
  header : ∀ chunks, written chunks ++ finish chunks ≠ []

def snapCompressionGzip : String := "gzip"

structure SidecarMeta where
  info : SnapshotMeta
  checksummed : Bool
  compression : String
deriving DecidableEq

/-- The files of the directory, by the ID in their names. A sidecar is kept as what its JSON text
stands for, `none` if that is not valid. -/
structure Directory where
  snapFiles : AList (fun _ : String ↦ Bytes)
  metaFiles : AList (fun _ : String ↦ Option SidecarMeta)
  tmpFiles : AList (fun _ : String ↦ Bytes)
  metaTmpFiles : AList (fun _ : String ↦ Option SidecarMeta)

inductive FileOp
  | createTmp (id : String)
  | writeTmp (id : String) (p : Bytes)
  | createMetaTmp (id : String)
  | writeMetaTmp (id : String) (sidecar : SidecarMeta)
  | renameMeta (id : String)
  | renameSnap (id : String)
  | removeSnap (id : String)
  | removeMeta (id : String)
  | sync
deriving DecidableEq

/-- Operations become durable in order, so that a sync changes nothing. -/
def FileOp.run (d : Directory) : FileOp → Directory
  | .createTmp id => { d with tmpFiles := d.tmpFiles.insert id [] }
  | .writeTmp id p =>
    { d with tmpFiles := d.tmpFiles.insert id ((d.tmpFiles.lookup id).getD [] ++ p) }
  | .createMetaTmp id => { d with metaTmpFiles := d.metaTmpFiles.insert id none }
  | .writeMetaTmp id sidecar => { d with metaTmpFiles := d.metaTmpFiles.insert id (some sidecar) }
  | .renameMeta id =>
    match d.metaTmpFiles.lookup id with
    | none => d
    | some sidecar => { d with
        metaTmpFiles := d.metaTmpFiles.erase id
        metaFiles := d.metaFiles.insert id sidecar }
  | .renameSnap id =>
    match d.tmpFiles.lookup id with
    | none => d
    | some file => { d with
        tmpFiles := d.tmpFiles.erase id
        snapFiles := d.snapFiles.insert id file }
  | .removeSnap id => { d with snapFiles := d.snapFiles.erase id }
  | .removeMeta id => { d with metaFiles := d.metaFiles.erase id }
  | .sync => d

def Directory.after (d : Directory) (ops : List FileOp) : Directory := ops.foldl FileOp.run d

structure Store where
  retainCount : ℕ
  compression : Bool
  snapshots : List SnapshotMeta
  checksummed : AList (fun _ : String ↦ Bool)
  snapCompression : AList (fun _ : String ↦ String)
  dir : Directory

def parseUint (s : List Char) : Option ℕ :=
  if s = [] then none
  else
    let number := s.foldlM
      (fun n (c : Char) ↦ if c.isDigit then some (10 * n + (c.toNat - 48)) else none) 0
    number.filter (· < 2 ^ 64)

/-- Term and index from a name like `3-17`, as far as it has this form. -/
def legacyMeta (id : String) : SnapshotMeta :=
  match parseUint (id.toList.takeWhile (· ≠ '-')),
    parseUint ((id.toList.dropWhile (· ≠ '-')).drop 1) with
  | some term, some index => ⟨id, index, term, ⟨[]⟩, 0⟩
  | _, _ => ⟨id, 0, 0, ⟨[]⟩, 0⟩

/-- The metadata of a data file, whether it has a checksum, and its compression. -/
def readSnapshotMeta (d : Directory) (id : String) : SnapshotMeta × Bool × String :=
  match d.metaFiles.lookup id with
  | some (some sidecar) =>
    ({ sidecar.info with id := id }, sidecar.checksummed, sidecar.compression)
  | _ => (legacyMeta id, false, "")

/-- `NewFileSnapshotStore` with `loadSnapshots`. The order of snapshots of one index does not
matter to look-ups by ID. -/
def load (d : Directory) (retainCount : ℕ) : Store where
  retainCount := retainCount
  compression := false
  snapshots := (d.snapFiles.keys.map fun id ↦ (readSnapshotMeta d id).1).insertionSort
    fun a b ↦ b.index ≤ a.index
  checksummed := d.snapFiles.keys.foldl (fun m id ↦ m.insert id (readSnapshotMeta d id).2.1) ∅
  snapCompression := d.snapFiles.keys.foldl (fun m id ↦ m.insert id (readSnapshotMeta d id).2.2) ∅
  dir := d

/-- `dataSize` is 0 if the whole file is data. -/
structure FileSnapshot where
  file : Bytes
  info : SnapshotMeta
  dataSize : ℕ
  compression : String

def Store.openSnapshot (s : Store) (id : String) : Option FileSnapshot :=
  (s.dir.snapFiles.lookup id).bind fun file ↦
    (s.snapshots.find? (·.id = id)).bind fun info ↦
      (verifysnapChecksum file ((s.checksummed.lookup id).getD false)).map fun dataSize ↦
        ⟨file, info, dataSize, (s.snapCompression.lookup id).getD ""⟩

/-- What reading `Reader` to the end gives, `none` on an error. -/
def FileSnapshot.reader (gz : Gzip) (s : FileSnapshot) : Option Bytes :=
  let raw := if 0 < s.dataSize then s.file.take s.dataSize else s.file
  if s.compression = snapCompressionGzip then gz.decompress raw else some raw

def Store.read (gz : Gzip) (s : Store) (id : String) : Option Bytes :=
  (s.openSnapshot id).bind (FileSnapshot.reader gz)

/-- What the unstable sort by index, newest first, can make of a list. -/
def IsSort (sorted snapshots : List SnapshotMeta) : Prop :=
  sorted.Perm snapshots ∧ sorted.Pairwise fun a b ↦ b.index ≤ a.index

section Sink

/-- `compressed` says that the sink has a gzip writer. -/
structure FileSnapshotSink where
  info : SnapshotMeta
  compressed : Bool
  chunks : List Bytes

variable (gz : Gzip) (s : Store) (sink : FileSnapshotSink)

def Store.create (version index term : ℕ) (configuration : Configuration) :
    Store × FileSnapshotSink :=
  let id := toString term ++ "-" ++ toString index
  ({ s with dir := FileOp.run s.dir (.createTmp id) },
    ⟨⟨id, index, term, configuration, version⟩, s.compression, []⟩)

/-- The bytes of the temporary file before the sink is closed. -/
def FileSnapshotSink.flushed : Bytes :=
  if sink.compressed then gz.written sink.chunks else sink.chunks.flatten

def FileSnapshotSink.data : Bytes :=
  if sink.compressed then gz.written sink.chunks ++ gz.finish sink.chunks else sink.chunks.flatten

def Store.write (p : Bytes) : Store × FileSnapshotSink :=
  let sink := { sink with chunks := sink.chunks ++ [p] }
  ({ s with
    dir := { s.dir with tmpFiles := s.dir.tmpFiles.insert sink.info.id (sink.flushed gz) } }, sink)

def Store.writeAll : Store × FileSnapshotSink → List Bytes → Store × FileSnapshotSink
  | (s, sink), chunks => chunks.foldl (fun w p ↦ w.1.write gz w.2 p) (s, sink)

def FileSnapshotSink.compression : String := if sink.compressed then snapCompressionGzip else ""

def FileSnapshotSink.sidecar : SidecarMeta := ⟨sink.info, true, sink.compression⟩

def stageOps : List FileOp :=
  (if sink.compressed then [.writeTmp sink.info.id (gz.finish sink.chunks)] else []) ++
    [.writeTmp sink.info.id (footer (sink.data gz)), .sync, .createMetaTmp sink.info.id,
      .writeMetaTmp sink.info.id sink.sidecar, .sync]

def commitOps : List FileOp :=
  stageOps gz sink ++ [.renameMeta sink.info.id, .renameSnap sink.info.id, .sync]

def deleteOps (id : String) : List FileOp := [.removeSnap id, .removeMeta id]

def Store.deleteLocked (id : String) : Store :=
  { s with
    dir := s.dir.after (deleteOps id)
    snapshots := s.snapshots.eraseP (·.id = id)
    checksummed := s.checksummed.erase id
    snapCompression := s.snapCompression.erase id }

def Store.prune : ℕ → Store → Store
  | 0, s => s
  | n + 1, s =>
    if s.retainCount < s.snapshots.length then
      match s.snapshots.getLast? with
      | none => s
      | some oldest => prune n (s.deleteLocked oldest.id)
    else s

def Store.commit (sorted : List SnapshotMeta) : Store :=
  { s with
    dir := s.dir.after (commitOps gz sink)
    snapshots := sorted
    checksummed := s.checksummed.insert sink.info.id true
    snapCompression := s.snapCompression.insert sink.info.id sink.compression }

/-- `sorted` is what the unstable sort by index, newest first, makes of the list. -/
def Store.close (sorted : List SnapshotMeta) : Store :=
  Store.prune sorted.length (s.commit gz sink sorted)

def pruned (retainCount : ℕ) : ℕ → List SnapshotMeta → List String
  | 0, _ => []
  | n + 1, snapshots =>
    if retainCount < snapshots.length then
      match snapshots.getLast? with
      | none => []
      | some oldest => oldest.id :: pruned retainCount n (snapshots.eraseP (·.id = oldest.id))
    else []

def closeOps (sorted : List SnapshotMeta) : List FileOp :=
  commitOps gz sink ++ (pruned s.retainCount sorted.length sorted).flatMap deleteOps

end Sink

end RaftConsensus.SnapshotFiles
