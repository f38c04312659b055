import RaftConsensus.Maps
import RaftConsensus.Snapshots.Files

namespace RaftConsensus.SnapshotFiles

open Encoding

variable {gz : Gzip} {d : Directory} {id : String} {s t : Store} {sink : FileSnapshotSink}

theorem verifysnapChecksum_footer (content : Bytes) :
    verifysnapChecksum (content ++ footer content) true = some content.length := by
  have hlen : (footer content).length = snapFooterSize := by
    simp [footer, snapFooterMagic, snapFooterSize]
  have hsub : (content ++ footer content).length - snapFooterSize = content.length := by
    rw [List.length_append, hlen, Nat.add_sub_cancel]
  have hcrc : (checksumIEEE content).toNat < 256 ^ 4 := UInt32.toNat_lt _
  unfold verifysnapChecksum
  dsimp only
  rw [hsub, List.drop_left, List.take_left, if_neg, if_neg, if_pos]
  · simp [footer, snapFooterMagic, ofBigEndian_of_lt hcrc]
  · simp [footer, snapFooterMagic]
  · rw [List.length_append, hlen]
    omega

theorem id_readSnapshotMeta (d : Directory) (id : String) : (readSnapshotMeta d id).1.id = id := by
  unfold readSnapshotMeta legacyMeta
  split
  · rfl
  · dsimp only
    split <;> rfl

theorem find_id {l : List SnapshotMeta} {m : SnapshotMeta} (hm : m ∈ l)
    (huniq : ∀ m' ∈ l, m'.id = m.id → m' = m) : l.find? (·.id = m.id) = some m := by
  cases hx : l.find? (·.id = m.id) with
  | none => simpa using List.find?_eq_none.mp hx m hm
  | some x =>
    have hid : x.id = m.id := by simpa using List.find?_some hx
    rw [huniq x (List.mem_of_find?_eq_some hx) hid]

theorem find_load (d : Directory) (n : ℕ) (id : String) :
    (load d n).snapshots.find? (·.id = id) =
      (d.snapFiles.lookup id).map fun _ ↦ (readSnapshotMeta d id).1 := by
  have hmem : ∀ m, m ∈ (load d n).snapshots ↔
      ∃ x ∈ d.snapFiles.keys, (readSnapshotMeta d x).1 = m :=
    fun m ↦ (List.perm_insertionSort _ _).mem_iff.trans List.mem_map
  cases hfile : d.snapFiles.lookup id with
  | none =>
    refine List.find?_eq_none.mpr fun m hm ↦ ?_
    obtain ⟨x, hx, rfl⟩ := (hmem m).mp hm
    rw [id_readSnapshotMeta]
    have hne : x ≠ id := by
      rintro rfl
      exact AList.lookup_eq_none.mp hfile hx
    simpa using hne
  | some file =>
    have hkey : id ∈ d.snapFiles.keys := AList.lookup_isSome.mp (by rw [hfile]; rfl)
    have hfind := find_id ((hmem _).mpr ⟨id, hkey, rfl⟩) fun m hm hid ↦ by
      obtain ⟨x, -, rfl⟩ := (hmem m).mp hm
      rw [id_readSnapshotMeta, id_readSnapshotMeta] at hid
      rw [hid]
    rwa [id_readSnapshotMeta] at hfind

def readFile (gz : Gzip) (file : Bytes) (checksummed : Bool) (compression : String) :
    Option Bytes :=
  (verifysnapChecksum file checksummed).bind fun dataSize ↦
    let raw := if 0 < dataSize then file.take dataSize else file
    if compression = snapCompressionGzip then gz.decompress raw else some raw

theorem read_eq (h : (s.snapshots.find? (·.id = id)).isSome = true) : s.read gz id =
    (s.dir.snapFiles.lookup id).bind fun file ↦
      readFile gz file ((s.checksummed.lookup id).getD false)
      ((s.snapCompression.lookup id).getD "") := by
  obtain ⟨m, hm⟩ := Option.isSome_iff_exists.mp h
  unfold Store.read Store.openSnapshot readFile
  rw [hm]
  cases s.dir.snapFiles.lookup id with
  | none => rfl
  | some file =>
    cases hv : verifysnapChecksum file
      ((s.checksummed.lookup id).getD false) <;> simp [hv, FileSnapshot.reader]

theorem read_load (gz : Gzip) (d : Directory) (n : ℕ) (id : String) : (load d n).read gz id =
    (d.snapFiles.lookup id).bind fun file ↦
      readFile gz file (readSnapshotMeta d id).2.1 (readSnapshotMeta d id).2.2 := by
  cases hfile : d.snapFiles.lookup id with
  | none =>
    unfold Store.read Store.openSnapshot
    have hnone : (load d n).dir.snapFiles.lookup id = none := hfile
    rw [hnone]
    rfl
  | some file =>
    have hkey : id ∈ d.snapFiles.keys := AList.lookup_isSome.mp (by rw [hfile]; rfl)
    have hfind : ((load d n).snapshots.find? (·.id = id)).isSome = true := by
      rw [find_load, hfile]
      rfl
    have hsum : (load d n).checksummed.lookup id = some (readSnapshotMeta d id).2.1 := by
      refine (Maps.lookup_foldl_insert_keys _ _ _ _).trans (if_pos hkey)
    have hcomp : (load d n).snapCompression.lookup id = some (readSnapshotMeta d id).2.2 := by
      refine (Maps.lookup_foldl_insert_keys _ _ _ _).trans (if_pos hkey)
    have hdir : (load d n).dir.snapFiles.lookup id = some file := hfile
    rw [read_eq hfind, hsum, hcomp, hdir]
    rfl

theorem data_eq_nil (gz : Gzip) (sink : FileSnapshotSink) :
    sink.data gz = [] ↔ sink.compressed = false ∧ sink.chunks.flatten = [] := by
  unfold FileSnapshotSink.data
  cases sink.compressed with
  | true =>
    rw [if_pos rfl]
    exact ⟨fun h ↦ absurd h (gz.header _), fun h ↦ by cases h.1⟩
  | false =>
    rw [if_neg Bool.false_ne_true]
    exact ⟨fun h ↦ ⟨rfl, h⟩, fun h ↦ h.2⟩

theorem footer_ne_nil (content : Bytes) : footer content ≠ [] := by
  unfold footer snapFooterMagic
  exact List.cons_ne_nil _ _

theorem readFile_data (gz : Gzip) (sink : FileSnapshotSink) :
    readFile gz (sink.data gz ++ footer (sink.data gz)) true sink.compression =
        some sink.chunks.flatten ↔ sink.chunks.flatten ≠ [] ∨ sink.compressed = true := by
  unfold readFile
  rw [verifysnapChecksum_footer, Option.bind_some]
  dsimp only
  by_cases hnil : sink.data gz = []
  · obtain ⟨hc, hflat⟩ := (data_eq_nil gz sink).mp hnil
    unfold FileSnapshotSink.compression
    rw [hnil, hflat, hc]
    have hne : ("" : String) ≠ snapCompressionGzip := by decide
    simp [hne, footer_ne_nil]
  · have hpos : 0 < (sink.data gz).length := List.length_pos_iff.mpr hnil
    rw [if_pos hpos, List.take_left]
    have hor : sink.chunks.flatten ≠ [] ∨ sink.compressed = true := by
      by_contra hcon
      obtain ⟨hflat, hc⟩ := not_or.mp hcon
      exact hnil ((data_eq_nil gz sink).mpr ⟨Bool.eq_false_iff.mpr hc, not_not.mp hflat⟩)
    refine iff_of_true ?_ hor
    unfold FileSnapshotSink.compression FileSnapshotSink.data
    cases sink.compressed with
    | true => exact gz.round_trip sink.chunks
    | false => rfl

end RaftConsensus.SnapshotFiles
