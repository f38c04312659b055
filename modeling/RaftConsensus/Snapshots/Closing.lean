import RaftConsensus.Snapshots.Reading

namespace RaftConsensus.SnapshotFiles

open List AList

variable {gz : Gzip} {d : Directory} {id x : String} {s t : Store} {sink : FileSnapshotSink}
  {ids : List String}

theorem Directory.after_append (d : Directory) (ops ops' : List FileOp) :
    d.after (ops ++ ops') = (d.after ops).after ops' := foldl_append

structure Writing (gz : Gzip) (s : Store) (w : Store × FileSnapshotSink) : Prop where
  rest : w.1 = { s with dir := { s.dir with tmpFiles := w.1.dir.tmpFiles } }
  tmp : w.1.dir.tmpFiles.lookup w.2.info.id = some (w.2.flushed gz)

theorem writing_create (gz : Gzip) (s : Store) (version index term : ℕ)
    (configuration : Configuration) :
    Writing gz s (s.create version index term configuration) := by
  refine ⟨rfl, (lookup_insert _).trans ?_⟩
  unfold FileSnapshotSink.flushed Store.create
  dsimp only
  rw [gz.written_nil]
  split_ifs <;> rfl

theorem Writing.write {w : Store × FileSnapshotSink} (h : Writing gz s w) (p : Bytes) :
    Writing gz s (w.1.write gz w.2 p) := by
  refine ⟨?_, lookup_insert _⟩
  unfold Store.write
  dsimp only
  rw [h.rest]

theorem writing_writeAll {w : Store × FileSnapshotSink} (h : Writing gz s w) (chunks : List Bytes) :
    Writing gz s (Store.writeAll gz w chunks) ∧ (Store.writeAll gz w chunks).2 =
      { w.2 with chunks := w.2.chunks ++ chunks } := by
  unfold Store.writeAll
  induction chunks generalizing w with
  | nil => exact ⟨h, by rw [append_nil]; rfl⟩
  | cons p chunks ih =>
    obtain ⟨hw, hsink⟩ := ih (h.write p)
    refine ⟨hw, hsink.trans ?_⟩
    unfold Store.write
    dsimp only
    rw [append_assoc, singleton_append]

def FileOp.Hidden : FileOp → Prop
  | .createTmp _ | .writeTmp _ _ | .createMetaTmp _ | .writeMetaTmp _ _ | .sync => True
  | _ => False

theorem FileOp.Hidden.run {op : FileOp} (h : op.Hidden) (d : Directory) :
    (op.run d).snapFiles = d.snapFiles ∧ (op.run d).metaFiles = d.metaFiles := by
  cases op with
  | createTmp | writeTmp | createMetaTmp | writeMetaTmp | sync => exact ⟨rfl, rfl⟩
  | renameMeta | renameSnap | removeSnap | removeMeta => exact h.elim

theorem after_hidden {ops : List FileOp} (h : ∀ op ∈ ops, op.Hidden) (d : Directory) :
    (d.after ops).snapFiles = d.snapFiles ∧ (d.after ops).metaFiles = d.metaFiles := by
  unfold Directory.after
  induction ops generalizing d with
  | nil => exact ⟨rfl, rfl⟩
  | cons op ops ih =>
    obtain ⟨hsnap, hmeta⟩ := ih (fun op hop ↦ h op (mem_cons_of_mem _ hop)) (op.run d)
    obtain ⟨hsnap', hmeta'⟩ := (h op mem_cons_self).run d
    exact ⟨hsnap.trans hsnap', hmeta.trans hmeta'⟩

theorem hidden_stageOps (gz : Gzip) (sink : FileSnapshotSink) :
    ∀ op ∈ stageOps gz sink, op.Hidden := by
  unfold stageOps
  cases sink.compressed <;> simp [FileOp.Hidden]

theorem after_stageOps (h : d.tmpFiles.lookup sink.info.id = some (sink.flushed gz)) :
    (d.after (stageOps gz sink)).tmpFiles.lookup sink.info.id =
        some (sink.data gz ++ footer (sink.data gz)) ∧
      (d.after (stageOps gz sink)).metaTmpFiles.lookup sink.info.id = some (some sink.sidecar) := by
  unfold FileSnapshotSink.flushed at h
  unfold Directory.after stageOps FileSnapshotSink.data
  cases hc : sink.compressed with
  | true =>
    rw [hc, if_pos rfl] at h
    simp [FileOp.run, h]
  | false =>
    rw [hc, if_neg Bool.false_ne_true] at h
    simp [FileOp.run, h]

theorem after_renameMeta (h : d.tmpFiles.lookup sink.info.id = some (sink.flushed gz)) :
    (d.after (stageOps gz sink ++ [.renameMeta sink.info.id])).snapFiles = d.snapFiles ∧
      (d.after (stageOps gz sink ++ [.renameMeta sink.info.id])).metaFiles =
        d.metaFiles.insert sink.info.id (some sink.sidecar) ∧
      (d.after (stageOps gz sink ++ [.renameMeta sink.info.id])).tmpFiles.lookup sink.info.id =
        some (sink.data gz ++ footer (sink.data gz)) := by
  obtain ⟨htmp, hmetaTmp⟩ := after_stageOps h
  obtain ⟨hsnap, hmeta⟩ := after_hidden (hidden_stageOps gz sink) d
  rw [Directory.after_append]
  generalize d.after (stageOps gz sink) = d' at *
  have hrun : d'.after [.renameMeta sink.info.id] = { d' with
      metaTmpFiles := d'.metaTmpFiles.erase sink.info.id
      metaFiles := d'.metaFiles.insert sink.info.id (some sink.sidecar) } := by
    unfold Directory.after
    rw [foldl_cons, foldl_nil, FileOp.run, hmetaTmp]
  rw [hrun, ← hmeta, ← hsnap]
  exact ⟨rfl, rfl, htmp⟩

theorem after_renameSnap (h : d.tmpFiles.lookup sink.info.id = some (sink.flushed gz)) :
    (d.after (stageOps gz sink ++ [.renameMeta sink.info.id, .renameSnap sink.info.id])).snapFiles =
        d.snapFiles.insert sink.info.id (sink.data gz ++ footer (sink.data gz)) ∧
      (d.after (stageOps gz sink ++ [.renameMeta sink.info.id,
        .renameSnap sink.info.id])).metaFiles =
        d.metaFiles.insert sink.info.id (some sink.sidecar) := by
  obtain ⟨hsnap, hmeta, htmp⟩ := after_renameMeta h
  have hsplit : stageOps gz sink ++ [.renameMeta sink.info.id, .renameSnap sink.info.id] =
      stageOps gz sink ++ [.renameMeta sink.info.id] ++ [.renameSnap sink.info.id] := by
    rw [append_assoc, singleton_append]
  rw [hsplit, Directory.after_append]
  generalize d.after (stageOps gz sink ++ [.renameMeta sink.info.id]) = d' at *
  have hrun : d'.after [.renameSnap sink.info.id] = { d' with
      tmpFiles := d'.tmpFiles.erase sink.info.id
      snapFiles := d'.snapFiles.insert sink.info.id (sink.data gz ++ footer (sink.data gz)) } := by
    unfold Directory.after
    rw [foldl_cons, foldl_nil, FileOp.run, htmp]
  rw [hrun, ← hmeta, ← hsnap]
  exact ⟨rfl, rfl⟩

theorem after_commitOps (h : d.tmpFiles.lookup sink.info.id = some (sink.flushed gz)) :
    (d.after (commitOps gz sink)).snapFiles =
        d.snapFiles.insert sink.info.id (sink.data gz ++ footer (sink.data gz)) ∧
      (d.after (commitOps gz sink)).metaFiles =
      d.metaFiles.insert sink.info.id (some sink.sidecar) := by
  have hsplit : commitOps gz sink =
      stageOps gz sink ++ [.renameMeta sink.info.id, .renameSnap sink.info.id] ++ [.sync] := by
    rw [append_assoc]
    rfl
  rw [hsplit, Directory.after_append]
  exact after_renameSnap h

/-- The deletions leave everything about `x` alone. -/
structure Spared (x : String) (s t : Store) : Prop where
  snap : t.dir.snapFiles.lookup x = s.dir.snapFiles.lookup x
  sidecar : t.dir.metaFiles.lookup x = s.dir.metaFiles.lookup x
  checksummed : t.checksummed.lookup x = s.checksummed.lookup x
  snapCompression : t.snapCompression.lookup x = s.snapCompression.lookup x
  listed : (∃ m ∈ s.snapshots, m.id = x) → ∃ m ∈ t.snapshots, m.id = x

theorem Spared.trans {u : Store} (h : Spared x s t) (h' : Spared x t u) : Spared x s u :=
  ⟨h'.snap.trans h.snap, h'.sidecar.trans h.sidecar, h'.checksummed.trans h.checksummed,
    h'.snapCompression.trans h.snapCompression, fun hx ↦ h'.listed (h.listed hx)⟩

theorem spared_deleteLocked (s : Store) (h : x ≠ id) : Spared x s (s.deleteLocked id) := by
  refine ⟨lookup_erase_ne h, lookup_erase_ne h, lookup_erase_ne h,
    lookup_erase_ne h, ?_⟩
  rintro ⟨m, hm, rfl⟩
  refine ⟨m, ?_, rfl⟩
  exact (mem_eraseP_of_neg (by simpa using h)).mpr hm

theorem spared_foldl (h : x ∉ ids) (s : Store) : Spared x s (ids.foldl Store.deleteLocked s) := by
  induction ids generalizing s with
  | nil => exact ⟨rfl, rfl, rfl, rfl, id⟩
  | cons y ids ih =>
    have hids : x ∉ ids := not_mem_of_not_mem_cons h
    exact (spared_deleteLocked s (ne_of_not_mem_cons h)).trans (ih hids _)

theorem lookup_deleted (h : x ∈ ids) (s : Store) :
    (ids.foldl Store.deleteLocked s).dir.snapFiles.lookup x = none := by
  induction ids generalizing s with
  | nil => cases h
  | cons y ids ih =>
    rw [foldl_cons]
    by_cases hx : x ∈ ids
    · exact ih hx _
    · rw [(spared_foldl hx _).snap]
      cases (mem_cons.mp h).resolve_right hx
      change (s.dir.snapFiles.erase x).lookup x = none
      rw [lookup_erase]

theorem prune_eq (n : ℕ) (s : Store) :
    s.prune n = (pruned s.retainCount n s.snapshots).foldl Store.deleteLocked s := by
  induction n generalizing s with
  | zero => rfl
  | succ n ih =>
    unfold Store.prune pruned
    split_ifs
    · cases s.snapshots.getLast? with
      | none => rfl
      | some oldest => exact ih (s.deleteLocked oldest.id)
    · rfl

section RoundTrip

def Store.take (gz : Gzip) (s : Store) (version index term : ℕ) (configuration : Configuration)
    (chunks : List Bytes) (sorted : List SnapshotMeta) : Store :=
  let w := Store.writeAll gz (s.create version index term configuration) chunks
  w.1.close gz w.2 sorted

variable {version index term : ℕ} {configuration : Configuration} {chunks : List Bytes}
  {sorted : List SnapshotMeta}

theorem read_close {w : Store × FileSnapshotSink} (hw : Writing gz s w)
    (hlisted : w.2.info ∈ sorted) (hkept : w.2.info.id ∉ pruned w.1.retainCount
      sorted.length sorted) :
    (w.1.close gz w.2 sorted).read gz w.2.info.id =
    readFile gz (w.2.data gz ++ footer (w.2.data gz)) true w.2.compression ∧
    ∀ n, (load (w.1.close gz w.2 sorted).dir n).read gz w.2.info.id =
    readFile gz (w.2.data gz ++ footer (w.2.data gz)) true w.2.compression := by
  have hspared : Spared w.2.info.id (w.1.commit gz w.2 sorted) (w.1.close gz w.2 sorted) := by
    unfold Store.close
    rw [prune_eq]
    exact spared_foldl hkept _
  obtain ⟨hsnap, hmeta⟩ := after_commitOps hw.tmp
  have hfile : (w.1.close gz w.2 sorted).dir.snapFiles.lookup w.2.info.id =
      some (w.2.data gz ++ footer (w.2.data gz)) := by
    rw [hspared.snap]
    change (w.1.dir.after (commitOps gz w.2)).snapFiles.lookup _ = _
    rw [hsnap, lookup_insert]
  refine ⟨?_, fun n ↦ ?_⟩
  · have hfind : ((w.1.close gz w.2 sorted).snapshots.find?
        (·.id = w.2.info.id)).isSome = true := by
      obtain ⟨m, hm, hid⟩ := hspared.listed ⟨w.2.info, hlisted, rfl⟩
      rw [find?_isSome]
      exact ⟨m, hm, by simpa using hid⟩
    have hsum : (w.1.close gz w.2 sorted).checksummed.lookup w.2.info.id = some true :=
      hspared.checksummed.trans (lookup_insert _)
    have hcomp : (w.1.close gz w.2 sorted).snapCompression.lookup w.2.info.id =
        some w.2.compression :=
      hspared.snapCompression.trans (lookup_insert _)
    rw [read_eq hfind, hfile, hsum, hcomp]
    rfl
  · have hside : (w.1.close gz w.2 sorted).dir.metaFiles.lookup w.2.info.id =
        some (some w.2.sidecar) := by
      rw [hspared.sidecar]
      change (w.1.dir.after (commitOps gz w.2)).metaFiles.lookup _ = _
      rw [hmeta, lookup_insert]
    have hread : readSnapshotMeta (w.1.close gz w.2 sorted).dir w.2.info.id =
        ({ w.2.info with id := w.2.info.id }, true, w.2.compression) := by
      unfold readSnapshotMeta
      rw [hside]
      rfl
    rw [read_load, hfile, hread]
    rfl

theorem read_of_pruned {w : Store × FileSnapshotSink}
    (hgone : w.2.info.id ∈ pruned w.1.retainCount sorted.length sorted) :
    (w.1.close gz w.2 sorted).read gz w.2.info.id = none := by
  have hfile : (w.1.close gz w.2 sorted).dir.snapFiles.lookup w.2.info.id = none := by
    unfold Store.close
    rw [prune_eq]
    exact lookup_deleted hgone _
  unfold Store.read Store.openSnapshot
  rw [hfile]
  rfl

/-- A snapshot reads back what was written to it, before and after the store is loaded again. -/
def RoundTrip (gz : Gzip) (s : Store) (id : String) (chunks : List Bytes) : Prop :=
  s.read gz id = some chunks.flatten ∧
    (load s.dir s.retainCount).read gz id = some chunks.flatten

/-- Only the empty snapshot without compression does not come back, apart from one that is pruned
at once. -/
theorem roundTrip_iff (gz : Gzip) (s : Store) (version index term : ℕ)
    (configuration : Configuration) (chunks : List Bytes) (sorted : List SnapshotMeta)
    (hs : IsSort sorted (s.snapshots ++ [(s.create version index term configuration).2.info])) :
    RoundTrip gz (s.take gz version index term configuration chunks sorted)
        (s.create version index term configuration).2.info.id chunks ↔
      (chunks.flatten ≠ [] ∨ s.compression = true) ∧
        (s.create version index term configuration).2.info.id ∉
          pruned s.retainCount sorted.length sorted := by
  obtain ⟨hw, hsink⟩ := writing_writeAll
    (writing_create gz s version index term configuration) chunks
  unfold Store.take
  dsimp only
  generalize Store.writeAll gz (s.create version index term configuration) chunks = w at *
  have hinfo : w.2.info = (s.create version index term configuration).2.info := by rw [hsink]
  have hchunks : w.2.chunks = chunks := by rw [hsink]; rfl
  have hcomp : w.2.compressed = s.compression := by rw [hsink]; rfl
  have hretain : w.1.retainCount = s.retainCount := by rw [hw.rest]
  have hlisted : w.2.info ∈ sorted := by
    rw [hs.1.mem_iff, hinfo]
    exact mem_append_right _ (mem_singleton_self _)
  rw [← hinfo, ← hchunks, ← hcomp, ← hretain]
  by_cases hkept : w.2.info.id ∈ pruned w.1.retainCount sorted.length sorted
  · refine iff_of_false (fun h ↦ ?_) (fun h ↦ h.2 hkept)
    have hread := h.1
    rw [read_of_pruned hkept] at hread
    cases hread
  · obtain ⟨hread, hload⟩ := read_close hw hlisted hkept
    unfold RoundTrip
    rw [hread, hload, and_self, readFile_data]
    exact ⟨fun h ↦ ⟨h, hkept⟩, fun h ↦ h.1⟩

def Gzip.tagged : Gzip where
  written chunks := if chunks = [] then [] else 31 :: chunks.flatten
  finish chunks := if chunks = [] then [31] else []
  decompress
    | 31 :: data => some data
    | _ => none
  written_nil := rfl
  round_trip chunks := by cases chunks <;> simp
  header chunks := by cases chunks <;> simp

def Store.empty (retainCount : ℕ) (compression : Bool) : Store :=
  ⟨retainCount, compression, [], ∅, ∅, ⟨∅, ∅, ∅, ∅⟩⟩

def Store.fresh (compression : Bool) : Store := .empty 2 compression

theorem roundTrip_footer : RoundTrip Gzip.tagged
    ((Store.fresh false).take Gzip.tagged 1 5 2 ⟨[]⟩ [[1], footer [1]]
      [⟨"2-5", 5, 2, ⟨[]⟩, 1⟩]) "2-5" [[1], footer [1]] :=
  (roundTrip_iff Gzip.tagged (.fresh false) 1 5 2 ⟨[]⟩ [[1], footer [1]] _
    ⟨List.Perm.refl _, pairwise_singleton _ _⟩).mpr ⟨.inl (by decide), by decide +kernel⟩

/-- Nothing is written, and the eight bytes of the footer are read. -/
theorem roundTrip_empty : ((Store.fresh false).take Gzip.tagged 1 5 2 ⟨[]⟩ []
      [⟨"2-5", 5, 2, ⟨[]⟩, 1⟩]).read Gzip.tagged "2-5" = some [83, 78, 65, 80, 0, 0, 0, 0] ∧
    ¬ RoundTrip Gzip.tagged
      ((Store.fresh false).take Gzip.tagged 1 5 2 ⟨[]⟩ [] [⟨"2-5", 5, 2, ⟨[]⟩, 1⟩]) "2-5" [] := by
  have hread : ((Store.fresh false).take Gzip.tagged 1 5 2 ⟨[]⟩ [] [⟨"2-5", 5, 2, ⟨[]⟩, 1⟩]).read
      Gzip.tagged "2-5" = some [83, 78, 65, 80, 0, 0, 0, 0] := by decide +kernel
  refine ⟨hread, fun h ↦ ?_⟩
  have hnone := h.1
  rw [hread] at hnone
  cases hnone

end RoundTrip

end RaftConsensus.SnapshotFiles
