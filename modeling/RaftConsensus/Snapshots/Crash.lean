import RaftConsensus.Snapshots.Closing

namespace RaftConsensus.SnapshotFiles

open List AList Function

variable {gz : Gzip} {d d' : Directory} {id x : String} {s : Store} {sink : FileSnapshotSink}
  {book : String → Option (SnapshotMeta × Bytes)}

/-- What a store that is loaded from the directory lists under an ID, and reads from it. -/
def Directory.listed (gz : Gzip) (d : Directory) (id : String) :
    Option (SnapshotMeta × Option Bytes) :=
  ((load d 0).snapshots.find? (·.id = id)).map fun m ↦ (m, (load d 0).read gz id)

theorem listed_eq (gz : Gzip) (d : Directory) (id : String) : d.listed gz id =
    (d.snapFiles.lookup id).map fun file ↦ ((readSnapshotMeta d id).1,
      readFile gz file (readSnapshotMeta d id).2.1 (readSnapshotMeta d id).2.2) := by
  unfold Directory.listed
  rw [find_load, read_load]
  cases d.snapFiles.lookup id <;> rfl

theorem listed_congr (hsnap : d'.snapFiles.lookup x = d.snapFiles.lookup x)
    (hmeta : d'.metaFiles.lookup x = d.metaFiles.lookup x) : d'.listed gz x = d.listed gz x := by
  have hread : readSnapshotMeta d' x = readSnapshotMeta d x := by
    unfold readSnapshotMeta
    rw [hmeta]
  rw [listed_eq, listed_eq, hsnap, hread]

theorem listed_sidecar (h : d.metaFiles.lookup sink.info.id = some (some sink.sidecar)) :
    d.listed gz sink.info.id = (d.snapFiles.lookup sink.info.id).map fun file ↦
      (sink.info, readFile gz file true sink.compression) := by
  have hread : readSnapshotMeta d sink.info.id = (sink.info, true, sink.compression) := by
    unfold readSnapshotMeta
    rw [h]
    rfl
  rw [listed_eq, hread]

def FileOp.Removal : FileOp → Prop
  | .sync | .removeSnap _ | .removeMeta _ => True
  | _ => False

theorem snapFiles_removals {ops : List FileOp} (h : ∀ op ∈ ops, op.Removal) (d : Directory)
    (x : String) :
    (d.after ops).snapFiles.lookup x =
      if .removeSnap x ∈ ops then none else d.snapFiles.lookup x := by
  unfold Directory.after
  induction ops generalizing d with
  | nil => rw [if_neg not_mem_nil, foldl_nil]
  | cons op ops ih =>
    rw [foldl_cons, ih fun op hop ↦ h op (mem_cons_of_mem _ hop)]
    by_cases hx : .removeSnap x ∈ ops
    · rw [if_pos hx, if_pos (mem_cons_of_mem _ hx)]
    · rw [if_neg hx]
      by_cases hop : op = .removeSnap x
      · rw [hop, if_pos mem_cons_self, FileOp.run, lookup_erase]
      · rw [if_neg (not_mem_cons_of_ne_of_not_mem (Ne.symm hop) hx)]
        have hrem := h op mem_cons_self
        cases op with
        | sync | removeMeta => rfl
        | removeSnap id => exact lookup_erase_ne fun heq ↦ hop (by rw [heq])
        | _ => exact hrem.elim

theorem metaFiles_removals {ops : List FileOp} (h : ∀ op ∈ ops, op.Removal) (d : Directory)
    (hx : .removeMeta x ∉ ops) : (d.after ops).metaFiles.lookup x = d.metaFiles.lookup x := by
  unfold Directory.after
  induction ops generalizing d with
  | nil => rfl
  | cons op ops ih =>
    rw [foldl_cons, ih (fun op hop ↦ h op (mem_cons_of_mem _ hop)) _
      (not_mem_of_not_mem_cons hx)]
    have hrem := h op mem_cons_self
    have hne := ne_of_not_mem_cons hx
    cases op with
    | sync | removeSnap => rfl
    | removeMeta id => exact lookup_erase_ne fun heq ↦ hne (by rw [heq])
    | _ => exact hrem.elim

theorem removal_pruning (ids : List String) :
    ∀ op ∈ FileOp.sync :: ids.flatMap deleteOps, op.Removal := by
  intro op hop
  rcases mem_cons.mp hop with rfl | hop
  · trivial
  · obtain ⟨id, -, hid⟩ := mem_flatMap.mp hop
    unfold deleteOps at hid
    rcases mem_cons.mp hid with rfl | hid
    · trivial
    · cases mem_singleton.mp hid
      trivial

theorem removeSnap_of_removeMeta {ids : List String} {k : ℕ}
    (h : .removeMeta x ∈ (ids.flatMap deleteOps).take k) :
    .removeSnap x ∈ (ids.flatMap deleteOps).take k := by
  induction ids generalizing k with
  | nil =>
    rw [flatMap_nil, take_nil] at h
    cases h
  | cons id ids ih =>
    have hsplit : (id :: ids).flatMap deleteOps =
        .removeSnap id :: .removeMeta id :: ids.flatMap deleteOps := rfl
    rw [hsplit] at h ⊢
    match k with
    | 0 => cases h
    | 1 => cases mem_singleton.mp h
    | k + 2 =>
      rw [take_succ_cons, take_succ_cons] at h ⊢
      rcases mem_cons.mp h with h | h
      · cases h
      · rcases mem_cons.mp h with h | h
        · cases h
          exact mem_cons_self
        · exact mem_cons_of_mem _ (mem_cons_of_mem _ (ih h))

theorem listed_pruning (gz : Gzip) (ids : List String) (k : ℕ) (d : Directory) (x : String) :
    (d.after ((FileOp.sync :: ids.flatMap deleteOps).take k)).listed gz x =
      if .removeSnap x ∈ (FileOp.sync :: ids.flatMap deleteOps).take k then none else
      d.listed gz x := by
  have hrem : ∀ op ∈ (FileOp.sync :: ids.flatMap deleteOps).take k, op.Removal :=
    fun op hop ↦ removal_pruning ids op (mem_of_mem_take hop)
  have hsnap := snapFiles_removals hrem d x
  split_ifs with hx
  · rw [if_pos hx] at hsnap
    rw [listed_eq, hsnap]
    rfl
  · rw [if_neg hx] at hsnap
    refine listed_congr hsnap (metaFiles_removals hrem d fun hmeta ↦ hx ?_)
    cases k with
    | zero => cases hmeta
    | succ k =>
      rw [take_succ_cons] at hmeta ⊢
      refine mem_cons_of_mem _ (removeSnap_of_removeMeta ?_)
      exact (mem_cons.mp hmeta).resolve_left FileOp.noConfusion

/-- A loaded store lists exactly these snapshots, and each reads back its payload. -/
def Holds (gz : Gzip) (d : Directory) (book : String → Option (SnapshotMeta × Bytes)) : Prop :=
  ∀ id, d.listed gz id = (book id).map fun b ↦ (b.1, some b.2)

def added (sink : FileSnapshotSink) (book : String → Option (SnapshotMeta × Bytes)) :
    String → Option (SnapshotMeta × Bytes) :=
  Function.update book sink.info.id (some (sink.info, sink.chunks.flatten))

def without (ops : List FileOp) (book : String → Option (SnapshotMeta × Bytes)) (id : String) :
    Option (SnapshotMeta × Bytes) :=
  if .removeSnap id ∈ ops then none else book id

/-- After any number of the file operations of `Close`, a loaded store has the old snapshots or the
new one as well, and has the new one once its data file is in place. -/
def CrashAtomic (gz : Gzip) (s : Store) (sink : FileSnapshotSink) (sorted : List SnapshotMeta)
    (book : String → Option (SnapshotMeta × Bytes)) : Prop :=
  ∀ k, let ops := (closeOps gz s sink sorted).take k
    Holds gz (s.dir.after ops) (without ops (added sink book)) ∨
      .renameSnap sink.info.id ∉ ops ∧ Holds gz (s.dir.after ops) book

/-- A data file that has the name of the new one reads as the new one, or it reads as it did and
has the metadata of the new one already. -/
def Replaceable (gz : Gzip) (d : Directory) (sink : FileSnapshotSink)
    (book : String → Option (SnapshotMeta × Bytes)) : Prop :=
  ∀ file, d.snapFiles.lookup sink.info.id = some file →
    readFile gz file true sink.compression = some sink.chunks.flatten ∨
      ∃ old, book sink.info.id = some (sink.info, old) ∧
        readFile gz file true sink.compression = some old

theorem without_of_not_mem {ops : List FileOp} (h : ∀ x, .removeSnap x ∉ ops) :
    without ops book = book :=
  funext fun x ↦ if_neg (h x)

section Stages

theorem closeOps_eq (gz : Gzip) (s : Store) (sink : FileSnapshotSink) (sorted : List SnapshotMeta) :
    closeOps gz s sink sorted = stageOps gz sink ++ (.renameMeta sink.info.id ::
      .renameSnap sink.info.id :: .sync ::
        (pruned s.retainCount sorted.length sorted).flatMap deleteOps) := by
  unfold closeOps commitOps
  rw [append_assoc]
  rfl

theorem not_mem_take_stageOps {op : FileOp} (h : ¬ op.Hidden) (k : ℕ) :
    op ∉ (stageOps gz sink).take k :=
  fun hop ↦ h (hidden_stageOps gz sink op (mem_of_mem_take hop))

theorem listed_staged (gz : Gzip) (sink : FileSnapshotSink) (d : Directory) (k : ℕ) (x : String) :
    (d.after ((stageOps gz sink).take k)).listed gz x = d.listed gz x := by
  obtain ⟨hsnap, hmeta⟩ :=
    after_hidden (fun op hop ↦ hidden_stageOps gz sink op (mem_of_mem_take hop)) d
  exact listed_congr (by rw [hsnap]) (by rw [hmeta])

variable (htmp : d.tmpFiles.lookup sink.info.id = some (sink.flushed gz))
include htmp

theorem listed_renameMeta (x : String) :
    (d.after (stageOps gz sink ++ [.renameMeta sink.info.id])).listed gz x =
      if x = sink.info.id then (d.snapFiles.lookup sink.info.id).map fun file ↦
        (sink.info, readFile gz file true sink.compression)
      else d.listed gz x := by
  obtain ⟨hsnap, hmeta, -⟩ := after_renameMeta htmp
  split_ifs with hx
  · rw [hx, listed_sidecar (by rw [hmeta, lookup_insert]), hsnap]
  · exact listed_congr (by rw [hsnap]) (by rw [hmeta, lookup_insert_ne hx])

theorem listed_renameSnap (x : String) :
    (d.after (stageOps gz sink ++ [.renameMeta sink.info.id, .renameSnap sink.info.id])).listed gz
    x =
      if x = sink.info.id then some (sink.info,
        readFile gz (sink.data gz ++ footer (sink.data gz)) true sink.compression)
      else d.listed gz x := by
  obtain ⟨hsnap, hmeta⟩ := after_renameSnap htmp
  split_ifs with hx
  · rw [hx, listed_sidecar (by rw [hmeta, lookup_insert]), hsnap, lookup_insert]
    rfl
  · exact listed_congr (by rw [hsnap, lookup_insert_ne hx]) (by rw [hmeta, lookup_insert_ne hx])

theorem holds_renameMeta (hbook : Holds gz d book) {book' : String → Option (SnapshotMeta × Bytes)}
    (hother : ∀ x ≠ sink.info.id, book' x = book x) :
    Holds gz (d.after (stageOps gz sink ++ [.renameMeta sink.info.id])) book' ↔
      (d.snapFiles.lookup sink.info.id).map (fun file ↦
        (sink.info, readFile gz file true sink.compression)) =
      (book' sink.info.id).map fun b ↦ (b.1, some b.2) := by
  refine ⟨fun h ↦ ?_, fun h x ↦ ?_⟩
  · rw [← h, listed_renameMeta htmp, if_pos rfl]
  · rw [listed_renameMeta htmp]
    split_ifs with hx
    · rw [hx, h]
    · rw [hother x hx, hbook x]

theorem replaceable_iff (hbook : Holds gz d book) :
    Holds gz (d.after (stageOps gz sink ++ [.renameMeta sink.info.id])) (added sink book) ∨
      Holds gz (d.after (stageOps gz sink ++ [.renameMeta sink.info.id])) book ↔
    Replaceable gz d sink book := by
  rw [holds_renameMeta htmp hbook fun x hx ↦ update_of_ne hx _ _,
    holds_renameMeta htmp hbook fun _ _ ↦ rfl, added, update_self]
  have hid := hbook sink.info.id
  rw [listed_eq] at hid
  unfold Replaceable
  cases hfile : d.snapFiles.lookup sink.info.id with
  | none =>
    rw [hfile] at hid
    exact iff_of_true (.inr hid) fun file h ↦ by cases h
  | some file =>
    have hnew : Option.map (fun file ↦ (sink.info, readFile gz file true sink.compression))
        (some file) = Option.map (fun b : SnapshotMeta × Bytes ↦ (b.1, some b.2))
        (some (sink.info, sink.chunks.flatten)) ↔
        readFile gz file true sink.compression = some sink.chunks.flatten := by simp
    have hold : Option.map (fun file ↦ (sink.info, readFile gz file true sink.compression))
        (some file) = (book sink.info.id).map (fun b ↦ (b.1, some b.2)) ↔
        ∃ old, book sink.info.id = some (sink.info, old) ∧
          readFile gz file true sink.compression = some old := by
      cases book sink.info.id with
      | none => simp
      | some b =>
        simp only [Option.map_some, Option.some.injEq, Prod.ext_iff]
        exact ⟨fun ⟨h, h'⟩ ↦ ⟨b.2, ⟨h.symm, rfl⟩, h'⟩, fun ⟨old, ⟨h, h'⟩, h''⟩ ↦ ⟨h.symm, h' ▸ h''⟩⟩
    rw [hnew, hold]
    exact ⟨fun h file' hf ↦ Option.some.inj hf ▸ h, fun h ↦ h file rfl⟩

theorem holds_renameSnap (hbook : Holds gz d book)
    (hdata : sink.chunks.flatten ≠ [] ∨ sink.compressed = true) (ids : List String) (k : ℕ) :
    Holds gz ((d.after (stageOps gz sink ++
      [.renameMeta sink.info.id, .renameSnap sink.info.id])).after
        ((FileOp.sync :: ids.flatMap deleteOps).take k))
      (without ((FileOp.sync :: ids.flatMap deleteOps).take k) (added sink book)) := by
  intro x
  rw [listed_pruning, listed_renameSnap htmp, (readFile_data gz sink).mpr hdata]
  unfold without added
  split_ifs with hrem hx
  · rfl
  · rw [hx, update_self]
    rfl
  · rw [update_of_ne hx, hbook x]

theorem data_of_holds (h : Holds gz (d.after (stageOps gz sink ++
      [.renameMeta sink.info.id, .renameSnap sink.info.id])) (added sink book)) :
    sink.chunks.flatten ≠ [] ∨ sink.compressed = true := by
  have hid := h sink.info.id
  rw [listed_renameSnap htmp, if_pos rfl, added, update_self] at hid
  exact (readFile_data gz sink).mp (congrArg Prod.snd (Option.some.inj hid))

end Stages

theorem crashAtomic_iff_of_writing {w : Store × FileSnapshotSink} (hw : Writing gz s w)
    (hbook : Holds gz s.dir book) (sorted : List SnapshotMeta) :
    CrashAtomic gz w.1 w.2 sorted book ↔
      (w.2.chunks.flatten ≠ [] ∨ w.2.compressed = true) ∧ Replaceable gz s.dir w.2 book := by
  have hsnap : w.1.dir.snapFiles = s.dir.snapFiles := by rw [hw.rest]
  have hmeta : w.1.dir.metaFiles = s.dir.metaFiles := by rw [hw.rest]
  have hbook' : Holds gz w.1.dir book := fun x ↦
    (listed_congr (by rw [hsnap]) (by rw [hmeta])).trans (hbook x)
  have hrep : Replaceable gz s.dir w.2 book ↔ Replaceable gz w.1.dir w.2 book := by
    unfold Replaceable
    rw [hsnap]
  rw [hrep, ← replaceable_iff hw.tmp hbook']
  unfold CrashAtomic
  rw [closeOps_eq]
  dsimp only
  generalize (pruned w.1.retainCount sorted.length sorted) = ids
  have hmem : ∀ x ops, .removeSnap x ∈ stageOps gz w.2 ++ ops ↔ .removeSnap x ∈ ops := fun x ops ↦
    mem_append.trans (or_iff_right fun hop ↦ hidden_stageOps gz w.2 _ hop)
  have hone : ∀ x, .removeSnap x ∉ stageOps gz w.2 ++ [.renameMeta w.2.info.id] := fun x ↦ by
    rw [hmem]
    simp
  have htwo : ∀ x, .removeSnap x ∉ stageOps gz w.2 ++
      [.renameMeta w.2.info.id, .renameSnap w.2.info.id] :=
    fun x ↦ by
      rw [hmem]
      simp
  have hrename : .renameSnap w.2.info.id ∉ stageOps gz w.2 ++ [.renameMeta w.2.info.id] := by
    rw [mem_append]
    exact not_or.mpr ⟨fun hop ↦ hidden_stageOps gz w.2 _ hop, by simp⟩
  constructor
  · intro h
    refine ⟨?_, ?_⟩
    · have hsecond := h ((stageOps gz w.2).length + 2)
      rw [take_length_add_append, take_succ_cons, take_succ_cons, take_zero,
        without_of_not_mem htwo] at hsecond
      exact data_of_holds hw.tmp (hsecond.resolve_right fun hno ↦ hno.1 (by simp))
    · have hfirst := h ((stageOps gz w.2).length + 1)
      rw [take_length_add_append, take_succ_cons, take_zero,
        without_of_not_mem hone] at hfirst
      exact hfirst.imp_right And.right
  · rintro ⟨hdata, hmid⟩ k
    by_cases hk : k ≤ (stageOps gz w.2).length
    · rw [take_append_of_le_length hk]
      exact .inr ⟨not_mem_take_stageOps id k,
        fun x ↦ (listed_staged gz w.2 w.1.dir k x).trans (hbook' x)⟩
    · obtain ⟨j, rfl⟩ := Nat.exists_eq_add_of_le (not_le.mp hk)
      cases j with
      | zero =>
        rw [Nat.add_zero, take_length_add_append, take_succ_cons,
          take_zero, without_of_not_mem hone]
        exact hmid.imp_right fun h ↦ ⟨hrename, h⟩
      | succ j =>
        have hsplit : (stageOps gz w.2).length.succ + (j + 1) = (stageOps gz w.2).length +
            (j + 2) := by omega
        rw [hsplit, take_length_add_append, take_succ_cons, take_succ_cons]
        have hholds := holds_renameSnap hw.tmp hbook' hdata ids j
        generalize (FileOp.sync :: ids.flatMap deleteOps).take j = ops at *
        have hdir : w.1.dir.after (stageOps gz w.2 ++
            .renameMeta w.2.info.id :: .renameSnap w.2.info.id :: ops) = (w.1.dir.after
              (stageOps gz w.2 ++ [.renameMeta w.2.info.id, .renameSnap w.2.info.id])).after
              ops := by
          rw [← Directory.after_append, append_assoc]
          rfl
        have hwithout : without (stageOps gz w.2 ++
            .renameMeta w.2.info.id :: .renameSnap w.2.info.id :: ops) (added w.2 book) =
              without ops (added w.2 book) :=
          funext fun x ↦ if_congr ((hmem x _).trans (by simp)) rfl rfl
        rw [hdir, hwithout]
        exact .inl hholds

/-- Closing a snapshot is atomic if it is not empty and uncompressed, and what is stored under its
name, if anything, can be taken for it or for what it was between the two renames. -/
theorem crashAtomic_iff (gz : Gzip) (s : Store) (book : String → Option (SnapshotMeta × Bytes))
    (hbook : Holds gz s.dir book) (version index term : ℕ) (configuration : Configuration)
    (chunks : List Bytes) (sorted : List SnapshotMeta) :
    let w := Store.writeAll gz (s.create version index term configuration) chunks
    CrashAtomic gz w.1 w.2 sorted book ↔
      (chunks.flatten ≠ [] ∨ s.compression = true) ∧ Replaceable gz s.dir w.2 book := by
  obtain ⟨hw, hsink⟩ := writing_writeAll
    (writing_create gz s version index term configuration) chunks
  dsimp only
  rw [crashAtomic_iff_of_writing hw hbook, hsink]
  rfl

/-- One uncompressed snapshot is stored, and compression is then turned on. -/
def Store.switched : Store :=
  { (Store.fresh false).take Gzip.tagged 1 5 2 ⟨[]⟩ [[1]] [⟨"2-5", 5, 2, ⟨[]⟩, 1⟩] with
    compression := true }

def switchedBook (id : String) : Option (SnapshotMeta × Bytes) :=
  if id = "2-5" then some (⟨"2-5", 5, 2, ⟨[]⟩, 1⟩, [1]) else none

theorem holds_switched : Holds Gzip.tagged Store.switched.dir switchedBook := by
  have hfiles : Store.switched.dir.snapFiles.keys = ["2-5"] := by decide +kernel
  intro id
  by_cases hid : id = "2-5"
  · rw [hid]
    decide +kernel
  · have hnone : Store.switched.dir.snapFiles.lookup id = none := by
      rw [lookup_eq_none, AList.mem_keys, hfiles]
      simpa using hid
    rw [listed_eq, hnone, switchedBook, if_neg hid]
    rfl

theorem crashAtomic_switched :
    let w := Store.writeAll Gzip.tagged (Store.switched.create 1 7 2 ⟨[]⟩) [[2]]
    CrashAtomic Gzip.tagged w.1 w.2
    [⟨"2-7", 7, 2, ⟨[]⟩, 1⟩, ⟨"2-5", 5, 2, ⟨[]⟩, 1⟩] switchedBook := by
  refine (crashAtomic_iff Gzip.tagged _ _ holds_switched 1 7 2 ⟨[]⟩ [[2]] _).mpr
    ⟨.inl (by decide), fun file hfile ↦ ?_⟩
  have hnone : Store.switched.dir.snapFiles.lookup "2-7" = none := by decide +kernel
  cases hnone.symm.trans hfile

/-- The snapshot is taken again with compression. Between the two renames the store lists it, and
cannot read it. -/
theorem switched_torn :
    let w := Store.writeAll Gzip.tagged (Store.switched.create 1 5 2 ⟨[]⟩) [[1]]
    let sorted : List SnapshotMeta := [⟨"2-5", 5, 2, ⟨[]⟩, 1⟩, ⟨"2-5", 5, 2, ⟨[]⟩, 1⟩]
    (w.1.dir.after ((closeOps Gzip.tagged w.1 w.2 sorted).take 7)).listed Gzip.tagged "2-5" =
        some (⟨"2-5", 5, 2, ⟨[]⟩, 1⟩, none) ∧
      Holds Gzip.tagged Store.switched.dir switchedBook ∧
      ¬ CrashAtomic Gzip.tagged w.1 w.2 sorted switchedBook := by
  intro w sorted
  have hlisted : (w.1.dir.after ((closeOps Gzip.tagged w.1 w.2 sorted).take 7)).listed
      Gzip.tagged "2-5" = some (⟨"2-5", 5, 2, ⟨[]⟩, 1⟩, none) := by decide +kernel
  refine ⟨hlisted, holds_switched, fun h ↦ ?_⟩
  have hread : ∀ {book : String → Option (SnapshotMeta × Bytes)},
      ¬ Holds Gzip.tagged (w.1.dir.after ((closeOps Gzip.tagged w.1 w.2 sorted).take 7)) book := by
    intro book hbook
    have hid := hbook "2-5"
    rw [hlisted] at hid
    cases hb : book "2-5" with
    | none =>
      rw [hb] at hid
      cases hid
    | some b =>
      rw [hb] at hid
      cases congrArg Prod.snd (Option.some.inj hid)
  exact (h 7).elim hread fun h' ↦ hread h'.2

end RaftConsensus.SnapshotFiles
