import RaftConsensus.Kv.Replay
import RaftConsensus.Kv.Written

namespace RaftConsensus.Kv.KVStore

open List

variable {json : Json} {s t : KVStore} {cmd : KvCommand} {taken : List Bytes}
  {done done' : List (KVStore × KvCommand)}

/-- The runs of a store: commands, snapshots of it in the binary format, and restores of these.
`done` keeps each command with the store that it was applied to. -/
inductive Session (json : Json) : KVStore → List Bytes → List (KVStore × KvCommand) → Prop
  | new : Session json new [] []
  | apply {s : KVStore} {taken : List Bytes} {done : List (KVStore × KvCommand)}
    (h : Session json s taken done) (cmd : KvCommand) :
    Session json (s.apply cmd).1 taken (done ++ [(s, cmd)])
  | snapshot {s : KVStore} {taken : List Bytes} {done : List (KVStore × KvCommand)}
    (h : Session json s taken done) {bytes : Bytes} (hb : s.snapshot.Streams json bytes) :
    Session json s (bytes :: taken) done
  | restore {s : KVStore} {taken : List Bytes} {done : List (KVStore × KvCommand)}
    (h : Session json s taken done) {bytes : Bytes} (hb : bytes ∈ taken) :
    Session json (s.restore json bytes).1 taken done

structure Counted (revision : ℤ) (key : Bytes) (kv : KeyValue) : Prop where
  key : kv.key = key
  one_le : 1 ≤ kv.createRevision
  create_le : kv.createRevision ≤ kv.modRevision
  mod_le : kv.modRevision ≤ revision

/-- A bound on the puts of a run. -/
def puts (done : List (KVStore × KvCommand)) : ℕ := (done.map fun p ↦ p.2.puts).sum

/-- Versions are `int64`, and wrap around after too many puts. -/
def Versions (n : ℕ) (_ : Bytes) (kv : KeyValue) : Prop :=
  n < 2 ^ 63 → 1 ≤ kv.version ∧ kv.version ≤ n

structure RevisionsSound (done : List (KVStore × KvCommand)) (s : KVStore) : Prop where
  nonneg : 0 ≤ s.revision
  le_max : s.revision ≤ maxRevision
  pairs : Stores (Counted s.revision) s.data
  versions : Stores (Versions (puts done)) s.data
  shared : ∀ key key' kv kv', s.data.lookup key = some kv → s.data.lookup key' = some kv' →
    key ≠ key' → kv.modRevision = kv'.modRevision →
    ∃ p ∈ done, p.2.op = .txn ∧ p.1.Writes p.2 key kv ∧ p.1.Writes p.2 key' kv'
  history : s.history.toList.Pairwise (·.revision ≤ ·.revision)
  history_le : ∀ e ∈ s.history.toList, e.revision ≤ s.revision

theorem inherited_counted {revision : ℤ} (h : 1 ≤ revision) :
    Inherited (fun _ ↦ Counted revision) revision := by
  refine ⟨fun _ _ _ hkv ↦ hkv, fun _ key value prev expiresAt hprev ↦ ?_⟩
  cases prev with
  | none => exact ⟨rfl, h, le_rfl, le_rfl⟩
  | some kv =>
    have hkv := hprev kv rfl
    exact ⟨rfl, hkv.one_le, hkv.create_le.trans hkv.mod_le, le_rfl⟩

theorem inherited_versions (revision : ℤ) : Inherited Versions revision := by
  refine ⟨fun n key kv hkv hn ↦ ?_, fun n key value prev expiresAt hprev hn ↦ ?_⟩
  · obtain ⟨hpos, hle⟩ := hkv (by omega)
    omega
  · cases prev with
    | none => exact ⟨le_rfl, by change (1 : ℤ) ≤ _; omega⟩
    | some kv =>
      obtain ⟨hpos, hle⟩ := hprev kv rfl (by omega)
      have hnext : int64 (kv.version + 1) = kv.version + 1 :=
        Int.bmod_eq_of_le (by omega) (by omega)
      change 1 ≤ int64 _ ∧ int64 _ ≤ _
      rw [hnext]
      omega

theorem Counted.mono {revision revision' : ℤ} {key : Bytes} {kv : KeyValue}
    (h : Counted revision key kv) (hle : revision ≤ revision') : Counted revision' key kv :=
  ⟨h.key, h.one_le, h.create_le, h.mod_le.trans hle⟩

theorem stored_or_writes {key : Bytes} {kv : KeyValue}
    (h : (s.apply cmd).1.data.lookup key = some kv) :
    s.data.lookup key = some kv ∨ s.Writes cmd key kv :=
  or_iff_not_imp_left.mpr fun hne ↦ ⟨h, hne⟩

theorem RevisionsSound.pairs_apply (h : RevisionsSound done s) (cmd : KvCommand) :
    Stores (Counted (s.apply cmd).1.revision) (s.apply cmd).1.data := by
  have hle : s.revision ≤ (s.apply cmd).1.revision := (s.follows_apply cmd).revision_le
  have hnonneg := h.nonneg
  have hstores : Stores (Counted (s.revision + 1)) (s.apply cmd).1.data := by
    refine stores_apply (n := 0) (inherited_counted (by omega)) (fun key kv hkv ↦ ?_) cmd
    exact (h.pairs key kv hkv).mono (by omega)
  intro key kv hkv
  rcases stored_or_writes hkv with hold | hw
  · exact (h.pairs key kv hold).mono hle
  · rw [hw.modRevision_eq.2]
    exact hstores key kv hkv

theorem RevisionsSound.shared_apply (h : RevisionsSound done s) (cmd : KvCommand)
    {key key' : Bytes} {kv kv' : KeyValue} (hkv : (s.apply cmd).1.data.lookup key = some kv)
    (hkv' : (s.apply cmd).1.data.lookup key' = some kv') (hne : key ≠ key')
    (hmod : kv.modRevision = kv'.modRevision) :
    ∃ p ∈ done ++ [(s, cmd)], p.2.op = .txn ∧ p.1.Writes p.2 key kv ∧ p.1.Writes p.2 key' kv' := by
  -- an old pair and a new one differ in their revisions
  rcases stored_or_writes hkv with hold | hw <;> rcases stored_or_writes hkv' with hold' | hw'
  · obtain ⟨p, hp, hwrites⟩ := h.shared key key' kv kv' hold hold' hne hmod
    exact ⟨p, mem_append_left _ hp, hwrites⟩
  · have hle := (h.pairs key kv hold).mod_le
    have heq := hw'.modRevision_eq.1
    omega
  · have hle := (h.pairs key' kv' hold').mod_le
    have heq := hw.modRevision_eq.1
    omega
  · exact ⟨(s, cmd), by simp, hw.txn hw' hne, hw, hw'⟩

theorem RevisionsSound.apply (h : RevisionsSound done s) (cmd : KvCommand) :
    RevisionsSound (done ++ [(s, cmd)]) (s.apply cmd).1 := by
  have hf := s.follows_apply cmd
  have hle : s.revision ≤ (s.apply cmd).1.revision := hf.revision_le
  have hnonneg := h.nonneg
  have hmax := h.le_max
  refine ⟨by omega, ?_, h.pairs_apply cmd, ?_, fun key key' kv kv' ↦ h.shared_apply cmd, ?_, ?_⟩
  · rcases s.revision_apply cmd with heq | ⟨hlt, heq⟩ <;> omega
  · rw [puts, map_append, sum_append, map_singleton, sum_singleton]
    exact stores_apply (inherited_versions _) h.versions cmd
  · rw [hf.history, Ring.toList_foldl_push]
    refine List.Pairwise.sublist (drop_sublist _ _) ?_
    refine pairwise_append.mpr ⟨h.history, hf.order, fun a ha b hb ↦ ?_⟩
    exact (h.history_le a ha).trans (hf.revision b hb).1.le
  · intro e he
    rw [hf.history, Ring.toList_foldl_push] at he
    rcases mem_append.mp (mem_of_mem_drop he) with he | he
    · exact (h.history_le e he).trans hle
    · exact (hf.revision e he).2

theorem RevisionsSound.restore (h : RevisionsSound done t) {bytes : Bytes}
    (hb : t.snapshot.Streams json bytes) (s : KVStore) :
    RevisionsSound done (s.restore json bytes).1 ∧
      (s.restore json bytes).1.revision = t.revision := by
  have hkeyed : Keyed t.data := fun key kv hkv ↦ (h.pairs key kv hkv).key
  obtain ⟨data, dedup, heq, hdata, -⟩ := restore_stream hkeyed s hb
  rw [heq]
  refine ⟨⟨h.nonneg, h.le_max, fun key kv hkv ↦ ?_, fun key kv hkv ↦ ?_,
    fun key key' kv kv' hkv hkv' ↦ ?_, .nil, forall_mem_nil _⟩, rfl⟩
  · exact h.pairs key kv ((hdata key).symm.trans hkv)
  · exact h.versions key kv ((hdata key).symm.trans hkv)
  · exact h.shared key key' kv kv' ((hdata key).symm.trans hkv) ((hdata key').symm.trans hkv')

theorem RevisionsSound.mono (h : RevisionsSound done s) (hsub : done <+: done') :
    RevisionsSound done' s := by
  obtain ⟨rest, rfl⟩ := hsub
  refine { h with versions := ?_, shared := fun key key' kv kv' hkv hkv' hne hmod ↦ ?_ }
  · rw [puts, map_append, sum_append]
    exact h.versions.mono (inherited_versions 0) _
  obtain ⟨p, hp, hwrites⟩ := h.shared key key' kv kv' hkv hkv' hne hmod
  exact ⟨p, mem_append_left _ hp, hwrites⟩

theorem revisionsSound_new : RevisionsSound [] new := by
  refine ⟨le_rfl, by decide, fun key kv h ↦ ?_, fun key kv h ↦ ?_, fun key key' kv kv' h ↦ ?_,
    .nil, forall_mem_nil _⟩ <;> cases h

structure TakenOf (json : Json) (done : List (KVStore × KvCommand)) (bytes : Bytes) (t : KVStore) :
    Prop where
  streams : t.snapshot.Streams json bytes
  reached : ∃ taken done', done' <+: done ∧ Session json t taken done' ∧ RevisionsSound done' t

theorem Session.sound (h : Session json s taken done) :
    RevisionsSound done s ∧ ∀ bytes ∈ taken, ∃ t, TakenOf json done bytes t := by
  induction h with
  | new => exact ⟨revisionsSound_new, forall_mem_nil _⟩
  | @apply s taken done h cmd ih =>
    refine ⟨ih.1.apply cmd, fun bytes hb ↦ ?_⟩
    obtain ⟨t, ht⟩ := ih.2 bytes hb
    obtain ⟨taken', done', hsub, hreached⟩ := ht.reached
    exact ⟨t, ht.streams, taken', done', hsub.trans (prefix_append _ _), hreached⟩
  | @snapshot s taken done h bytes hb ih =>
    refine ⟨ih.1, fun bytes' hb' ↦ ?_⟩
    rcases mem_cons.mp hb' with rfl | hb'
    · exact ⟨s, hb, taken, done, prefix_rfl, h, ih.1⟩
    · exact ih.2 bytes' hb'
  | @restore s taken done h bytes hb ih =>
    obtain ⟨t, ht⟩ := ih.2 bytes hb
    obtain ⟨taken', done', hsub, -, hsound⟩ := ht.reached
    exact ⟨((hsound.mono hsub).restore ht.streams s).1, ih.2⟩

/-- The revision of a store never decreases by a command; a restore takes it back to where the
snapshot was taken. -/
theorem revision_invariants (h : Session json s taken done) : RevisionsSound done s ∧
    (∀ cmd, s.revision ≤ (s.apply cmd).1.revision) ∧
    ∀ bytes ∈ taken, ∃ t, (∃ taken' done', done' <+: done ∧ Session json t taken' done') ∧
      t.snapshot.Streams json bytes ∧ (s.restore json bytes).1.revision = t.revision := by
  obtain ⟨hsound, htaken⟩ := h.sound
  refine ⟨hsound, fun cmd ↦ (s.follows_apply cmd).revision_le, fun bytes hb ↦ ?_⟩
  obtain ⟨t, ht⟩ := htaken bytes hb
  obtain ⟨taken', done', hsub, hreached, hsound'⟩ := ht.reached
  exact ⟨t, ⟨taken', done', hsub, hreached⟩, ht.streams, (hsound'.restore ht.streams s).2⟩

def putOnce : KVStore := (new.apply putA).1

def onceStream : Bytes :=
  writeSnapshotStream textJson putOnce.revision putOnce.index putOnce.applyTimeMs
    putOnce.data.entries putOnce.dedupTable.entries

theorem fits_putOnce : putOnce.snapshot.Fits textJson := by
  constructor <;> decide +kernel

/-- A key is put, a snapshot is taken, and the key is put once more. -/
theorem session_putOnce :
    Session textJson (putOnce.apply putA).1 [onceStream] [(new, putA), (putOnce, putA)] :=
  .apply (.snapshot (.apply .new putA) ⟨fits_putOnce, _, _, .refl _, .refl _, rfl⟩) putA

theorem revision_invariants_putOnce :
    RevisionsSound [(new, putA), (putOnce, putA)] (putOnce.apply putA).1 ∧
      (putOnce.apply putA).1.data.keys = [ascii "a"] :=
  ⟨(revision_invariants session_putOnce).1, by decide +kernel⟩

theorem revision_decreases : ∃ s taken done, Session textJson s taken done ∧
    ∃ bytes ∈ taken, (s.restore textJson bytes).1.revision < s.revision :=
  ⟨_, _, _, session_putOnce, onceStream, mem_singleton_self _, by decide +kernel⟩

end RaftConsensus.Kv.KVStore
