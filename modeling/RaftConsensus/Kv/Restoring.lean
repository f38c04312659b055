import RaftConsensus.Kv.Replay

namespace RaftConsensus.Kv

/-- What `Restore` finds in the bytes: a snapshot of the binary or the versioned JSON format, the
pairs of the legacy map, or a fault. -/
inductive Decoded
  | snapshot (snap : KvSnapshot)
  | legacy (pairs : List (Bytes × Bytes))
  | invalid (fault : Fault)

def decoded (json : Json) (bytes : Bytes) : Decoded :=
  if bytes.head? = some snapStreamMagic then
    match readSnapshotStream json bytes.tail with
    | .error fault => .invalid fault
    | .ok (snap, _) => .snapshot snap
  else
    (json.envelope bytes).elim ((json.legacy bytes).elim (.invalid .corrupt) .legacy) .snapshot

namespace KVStore

variable {json : Json} {bytes : Bytes} {s t : KVStore}

def legacyData (pairs : List (Bytes × Bytes)) : KeyData :=
  pairs.foldl (fun data p ↦ data.insert p.1 ⟨p.1, p.2, 0, 0, 0, 0⟩) ∅

theorem restore_snapshot {snap : KvSnapshot} (h : decoded json bytes = .snapshot snap)
    (s : KVStore) : s.restore json bytes =
      (s.restoreWith snap.data snap.revision snap.index snap.applyTimeMs snap.dedup, .ok ()) := by
  unfold decoded at h
  unfold restore
  split_ifs at h ⊢ with hhead
  · cases hread : readSnapshotStream json bytes.tail with
    | error fault =>
      rw [hread] at h
      cases h
    | ok x =>
      rw [hread] at h
      cases h
      rfl
  · cases henv : json.envelope bytes with
    | some snap' =>
      rw [henv] at h
      cases h
      rfl
    | none =>
      rw [henv] at h
      cases hleg : json.legacy bytes <;> rw [hleg] at h <;> cases h

variable {pairs : List (Bytes × Bytes)}

theorem restore_legacy (h : decoded json bytes = .legacy pairs)
    (s : KVStore) : s.restore json bytes =
      (s.restoreWith (legacyData pairs) 0 s.index s.applyTimeMs ∅, .ok ()) := by
  unfold decoded at h
  unfold restore
  split_ifs at h ⊢ with hhead
  · cases hread : readSnapshotStream json bytes.tail <;> rw [hread] at h <;> cases h
  · cases henv : json.envelope bytes with
    | some snap =>
      rw [henv] at h
      cases h
    | none =>
      rw [henv] at h
      cases hleg : json.legacy bytes with
      | none =>
        rw [hleg] at h
        cases h
      | some pairs' =>
        rw [hleg] at h
        cases h
        rfl

/-- The history and the channel are emptied before anything is decoded. -/
theorem restore_invalid {fault : Fault} (h : decoded json bytes = .invalid fault) (s : KVStore) :
    s.restore json bytes =
      (s.restoreWith s.data s.revision s.index s.applyTimeMs s.dedupTable, .error fault) := by
  unfold decoded at h
  unfold restore
  split_ifs at h ⊢ with hhead
  · cases hread : readSnapshotStream json bytes.tail with
    | error fault =>
      rw [hread] at h
      cases h
      rfl
    | ok x =>
      rw [hread] at h
      cases h
  · cases henv : json.envelope bytes with
    | some snap =>
      rw [henv] at h
      cases h
    | none =>
      rw [henv] at h
      cases hleg : json.legacy bytes <;> rw [hleg] at h <;> cases h
      rfl

structure SameState (s t : KVStore) : Prop where
  data : s.data = t.data
  revision : s.revision = t.revision
  index : s.index = t.index
  applyTimeMs : s.applyTimeMs = t.applyTimeMs
  dedupTable : s.dedupTable = t.dedupTable
  history : s.history = t.history
  eventCh : s.eventCh = t.eventCh

theorem sameState_restoreWith (s t : KVStore) (data : KeyData) (revision : ℤ) (index : ℕ)
    (applyTimeMs : ℤ) (dedup : DedupTable) :
    SameState (s.restoreWith data revision index applyTimeMs dedup)
      (t.restoreWith data revision index applyTimeMs dedup) :=
  ⟨rfl, rfl, rfl, rfl, rfl, rfl, rfl⟩

/-- A restore depends on the store before it exactly through the apply index and the clock, which
the legacy format leaves as they were. -/
theorem restore_determined_iff (h : (s.restore json bytes).2 = .ok ()) :
    (t.restore json bytes).2 = .ok () ∧
      (SameState (s.restore json bytes).1 (t.restore json bytes).1 ↔
        ∀ pairs, decoded json bytes = .legacy pairs →
          s.index = t.index ∧ s.applyTimeMs = t.applyTimeMs) := by
  cases hd : decoded json bytes with
  | snapshot snap =>
    rw [restore_snapshot hd, restore_snapshot hd]
    exact ⟨rfl, iff_of_true (sameState_restoreWith _ _ _ _ _ _ _) nofun⟩
  | legacy pairs =>
    rw [restore_legacy hd, restore_legacy hd]
    refine ⟨rfl, fun hsame pairs' _ ↦ ⟨hsame.index, hsame.applyTimeMs⟩, fun hcond ↦ ?_⟩
    obtain ⟨hindex, hclock⟩ := hcond pairs rfl
    rw [hindex, hclock]
    exact sameState_restoreWith _ _ _ _ _ _ _
  | invalid fault =>
    rw [restore_invalid hd] at h
    cases h

theorem decoded_stream (h : bytes.head? = some snapStreamMagic) :
    decoded json bytes ≠ .legacy pairs := by
  unfold decoded
  rw [if_pos h]
  cases readSnapshotStream json bytes.tail <;> exact nofun

/-- Two keys, one of them with an expiry, and the cached answer to a client. -/
def written : KVStore :=
  (new.run [encodeCommandWithTTL .put (ascii "a") (ascii "1") (ascii "c") 7 1000 60,
    encodeSet (ascii "b") (ascii "2")]).1

def writtenStream : Bytes :=
  writeSnapshotStream textJson written.revision written.index written.applyTimeMs
    written.data.entries written.dedupTable.entries

theorem restore_writtenStream : (new.restore textJson writtenStream).2 = .ok () ∧
    SameState (new.restore textJson writtenStream).1
      ((new.apply putA).1.restore textJson writtenStream).1 := by
  have h : (new.restore textJson writtenStream).2 = .ok () := by decide +kernel
  refine ⟨h, (restore_determined_iff h).2.mpr fun pairs hd ↦ absurd hd (decoded_stream ?_)⟩
  rfl

def mapText : Bytes := ascii "\x7b\"k\":\"v\"\x7d"

def mapJson : Json where
  marshal := textJson.marshal
  unmarshal := textJson.unmarshal
  marshal_unmarshal := textJson.marshal_unmarshal
  envelope _ := none
  legacy bytes := if bytes = mapText then some [(ascii "k", ascii "v")] else none

theorem restore_mapText_differs : (new.restore mapJson mapText).2 = .ok () ∧
    ¬ SameState (new.restore mapJson mapText).1
      ((new.apply putA).1.restore mapJson mapText).1 := by
  refine ⟨by decide +kernel, fun h ↦ ?_⟩
  exact absurd h.index (by decide +kernel)

structure Unchanged (s t : KVStore) : Prop where
  data : t.data = s.data
  revision : t.revision = s.revision
  index : t.index = s.index
  applyTimeMs : t.applyTimeMs = s.applyTimeMs
  dedupTable : t.dedupTable = s.dedupTable
  history : t.history.toList = s.history.toList
  eventCh : t.eventCh = s.eventCh

/-- A restore that fails loses the history and the queued events, and nothing else. -/
theorem restore_failed_iff {fault : Fault} (h : (s.restore json bytes).2 = .error fault) :
    Unchanged s (s.restore json bytes).1 ↔ s.history.toList = [] ∧ s.eventCh = [] := by
  cases hd : decoded json bytes with
  | snapshot snap =>
    rw [restore_snapshot hd] at h
    cases h
  | legacy pairs =>
    rw [restore_legacy hd] at h
    cases h
  | invalid fault =>
    rw [restore_invalid hd]
    constructor
    · intro hu
      exact ⟨hu.history.symm, hu.eventCh.symm⟩
    · rintro ⟨hhist, hch⟩
      exact ⟨rfl, rfl, rfl, rfl, rfl, hhist.symm, hch.symm⟩

/-- A restored store has keys but no history, and its stream cut off by one byte is refused. -/
theorem restore_truncated_written :
    let s := (new.restore textJson writtenStream).1
    s.data.entries.length = 2 ∧
      (s.restore textJson (writtenStream.take (writtenStream.length - 1))).2 = .error .corrupt ∧
      Unchanged s (s.restore textJson (writtenStream.take (writtenStream.length - 1))).1 := by
  intro s
  have h : (s.restore textJson (writtenStream.take (writtenStream.length - 1))).2 =
      .error .corrupt := by decide +kernel
  exact ⟨by decide +kernel, h, (restore_failed_iff h).mpr ⟨by decide +kernel, by decide +kernel⟩⟩

/-- A stream that ends after its first byte: the event of the put is gone. -/
theorem restore_truncated_changes :
    ((new.apply putA).1.restore textJson [snapStreamMagic]).2 = .error .corrupt ∧
      ¬ Unchanged (new.apply putA).1 ((new.apply putA).1.restore textJson [snapStreamMagic]).1 := by
  refine ⟨by decide +kernel, fun h ↦ ?_⟩
  exact absurd h.history (by decide +kernel)

end KVStore

end RaftConsensus.Kv
