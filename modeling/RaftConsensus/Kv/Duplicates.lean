import RaftConsensus.Kv.Store

namespace RaftConsensus.Kv

open List Option AList

namespace Contents

variable {s : Contents} {cmd : KvCommand}

def mutates (s : Contents) (cmd : KvCommand) : Bool :=
  match cmd.op with
  | .set | .put => !s.revisionExhausted
  | .delete => (s.live cmd.key).isSome && !s.revisionExhausted
  | .incr => (s.incrSum cmd).isOk
  | .txn => cmd.txn.isSome
  | _ => false

def alters (s : Contents) (cmd : KvCommand) : Bool :=
  s.mutates cmd || (cmd.op = .tick && s.expired ≠ [] && !s.revisionExhausted)

theorem execute_isMutation (s : Contents) (cmd : KvCommand) :
    (s.execute cmd).2.2 = s.mutates cmd := by
  unfold execute mutates
  cases cmd.op with
  | tick => rfl
  | set => cases s.revisionExhausted <;> rfl
  | get => cases s.live cmd.key <;> rfl
  | delete => cases s.live cmd.key <;> cases s.revisionExhausted <;> rfl
  | list => rfl
  | put => cases s.revisionExhausted <;> rfl
  | getV2 => cases s.live cmd.key <;> rfl
  | range => rfl
  | incr =>
    simp only
    cases s.incrSum cmd <;> rfl
  | txn => cases cmd.txn <;> rfl
  | other name => rfl

@[simp]
theorem putEvent_revision (s : Contents) (key value : Bytes) (prev : Option KeyValue)
    (expiresAt : ℤ) : (s.putEvent key value prev expiresAt).1.revision = s.revision + 1 :=
  emitEvents_revision _ _

theorem sortStrings_eq_nil {l : List Bytes} : sortStrings l = [] ↔ l = [] := by
  rw [← length_eq_zero_iff, ← length_eq_zero_iff, sortStrings, length_insertionSort]

theorem sweepExpiredLocked_spec (s : Contents) :
    s.sweepExpiredLocked.1 = s ∧ (s.expired = [] ∨ s.revisionExhausted = true) ∨
      s.sweepExpiredLocked.1.revision = s.revision + 1 ∧ s.expired ≠ [] ∧
        s.revisionExhausted = false := by
  unfold sweepExpiredLocked
  dsimp only
  split
  · rename_i h
    rw [sortStrings_eq_nil] at h
    exact .inl ⟨rfl, h⟩
  · rename_i h
    rw [sortStrings_eq_nil, not_or, Bool.not_eq_true] at h
    exact .inr ⟨emitEvents_revision _ _, h⟩

theorem execute_of_not_alters (h : s.alters cmd = false) : (s.execute cmd).1 = s := by
  unfold alters mutates at h
  unfold execute
  cases ho : cmd.op with
  | tick =>
    rcases s.sweepExpiredLocked_spec with ⟨heq, -⟩ | ⟨-, he, hr⟩
    · exact heq
    · simp [ho, he, hr] at h
  | set =>
    have hr : s.revisionExhausted = true := by simpa [ho] using h
    simp only [hr, if_true]
  | get => cases s.live cmd.key <;> rfl
  | delete =>
    simp only [ho, reduceCtorEq, decide_false, Bool.false_and, Bool.or_false] at h
    dsimp only
    split
    · rfl
    · rename_i kv hl
      have hr : s.revisionExhausted = true := by simpa [hl] using h
      simp only [hr, if_true]
  | list => rfl
  | put =>
    have hr : s.revisionExhausted = true := by simpa [ho] using h
    simp only [hr, if_true]
  | getV2 => cases s.live cmd.key <;> rfl
  | range => rfl
  | incr =>
    simp only [ho, reduceCtorEq, decide_false, Bool.false_and, Bool.or_false] at h
    dsimp only
    split
    · rfl
    · rename_i sum hs
      rw [hs] at h
      cases h
  | txn =>
    have ht : cmd.txn = none := by simpa [ho] using h
    simp only [ht]
  | other name => rfl

theorem revision_of_alters (h : s.alters cmd = true) (ht : cmd.op ≠ .txn) :
    (s.execute cmd).1.revision = s.revision + 1 := by
  unfold alters mutates at h
  unfold execute
  cases ho : cmd.op with
  | tick =>
    rcases s.sweepExpiredLocked_spec with ⟨-, he⟩ | ⟨hr, -⟩
    · rcases he with he | he <;> simp [ho, he] at h
    · exact hr
  | set =>
    have hr : s.revisionExhausted = false := by simpa [ho] using h
    simp [hr]
  | delete =>
    simp only [ho, reduceCtorEq, decide_false, Bool.false_and, Bool.or_false,
      Bool.and_eq_true, Bool.not_eq_true'] at h
    obtain ⟨kv, hkv⟩ := Option.isSome_iff_exists.mp h.1
    simp [hkv, h.2]
  | put =>
    have hr : s.revisionExhausted = false := by simpa [ho] using h
    simp [hr]
  | incr =>
    simp only [ho, reduceCtorEq, decide_false, Bool.false_and, Bool.or_false] at h
    dsimp only
    split
    · rename_i message hs
      rw [hs] at h
      cases h
    · exact putEvent_revision _ _ _ _ _
  | txn => exact absurd ho ht
  | get => simp [ho] at h
  | list => simp [ho] at h
  | getV2 => simp [ho] at h
  | range => simp [ho] at h
  | other name => simp [ho] at h

@[simp]
theorem emitEvents_applyTimeMs (s : Contents) (events : List Event) :
    (s.emitEvents events).applyTimeMs = s.applyTimeMs := by
  unfold emitEvents
  dsimp only
  split <;> rfl

@[simp]
theorem putEvent_applyTimeMs (s : Contents) (key value : Bytes) (prev : Option KeyValue)
    (expiresAt : ℤ) : (s.putEvent key value prev expiresAt).1.applyTimeMs = s.applyTimeMs :=
  emitEvents_applyTimeMs _ _

@[simp]
theorem sweepExpiredLocked_applyTimeMs (s : Contents) :
    s.sweepExpiredLocked.1.applyTimeMs = s.applyTimeMs := by
  unfold sweepExpiredLocked
  dsimp only
  split
  · rfl
  · exact emitEvents_applyTimeMs _ _

@[simp]
theorem applyTxnLocked_applyTimeMs (s : Contents) (req : TxnRequest) :
    (s.applyTxnLocked req).1.applyTimeMs = s.applyTimeMs := by
  unfold applyTxnLocked
  dsimp only
  repeat' split
  all_goals first | rfl | exact emitEvents_applyTimeMs _ _

theorem execute_applyTimeMs (s : Contents) (cmd : KvCommand) :
    (s.execute cmd).1.applyTimeMs = s.applyTimeMs := by
  unfold execute
  cases cmd.op with
  | tick => exact sweepExpiredLocked_applyTimeMs s
  | txn =>
    cases cmd.txn with
    | none => rfl
    | some req => exact applyTxnLocked_applyTimeMs s req
  | set =>
    dsimp only
    split
    · rfl
    · exact putEvent_applyTimeMs _ _ _ _ _
  | put =>
    dsimp only
    split
    · rfl
    · exact putEvent_applyTimeMs _ _ _ _ _
  | incr =>
    dsimp only
    split
    · rfl
    · exact putEvent_applyTimeMs _ _ _ _ _
  | delete =>
    dsimp only
    split
    · rfl
    · split
      · rfl
      · exact emitEvents_applyTimeMs _ _
  | get => cases s.live cmd.key <;> rfl
  | getV2 => cases s.live cmd.key <;> rfl
  | _ => rfl

end Contents

namespace KVStore

variable {s t : KVStore} {cmd : KvCommand} {ids : List Bytes}

def keeps (s : KVStore) (cmd : KvCommand) : Bool :=
  (s.cached cmd).isSome || (s.advance cmd).mutates cmd

def Covers (s : KVStore) (id : Bytes) (n : ℕ) : Prop :=
  ∃ e, s.dedupTable.lookup id = some e ∧ n ≤ e.seqNum

/-- The clients in the table are among `ids`, so that nothing is evicted. -/
structure Tracks (ids : List Bytes) (s : KVStore) : Prop where
  mem : ∀ id ∈ s.dedupTable, id ∈ ids
  few : ids.length ≤ maxDedupEntries

theorem cached_isSome (h : cmd.clientID ≠ []) :
    (s.cached cmd).isSome = true ↔ s.Covers cmd.clientID cmd.seqNum := by
  unfold cached Covers
  rw [if_neg h, isSome_map, isSome_iff_exists]
  simp only [filter_eq_some_iff, decide_eq_true_eq]

theorem Tracks.record_eq (h : Tracks ids s) (hc : cmd.clientID ∈ ids) (result : Reply) :
    s.record cmd result =
      if (s.dedupTable.lookup cmd.clientID).any (cmd.seqNum < ·.seqNum) then s
      else { s with
        dedupTable := s.dedupTable.insert cmd.clientID ⟨cmd.seqNum, result, s.index⟩ } := by
  have hlen : (s.dedupTable.insert cmd.clientID ⟨cmd.seqNum, result, s.index⟩).entries.length ≤
      maxDedupEntries := by
    have hsub : (s.dedupTable.insert cmd.clientID ⟨cmd.seqNum, result, s.index⟩).keys ⊆ ids := by
      intro id hid
      rcases (mem_insert _).mp hid with rfl | hid
      · exact hc
      · exact h.mem id hid
    have hle := (subperm_of_subset (keys_nodup _) hsub).length_le
    rw [AList.keys, List.keys, length_map] at hle
    exact hle.trans h.few
  unfold record evictDedupIfNeeded
  simp only [Nat.sub_eq_zero_of_le hlen, evict]

theorem not_newer (hu : s.cached cmd = none) (hc : cmd.clientID ≠ []) :
    ¬(s.dedupTable.lookup cmd.clientID).any (cmd.seqNum < ·.seqNum) = true := by
  intro h
  have hn : ¬(s.cached cmd).isSome = true := by simp [hu]
  rw [cached_isSome hc] at hn
  cases he : s.dedupTable.lookup cmd.clientID with
  | none =>
    rw [he] at h
    cases h
  | some e =>
    rw [he, any_some, decide_eq_true_eq] at h
    exact hn ⟨e, he, h.le⟩

theorem Tracks.apply_of_uncached (h : Tracks ids s) (hc : cmd.clientID = [] ∨ cmd.clientID ∈ ids)
    (hu : s.cached cmd = none) :
    s.apply cmd =
      (⟨((s.advance cmd).execute cmd).1, s.index + 1,
        if (s.advance cmd).mutates cmd = true ∧ cmd.clientID ≠ [] then
          s.dedupTable.insert cmd.clientID
            ⟨cmd.seqNum, ((s.advance cmd).execute cmd).2.1, s.index + 1⟩
        else s.dedupTable⟩, ((s.advance cmd).execute cmd).2.1) := by
  have hu' : (s.advance cmd).cached cmd = none := hu
  simp only [apply, hu', Contents.execute_isMutation]
  split
  · rename_i hm
    have ht : Tracks ids ⟨((s.advance cmd).execute cmd).1, s.index + 1, s.dedupTable⟩ :=
      ⟨h.mem, h.few⟩
    have hr := ht.record_eq (hc.resolve_left hm.2) ((s.advance cmd).execute cmd).2.1
    rw [if_neg (not_newer hu hm.2)] at hr
    exact congrArg (·, _) hr
  · rfl

theorem Tracks.apply (h : Tracks ids s) (hc : cmd.clientID = [] ∨ cmd.clientID ∈ ids) :
    Tracks ids (s.apply cmd).1 := by
  cases hu : s.cached cmd with
  | some result =>
    rw [apply_of_cached hu]
    exact ⟨h.mem, h.few⟩
  | none =>
    rw [h.apply_of_uncached hc hu]
    refine ⟨fun id hid ↦ ?_, h.few⟩
    dsimp only at hid
    split at hid
    · rename_i hm
      rcases (mem_insert _).mp hid with rfl | hid
      · exact hc.resolve_left hm.2
      · exact h.mem id hid
    · exact h.mem id hid

theorem Tracks.lookup_apply_of_ne (h : Tracks ids s) (hc : cmd.clientID = [] ∨ cmd.clientID ∈ ids)
    {id : Bytes} (hne : id ≠ cmd.clientID) :
    (s.apply cmd).1.dedupTable.lookup id = s.dedupTable.lookup id := by
  cases hu : s.cached cmd with
  | some result =>
    rw [apply_of_cached hu]
    rfl
  | none =>
    rw [h.apply_of_uncached hc hu]
    dsimp only
    split
    · exact lookup_insert_ne hne
    · rfl

theorem Tracks.covers_apply (h : Tracks ids s) (hc : cmd.clientID ∈ ids) (hid : cmd.clientID ≠ []) :
    (s.apply cmd).1.Covers cmd.clientID cmd.seqNum ↔ s.keeps cmd = true := by
  unfold keeps
  rw [Bool.or_eq_true]
  cases hu : s.cached cmd with
  | some result =>
    rw [apply_of_cached hu]
    have hcov := (cached_isSome hid).mp (by rw [hu]; rfl)
    exact ⟨fun _ ↦ .inl rfl, fun _ ↦ hcov⟩
  | none =>
    have hcov : ¬s.Covers cmd.clientID cmd.seqNum := by
      rw [← cached_isSome hid, hu]
      exact Bool.false_ne_true
    rw [h.apply_of_uncached (.inr hc) hu]
    by_cases hm : (s.advance cmd).mutates cmd = true
    · rw [if_pos ⟨hm, hid⟩]
      exact ⟨fun _ ↦ .inr hm, fun _ ↦ ⟨_, lookup_insert _, le_rfl⟩⟩
    · rw [if_neg fun hx ↦ hm hx.1]
      exact ⟨fun hx ↦ absurd hx hcov, fun hx ↦ absurd (hx.resolve_left Bool.false_ne_true) hm⟩

theorem run_append (s : KVStore) (log post : List KvCommand) :
    s.run (log ++ post) =
      (((s.run log).1.run post).1, (s.run log).2 ++ ((s.run log).1.run post).2) := by
  induction log generalizing s with
  | nil => rfl
  | cons cmd log ih => simp only [cons_append, run, ih]

theorem length_run (s : KVStore) (log : List KvCommand) : (s.run log).2.length = log.length := by
  induction log generalizing s with
  | nil => rfl
  | cons cmd log ih => simp only [run, length_cons, ih]

theorem Tracks.run {log : List KvCommand} (h : Tracks ids s)
    (hlog : ∀ c ∈ log, c.clientID = [] ∨ c.clientID ∈ ids) : Tracks ids (s.run log).1 := by
  induction log generalizing s with
  | nil => exact h
  | cons cmd log ih =>
    exact ih (h.apply (hlog cmd mem_cons_self)) fun c hc ↦ hlog c (mem_cons_of_mem _ hc)

theorem Tracks.lookup_run_of_ne {log : List KvCommand} {id : Bytes} (h : Tracks ids s)
    (hlog : ∀ c ∈ log, c.clientID = [] ∨ c.clientID ∈ ids) (hne : ∀ c ∈ log, c.clientID ≠ id) :
    (s.run log).1.dedupTable.lookup id = s.dedupTable.lookup id := by
  induction log generalizing s with
  | nil => rfl
  | cons cmd log ih =>
    have hc := hlog cmd mem_cons_self
    calc ((s.apply cmd).1.run log).1.dedupTable.lookup id
        = (s.apply cmd).1.dedupTable.lookup id :=
          ih (h.apply hc) (fun c hm ↦ hlog c (mem_cons_of_mem _ hm))
            fun c hm ↦ hne c (mem_cons_of_mem _ hm)
      _ = s.dedupTable.lookup id :=
          h.lookup_apply_of_ne hc (hne cmd mem_cons_self).symm

theorem Tracks.applyTimeMs_apply (h : Tracks ids s) (hc : cmd.clientID = [] ∨ cmd.clientID ∈ ids) :
    (s.apply cmd).1.applyTimeMs = max s.applyTimeMs cmd.leaderTimestampMs := by
  cases hu : s.cached cmd with
  | some result =>
    rw [apply_of_cached hu]
    rfl
  | none =>
    rw [h.apply_of_uncached hc hu]
    exact Contents.execute_applyTimeMs _ cmd

theorem Tracks.applyTimeMs_le_run {log : List KvCommand} (h : Tracks ids s)
    (hlog : ∀ c ∈ log, c.clientID = [] ∨ c.clientID ∈ ids) :
    s.applyTimeMs ≤ (s.run log).1.applyTimeMs := by
  induction log generalizing s with
  | nil => exact le_rfl
  | cons cmd log ih =>
    have hc := hlog cmd mem_cons_self
    have hle := ih (h.apply hc) fun c hm ↦ hlog c (mem_cons_of_mem _ hm)
    rw [h.applyTimeMs_apply hc] at hle
    exact (le_max_left _ _).trans hle

/-- Equal but for the apply index and the orders that it leaves in the table. -/
structure Alike (s t : KVStore) : Prop where
  contents : s.toContents = t.toContents
  table : ∀ id, (s.dedupTable.lookup id).map (fun e ↦ (e.seqNum, e.result)) =
    (t.dedupTable.lookup id).map (fun e ↦ (e.seqNum, e.result))

theorem Alike.cached (h : s.Alike t) (cmd : KvCommand) : s.cached cmd = t.cached cmd := by
  have ht := h.table cmd.clientID
  unfold KVStore.cached
  split
  · rfl
  · cases hs : s.dedupTable.lookup cmd.clientID <;> cases hx : t.dedupTable.lookup cmd.clientID <;>
      rw [hs, hx] at ht <;> simp_all [Option.filter]

theorem Alike.advance (h : s.Alike t) (cmd : KvCommand) :
    (s.advance cmd).toContents = (t.advance cmd).toContents := by
  simp only [KVStore.advance, h.contents]

theorem Alike.apply (h : s.Alike t) (hs : Tracks ids s) (ht : Tracks ids t)
    (hc : cmd.clientID = [] ∨ cmd.clientID ∈ ids) :
    (s.apply cmd).2 = (t.apply cmd).2 ∧ (s.apply cmd).1.Alike (t.apply cmd).1 := by
  have hcache := h.cached cmd
  have hadv := h.advance cmd
  cases hu : s.cached cmd with
  | some result =>
    rw [apply_of_cached hu, apply_of_cached (hcache.symm.trans hu)]
    exact ⟨rfl, hadv, h.table⟩
  | none =>
    rw [hs.apply_of_uncached hc hu, ht.apply_of_uncached hc (hcache.symm.trans hu), hadv]
    refine ⟨rfl, rfl, fun id ↦ ?_⟩
    dsimp only
    split
    · by_cases hid : id = cmd.clientID
      · subst hid
        rw [lookup_insert, lookup_insert]
        rfl
      · rw [lookup_insert_ne hid, lookup_insert_ne hid]
        exact h.table id
    · exact h.table id

theorem Alike.run {log : List KvCommand} (h : s.Alike t) (hs : Tracks ids s) (ht : Tracks ids t)
    (hlog : ∀ c ∈ log, c.clientID = [] ∨ c.clientID ∈ ids) :
    (s.run log).2 = (t.run log).2 ∧ (s.run log).1.Alike (t.run log).1 := by
  induction log generalizing s t with
  | nil => exact ⟨rfl, h⟩
  | cons cmd log ih =>
    have hc := hlog cmd mem_cons_self
    obtain ⟨hres, hal⟩ := h.apply hs ht hc
    obtain ⟨hres', hal'⟩ := ih hal (hs.apply hc) (ht.apply hc)
      fun c hm ↦ hlog c (mem_cons_of_mem _ hm)
    simp only [KVStore.run]
    exact ⟨by rw [hres, hres'], hal'⟩

theorem Tracks.alike_apply (h : Tracks ids s) (hc : cmd.clientID = [] ∨ cmd.clientID ∈ ids)
    (ht : cmd.leaderTimestampMs ≤ s.applyTimeMs)
    (hn : (s.cached cmd).isSome = true ∨ s.alters cmd = false) : (s.apply cmd).1.Alike s := by
  have hadv : (s.advance cmd).toContents = s.toContents := by
    simp only [KVStore.advance, max_eq_left ht]
  cases hu : s.cached cmd with
  | some result =>
    rw [apply_of_cached hu]
    exact ⟨hadv, fun _ ↦ rfl⟩
  | none =>
    have halt : s.alters cmd = false := hn.resolve_left (by rw [hu]; exact Bool.false_ne_true)
    have hmut : s.mutates cmd = false := (Bool.or_eq_false_iff.mp halt).1
    rw [h.apply_of_uncached hc hu, hadv, Contents.execute_of_not_alters halt, hmut]
    exact ⟨rfl, fun _ ↦ rfl⟩

section Invisible

def clients (log : List KvCommand) : List Bytes :=
  ((log.map KvCommand.clientID).filter (· ≠ [])).dedup

/-- A copy of `cmd` between `log` and `post` changes neither the final data, nor the revision,
nor the result of any other command. -/
def Invisible (log : List KvCommand) (cmd : KvCommand) (post : List KvCommand) : Prop :=
  let plain := new.run (log ++ post)
  let doubled := new.run (log ++ cmd :: post)
  doubled.1.data = plain.1.data ∧ doubled.1.revision = plain.1.revision ∧
    doubled.2.eraseIdx log.length = plain.2

theorem mem_clients {log : List KvCommand} {c : KvCommand} (h : c ∈ log) :
    c.clientID = [] ∨ c.clientID ∈ clients log := by
  by_cases hc : c.clientID = []
  · exact .inl hc
  · refine .inr (List.mem_dedup.mpr (List.mem_filter.mpr ⟨List.mem_map_of_mem h, ?_⟩))
    exact decide_eq_true hc

theorem tracks_new {ids : List Bytes} (h : ids.length ≤ maxDedupEntries) : Tracks ids new :=
  ⟨fun _ hid ↦ absurd hid (notMem_empty _), h⟩

instance (log : List KvCommand) (cmd : KvCommand) (post : List KvCommand) :
    Decidable (Invisible log cmd post) :=
  decidable_of_iff ((new.run (log ++ cmd :: post)).1.data.entries =
      (new.run (log ++ post)).1.data.entries ∧ _ ∧ _)
    (and_congr_left' AList.ext_iff.symm)

variable {pre mid : List KvCommand}

/-- Between the original and the copy only other clients' commands are run, so the copy is
answered from the cache exactly when the original was kept. -/
theorem Tracks.cached_after (h : Tracks ids s)
    (hlog : ∀ c ∈ pre ++ cmd :: mid, c.clientID = [] ∨ c.clientID ∈ ids) (hid : cmd.clientID ≠ [])
    (hmid : ∀ c ∈ mid, c.clientID ≠ cmd.clientID) :
    ((s.run (pre ++ cmd :: mid)).1.cached cmd).isSome = true ↔ (s.run pre).1.keeps cmd = true := by
  have hpre : Tracks ids (s.run pre).1 := h.run fun c hc ↦ hlog c (mem_append_left _ hc)
  have hc := hlog cmd (mem_append_right _ mem_cons_self)
  have hlook := (hpre.apply hc).lookup_run_of_ne
    (fun c hm ↦ hlog c (mem_append_right _ (mem_cons_of_mem _ hm))) hmid
  rw [cached_isSome hid, ← hpre.covers_apply (hc.resolve_left hid) hid, run_append]
  unfold Covers
  rw [← hlook]
  rfl

theorem Tracks.clock_after (h : Tracks ids s)
    (hlog : ∀ c ∈ pre ++ cmd :: mid, c.clientID = [] ∨ c.clientID ∈ ids) :
    cmd.leaderTimestampMs ≤ (s.run (pre ++ cmd :: mid)).1.applyTimeMs := by
  have hpre : Tracks ids (s.run pre).1 := h.run fun c hc ↦ hlog c (mem_append_left _ hc)
  have hc := hlog cmd (mem_append_right _ mem_cons_self)
  have hle := (hpre.apply hc).applyTimeMs_le_run
    fun c hm ↦ hlog c (mem_append_right _ (mem_cons_of_mem _ hm))
  rw [hpre.applyTimeMs_apply hc] at hle
  rw [run_append]
  exact (le_max_right _ _).trans hle

theorem invisible_of_alike {log post : List KvCommand}
    (h : Tracks ids (new.run log).1) (hc : cmd.clientID = [] ∨ cmd.clientID ∈ ids)
    (hpost : ∀ c ∈ post, c.clientID = [] ∨ c.clientID ∈ ids)
    (hal : ((new.run log).1.apply cmd).1.Alike (new.run log).1) : Invisible log cmd post := by
  obtain ⟨hres, hend⟩ := hal.run (h.apply hc) h hpost
  have hlen := length_run new log
  unfold Invisible
  rw [run_append, run_append]
  simp only [KVStore.run]
  refine ⟨congrArg Contents.data hend.contents, congrArg Contents.revision hend.contents, ?_⟩
  rw [eraseIdx_append_of_length_le hlen.le, hlen, Nat.sub_self, eraseIdx_cons_zero, hres]

theorem Tracks.revision_apply (h : Tracks ids s) (hc : cmd.clientID = [] ∨ cmd.clientID ∈ ids)
    (ht : cmd.leaderTimestampMs ≤ s.applyTimeMs) (hu : s.cached cmd = none)
    (halt : s.alters cmd = true) (hop : cmd.op ≠ .txn) :
    (s.apply cmd).1.revision = s.revision + 1 := by
  have hadv : (s.advance cmd).toContents = s.toContents := by
    simp only [KVStore.advance, max_eq_left ht]
  rw [h.apply_of_uncached hc hu, hadv]
  exact Contents.revision_of_alters halt hop

/-- For a copy of `cmd` after its original and before the client's next command: with nothing
after it, it is invisible exactly when the original was kept in the dedup table or the copy finds
nothing to do; and then it is invisible whatever follows. -/
theorem duplicate_invisible_iff (pre mid : List KvCommand) (cmd : KvCommand)
    (hid : cmd.clientID ≠ []) (hmid : ∀ c ∈ mid, c.clientID ≠ cmd.clientID)
    (hfew : (clients (pre ++ cmd :: mid)).length ≤ maxDedupEntries) :
    (Invisible (pre ++ cmd :: mid) cmd [] ↔
      (new.run pre).1.keeps cmd = true ∨ (new.run (pre ++ cmd :: mid)).1.alters cmd = false) ∧
    ((new.run pre).1.keeps cmd = true ∨ (new.run (pre ++ cmd :: mid)).1.alters cmd = false →
      ∀ post, (clients (pre ++ cmd :: mid ++ post)).length ≤ maxDedupEntries →
        Invisible (pre ++ cmd :: mid) cmd post) := by
  have hsuf : (new.run pre).1.keeps cmd = true ∨
        (new.run (pre ++ cmd :: mid)).1.alters cmd = false →
      ∀ post, (clients (pre ++ cmd :: mid ++ post)).length ≤ maxDedupEntries →
        Invisible (pre ++ cmd :: mid) cmd post := by
    intro hK post hpost
    have hall (c) (hc : c ∈ pre ++ cmd :: mid) := mem_clients (mem_append_left post hc)
    have hc := hall cmd (mem_append_right _ mem_cons_self)
    have hT := tracks_new hpost
    refine invisible_of_alike (hT.run hall) hc (fun c hm ↦ mem_clients (mem_append_right _ hm))
      ((hT.run hall).alike_apply hc (hT.clock_after hall) ?_)
    exact hK.imp_left (hT.cached_after hall hid hmid).mpr
  refine ⟨⟨fun hinv ↦ ?_, fun hK ↦ hsuf hK [] (by rwa [append_nil])⟩, hsuf⟩
  by_contra hK
  rw [not_or, Bool.not_eq_false] at hK
  have hall (c) (hc : c ∈ pre ++ cmd :: mid) := mem_clients hc
  have hc := hall cmd (mem_append_right _ mem_cons_self)
  have hT := tracks_new hfew
  have hu : (new.run (pre ++ cmd :: mid)).1.cached cmd = none := by
    rw [← not_isSome_iff_eq_none, hT.cached_after hall hid hmid]
    exact hK.1
  -- a transaction with a payload would have been kept
  have hop : cmd.op ≠ .txn := by
    intro hop
    have hkeep := hK.1
    have halt := hK.2
    simp only [keeps, Contents.alters, Contents.mutates, hop, reduceCtorEq, decide_false,
      Bool.false_and, Bool.or_false, Bool.or_eq_true, not_or] at hkeep halt
    exact hkeep.2 halt
  have hrev := (hT.run hall).revision_apply hc (hT.clock_after hall) hu hK.2 hop
  have heq := hinv.2.1
  rw [run_append, append_nil] at heq
  simp only [KVStore.run] at heq
  omega

def deleteK : KvCommand := encodeCommandWithID .delete (ascii "k") [] (ascii "c1") 1

def putK : KvCommand := encodeCommandWithID .put (ascii "k") (ascii "v") (ascii "c2") 1

theorem duplicate_invisible_after_put : deleteK.clientID ≠ [] ∧
    (new.run [putK]).1.keeps deleteK = true ∧ Invisible [putK, deleteK] deleteK [putK] := by
  have hkeep : (new.run [putK]).1.keeps deleteK = true := by decide +kernel
  exact ⟨by decide, hkeep, (duplicate_invisible_iff [putK] [] deleteK (by decide) (by decide)
    (by decide +kernel)).2 (.inl hkeep) [putK] (by decide +kernel)⟩

/-- A delete that found no key is not recorded: its copy removes what another client stored
in between. -/
theorem duplicate_delete_visible :
    (clients [deleteK, putK]).length ≤ maxDedupEntries ∧ putK.clientID ≠ deleteK.clientID ∧
      ¬Invisible [deleteK, putK] deleteK [] := by
  decide +kernel

end Invisible

end KVStore

end RaftConsensus.Kv
