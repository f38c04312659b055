import RaftConsensus.Kv.History

namespace RaftConsensus.Kv

def Keyed (data : KeyData) : Prop := ∀ key kv, data.lookup key = some kv → kv.key = key

section Stores

variable {Good : ℕ → Bytes → KeyValue → Prop} {P : Bytes → KeyValue → Prop} {data : KeyData} {n : ℕ}

def Stores (P : Bytes → KeyValue → Prop) (data : KeyData) : Prop :=
  ∀ key kv, data.lookup key = some kv → P key kv

/-- What holds of the pairs after some puts holds after one more. -/
structure Inherited (Good : ℕ → Bytes → KeyValue → Prop) (revision : ℤ) : Prop where
  mono : ∀ n key kv, Good n key kv → Good (n + 1) key kv
  put : ∀ n (key value : Bytes) (prev : Option KeyValue) (expiresAt : ℤ),
    (∀ kv, prev = some kv → Good n key kv) → Good (n + 1) key ⟨key, value,
      (prev.map KeyValue.createRevision).getD revision, revision, Contents.nextVersion prev,
      expiresAt⟩

/-- A bound on the puts of a command. -/
def KvCommand.puts (cmd : KvCommand) : ℕ :=
  1 + cmd.txn.elim 0 fun req ↦ max req.success.length req.failure.length

theorem Stores.mono {revision : ℤ} (hgood : Inherited Good revision) (h : Stores (Good n) data)
    (k : ℕ) : Stores (Good (n + k)) data := by
  induction k with
  | zero => exact h
  | succ k ih => exact fun key kv hkv ↦ hgood.mono _ key kv (ih key kv hkv)

theorem Stores.insert (h : Stores P data) {key : Bytes} {kv : KeyValue} (hkv : P key kv) :
    Stores P (data.insert key kv) := by
  intro k v hv
  by_cases hk : k = key
  · subst hk
    rw [AList.lookup_insert] at hv
    cases hv
    exact hkv
  · rw [AList.lookup_insert_ne hk] at hv
    exact h k v hv

theorem Stores.erase (h : Stores P data) (key : Bytes) : Stores P (data.erase key) := by
  intro k v hv
  by_cases hk : k = key
  · subst hk
    rw [AList.lookup_erase] at hv
    cases hv
  · rw [AList.lookup_erase_ne hk] at hv
    exact h k v hv

theorem Stores.eraseAll (h : Stores P data) (keys : List Bytes) :
    Stores P (keys.foldl (fun data key ↦ data.erase key) data) := by
  induction keys generalizing data with
  | nil => exact h
  | cons key keys ih => exact ih (h.erase key)

theorem Stores.runTxnOps {txnRev : ℤ} (hgood : Inherited Good txnRev) (h : Stores (Good n) data)
    (ops : List TxnOp) :
    Stores (Good (n + ops.length)) (Contents.runTxnOps txnRev data ops).1 := by
  induction ops generalizing data n with
  | nil => exact h
  | cons op ops ih =>
    have hone := h.mono hgood 1
    rw [List.length_cons, Nat.add_comm ops.length, ← Nat.add_assoc]
    unfold Contents.runTxnOps
    dsimp only
    split
    · exact ih (hone.insert (hgood.put _ _ _ _ _ fun kv hkv ↦ h op.key kv hkv))
    · exact ih (hone.erase op.key)
    · exact ih hone

variable {s : Contents}

theorem Stores.emitEvents (h : Stores P s.data) (events : List Event) :
    Stores P (s.emitEvents events).data := by
  rw [(Contents.emitEvents_spec s events).1]
  exact h

theorem Stores.putEvent (hgood : Inherited Good (s.revision + 1)) (h : Stores (Good n) s.data)
    {key : Bytes} {prev : Option KeyValue} (hprev : ∀ kv, prev = some kv → Good n key kv)
    (value : Bytes) (expiresAt : ℤ) :
    Stores (Good (n + 1)) (s.putEvent key value prev expiresAt).1.data := by
  rw [Contents.data_putEvent]
  exact (h.mono hgood 1).insert (hgood.put n key value prev expiresAt hprev)

theorem Stores.applyTxnLocked (hgood : Inherited Good (s.revision + 1)) (h : Stores (Good n) s.data)
    (req : TxnRequest) : Stores (Good (n + max req.success.length req.failure.length))
      (s.applyTxnLocked req).1.data := by
  have hops (ops : List TxnOp) (hlen : ops.length ≤ max req.success.length req.failure.length) :
      Stores (Good (n + max req.success.length req.failure.length))
        (Contents.runTxnOps (s.revision + 1) s.data ops).1 := by
    rw [← Nat.add_sub_cancel' hlen, ← Nat.add_assoc]
    exact (h.runTxnOps hgood ops).mono hgood _
  unfold Contents.applyTxnLocked
  dsimp only
  split_ifs <;> first
    | exact h.mono hgood _
    | exact hops _ (le_max_left _ _)
    | exact hops _ (le_max_right _ _)
    | exact Stores.emitEvents (hops _ (le_max_left _ _)) _
    | exact Stores.emitEvents (hops _ (le_max_right _ _)) _

theorem Stores.live (h : Stores P s.data) (key : Bytes) : ∀ kv, s.live key = some kv → P key kv :=
  fun kv hkv ↦ h key kv (Option.filter_eq_some_iff.mp hkv).1

theorem Stores.execute (hgood : Inherited Good (s.revision + 1)) (h : Stores (Good n) s.data)
    (cmd : KvCommand) : Stores (Good (n + cmd.puts)) (s.execute cmd).1.data := by
  have hkept := h.mono hgood cmd.puts
  have hput {key : Bytes} {prev : Option KeyValue} (hprev : ∀ kv, prev = some kv → Good n key kv)
      (value : Bytes) (expiresAt : ℤ) :
      Stores (Good (n + cmd.puts)) (s.putEvent key value prev expiresAt).1.data := by
    rw [KvCommand.puts, ← Nat.add_assoc]
    exact (h.putEvent hgood hprev value expiresAt).mono hgood _
  unfold Contents.execute
  cases cmd.op with
  | tick =>
    dsimp only [Contents.sweepExpiredLocked]
    split_ifs
    · exact hkept
    · exact Stores.emitEvents (hkept.eraseAll _) _
  | set =>
    cases s.revisionExhausted with
    | true => exact hkept
    | false => exact hput (h cmd.key) _ _
  | put =>
    cases s.revisionExhausted with
    | true => exact hkept
    | false => exact hput (h cmd.key) _ _
  | delete =>
    cases s.live cmd.key with
    | none => exact hkept
    | some kv =>
      cases s.revisionExhausted with
      | true => exact hkept
      | false => exact Stores.emitEvents (hkept.erase cmd.key) _
  | incr =>
    dsimp only
    cases s.incrSum cmd with
    | error message => exact hkept
    | ok sum => exact hput (h.live cmd.key) _ _
  | txn =>
    cases htxn : cmd.txn with
    | none => exact hkept
    | some req =>
      rw [KvCommand.puts, htxn, ← Nat.add_assoc]
      exact (h.mono hgood 1).applyTxnLocked hgood req
  | get => cases s.live cmd.key <;> exact hkept
  | getV2 => cases s.live cmd.key <;> exact hkept
  | list => exact hkept
  | range => exact hkept
  | other name => exact hkept

end Stores

namespace KVStore

variable {s : KVStore}

theorem stores_apply {Good : ℕ → Bytes → KeyValue → Prop} {n : ℕ}
    (hgood : Inherited Good (s.revision + 1)) (h : Stores (Good n) s.data) (cmd : KvCommand) :
    Stores (Good (n + cmd.puts)) (s.apply cmd).1.data := by
  unfold apply
  dsimp only
  split
  · exact h.mono hgood _
  · have hexec := Stores.execute (s := (s.advance cmd).toContents) hgood h cmd
    split_ifs
    · rw [toContents_record]
      exact hexec
    · exact hexec

structure Sound (s : KVStore) : Prop where
  keyed : Keyed s.data
  clock : 0 ≤ s.applyTimeMs

theorem sound_new : Sound new := by
  refine ⟨fun key kv h ↦ ?_, le_rfl⟩
  cases h

theorem Sound.apply (h : s.Sound) (cmd : KvCommand) : (s.apply cmd).1.Sound := by
  refine ⟨?_, ?_⟩
  · have hgood : Inherited (fun _ key kv ↦ kv.key = key) (s.revision + 1) :=
      ⟨fun _ _ _ hkv ↦ hkv, fun _ _ _ _ _ _ ↦ rfl⟩
    exact stores_apply (n := 0) hgood h.keyed cmd
  · rw [(s.emits_apply cmd).applyTimeMs_eq]
    exact le_max_of_le_left h.clock

theorem Sound.run (h : s.Sound) (log : List KvCommand) : (s.run log).1.Sound := by
  induction log generalizing s with
  | nil => exact h
  | cons cmd log ih => exact ih (h.apply cmd)

end KVStore

end RaftConsensus.Kv
