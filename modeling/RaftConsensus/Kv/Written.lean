import RaftConsensus.Kv.Duplicates
import RaftConsensus.Kv.Sound
import RaftConsensus.Kv.Transactions

namespace RaftConsensus.Kv

open List AList

section Events

variable {Good : Bytes → KeyValue → Prop} {data : KeyData} {events : List Event} {key : Bytes}
  {kv : KeyValue}

theorem lookup_applyEvent {e : Event} (h : (applyEvent data e).lookup key = some kv) :
    data.lookup key = some kv ∨ e.key = key ∧ e.kv = some kv := by
  unfold applyEvent at h
  cases htype : e.eventType with
  | delete =>
    rw [htype] at h
    by_cases hk : key = e.key
    · rw [hk, lookup_erase] at h
      cases h
    · rw [lookup_erase_ne hk] at h
      exact .inl h
  | put =>
    rw [htype] at h
    cases hkv : e.kv with
    | none =>
      rw [hkv] at h
      exact .inl h
    | some kv' =>
      rw [hkv] at h
      change (data.insert e.key kv').lookup key = some kv at h
      by_cases hk : key = e.key
      · rw [hk, lookup_insert] at h
        exact .inr ⟨hk.symm, h⟩
      · rw [lookup_insert_ne hk] at h
        exact .inl h

theorem lookup_applyEvents (h : (events.foldl applyEvent data).lookup key = some kv) :
    data.lookup key = some kv ∨ ∃ e ∈ events, e.key = key ∧ e.kv = some kv := by
  induction events generalizing data with
  | nil => exact .inl h
  | cons e events ih =>
    rcases ih h with hd | ⟨e', he', hkey⟩
    · exact (lookup_applyEvent hd).imp_right fun he ↦ ⟨e, mem_cons_self, he⟩
    · exact .inr ⟨e', mem_cons_of_mem e he', hkey⟩

theorem Stores.applyEvents (h : Stores Good data)
    (hgood : ∀ e ∈ events, ∀ kv, e.kv = some kv → Good e.key kv) :
    Stores Good (events.foldl applyEvent data) := by
  intro key kv hkv
  rcases lookup_applyEvents hkv with hd | ⟨e, he, rfl, hekv⟩
  · exact h key kv hd
  · exact hgood e he kv hekv

end Events

namespace Contents

variable {s : Contents} {cmd : KvCommand} {e : Event} {kv : KeyValue} {key : Bytes}

theorem revisionExhausted_eq_false : s.revisionExhausted = false ↔ s.revision < maxRevision := by
  unfold revisionExhausted
  rw [decide_eq_false_iff_not, not_le]

theorem alters_of_exhausted (h : s.revisionExhausted = true) (ht : cmd.op ≠ .txn) :
    s.alters cmd = false := by
  unfold alters mutates incrSum
  cases hop : cmd.op with
  | txn => exact absurd hop ht
  | incr => simp [h, Except.isOk, Except.toBool]
  | _ => simp [h]

theorem revision_execute (s : Contents) (cmd : KvCommand) :
    (s.execute cmd).1.revision = s.revision ∨
      s.revision < maxRevision ∧ (s.execute cmd).1.revision = s.revision + 1 := by
  rw [← revisionExhausted_eq_false]
  by_cases htxn : cmd.op = .txn
  · unfold execute
    rw [htxn]
    cases hreq : cmd.txn with
    | none => exact .inl rfl
    | some req =>
      dsimp only
      cases hab : s.aborts req with
      | true => exact .inl (congrArg revision (applyTxnLocked_of_aborts hab))
      | false =>
        by_cases hnil : s.txnOps req = []
        · exact .inl ((revision_of_commits hab).trans (if_pos hnil))
        · have hex := (not_missing_of_commits hab hnil).1
          exact .inr ⟨Bool.eq_false_iff.mpr hex, (revision_of_commits hab).trans (if_neg hnil)⟩
  · cases halt : s.alters cmd with
    | false => exact .inl (congrArg revision (execute_of_not_alters halt))
    | true =>
      refine .inr ⟨Bool.eq_false_iff.mpr fun hex ↦ ?_, revision_of_alters halt htxn⟩
      exact Bool.false_ne_true ((alters_of_exhausted hex htxn).symm.trans halt)

theorem put_of_mem_events (he : e ∈ s.events cmd) (hkv : e.kv = some kv) :
    (∃ value prev expiresAt, cmd.op ≠ .txn ∧ e ∈ s.putEvents cmd.key value prev expiresAt ∧
      (expiresAt = 0 ∨ cmd.op = .put ∧ expiresAt = s.expiresAt cmd)) ∨
    ∃ req, cmd.op = .txn ∧ cmd.txn = some req ∧
      e ∈ (runTxnOps (s.revision + 1) s.data (s.txnOps req)).2.2 := by
  unfold events at he
  cases hop : cmd.op with
  | tick =>
    rw [hop] at he
    dsimp only [sweepEvents] at he
    split_ifs at he
    · cases he
    · obtain ⟨key, -, rfl⟩ := mem_map.mp he
      cases hkv
  | set =>
    rw [hop] at he
    dsimp only at he
    split_ifs at he
    · cases he
    · exact .inl ⟨_, _, _, nofun, he, .inl rfl⟩
  | put =>
    rw [hop] at he
    dsimp only at he
    split_ifs at he
    · cases he
    · exact .inl ⟨_, _, _, nofun, he, .inr ⟨rfl, rfl⟩⟩
  | delete =>
    rw [hop] at he
    dsimp only at he
    split at he
    · cases he
    · split_ifs at he
      · cases he
      · cases mem_singleton.mp he
        cases hkv
  | incr =>
    rw [hop] at he
    dsimp only at he
    split at he
    · cases he
    · exact .inl ⟨_, _, _, nofun, he, .inl rfl⟩
  | txn =>
    rw [hop] at he
    cases hreq : cmd.txn with
    | none =>
      rw [hreq] at he
      cases he
    | some req =>
      rw [hreq] at he
      dsimp only [Option.elim, txnEvents] at he
      split_ifs at he
      · cases he
      · exact .inr ⟨req, rfl, rfl, he⟩
  | get | list | getV2 | range | other =>
    rw [hop] at he
    cases he

theorem pair_of_mem_putEvents {value : Bytes} {prev : Option KeyValue} {expiresAt : ℤ}
    (he : e ∈ s.putEvents key value prev expiresAt) (hkv : e.kv = some kv) :
    e.key = key ∧ kv.modRevision = s.revision + 1 ∧ kv.expiresAtMs = expiresAt := by
  cases mem_singleton.mp he
  cases hkv
  exact ⟨rfl, rfl, rfl⟩

theorem pair_of_mem_runTxnOps {txnRev : ℤ} {data : KeyData} {ops : List TxnOp}
    (he : e ∈ (runTxnOps txnRev data ops).2.2) (hkv : e.kv = some kv) :
    kv.modRevision = txnRev ∧ kv.expiresAtMs = 0 ∧ ∃ op ∈ ops, op.key = e.key := by
  induction ops generalizing data with
  | nil => cases he
  | cons op ops ih =>
    have hmore : (∃ op ∈ ops, op.key = e.key) → ∃ op' ∈ op :: ops, op'.key = e.key :=
      fun ⟨op', hop, hkey⟩ ↦ ⟨op', mem_cons_of_mem op hop, hkey⟩
    unfold runTxnOps at he
    dsimp only at he
    split at he
    · rcases mem_cons.mp he with rfl | he
      · cases hkv
        exact ⟨rfl, rfl, op, mem_cons_self, rfl⟩
      · exact (ih he).imp_right (And.imp_right hmore)
    · rcases mem_cons.mp he with rfl | he
      · cases hkv
      · exact (ih he).imp_right (And.imp_right hmore)
    · exact (ih he).imp_right (And.imp_right hmore)

theorem expiresAtMs_events (he : e ∈ s.events cmd) (hkv : e.kv = some kv) :
    kv.expiresAtMs = 0 ∨ cmd.op = .put ∧ kv.expiresAtMs = s.expiresAt cmd := by
  rcases put_of_mem_events he hkv with ⟨value, prev, expiresAt, -, hput, hexp⟩ | ⟨req, -, -, htxn⟩
  · rw [(pair_of_mem_putEvents hput hkv).2.2]
    exact hexp
  · exact .inl (pair_of_mem_runTxnOps htxn hkv).2.1

theorem modRevision_events (he : e ∈ s.events cmd) (hkv : e.kv = some kv) :
    kv.modRevision = s.revision + 1 := by
  rcases put_of_mem_events he hkv with ⟨value, prev, expiresAt, -, hput, -⟩ | ⟨req, -, -, htxn⟩
  · exact (pair_of_mem_putEvents hput hkv).2.1
  · exact (pair_of_mem_runTxnOps htxn hkv).1

theorem key_events (hop : cmd.op ≠ .txn) (he : e ∈ s.events cmd) (hkv : e.kv = some kv) :
    e.key = cmd.key := by
  rcases put_of_mem_events he hkv with ⟨value, prev, expiresAt, -, hput, -⟩ | ⟨req, htxn, -⟩
  · exact (pair_of_mem_putEvents hput hkv).1
  · exact absurd htxn hop

end Contents

namespace KVStore

variable {s : KVStore} {cmd : KvCommand} {key : Bytes} {kv : KeyValue}

structure Writes (s : KVStore) (cmd : KvCommand) (key : Bytes) (kv : KeyValue) : Prop where
  stored : (s.apply cmd).1.data.lookup key = some kv
  fresh : s.data.lookup key ≠ some kv

theorem Writes.event (h : s.Writes cmd key kv) :
    ∃ e ∈ s.emitted cmd, e.key = key ∧ e.kv = some kv := by
  have hstored := h.stored
  rw [← (s.emits_apply cmd).data_eq] at hstored
  exact (lookup_applyEvents hstored).resolve_left h.fresh

theorem mem_events_of_emitted {e : Event} (h : e ∈ s.emitted cmd) :
    e ∈ (s.advance cmd).events cmd := by
  unfold emitted at h
  split_ifs at h
  · cases h
  · exact h

theorem revision_apply (s : KVStore) (cmd : KvCommand) :
    (s.apply cmd).1.revision = s.revision ∨
      s.revision < maxRevision ∧ (s.apply cmd).1.revision = s.revision + 1 := by
  rw [toContents_apply]
  split_ifs
  · exact .inl rfl
  · exact (s.advance cmd).toContents.revision_execute cmd

theorem Writes.modRevision_eq (h : s.Writes cmd key kv) :
    kv.modRevision = s.revision + 1 ∧ (s.apply cmd).1.revision = s.revision + 1 := by
  obtain ⟨e, he, -, hkv⟩ := h.event
  have hlt : s.revision < (s.apply cmd).1.revision := ((s.emits_apply cmd).revision e he).2
  have hmod := Contents.modRevision_events (mem_events_of_emitted he) hkv
  refine ⟨hmod, ?_⟩
  rcases s.revision_apply cmd with heq | ⟨-, heq⟩
  · omega
  · exact heq

theorem Writes.txn {key' : Bytes} {kv' : KeyValue} (h : s.Writes cmd key kv)
    (h' : s.Writes cmd key' kv') (hne : key ≠ key') : cmd.op = .txn := by
  by_contra hop
  obtain ⟨e, he, rfl, hkv⟩ := h.event
  obtain ⟨e', he', rfl, hkv'⟩ := h'.event
  refine hne ((Contents.key_events hop (mem_events_of_emitted he) hkv).trans ?_)
  exact (Contents.key_events hop (mem_events_of_emitted he') hkv').symm

end KVStore

end RaftConsensus.Kv
