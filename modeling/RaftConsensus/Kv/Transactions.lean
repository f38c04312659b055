import RaftConsensus.Kv.History

namespace RaftConsensus.Kv

open List AList

def TxnOp.pair (op : TxnOp) (txnRev : ℤ) (data : KeyData) : KeyValue :=
  ⟨op.key, op.value, ((data.lookup op.key).map KeyValue.createRevision).getD txnRev, txnRev,
    Contents.nextVersion (data.lookup op.key), 0⟩

/-- A branch run one operation after the other at one revision, with a result for each of them: a
delete shows the pair that it removed, and an operation of an unknown type does nothing. -/
inductive RunsOps (txnRev : ℤ) :
    KeyData → List TxnOp → KeyData → List TxnResult → List Event → Prop
  | nil (data : KeyData) : RunsOps txnRev data [] data [] []
  | put {data data' : KeyData} {op : TxnOp} {ops : List TxnOp} {results : List TxnResult}
    {events : List Event} (hop : op.opType = .put)
    (h : RunsOps txnRev (data.insert op.key (op.pair txnRev data)) ops data' results events) :
    RunsOps txnRev data (op :: ops) data' (⟨some (op.pair txnRev data), ""⟩ :: results)
      (⟨.put, op.key, some (op.pair txnRev data), data.lookup op.key, txnRev⟩ :: events)
  | delete {data data' : KeyData} {op : TxnOp} {ops : List TxnOp} {results : List TxnResult}
    {events : List Event} {kv : KeyValue} (hop : op.opType = .delete)
    (hkv : data.lookup op.key = some kv)
    (h : RunsOps txnRev (data.erase op.key) ops data' results events) :
    RunsOps txnRev data (op :: ops) data' (⟨some kv, ""⟩ :: results)
      (⟨.delete, op.key, none, some kv, txnRev⟩ :: events)
  | other {data data' : KeyData} {op : TxnOp} {ops : List TxnOp} {results : List TxnResult}
    {events : List Event} (hop : op.opType = .other) (message : String)
    (h : RunsOps txnRev data ops data' results events) :
    RunsOps txnRev data (op :: ops) data' (⟨none, message⟩ :: results) events

/-- All operations are puts and deletes, and no key of `gone` is deleted before it is put again; a
deleted key goes to `gone`. -/
def deletesOnce (gone : List Bytes) : List TxnOp → Bool
  | [] => true
  | op :: ops =>
    match op.opType with
    | .put => deletesOnce (gone.filter (· ≠ op.key)) ops
    | .delete => op.key ∉ gone && deletesOnce (op.key :: gone) ops
    | .other => false

section Ops

variable {txnRev : ℤ} {data data' : KeyData} {op : TxnOp} {ops : List TxnOp} {gone : List Bytes}
  {results : List TxnResult} {events : List Event}

theorem RunsOps.length_results (h : RunsOps txnRev data ops data' results events) :
    results.length = ops.length := by
  induction h with
  | nil => rfl
  | put _ _ ih => exact congrArg (· + 1) ih
  | delete _ _ _ ih => exact congrArg (· + 1) ih
  | other _ _ _ ih => exact congrArg (· + 1) ih

section Step

variable (txnRev : ℤ) (data : KeyData) (ops : List TxnOp)

theorem runTxnOps_put (hop : op.opType = .put) : Contents.runTxnOps txnRev data (op :: ops) =
    let run := Contents.runTxnOps txnRev (data.insert op.key (op.pair txnRev data)) ops
    (run.1, ⟨some (op.pair txnRev data), ""⟩ :: run.2.1,
      ⟨.put, op.key, some (op.pair txnRev data), data.lookup op.key, txnRev⟩ :: run.2.2) := by
  rw [Contents.runTxnOps, hop]
  rfl

theorem runTxnOps_delete (hop : op.opType = .delete) : Contents.runTxnOps txnRev data (op :: ops) =
    let run := Contents.runTxnOps txnRev (data.erase op.key) ops
    (run.1, ⟨data.lookup op.key, ""⟩ :: run.2.1,
      ⟨.delete, op.key, none, data.lookup op.key, txnRev⟩ :: run.2.2) := by
  rw [Contents.runTxnOps, hop]

theorem runTxnOps_other (hop : op.opType = .other) :
    Contents.runTxnOps txnRev data (op :: ops) = Contents.runTxnOps txnRev data ops := by
  rw [Contents.runTxnOps, hop]

theorem length_runTxnOps_le : (Contents.runTxnOps txnRev data ops).2.1.length ≤ ops.length := by
  induction ops generalizing data with
  | nil => exact le_rfl
  | cons op ops ih =>
    cases hop : op.opType with
    | put =>
      rw [runTxnOps_put _ _ _ hop]
      exact Nat.succ_le_succ (ih _)
    | delete =>
      rw [runTxnOps_delete _ _ _ hop]
      exact Nat.succ_le_succ (ih _)
    | other =>
      rw [runTxnOps_other _ _ _ hop]
      exact (ih data).trans (Nat.le_succ _)

end Step

/-- Of the keys that the operations delete, those of `gone` are the absent ones. -/
def Absent (data : KeyData) (gone : List Bytes) (ops : List TxnOp) : Prop :=
  ∀ op ∈ ops, op.opType = .delete → (op.key ∈ gone ↔ data.lookup op.key = none)

theorem Absent.put (h : Absent data gone (op :: ops)) (kv : KeyValue) :
    Absent (data.insert op.key kv) (gone.filter (· ≠ op.key)) ops := by
  intro op' hop' hdel
  rw [mem_filter, decide_eq_true_iff]
  by_cases hk : op'.key = op.key
  · rw [hk, lookup_insert]
    exact iff_of_false (fun hm ↦ hm.2 rfl) nofun
  · rw [lookup_insert_ne hk, h op' (mem_cons_of_mem op hop') hdel]
    exact and_iff_left hk

theorem Absent.delete (h : Absent data gone (op :: ops)) :
    Absent (data.erase op.key) (op.key :: gone) ops := by
  intro op' hop' hdel
  rw [mem_cons]
  by_cases hk : op'.key = op.key
  · rw [hk, lookup_erase]
    exact iff_of_true (.inl rfl) rfl
  · rw [lookup_erase_ne hk, h op' (mem_cons_of_mem op hop') hdel]
    exact or_iff_right hk

/-- The loop of the transaction runs the operations one after the other when it knows them all and
meets no key that it has deleted before. -/
theorem runsOps_runTxnOps (h : Absent data gone ops) (hd : deletesOnce gone ops = true) :
    RunsOps txnRev data ops (Contents.runTxnOps txnRev data ops).1
      (Contents.runTxnOps txnRev data ops).2.1 (Contents.runTxnOps txnRev data ops).2.2 := by
  induction ops generalizing data gone with
  | nil => exact .nil data
  | cons op ops ih =>
    unfold deletesOnce at hd
    cases hop : op.opType with
    | put =>
      rw [hop] at hd
      rw [runTxnOps_put _ _ _ hop]
      exact .put hop (ih (h.put _) hd)
    | delete =>
      rw [hop] at hd
      obtain ⟨hgone, hd⟩ := Bool.and_eq_true_iff.mp hd
      have hsome : data.lookup op.key ≠ none := fun hnone ↦
        of_decide_eq_true hgone ((h op mem_cons_self hop).mpr hnone)
      obtain ⟨kv, hkv⟩ := Option.ne_none_iff_exists'.mp hsome
      rw [runTxnOps_delete _ _ _ hop, hkv]
      exact .delete hop hkv (ih h.delete hd)
    | other =>
      rw [hop] at hd
      cases hd

/-- Only then the results are those of the operations, one for each. -/
theorem deletesOnce_of_runsOps (h : Absent data gone ops)
    (hr : RunsOps txnRev data ops data' (Contents.runTxnOps txnRev data ops).2.1 events) :
    deletesOnce gone ops = true := by
  induction ops generalizing data gone events with
  | nil => rfl
  | cons op ops ih =>
    unfold deletesOnce
    cases hop : op.opType with
    | put =>
      rw [runTxnOps_put _ _ _ hop] at hr
      cases hr with
      | put _ hr => exact ih (h.put _) hr
      | delete hop' _ _ => exact absurd (hop.symm.trans hop') nofun
    | delete =>
      rw [runTxnOps_delete _ _ _ hop] at hr
      dsimp only at hr
      generalize hx : data.lookup op.key = prev at hr
      cases hr with
      | put hop' _ => exact absurd (hop.symm.trans hop') nofun
      | other hop' _ _ => exact absurd (hop.symm.trans hop') nofun
      | delete _ hkv hr =>
        have hgone : op.key ∉ gone := fun hm ↦ by
          rw [(h op mem_cons_self hop).mp hm] at hkv
          cases hkv
        exact Bool.and_eq_true_iff.mpr ⟨decide_eq_true hgone, ih h.delete hr⟩
    | other =>
      rw [runTxnOps_other _ _ _ hop] at hr
      have hlen := hr.length_results
      have hle := length_runTxnOps_le txnRev data ops
      rw [length_cons] at hlen
      omega

end Ops

namespace Contents

variable {s : Contents} {req : TxnRequest}

section Branches

theorem applyTxnLocked_nil (h : s.txnOps req = []) :
    s.applyTxnLocked req = (s, ⟨req.compare.all s.evalCompare, [], s.revision⟩) := if_pos h

theorem applyTxnLocked_exhausted (hne : s.txnOps req ≠ []) (h : s.revisionExhausted = true) :
    s.applyTxnLocked req = (s, ⟨false, [], s.revision⟩) := (if_neg hne).trans (if_pos h)

variable (hne : s.txnOps req ≠ []) (hex : ¬ s.revisionExhausted = true)
include hne hex

theorem applyTxnLocked_missing (h : (s.txnOps req).any s.missing = true) : s.applyTxnLocked req =
    (s, ⟨false, (s.txnOps req).map (fun op ↦ ⟨none, if s.missing op then "key not found" else ""⟩),
      s.revision⟩) :=
  (if_neg hne).trans ((if_neg hex).trans (if_pos h))

theorem applyTxnLocked_run (h : ¬ (s.txnOps req).any s.missing = true) : s.applyTxnLocked req =
    let run := runTxnOps (s.revision + 1) s.data (s.txnOps req)
    let s' : Contents := { s with revision := s.revision + 1, data := run.1 }
    (if run.2.2 = [] then s' else s'.emitEvents run.2.2,
      ⟨req.compare.all s.evalCompare, run.2.1, s.revision + 1⟩) :=
  (if_neg hne).trans ((if_neg hex).trans (if_neg h))

end Branches

/-- The chosen branch is refused: no revision is left, or a key that it deletes is absent. -/
def aborts (s : Contents) (req : TxnRequest) : Bool :=
  s.txnOps req ≠ [] && (s.revisionExhausted || (s.txnOps req).any s.missing)

/-- An empty branch takes no revision. -/
structure CommitsTxn (s : Contents) (req : TxnRequest) (s' : Contents) (response : TxnResponse) :
    Prop where
  revision : s'.revision = if s.txnOps req = [] then s.revision else s.revision + 1
  runs : ∃ events, RunsOps (s.revision + 1) s.data (s.txnOps req) s'.data response.results events ∧
    Emits s s' events

structure AtomicTxn (s : Contents) (req : TxnRequest) : Prop where
  aborted : s.aborts req = true → (s.applyTxnLocked req).1.data = s.data ∧
    (s.applyTxnLocked req).1.revision = s.revision ∧ (s.applyTxnLocked req).1.history = s.history
  committed : s.aborts req = false →
    s.CommitsTxn req (s.applyTxnLocked req).1 (s.applyTxnLocked req).2

theorem applyTxnLocked_of_aborts (h : s.aborts req = true) : (s.applyTxnLocked req).1 = s := by
  obtain ⟨hne, h⟩ := Bool.and_eq_true_iff.mp h
  have hops := of_decide_eq_true hne
  by_cases hex : s.revisionExhausted = true
  · rw [applyTxnLocked_exhausted hops hex]
  · have hm := ((Bool.or_eq_true _ _).mp h).resolve_left hex
    rw [applyTxnLocked_missing hops hex hm]

theorem not_missing_of_commits (h : s.aborts req = false) (hne : s.txnOps req ≠ []) :
    ¬ s.revisionExhausted = true ∧ ¬ (s.txnOps req).any s.missing = true := by
  unfold aborts at h
  rw [decide_eq_true hne, Bool.true_and, Bool.or_eq_false_iff] at h
  rw [h.1, h.2]
  exact ⟨Bool.false_ne_true, Bool.false_ne_true⟩

theorem absent_of_not_missing {ops : List TxnOp} (h : ¬ ops.any s.missing = true) :
    Absent s.data [] ops := by
  intro op hop hdel
  refine iff_of_false not_mem_nil fun hnone ↦ h (any_eq_true.mpr ⟨op, hop, ?_⟩)
  unfold missing
  rw [hdel, hnone]
  rfl

theorem revision_of_commits (h : s.aborts req = false) : (s.applyTxnLocked req).1.revision =
    if s.txnOps req = [] then s.revision else s.revision + 1 := by
  by_cases hnil : s.txnOps req = []
  · rw [if_pos hnil, applyTxnLocked_nil hnil]
  · obtain ⟨hex, hm⟩ := not_missing_of_commits h hnil
    rw [if_neg hnil, applyTxnLocked_run hnil hex hm]
    dsimp only
    split_ifs
    · rfl
    · exact emitEvents_revision _ _

theorem commitsTxn_of_deletesOnce (h : s.aborts req = false)
    (hd : deletesOnce [] (s.txnOps req) = true) :
    s.CommitsTxn req (s.applyTxnLocked req).1 (s.applyTxnLocked req).2 := by
  have hemits := emits_applyTxnLocked s req
  refine ⟨revision_of_commits h, s.txnEvents req, ?_, hemits⟩
  by_cases hnil : s.txnOps req = []
  · have hevents : s.txnEvents req = [] := by
      unfold txnEvents
      rw [hnil]
      exact ite_self _
    rw [applyTxnLocked_nil hnil, hnil, hevents]
    exact .nil s.data
  · obtain ⟨hex, hm⟩ := not_missing_of_commits h hnil
    have hevents : s.txnEvents req = (runTxnOps (s.revision + 1) s.data (s.txnOps req)).2.2 :=
      if_neg (not_or.mpr ⟨hex, hm⟩)
    have hdata : (s.applyTxnLocked req).1.data =
        (runTxnOps (s.revision + 1) s.data (s.txnOps req)).1 := by
      rw [← hemits.data_eq, hevents, (foldl_runTxnOps _ _ _).1]
    have hresults : (s.applyTxnLocked req).2.results =
        (runTxnOps (s.revision + 1) s.data (s.txnOps req)).2.1 := by
      rw [applyTxnLocked_run hnil hex hm]
    rw [hdata, hresults, hevents]
    exact runsOps_runTxnOps (absent_of_not_missing hm) hd

/-- A transaction is atomic, with one result for each operation, exactly when it is refused or its
branch has known operations only and deletes no key twice. -/
theorem atomicTxn_iff (s : Contents) (req : TxnRequest) :
    s.AtomicTxn req ↔ (s.aborts req = false → deletesOnce [] (s.txnOps req) = true) := by
  constructor
  · intro h hab
    obtain ⟨events, hruns, -⟩ := (h.committed hab).runs
    by_cases hnil : s.txnOps req = []
    · rw [hnil]
      rfl
    · obtain ⟨hex, hm⟩ := not_missing_of_commits hab hnil
      rw [applyTxnLocked_run hnil hex hm] at hruns
      exact deletesOnce_of_runsOps (absent_of_not_missing hm) hruns
  · intro hd
    refine ⟨fun hab ↦ ?_, fun hab ↦ ?_⟩
    · rw [applyTxnLocked_of_aborts hab]
      exact ⟨rfl, rfl, rfl⟩
    · exact commitsTxn_of_deletesOnce hab (hd hab)

def oneKey : Contents := (KVStore.new.apply KVStore.putA).1.toContents

def deleteTwice : TxnRequest := ⟨[], [⟨.delete, ascii "a", []⟩, ⟨.delete, ascii "a", []⟩], []⟩

def unknownOp : TxnRequest := ⟨[], [⟨.other, ascii "a", []⟩], []⟩

/-- The second delete of the key answers and emits that nothing was removed, and the operation of an
unknown type has no result. -/
theorem oneKey_not_atomic : ¬ oneKey.AtomicTxn deleteTwice ∧ ¬ oneKey.AtomicTxn unknownOp := by
  constructor
  · intro h
    obtain ⟨events, hruns, -⟩ := (h.committed (by decide +kernel)).runs
    have hd := deletesOnce_of_runsOps (absent_of_not_missing (by decide +kernel)) hruns
    exact absurd hd (by decide +kernel)
  · intro h
    obtain ⟨events, hruns, -⟩ := (h.committed (by decide +kernel)).runs
    exact absurd hruns.length_results (by decide +kernel)

end Contents

end RaftConsensus.Kv
