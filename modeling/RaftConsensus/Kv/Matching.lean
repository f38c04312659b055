import RaftConsensus.Kv.Duplicates
import RaftConsensus.Kv.SameLive
import RaftConsensus.Kv.Snapshot

namespace RaftConsensus.Kv

open Maps

section Data

variable {d d' : KeyData}

theorem agree_foldl_erase (h : AgreeBy id d d') (keys : List Bytes) :
    AgreeBy id (keys.foldl (fun d key ↦ d.erase key) d)
    (keys.foldl (fun d key ↦ d.erase key) d') := by
  induction keys generalizing d d' with
  | nil => exact h
  | cons key keys ih => exact ih (h.erase key)

theorem agree_runTxnOps (h : AgreeBy id d d') (txnRev : ℤ) (ops : List TxnOp) :
    (Contents.runTxnOps txnRev d ops).2 = (Contents.runTxnOps txnRev d' ops).2 ∧
      AgreeBy id (Contents.runTxnOps txnRev d ops).1 (Contents.runTxnOps txnRev d' ops).1 := by
  induction ops generalizing d d' with
  | nil => exact ⟨rfl, h⟩
  | cons op ops ih =>
    unfold Contents.runTxnOps
    dsimp only
    rw [h.lookup_eq op.key]
    cases op.opType with
    | put =>
      obtain ⟨hres, hdata⟩ := ih (h.insert op.key rfl)
      exact ⟨congrArg (fun r ↦ (_ :: r.1, _ :: r.2)) hres, hdata⟩
    | delete =>
      obtain ⟨hres, hdata⟩ := ih (h.erase op.key)
      exact ⟨congrArg (fun r ↦ (_ :: r.1, _ :: r.2)) hres, hdata⟩
    | other => exact ih h

end Data

namespace Contents

/-- The parts that commands read are the same. -/
structure Matches (s t : Contents) : Prop where
  data : AgreeBy id s.data t.data
  revision : s.revision = t.revision
  applyTimeMs : s.applyTimeMs = t.applyTimeMs

namespace Matches

variable {s t : Contents} (h : Matches s t)
include h

theorem expired_eq : sortStrings s.expired = sortStrings t.expired := by
  refine sortStrings_eq_of_perm ?_
  rw [expired, expired, h.applyTimeMs]
  exact (h.data.entries_perm.filter _).map _

theorem missing_eq : s.missing = t.missing := by
  funext op
  rw [missing, missing, h.data.lookup_eq]

theorem reads : ReadsSame s t := by
  refine ⟨h.revision.symm, h.applyTimeMs.symm, fun key ↦ ?_⟩
  have hlive : t.isLive = s.isLive := by
    funext kv
    rw [isLive, isLive, h.applyTimeMs]
  rw [live, live, h.data.lookup_eq key, hlive]

theorem update {d d' : KeyData} (hdata : AgreeBy id d d') (revision : ℤ) :
    Matches { s with data := d, revision := revision }
    { t with data := d', revision := revision } :=
  ⟨hdata, rfl, h.applyTimeMs⟩

theorem emitEvents (events : List Event) : Matches (s.emitEvents events) (t.emitEvents events) := by
  refine ⟨?_, ?_, ?_⟩
  · rw [(emitEvents_spec s events).1, (emitEvents_spec t events).1]
    exact h.data
  · rw [emitEvents_revision, emitEvents_revision, h.revision]
  · rw [emitEvents_applyTimeMs, emitEvents_applyTimeMs, h.applyTimeMs]

omit h in
theorem writes : Writes Matches where
  reads := reads
  emitEvents events h := h.emitEvents events
  insert key _ revision h := h.update (h.data.insert key rfl) revision
  erase key revision h := h.update (h.data.erase key) revision

theorem sweepExpiredLocked : t.sweepExpiredLocked.2 = s.sweepExpiredLocked.2 ∧
    Matches s.sweepExpiredLocked.1 t.sweepExpiredLocked.1 := by
  simp only [Contents.sweepExpiredLocked, h.expired_eq, h.reads.revisionExhausted, h.revision,
    h.data.lookup_eq _]
  split_ifs
  · exact ⟨rfl, h⟩
  · exact ⟨rfl, (update h (agree_foldl_erase h.data _) _).emitEvents _⟩

theorem applyTxnLocked (req : TxnRequest) : (t.applyTxnLocked req).2 = (s.applyTxnLocked req).2 ∧
    Matches (s.applyTxnLocked req).1 (t.applyTxnLocked req).1 := by
  unfold Contents.applyTxnLocked
  dsimp only
  rw [h.reads.evalCompare, h.missing_eq, h.reads.revisionExhausted, h.revision]
  generalize (if req.compare.all s.evalCompare then req.success else req.failure) = ops
  obtain ⟨hres, hdata⟩ := agree_runTxnOps h.data (t.revision + 1) ops
  rcases hs : runTxnOps (t.revision + 1) s.data ops with ⟨d, results, events⟩
  rcases ht : runTxnOps (t.revision + 1) t.data ops with ⟨d', results', events'⟩
  rw [hs, ht] at hres hdata
  cases hres
  dsimp only at hdata ⊢
  split_ifs
  · exact ⟨rfl, h⟩
  · exact ⟨rfl, h⟩
  · exact ⟨rfl, h⟩
  · exact ⟨rfl, update h hdata _⟩
  · exact ⟨rfl, (update h hdata _).emitEvents _⟩

theorem execute (cmd : KvCommand) : (t.execute cmd).2 = (s.execute cmd).2 ∧
    Matches (s.execute cmd).1 (t.execute cmd).1 :=
  writes.execute h (fun _ ↦ h.sweepExpiredLocked) (fun _ _ ↦ (h.data.lookup_eq cmd.key).symm)
    fun req _ _ ↦ h.applyTxnLocked req

end Matches

end Contents

end RaftConsensus.Kv
