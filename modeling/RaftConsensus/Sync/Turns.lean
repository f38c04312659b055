import RaftConsensus.Sync.Orderly

namespace RaftConsensus

namespace Raft

variable {σ : Type} {r r' : Raft σ} {id : ServerID} {F : FSM σ} {s : Stimulus}

theorem orderly_tick (r : Raft σ) (rnd : ℕ) (now : ℤ) (order : List ServerID) :
    Orderly r (r.tick rnd now order) := by
  have helect : Orderly r (r.tickElection rnd) := by
    unfold tickElection
    dsimp only
    split
    · refine Orderly.trans ?_ (orderly_startElectionWith _ false false)
      exact .same rfl
    · exact .same rfl
  unfold Raft.tick
  split
  · exact helect
  · exact helect
  · exact Orderly.walks.tickLeader r rnd now order
  · exact .refl r
  · exact .refl r

variable {now : ℤ} {send : SnapshotSend}

theorem orderly_sendSnapshotEnd (now : ℤ)
    (hpc : r.inflightReplication.lookup id = some (.snapDone send)) :
    Orderly r (r.sendSnapshotEnd id send now) := by
  unfold sendSnapshotEnd
  split
  · have hraise : Orderly r (advanceCommitIndex { r.raiseMatch id send.lastIncludedIndex with
        heartbeatAcks := (r.raiseMatch id send.lastIncludedIndex).heartbeatAcks.insert id now }) :=
      .same rfl
    have hmove (r' : Raft σ) (h : r'.inflightReplication.lookup id = some (.snapDone send)) :
        Orderly r' (r'.setReplicator id .loop) := orderly_move h nofun _
    exact hraise.trans (hmove _ hpc)
  · exact orderly_move hpc nofun _

theorem orderly_exec {o : Op} (hstep : r.exec F o = some r') : Orderly r r' := by
  cases o with
  | tick rnd now order =>
    simp only [Raft.exec] at hstep
    split at hstep
    · obtain ⟨r₁, h₁, hstep⟩ := Option.bind_eq_some_iff.mp hstep
      refine (Orderly.walks.readClock h₁).trans (Orderly.walks.selected hstep ?_)
      exact r₁.orderly_tick rnd now order
    · cases hstep
  | replicate target => exact orderly_replicateStep hstep
  | snapshotChunk target n done =>
    simp only [Raft.exec] at hstep
    split at hstep
    · rename_i send hpc
      unfold sendSnapshotChunk at hstep
      split at hstep <;> cases hstep
      exact (orderly_move hpc (by simp) _).trans (Orderly.walks.emit _ ⟨rfl, rfl⟩)
    · cases hstep
  | snapshotSent target now =>
    simp only [Raft.exec] at hstep
    split at hstep
    · rename_i send hpc
      obtain ⟨r₁, h₁, rfl⟩ := Option.map_eq_some_iff.mp hstep
      refine (Orderly.walks.readClock h₁).trans (orderly_sendSnapshotEnd now ?_)
      rw [(r.readClock_some h₁).2]
      exact hpc
    · cases hstep
  | requestLeadership id =>
    cases hstep
    exact .ite (fun _ ↦ ⟨fun hf ↦ hf, rfl⟩) fun _ ↦ ⟨fun hf ↦ hf, rfl⟩
  | cancelTransfer id =>
    cases hstep
    unfold cancelTransfer
    dsimp only
    split <;> exact ⟨fun hf ↦ hf, rfl⟩
  | _ => exact Orderly.walks.exec rfl hstep

theorem orderly_handle {req : Request} (r : Raft σ) (rnd : ℕ)
    (hreq : ∀ chunk, req ≠ .installSnapshot chunk) : Orderly r (r.handle F rnd req).1 := by
  cases req with
  | requestVote req => exact Orderly.walks.handleRequestVote r req rnd
  | appendEntries req =>
    refine (Orderly.walks.handleAppendEntries r req rnd fun a _ _ _ ↦ ?_).trans (.same rfl)
    unfold finishTransfer
    split
    · exact .refl a
    · exact ⟨fun hf ↦ hf, rfl⟩
  | installSnapshot req => exact absurd rfl (hreq req)
  | timeoutNow =>
    refine Orderly.trans ?_ (orderly_startElectionWith _ true true)
    exact .same rfl

theorem Flows.handle (h : r.Flows) (rnd : ℕ) (req : Request) : (r.handle F rnd req).1.Flows := by
  by_cases hreq : ∃ chunk, req = .installSnapshot chunk
  · obtain ⟨chunk, rfl⟩ := hreq
    exact Flows.walks.handleInstallSnapshot r (fun _ _ hf ↦ hf) F chunk rnd h
  · exact (r.orderly_handle rnd fun chunk hc ↦ hreq ⟨chunk, hc⟩).flows h

/-- The answer to a batch of the leader's own term carries that term. -/
def answersInTerm (r : Raft σ) : Stimulus → Bool
  | .reply _ _ (.appendEntries req) (.appendEntries resp) =>
    !(r.state = .leader && req.term = r.term && !req.entries.isEmpty && resp.term < r.term)
  | _ => true

theorem orderly_voteReply (r : Raft σ) (resp : RequestVoteResponse) (preVote : Bool) :
    Orderly r (if preVote then r.sendPreVoteReply id resp else r.sendVoteReply id resp) := by
  refine .ite (fun _ ↦ ?_) fun _ ↦ ?_
  · unfold sendPreVoteReply
    refine .ite (fun _ ↦ .refl r) fun _ ↦ .ite (fun _ ↦ .down rfl nofun) fun _ ↦ .ite
      (fun _ ↦ ?_) fun _ ↦ .refl r
    dsimp only
    split
    · refine Orderly.trans ?_ (orderly_startElectionWith _ true false)
      exact ⟨fun hf ↦ hf, rfl⟩
    · exact ⟨fun hf ↦ hf, rfl⟩
  · unfold sendVoteReply
    refine .ite (fun _ ↦ .refl r) fun _ ↦ .ite (fun _ ↦ .down rfl nofun) fun _ ↦ .ite
      (fun _ ↦ .refl r) fun _ ↦ .ite (fun _ ↦ ?_) fun _ ↦ .refl r
    dsimp only
    split
    · refine Orderly.trans ?_ (orderly_becomeLeader _)
      exact .same rfl
    · exact .same rfl

theorem orderly_sendSnapshotReply {n : ℕ} {done : Bool}
    (resp : InstallSnapshotResponse)
    (hpc : r.inflightReplication.lookup id = some (.snapWaiting send n done)) :
    Orderly r (r.sendSnapshotReply id send n done resp) := by
  unfold sendSnapshotReply
  refine .ite (fun _ ↦ .down (Orderly.walks.failPendingFutures r).buffer nofun) fun _ ↦ ?_
  exact .ite (fun _ ↦ orderly_move hpc nofun _) fun _ ↦ orderly_move hpc nofun _

theorem Flows.receive (h : r.Flows) {req : Request} {resp : Response}
    (hcond : r.answersInTerm (.reply id now req resp) = true)
    (hstep : r.receive id now req resp = some r') : r'.Flows := by
  unfold Raft.receive at hstep
  split at hstep
  · cases hstep
    exact (r.orderly_voteReply _ _).flows h
  · rename_i req resp
    split at hstep
    · rename_i hpc
      obtain ⟨r₁, h₁, rfl⟩ := Option.map_eq_some_iff.mp hstep
      have hf := (Orderly.walks.readClock h₁).flows h
      rw [(r.readClock_some h₁).2] at hf ⊢
      refine hf.replicateOnceReply hpc fun hs ht hne hlt ↦ ?_
      dsimp only at hs ht hlt
      simp [answersInTerm, hs, ht, hlt, hne] at hcond
    · cases hstep
  · split at hstep
    · cases hstep
      exact (orderly_sendSnapshotReply _ ‹_›).flows h
    · cases hstep
  · cases hstep
    exact h
  · cases hstep

theorem snapReasm_receive {req : Request} {resp : Response}
    (hstep : r.receive id now req resp = some r') : r'.snapReasm = r.snapReasm := by
  unfold Raft.receive at hstep
  split at hstep
  · cases hstep
    exact (r.orderly_voteReply _ _).buffer
  · rename_i req resp
    split at hstep
    · rename_i hpc
      obtain ⟨r₁, h₁, rfl⟩ := Option.map_eq_some_iff.mp hstep
      rw [(r.readClock_some h₁).2]
      exact snapReasm_replicateOnceReply resp now hpc
    · cases hstep
  · split at hstep
    · cases hstep
      exact (orderly_sendSnapshotReply _ ‹_›).buffer
    · cases hstep
  · cases hstep
    rfl
  · cases hstep

theorem orderly_callFailed {req : Request} (hstep : r.callFailed id req = some r') :
    Orderly r r' := by
  unfold callFailed at hstep
  split at hstep
  · split at hstep
    · cases hstep
      exact orderly_replicateOnceError ‹_›
    · cases hstep
  · split at hstep
    · rename_i send n done hpc
      cases hstep
      exact orderly_move hpc nofun _
    · cases hstep
  · cases hstep
    exact .refl r
  · cases hstep
    exact .refl r

theorem Flows.take (h : r.Flows) (hcond : r.answersInTerm s = true) (hstep : r.take F s = some r') :
    r'.Flows := by
  cases s with
  | op o => exact (orderly_exec hstep).flows h
  | request req rnd =>
    cases hstep
    exact h.handle rnd req
  | reply id now req resp => exact h.receive hcond hstep
  | failed id req => exact (orderly_callFailed hstep).flows h

theorem snapReasm_take (hs : ∀ chunk rnd, s ≠ .request (.installSnapshot chunk) rnd)
    (hstep : r.take F s = some r') : r'.snapReasm = r.snapReasm := by
  cases s with
  | op o => exact (orderly_exec hstep).buffer
  | request req rnd =>
    cases hstep
    refine (r.orderly_handle rnd fun chunk hc ↦ hs chunk rnd ?_).buffer
    rw [hc]
  | reply id now req resp => exact snapReasm_receive hstep
  | failed id req => exact (orderly_callFailed hstep).buffer

end Raft

end RaftConsensus
