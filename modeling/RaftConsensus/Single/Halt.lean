import RaftConsensus.Single.Learner
import RaftConsensus.Single.Machine

namespace RaftConsensus

namespace Raft

variable {σ : Type} {r r' : Raft σ} {F : FSM σ} {s : Stimulus}

/-- `Shutdown` or a fatal error has stopped the node, and it was not started again. -/
structure Halted (r : Raft σ) : Prop where
  started : r.started = true
  state : r.state = .shutdown

/-- What the handlers of a halted node are not to do: report success, grant a vote, restore a
snapshot, start an election. -/
def Inert (F : FSM σ) (r : Raft σ) : Stimulus → Prop
  | .request (.appendEntries req) rnd => (r.handleAppendEntries req rnd).2.success = false
  | .request (.requestVote req) rnd => (r.handleRequestVote req rnd).2.voteGranted = false
  | .request (.installSnapshot req) _ => r.installs req = none
  | .request .timeoutNow rnd => (r.handle F rnd .timeoutNow).1.state.Passive
  | _ => True

/-- The requests that reach the node are stale, or ask for a vote of its term that another server
has, and no reply to a chunk of a snapshot brings a higher term. -/
def leftAlone (r : Raft σ) : Stimulus → Bool
  | .request (.appendEntries req) _ => req.term < r.term
  | .request (.requestVote req) _ => req.term < r.term ||
      (!req.preVote && req.term = r.term && r.votedFor ≠ "" && r.votedFor ≠ req.candidateID)
  | .request (.installSnapshot req) _ => req.term < r.term
  | .request .timeoutNow _ => false
  | .reply _ _ (.installSnapshot _) (.installSnapshot resp) => resp.term ≤ r.term
  | _ => true

theorem handleRequestVote_refuses {req : RequestVoteRequest} (rnd : ℕ)
    (h : r.leftAlone (.request (.requestVote req) rnd) = true) :
    (r.handleRequestVote req rnd).1 = r ∧ (r.handleRequestVote req rnd).2.voteGranted = false := by
  simp only [leftAlone, Bool.or_eq_true, Bool.and_eq_true, decide_eq_true_eq,
    Bool.not_eq_true'] at h
  unfold handleRequestVote
  dsimp only
  rcases h with hlt | ⟨⟨⟨hpre, heq⟩, hv⟩, hc⟩
  · rw [if_pos hlt]
    split
    · refine ⟨rfl, ?_⟩
      unfold handlePreVote
      rw [if_pos hlt]
    · exact ⟨rfl, rfl⟩
  · rw [if_neg (by simp [hpre]), if_neg (Nat.not_lt.mpr heq.ge)]
    split
    · exact ⟨rfl, rfl⟩
    · rw [if_neg (Nat.not_lt.mpr heq.le), if_pos ⟨hv, hc⟩]
      exact ⟨rfl, rfl⟩

theorem not_rouses_of_leftAlone (hs : r.leftAlone s = true) : r.rouses s = false := by
  cases s with
  | op o => rfl
  | failed id req => rfl
  | request req rnd =>
    cases req with
    | appendEntries req => exact decide_eq_false (of_decide_eq_true hs).le.not_gt
    | installSnapshot req => exact decide_eq_false (of_decide_eq_true hs).le.not_gt
    | requestVote req =>
      simp only [leftAlone, Bool.or_eq_true, Bool.and_eq_true, decide_eq_true_eq] at hs
      have hle : ¬ r.term < req.term := (hs.elim Nat.le_of_lt fun h ↦ h.1.1.2.le).not_gt
      simp [rouses, hle]
    | timeoutNow => cases hs
  | reply id now req resp =>
    cases req with
    | installSnapshot req =>
      cases resp with
      | installSnapshot resp => exact decide_eq_false (of_decide_eq_true hs).not_gt
      | _ => rfl
    | _ => rfl

theorem Halted.take (hh : r.Halted) (hs : r.leftAlone s = true) (h : r.take F s = some r') :
    r'.Halted := by
  obtain ⟨hst, hstate, -⟩ := rests_take hh.started (.inr hh.state) (not_rouses_of_leftAlone hs) h
  exact ⟨hst, hstate.elim (·.trans hh.state) id⟩

theorem inert_of_leftAlone (F : FSM σ) (hs : r.leftAlone s = true) : r.Inert F s := by
  unfold Inert
  split
  · rename_i req rnd
    unfold handleAppendEntries
    dsimp only
    rw [if_pos (of_decide_eq_true hs)]
  · exact (handleRequestVote_refuses _ hs).2
  · exact if_pos (of_decide_eq_true hs)
  · cases hs
  · trivial

/-- In a run whose steps all leave a halted node alone, it stays halted. -/
theorem halted_stays_halted {r₀ : Raft σ} (h₀ : r₀.Halted)
    (h : Steps F (fun r s ↦ r.leftAlone s = true) r₀ r) :
    r.state = .shutdown ∧ ∀ s, r.leftAlone s = true → r.Inert F s := by
  have hh : r.Halted := h.invariant h₀ fun r s r' hs ht hr ↦
    let hr' := hr.take hs ht
    ⟨hr'.started, hr'.state⟩
  exact ⟨hh.state, fun s hs ↦ inert_of_leftAlone F hs⟩

end Raft

section Example

open Action

def haltedB : Raft (List Bytes) :=
  (((Raft.new (.least "B" abc) "B" .empty []).start 0).handleRequestVote
    ⟨1, "A", 0, 0, false, false⟩ 0).1.shutdown

/-- What reaches B then: the end of its loop, a vote request of C and an old heartbeat. -/
def afterHalt : List Stimulus :=
  [.op .stop, .op (.runStep 0), .op (.runStep 0), .op (.runStep 0),
    .request (.requestVote ⟨1, "C", 0, 0, false, false⟩) 0,
    .request (.appendEntries ⟨0, "C", 0, 0, [], 0⟩) 0]

theorem haltedB_stays_halted : ∃ r : Raft (List Bytes),
    Raft.Steps .keeping (fun r s ↦ r.leftAlone s = true) haltedB r ∧ r.run = .off ∧
      r.state = .shutdown ∧
      (r.handleAppendEntries ⟨0, "C", 0, 0, [], 0⟩ 0).2.success = false := by
  have hrun : (haltedB.checkedSteps .keeping Raft.leftAlone afterHalt).any (fun r ↦
      r.run = .off ∧ r.leftAlone (.request (.appendEntries ⟨0, "C", 0, 0, [], 0⟩) 0) = true) =
        true := by
    decide +kernel
  obtain ⟨r, hr, h⟩ := (Option.any_eq_true _ _).mp hrun
  obtain ⟨hoff, hs⟩ := of_decide_eq_true h
  have hsteps := Raft.steps_of_checkedSteps (fun _ _ h ↦ h) hr
  have hstay := Raft.halted_stays_halted ⟨by decide +kernel, by decide +kernel⟩ hsteps
  exact ⟨r, hsteps, hoff, hstay.1, hstay.2 _ hs⟩

/-- B is shut down, the other two elect A, and A replicates to B. -/
def toHaltedB : List Action :=
  boot "A" ++ boot "B" ++ boot "C" ++ [op "B" .shutdown] ++ timeout "A" 3 ++
    [deliver 1, reply 0, op "A" (.replicate "B")]

/-- The request makes B a follower again, and B reports success. -/
theorem revived_toHaltedB : ∃ (w : World (List Bytes)) (r : Raft (List Bytes))
    (req : AppendEntriesRequest),
    World.Reach threeVoters .keeping (fun _ _ ↦ True) w ∧ w.raft? "B" = some r ∧ r.Halted ∧
      w.net[2]? = some ⟨"A", "B", .appendEntries req⟩ ∧
      (r.handleAppendEntries req 0).1.state = .follower ∧
      (r.handleAppendEntries req 0).2.success = true := by
  have hrun : (World.init.steps threeVoters .keeping toHaltedB).any (fun w ↦
      (w.raft? "B").any fun r ↦ r.started = true ∧ r.state = .shutdown ∧
        w.net[2]? = some ⟨"A", "B", .appendEntries ⟨1, "A", 0, 0, [⟨1, 1, .normal []⟩], 0⟩⟩ ∧
        (r.handleAppendEntries ⟨1, "A", 0, 0, [⟨1, 1, .normal []⟩], 0⟩ 0).1.state = .follower ∧
        (r.handleAppendEntries ⟨1, "A", 0, 0, [⟨1, 1, .normal []⟩], 0⟩ 0).2.success = true) =
          true := by
    decide +kernel
  obtain ⟨w, hw, hB⟩ := (Option.any_eq_true _ _).mp hrun
  obtain ⟨r, hr, hB⟩ := (Option.any_eq_true _ _).mp hB
  obtain ⟨hst, hs, hnet, hfollow, hsuccess⟩ := of_decide_eq_true hB
  exact ⟨w, r, _, World.steps_of_steps hw, hr, ⟨hst, hs⟩, hnet, hfollow, hsuccess⟩

end Example

end RaftConsensus
