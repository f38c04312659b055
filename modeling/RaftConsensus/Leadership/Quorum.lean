import RaftConsensus.Conditions
import RaftConsensus.Leadership.Votes

namespace RaftConsensus

variable {σ : Type} {cl : Cluster} {F : FSM σ} {w : World σ}

namespace Raft

def ownVoteSuffices (r : Raft σ) : Bool :=
  r.configuration.quorumSize ≠ 1 ||
    r.electorate.hasVoteQuorum ((∅ : VoteMap).insert r.localID true)

def jointFromActive (r : Raft σ) : Bool :=
  r.jointConfig.all fun j ↦ j.oldConfig = r.configuration

/-- The condition on a step by which the node may become a leader. -/
def electsByQuorum (r : Raft σ) (t : Trigger) (inp : Input) : Bool :=
  !r.mayLead t inp || (r.ownVoteSuffices && r.jointFromActive)

end Raft

theorem Raft.hasVoteQuorum_of_ownVoteSuffices {r : Raft σ} (h : r.ownVoteSuffices = true)
    (hq : r.configuration.quorumSize = 1) :
    r.electorate.hasVoteQuorum ((∅ : VoteMap).insert r.localID true) = true := by
  rw [Raft.ownVoteSuffices, Bool.or_eq_true] at h
  exact h.resolve_left fun hne ↦ of_decide_eq_true hne hq

def byQuorum : Licence where
  lead c := c.electorate.hasVoteQuorum c.votes = true ∧
    ∀ j, c.jointConfig = some j → j.oldConfig = c.configuration
  follow _ _ := True
  ack _ _ _ := True

theorem byQuorum_covers {r : Raft σ} {t : Trigger} {inp : Input}
    (h : r.electsByQuorum t inp = true) :
    byQuorum.Covers (r.mayLead t inp = true) inp r.core := by
  have hjoint (hm : r.mayLead t inp = true) :
      r.ownVoteSuffices = true ∧ r.jointFromActive = true := by
    simpa [Raft.electsByQuorum, hm] using h
  have hactive (hm : r.mayLead t inp = true) (j : JointConfiguration)
      (hj : r.jointConfig = some j) : j.oldConfig = r.configuration := by
    have := (hjoint hm).2
    simpa [Raft.jointFromActive, hj] using this
  exact ⟨fun hm now hq ↦ ⟨Raft.hasVoteQuorum_of_ownVoteSuffices (hjoint hm).1 hq, hactive hm⟩,
    fun hm id _ _ hq ↦ ⟨hq, hactive hm⟩, fun _ _ _ _ ↦ trivial, fun _ _ _ _ _ _ _ ↦ trivial⟩

/-- Whoever becomes the leader of a term holds, by then, the votes of a majority of the
voters of its active configuration and, during a membership change, of both configurations. -/
theorem becomeLeader_majority {h₁ h₂ : List (ServerID × Event)} {n : ServerID} {term : ℕ}
    {e : Electorate} {log : LogStore}
    (h : World.Reach cl F (fun w a ↦ w.checks Raft.electsByQuorum a = true) w)
    (hh : w.history = h₁ ++ (n, .becameLeader term e log) :: h₂) :
    e.configuration.Majority (fun id ↦ (id, .voted n term) ∈ h₁) ∧
      ∀ j, e.jointConfig = some j → j.oldConfig.Majority (fun id ↦ (id, .voted n term) ∈ h₁) ∧
        j.newConfig.Majority (fun id ↦ (id, .voted n term) ∈ h₁) := by
  have hkept : (voteCounting byQuorum).Kept cl anyKind byQuorum 0 := voteCounting_kept fun c h ↦ h.1
  have hv : (voteCounting byQuorum).Holds w.view :=
    hkept.reach (fun w a hc ↦ World.permits_of (Bool.and_eq_true_iff.mpr ⟨w.within_anyKind a, hc⟩)
      fun r t inp _ hc _ ↦ byQuorum_covers hc)
      voteCounting_init h
  obtain ⟨c, ⟨-, hjoint⟩, -, -, rfl, hq, hvotes⟩ := hv.all.leaders h₁ h₂ n term e log hh
  have hvq := (Electorate.voteQuorum_of_hasVoteQuorum hq).mono hvotes
  cases hj : c.jointConfig with
  | some j =>
    simp only [Electorate.VoteQuorum, Core.electorate, hj] at hvq ⊢
    refine ⟨hjoint j hj ▸ hvq.1, fun j' heq ↦ ?_⟩
    cases heq
    exact hvq
  | none =>
    simp only [Electorate.VoteQuorum, Core.electorate, hj] at hvq ⊢
    exact ⟨hvq, fun _ heq ↦ by cases heq⟩

theorem becomeLeader_majority_electA : ∃ (w : World (List Bytes)) (h₁ h₂ : List (ServerID × Event))
    (e : Electorate) (log : LogStore),
      World.Reach threeVoters .keeping (fun w a ↦ w.checks Raft.electsByQuorum a = true) w ∧
      w.history = h₁ ++ ("A", .becameLeader 1 e log) :: h₂ ∧
      e.configuration.Majority (fun id ↦ (id, .voted "A" 1) ∈ h₁) := by
  obtain ⟨w, hr, hh⟩ := World.exists_checked threeVoters .keeping (·.checks Raft.electsByQuorum)
    electA (fun w ↦ w.history = [("A", .voted "A" 1), ("B", .voted "A" 1),
      ("A", .becameLeader 1 ⟨abc, none⟩ ⟨[]⟩)]) (by decide +kernel)
  exact ⟨w, [("A", .voted "A" 1), ("B", .voted "A" 1)], [], _, _, hr, hh,
    (becomeLeader_majority hr hh).1⟩

section Learner

open Action (boot timeout)

def voterAndLearner : Configuration := ⟨[⟨"A", "", false⟩, ⟨"B", "", true⟩]⟩

def learnerCluster : Cluster :=
  .ofList [.least "A" voterAndLearner,
    { Config.least "B" voterAndLearner with startAsLearner := true }]

/-- The first request of its leader makes the learner a follower. Its election timeout then
finds a quorum of one. -/
def learnerElected : List Action :=
  boot "A" ++ boot "B" ++ timeout "A" 3 ++ [.op "A" (.replicate "B"), .deliver 0] ++ timeout "B" 6

theorem becomeLeader_without_majority : ∃ (w : World (List Bytes)) (h₁ h₂ : List (ServerID × Event))
    (log : LogStore), World.Reach learnerCluster .keeping (fun _ _ ↦ True) w ∧
      w.history = h₁ ++ ("B", .becameLeader 2 ⟨voterAndLearner, none⟩ log) :: h₂ ∧
      ¬ voterAndLearner.Majority (fun id ↦ (id, .voted "B" 2) ∈ h₁) := by
  obtain ⟨w, hw, hh⟩ := World.exists_reached learnerCluster .keeping learnerElected
    (fun w ↦ w.history = [("A", .voted "A" 1), ("A", .becameLeader 1 ⟨voterAndLearner, none⟩ ⟨[]⟩),
      ("B", .voted "B" 2), ("B", .becameLeader 2 ⟨voterAndLearner, none⟩ ⟨[⟨1, 1, .normal []⟩]⟩)])
    (by decide +kernel)
  refine ⟨w, [("A", .voted "A" 1), ("A", .becameLeader 1 ⟨voterAndLearner, none⟩ ⟨[]⟩),
    ("B", .voted "B" 2)], [], _, hw, hh, fun hm ↦ ?_⟩
  obtain ⟨id, hvoter, hmem⟩ := hm.exists_voter
  obtain rfl : id = "B" := by simpa using hmem
  revert hvoter
  decide

end Learner

end RaftConsensus
