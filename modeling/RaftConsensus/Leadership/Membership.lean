import RaftConsensus.Leadership.Casting
import RaftConsensus.Leadership.Quorum

namespace RaftConsensus

variable {σ : Type} {cl : Cluster} {F : FSM σ} {w : World σ} {n m : ServerID} {term : ℕ}

def World.leaders (w : World σ) : List (ServerID × ℕ) :=
  w.history.filterMap fun
    | (n, .becameLeader term _ _) => some (n, term)
    | _ => none

theorem World.mem_leaders : (n, term) ∈ w.leaders ↔ w.view.Led n term := by
  unfold leaders
  rw [List.mem_filterMap]
  constructor
  · rintro ⟨⟨m, e⟩, hmem, heq⟩
    cases e <;> cases heq
    exact ⟨_, _, hmem⟩
  · rintro ⟨e, log, hmem⟩
    exact ⟨_, hmem, rfl⟩

/-- A quorum of one is the node's own vote, and the electorate is one of those the term allows:
the next term for an election that the node wins alone, its own term for one that a reply
decides. -/
def Raft.electsAmong (allowed : ℕ → Electorate → Bool) (r : Raft σ) (t : Trigger)
    (inp : Input) : Bool :=
  !r.mayLead t inp || (r.ownVoteSuffices &&
    (r.configuration.quorumSize ≠ 1 || allowed (r.term + 1) r.electorate) &&
    (!inp.isReply || allowed r.term r.electorate))

/-- Membership calls, but no request before `Start`, no snapshot and no `Restore`. -/
def changesOnly : Rules := ⟨false, true, false, false⟩

theorem electsAmong_covers {allowed : ℕ → Electorate → Bool} {r : Raft σ} {t : Trigger}
    {inp : Input} (h : r.electsAmong allowed t inp = true) :
    (withElectorates fun term ↦ {e | allowed term e = true}).Covers
      (r.mayLead t inp = true) inp r.core := by
  have hcond (hm : r.mayLead t inp = true) : (r.ownVoteSuffices = true ∧
      (r.configuration.quorumSize ≠ 1 ∨ allowed (r.term + 1) r.electorate = true)) ∧
      (inp.isReply = true → allowed r.term r.electorate = true) := by
    simpa [Raft.electsAmong, hm, imp_iff_not_or] using h
  refine ⟨fun hm now hq ↦ ?_, fun hm id hi _ hq ↦ ⟨hq, ?_⟩, fun _ _ _ _ ↦ trivial,
    fun _ _ _ _ _ _ _ ↦ trivial⟩
  · obtain ⟨⟨hown, hall⟩, -⟩ := hcond hm
    exact ⟨Raft.hasVoteQuorum_of_ownVoteSuffices hown hq, hall.resolve_left fun hne ↦ hne hq⟩
  · obtain ⟨req, resp, stamp, rfl, -⟩ := hi
    exact (hcond hm).2 rfl

/-- When any two electorates under which nodes are elected in one term have no disjoint vote
quorums, membership changes, crashes and restarts never give a term two leaders. -/
theorem becomeLeader_unique_across_changes {allowed : ℕ → Electorate → Bool}
    (hE : ∀ term e e', allowed term e = true → allowed term e' = true → e.Meets e')
    (h : World.Reach cl F (fun w a ↦ w.admits changesOnly (Raft.electsAmong allowed) a = true) w)
    (hn : (n, term) ∈ w.leaders) (hm : (m, term) ∈ w.leaders) : n = m := by
  have hkept : (ballots (withElectorates fun term ↦ {e | allowed term e = true})).Kept
      cl changesOnly
    (withElectorates fun term ↦ {e | allowed term e = true}) 0 := ballots_kept hE ⟨rfl, rfl, rfl⟩
  have hv := hkept.reach (fun w a hc ↦ World.permits_of hc fun r t inp _ hc _ ↦
    electsAmong_covers hc) ballots_init h
  exact hv.all.led_unique hE (World.mem_leaders.mp hn) (World.mem_leaders.mp hm)

section Learner

open Action (boot timeout turns)

/-- The electorate of the first term, and the one that follows it. -/
def learnerFollows (term : ℕ) (e : Electorate) : Bool :=
  e = ⟨if term ≤ 1 then ab else ab.addServer "C" "" true, none⟩

/-- A leads with the vote of B and adds C as a learner. B applies the change, times out and leads
with the vote of A. -/
def ledInTurn : List Action :=
  boot "A" ++ boot "B" ++ timeout "A" 3 ++ [.deliver 0, .reply 0] ++ turns "A" 3 ++
    [.op "A" (.addLearner "C" ""), .op "A" (.replicate "B"), .deliver 1, .reply 1,
      .op "A" (.replicate "B"), .deliver 2, .reply 2, .op "A" (.replicate "B"),
      .op "A" (.tick 0 0 ["B"])] ++ turns "A" 9 ++ [.op "A" (.replicate "B"), .deliver 3] ++
    timeout "B" 9 ++ [.deliver 4, .reply 4]

theorem becomeLeader_unique_ledInTurn : ∃ w : World (List Bytes),
    World.Reach twoVoters .keeping (fun w a ↦
      w.admits changesOnly (Raft.electsAmong learnerFollows) a = true) w ∧
    ("A", 1) ∈ w.leaders ∧ ("B", 2) ∈ w.leaders ∧ ∀ m, (m, 2) ∈ w.leaders → "B" = m := by
  obtain ⟨w, hr, hA, hB⟩ := World.exists_checked twoVoters .keeping
    (·.admits changesOnly (Raft.electsAmong learnerFollows)) ledInTurn
    (fun w ↦ ("A", 1) ∈ w.leaders ∧ ("B", 2) ∈ w.leaders) (by decide +kernel)
  refine ⟨w, hr, hA, hB, fun m hm ↦
    becomeLeader_unique_across_changes (fun term e e' he he' ↦ ?_) hr hB hm⟩
  rw [of_decide_eq_true he, of_decide_eq_true he']
  exact Electorate.meets_self _

def onlyA : Configuration := .ofVoters ["A"]

def joining : Cluster :=
  .ofList [.least "A" onlyA, { Config.least "B" onlyA with startAsLearner := true }]

/-- A leads and adds B as a learner; the command after it commits the change, and A's first
request makes B a follower of its term. -/
def learnerAdded : List Action :=
  boot "A" ++ boot "B" ++ timeout "A" 3 ++ turns "A" 6 ++
    [.op "A" (.addLearner "B" ""), .op "A" (.propose [(0, [])])] ++ turns "A" 9 ++
    [.op "A" (.tick 0 0 ["B"]), .op "A" (.replicate "B"), .deliver 0]

/-- The learner times out and finds a quorum of one; A restarts in its old term and does too. -/
def learnerAndVoter : List Action :=
  learnerAdded ++ timeout "B" 3 ++ [.crash "A"] ++ boot "A" ++ timeout "A" 3

theorem becomeLeader_twice_after_addLearner : ∃ w : World (List Bytes),
    World.Reach joining .keeping (fun _ _ ↦ True) w ∧ ("A", 2) ∈ w.leaders ∧
    ("B", 2) ∈ w.leaders := by
  exact World.exists_reached joining .keeping learnerAndVoter _ (by decide +kernel)

end Learner

end RaftConsensus
