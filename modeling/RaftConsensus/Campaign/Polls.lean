import RaftConsensus.Campaign.Hands

namespace RaftConsensus

namespace Raft

variable {σ : Type} {r r' r'' : Raft σ}

structure Polls (r r' : Raft σ) : Prop where
  localID : r'.localID = r.localID
  round : r'.state = .candidate → r'.inPreVote = true →
    r.state = .candidate ∧ r.inPreVote = true ∧ r'.preVotes = r.preVotes ∧ r'.term = r.term
  hands : ∃ out, r'.outbox = r.outbox ++ out ∧ ∀ x ∈ out, x.asksPreVote = false

namespace Polls

theorem of_aside {nil : Prop} (h : Aside nil r r') : Polls r r' := by
  obtain ⟨out, ho, hx, -⟩ := h.hands
  refine ⟨h.fixed.1, fun hs hp ↦ ?_, out, ho, hx⟩
  obtain ⟨hs', ht⟩ := h.standing (.inl hs)
  exact ⟨hs'.symm.trans hs, h.round.1.symm.trans hp, h.round.2, ht⟩

theorem trans (h : Polls r r') (h' : Polls r' r'') : Polls r r'' := by
  obtain ⟨out, ho, hx⟩ := h.hands
  obtain ⟨out', ho', hx'⟩ := h'.hands
  refine ⟨h'.localID.trans h.localID, fun hs hp ↦ ?_, out ++ out',
    by rw [ho', ho, List.append_assoc], fun x hm ↦ (List.mem_append.mp hm).elim (hx x) (hx' x)⟩
  obtain ⟨hs', hp', hv', ht'⟩ := h'.round hs hp
  obtain ⟨hs, hp, hv, ht⟩ := h.round hs' hp'
  exact ⟨hs, hp, hv'.trans hv, ht'.trans ht⟩

theorem closed {out : List Effect} (hid : r'.localID = r.localID)
    (hr : r'.state ≠ .candidate ∨ r'.inPreVote = false) (ho : r'.outbox = r.outbox ++ out)
    (hx : ∀ x ∈ out, x.asksPreVote = false) : Polls r r' := by
  refine ⟨hid, fun hs hp ↦ ?_, out, ho, hx⟩
  rcases hr with hr | hr
  · exact absurd hs hr
  · cases hr.symm.trans hp

theorem same (h : r'.lines = r.lines) (ho : r'.outbox = r.outbox) (hs : r'.state = r.state)
    (ht : r'.term = r.term) : Polls r r' :=
  have haside : Aside False r r' := .same h ho hs ht
  of_aside haside

theorem refl (r : Raft σ) : Polls r r := same rfl rfl rfl rfl

end Polls

theorem polls_becomeLeader (r : Raft σ) : Polls r r.becomeLeader := by
  have hlead : Aside False r.takeOver r.becomeLeader := r.aside_becomeLeader
  have htake : Polls r r.takeOver := by
    refine .closed rfl (.inl nofun) rfl fun x hx ↦ ?_
    rw [List.mem_singleton.mp hx]
    rfl
  exact htake.trans (.of_aside hlead)

theorem polls_runElection (leaderTransfer : Bool) (hid : r'.localID = r.localID)
    (ho : r'.outbox = r.outbox) : Polls r (r'.runElection leaderTransfer) := by
  have hcampaign : Polls r r'.campaign := by
    refine .closed hid (.inr rfl) (ho ▸ r'.outbox_campaign) fun x hx ↦ ?_
    rw [List.mem_singleton.mp hx]
    rfl
  refine hcampaign.trans ?_
  unfold runElection
  dsimp only
  split
  · exact polls_becomeLeader _
  · obtain ⟨asks, heq, hasks⟩ :=
      r'.campaign.askVoters_eq (r'.campaign.voteRequest r'.campaign.term false leaderTransfer)
    rw [heq]
    refine .closed rfl (.inr rfl) rfl fun x hx ↦ ?_
    obtain ⟨target, rfl⟩ := hasks x hx
    rfl

theorem runElection_over (r : Raft σ) (leaderTransfer : Bool) :
    (r.runElection leaderTransfer).state = .leader ∨
      (r.runElection leaderTransfer).inPreVote = false := by
  unfold runElection
  dsimp only
  split
  · exact .inl (state_becomeLeader _)
  · obtain ⟨asks, heq, -⟩ :=
      r.campaign.askVoters_eq (r.campaign.voteRequest r.campaign.term false leaderTransfer)
    rw [heq]
    exact .inr rfl

theorem startElectionWith_true (r : Raft σ) :
    r.startElectionWith true false = r.runElection false :=
  if_neg (by simp)

theorem term_becomeLeader (r : Raft σ) : r.becomeLeader.term = r.term := by
  have hlead : Aside False r.takeOver r.becomeLeader := r.aside_becomeLeader
  exact (hlead.standing (.inr r.state_becomeLeader)).2

theorem polls_sendVoteReply (r : Raft σ) (id : ServerID) (resp : RequestVoteResponse) :
    Polls r (r.sendVoteReply id resp) ∧ ((r.sendVoteReply id resp).state = .follower ∨
      (r.sendVoteReply id resp).term = r.term) := by
  have hraise : Aside False r (r.adoptTerm resp.term) :=
    Aside.walks.adoptTerm r _
  unfold sendVoteReply
  split
  · exact ⟨.refl r, .inr rfl⟩
  · split
    · exact ⟨.of_aside hraise, .inl rfl⟩
    · split
      · exact ⟨.refl r, .inr rfl⟩
      · split
        · dsimp only
          split
          · refine ⟨Polls.trans ?_ (polls_becomeLeader _), .inr (term_becomeLeader _)⟩
            exact .same rfl rfl rfl rfl
          · exact ⟨.same rfl rfl rfl rfl, .inr rfl⟩
        · exact ⟨.refl r, .inr rfl⟩

/-- What an answer to a pre-vote request can do: nothing to the round, count one more grant in it,
or complete a quorum and end it. -/
theorem sendPreVoteReply_cases (r : Raft σ) (id : ServerID) (resp : RequestVoteResponse) :
    (Polls r (r.sendPreVoteReply id resp) ∧
      ((r.sendPreVoteReply id resp).state = .follower ∨
        (r.sendPreVoteReply id resp).term = r.term)) ∨
    r.state = .candidate ∧ r.inPreVote = true ∧ resp.voteGranted = true ∧
      (r.sendPreVoteReply id resp = { r with
          preVotes := r.preVotes.insert id true
          preVoteCount := grantedCount (r.preVotes.insert id true) } ∨
        r.electorate.hasVoteQuorum (r.preVotes.insert id true) = true ∧
          Polls r (r.sendPreVoteReply id resp)) := by
  unfold sendPreVoteReply
  split
  · exact .inl ⟨.refl r, .inr rfl⟩
  · rename_i hc
    have hs : r.state = .candidate ∧ r.inPreVote = true := by
      simpa [and_comm] using hc
    split
    · exact .inl ⟨.closed rfl (.inl nofun) (List.append_nil _).symm nofun, .inl rfl⟩
    · split
      · rename_i hg
        refine .inr ⟨hs.1, hs.2, hg, ?_⟩
        dsimp only
        split
        · rename_i hq
          refine .inr ⟨hq, ?_⟩
          rw [startElectionWith_true]
          exact polls_runElection false rfl rfl
        · exact .inl rfl
      · exact .inl ⟨.refl r, .inr rfl⟩

theorem startElection_cases (h : r.config.preVote = true) :
    r.configuration.quorumSize = 1 ∧ Polls r r.startElection ∧
        (r.startElection.state = .leader ∨ r.startElection.inPreVote = false) ∨
      ∃ asks, r.startElection = { r with
        state := .candidate
        inPreVote := true
        preVotes := (∅ : VoteMap).insert r.localID true
        preVoteCount := 1
        outbox := r.outbox ++ asks } ∧
        ∀ x ∈ asks, ∃ target req, x = .rpc target (.requestVote req) ∧ req.term = r.term + 1 := by
  unfold startElection startElectionWith
  rw [if_pos (by simp [h])]
  unfold startPreVote
  dsimp only
  split
  · rename_i hq
    exact .inl ⟨hq, polls_runElection false rfl rfl, runElection_over _ _⟩
  · refine .inr ?_
    obtain ⟨asks, heq, hasks⟩ := askVoters_eq { r with
      state := .candidate
      inPreVote := true
      preVotes := (∅ : VoteMap).insert r.localID true
      preVoteCount := 1 } ⟨r.term + 1, r.localID, r.lastIndex, r.lastTerm, true, false⟩
    refine ⟨asks, heq, fun x hx ↦ ?_⟩
    obtain ⟨target, rfl⟩ := hasks x hx
    exact ⟨target, _, rfl, rfl⟩

theorem polls_requestLeadership (r : Raft σ) (id : ℕ) :
    Polls r (r.requestLeadership id) ∧ (r.requestLeadership id).term = r.term := by
  unfold requestLeadership
  split
  · refine ⟨⟨rfl, fun hs hp ↦ ⟨hs, hp, rfl, rfl⟩, _, rfl, fun x hx ↦ ?_⟩, rfl⟩
    rw [List.mem_singleton.mp hx]
    rfl
  · exact ⟨⟨rfl, fun hs hp ↦ ⟨hs, hp, rfl, rfl⟩, [], (List.append_nil _).symm, nofun⟩, rfl⟩

theorem polls_cancelTransfer (r : Raft σ) (id : ℕ) :
    Polls r (r.cancelTransfer id) ∧ (r.cancelTransfer id).term = r.term := by
  unfold cancelTransfer
  dsimp only
  split <;>
    refine ⟨⟨rfl, fun hs hp ↦ ⟨hs, hp, rfl, rfl⟩, _, rfl, fun x hx ↦ ?_⟩, rfl⟩ <;>
    (rw [List.mem_singleton.mp hx]; rfl)

end Raft

end RaftConsensus
