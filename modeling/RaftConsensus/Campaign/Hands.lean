import RaftConsensus.Campaign.Stages

namespace RaftConsensus

open List

namespace Raft

variable {σ : Type} {nil : Prop} {r r' r'' : Raft σ} {F : FSM σ}

theorem askVoters_eq (r : Raft σ) (req : RequestVoteRequest) : ∃ asks,
    r.askVoters req = { r with outbox := r.outbox ++ asks } ∧
      ∀ x ∈ asks, ∃ target, x = .rpc target (.requestVote req) := by
  unfold askVoters
  generalize r.configuration.servers = servers
  induction servers generalizing r with
  | nil => exact ⟨[], by rw [append_nil]; rfl, nofun⟩
  | cons s servers ih =>
    rw [foldl_cons]
    split
    · exact ih r
    · obtain ⟨asks, heq, hasks⟩ := ih (r.emit (.rpc s.id (.requestVote req)))
      refine ⟨.rpc s.id (.requestVote req) :: asks, ?_, fun x hx ↦ ?_⟩
      · rw [heq]
        simp [emit]
      · rcases mem_cons.mp hx with rfl | hx
        · exact ⟨s.id, rfl⟩
        · exact hasks x hx

theorem aside_becomeLeader (r : Raft σ) : Aside nil r.takeOver r.becomeLeader := by
  unfold becomeLeader
  rw [appendNoop_eq]
  have htrack : Aside nil r.takeOver r.takeOver.trackAll :=
    Aside.walks.foldl _
      (fun r s ↦ Aside.walks.ite (fun _ ↦ .refl r) fun _ ↦ Aside.walks.addTracker r s.id) _
  refine htrack.trans ?_
  generalize r.takeOver.trackAll = r₁
  refine (Aside.walks.appendEntry r₁ ⟨r₁.term, r₁.lastIndex + 1, .normal []⟩).trans ?_
  generalize r₁.appendEntry ⟨r₁.term, r₁.lastIndex + 1, .normal []⟩ = r₂
  refine (Aside.walks.sendHeartbeat r₂).trans ?_
  exact Aside.walks.ite (fun _ ↦ .same rfl rfl rfl rfl) fun _ ↦ .refl _

def Hands (nil : Prop) (r r' : Raft σ) : Prop := ∃ out, r'.outbox = r.outbox ++ out ∧
  Slot nil r.transfer? (out.filterMap Effect.transferred?) r'.transfer?

namespace Hands

theorem of_aside (h : Aside nil r r') : Hands nil r r' := by
  obtain ⟨out, ho, -, hslot⟩ := h.hands
  exact ⟨out, ho, hslot⟩

theorem trans (h : Hands nil r r') (h' : Hands nil r' r'') : Hands nil r r'' := by
  obtain ⟨out, ho, hslot⟩ := h
  obtain ⟨out', ho', hslot'⟩ := h'
  refine ⟨out ++ out', by rw [ho', ho, append_assoc], ?_⟩
  rw [filterMap_append]
  exact hslot.trans hslot'

theorem kept {out : List Effect} (ht : r'.transfer? = r.transfer?)
    (ho : r'.outbox = r.outbox ++ out)
    (hx : ∀ x ∈ out, x.transferred? = none) : Hands nil r r' := by
  refine ⟨out, ho, ?_⟩
  rw [filterMap_eq_nil_iff.mpr hx, ht]
  exact .kept

theorem refl (r : Raft σ) : Hands nil r r := kept rfl (append_nil _).symm nofun

theorem ite {c : Prop} [Decidable c] {a b : Raft σ} (ha : c → Hands nil r a)
    (hb : ¬ c → Hands nil r b) : Hands nil r (if c then a else b) := by
  split
  · exact ha ‹_›
  · exact hb ‹_›

end Hands

theorem hands_askVoters (r : Raft σ) (req : RequestVoteRequest) :
    Hands nil r (r.askVoters req) := by
  obtain ⟨asks, heq, hasks⟩ := r.askVoters_eq req
  rw [heq]
  refine .kept rfl rfl fun x hx ↦ ?_
  obtain ⟨target, rfl⟩ := hasks x hx
  rfl

theorem hands_becomeLeader (h : r.transfer? = none) : Hands nil r r.becomeLeader := by
  have htake : Hands nil r r.takeOver := by
    refine .kept h.symm rfl fun x hx ↦ ?_
    rw [mem_singleton.mp hx]
    rfl
  exact htake.trans (.of_aside r.aside_becomeLeader)

theorem hands_runElection (leaderTransfer : Bool)
    (h : r.configuration.quorumSize = 1 → r.transfer? = none) :
    Hands nil r (r.runElection leaderTransfer) := by
  have hcampaign : Hands nil r r.campaign := by
    refine .kept rfl r.outbox_campaign fun x hx ↦ ?_
    rw [mem_singleton.mp hx]
    rfl
  exact hcampaign.trans (.ite (fun hq ↦ hands_becomeLeader (h hq)) fun _ ↦ hands_askVoters _ _)

theorem hands_startElectionWith (alreadyPreVoted leaderTransfer : Bool)
    (h : r.configuration.quorumSize = 1 → r.transfer? = none) :
    Hands nil r (r.startElectionWith alreadyPreVoted leaderTransfer) := by
  refine .ite (fun _ ↦ ?_) fun _ ↦ hands_runElection leaderTransfer h
  have hround : Hands nil r { r with
      state := .candidate
      inPreVote := true
      preVotes := (∅ : VoteMap).insert r.localID true
      preVoteCount := 1 } := .kept rfl (append_nil _).symm nofun
  exact hround.trans (.ite (fun _ ↦ hands_runElection false h) fun _ ↦ hands_askVoters _ _)

theorem hands_sendPreVoteReply (id : ServerID) (resp : RequestVoteResponse)
    (h : r.state = .candidate → r.configuration.quorumSize = 1 → r.transfer? = none) :
    Hands nil r (r.sendPreVoteReply id resp) := by
  unfold sendPreVoteReply
  refine .ite (fun _ ↦ .refl r) fun hc ↦ ?_
  have hs : r.state = .candidate := by
    by_contra hne
    exact hc (by simp [hne])
  refine .ite (fun _ ↦ .kept rfl (append_nil _).symm nofun) fun _ ↦
    .ite (fun _ ↦ ?_) fun _ ↦ .refl r
  have hcount : Hands nil r { r with
      preVotes := r.preVotes.insert id true
      preVoteCount := grantedCount (r.preVotes.insert id true) } :=
    .kept rfl (append_nil _).symm nofun
  exact hcount.trans (.ite (fun _ ↦ hands_startElectionWith _ _ (h hs)) fun _ ↦ .refl _)

theorem hands_sendVoteReply (id : ServerID) (resp : RequestVoteResponse)
    (h : r.state = .candidate → r.transfer? = none) : Hands nil r (r.sendVoteReply id resp) := by
  unfold sendVoteReply
  refine .ite (fun _ ↦ .refl r) fun hc ↦ .ite (fun _ ↦ ?_) fun _ ↦ .ite (fun _ ↦ .refl r) fun _ ↦
    .ite (fun _ ↦ ?_) fun _ ↦ .refl r
  · exact .kept rfl (append_nil _).symm nofun
  · have hcount : Hands nil r { r with
        votes := r.votes.insert id true, voteCount := grantedCount (r.votes.insert id true) } :=
      .kept rfl (append_nil _).symm nofun
    exact hcount.trans (.ite (fun _ ↦ hands_becomeLeader (h (not_not.mp hc))) fun _ ↦ .refl _)

theorem hands_timed (r : Raft σ) (now ticks : ℤ) : Hands nil r (r.timed now ticks) :=
  .kept rfl (append_nil _).symm nofun

def drops (r : Raft σ) (s : Stimulus) : Bool :=
  r.transfer?.isSome && s.mayLead r && (r.configuration.quorumSize = 1 ||
    match s with
    | .reply _ _ (.requestVote req) _ => !req.preVote
    | _ => false)

theorem hands_take {s : Stimulus} (hd : r.drops s = false)
    (hr : ∀ id, s ≠ .op (.requestLeadership id))
    (hc : ∀ id, s ≠ .op (.cancelTransfer id)) (hstep : r.take F s = some r') :
    Hands (∃ req rnd, s = .request (.appendEntries req) rnd ∧ r.term ≤ req.term ∧
      req.leaderID ≠ r.localID) r r' := by
  have hnone (hm : s.mayLead r = true) (hq : r.configuration.quorumSize = 1) :
      r.transfer? = none := by
    simpa [drops, hm, hq] using hd
  cases stage_take hstep with
  | aside h _ => exact .of_aside h
  | @timeout rnd now order ticks hm =>
    refine (r.hands_timed now ticks).trans
      (Hands.trans (hands_startElectionWith false false (hnone hm)) ?_)
    exact .kept rfl (append_nil _).symm nofun
  | timeoutNow ticks =>
    exact (r.hands_timed r.clock ticks).trans (hands_runElection true (hnone rfl))
  | preVoteReply hp => exact hands_sendPreVoteReply _ _ fun hs ↦ hnone (decide_eq_true hs)
  | @voteReply id now req resp hp =>
    refine hands_sendVoteReply _ _ fun hs ↦ ?_
    have hm : Request.mayLead r (.requestVote req) = true := decide_eq_true hs
    simpa [drops, Stimulus.mayLead, hm, hp] using hd
  | requestLeadership id => exact absurd rfl (hr id)
  | cancelTransfer id => exact absurd rfl (hc id)

end Raft

end RaftConsensus
