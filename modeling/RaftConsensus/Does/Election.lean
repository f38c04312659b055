import RaftConsensus.Does.Replication

namespace RaftConsensus

open List

variable {σ : Type} {R : Rules} {L : Warrant} {inp : Input}

def Core.Stands (L : Warrant) (c : Core) : Prop :=
  L.stand c ∧ L.stand { c with state := .candidate }

namespace Raft

variable (r : Raft σ)

def trackers (self : ServerID) (servers : List Server) (m : AList (fun _ : ServerID ↦ ℕ)) :
    AList (fun _ : ServerID ↦ ℕ) :=
  servers.foldl (fun m s ↦ if s.id = self then m else m.insert s.id 0) m

theorem path_track (servers : List Server) (c : Core) :
    Path R L inp c [] { c with matchIndex := trackers c.localID servers c.matchIndex } := by
  induction servers generalizing c with
  | nil => exact .refl
  | cons s servers ih =>
    rw [trackers, foldl_cons]
    split
    · exact ih c
    · rename_i h
      exact (Path.one (.track s.id h)).trans
        (ih { c with matchIndex := c.matchIndex.insert s.id 0 })

theorem trackAll_spec : r.trackAll.core =
      { r.core with matchIndex := trackers r.localID r.electorate.allServers r.matchIndex } ∧
    r.trackAll.outbox = r.outbox ∧ r.trackAll.journal = r.journal := by
  unfold trackAll
  generalize r.electorate.allServers = servers
  induction servers generalizing r with
  | nil => exact ⟨rfl, rfl, rfl⟩
  | cons s servers ih =>
    rw [trackers, foldl_cons, foldl_cons]
    split
    · exact ih r
    · exact ih (r.addTracker s.id)

theorem appendNoop_eq : r.appendNoop = r.appendEntry ⟨r.term, r.lastIndex + 1, .normal []⟩ := by
  simp [appendNoop, persistLog, contiguous]

theorem state_sendHeartbeat : r.sendHeartbeat.state = r.state := by
  unfold sendHeartbeat
  generalize r.electorate.allServers = servers
  induction servers generalizing r with
  | nil => rfl
  | cons s servers ih =>
    rw [foldl_cons, ih]
    split
    · rfl
    · unfold spawnReplication
      split <;> rfl

theorem does_takeOver {a b : Raft σ} {out : List Effect}
    (hm : Move R L inp a.core (out ++ [.note (.becameLeader b.term b.electorate b.log)])
      b.core.lead)
    (ho : b.outbox = a.outbox ++ out)
    (ht : ∀ x ∈ b.journal, x ∈ a.journal ∨
      ∃ o c, Path R L inp a.core o c ∧ x = (c.disk, a.outbox ++ o)) :
    Does R L inp a b.becomeLeader := by
  obtain ⟨hc, ho', hj⟩ := b.takeOver.trackAll_spec
  have hout : b.takeOver.outbox =
      a.outbox ++ (out ++ [.note (.becameLeader b.term b.electorate b.log)]) := by
    rw [← append_assoc, ← ho]
    rfl
  have hd : Does R L inp a b.takeOver.trackAll.appendNoop := by
    rw [appendNoop_eq]
    generalize b.takeOver.trackAll = r₁ at hc ho' hj ⊢
    have hp : Path R L inp a.core (out ++ [.note (.becameLeader b.term b.electorate b.log)])
        (r₁.appendEntry ⟨r₁.term, r₁.lastIndex + 1, .normal []⟩).core := by
      change Path R L inp a.core _ (r₁.core.append
        ⟨r₁.core.term, r₁.core.lastIndex + 1, .normal []⟩)
      have hp := ((Path.one hm).trans (.one .clearAcks)).trans
        (path_track b.electorate.allServers _)
      rw [append_nil, append_nil] at hp
      rw [hc]
      exact hp
    refine ⟨⟨_, ho'.trans hout, hp⟩, fun x hx ↦ ?_⟩
    rcases mem_append.mp hx with hx | hx
    · exact ht x (hj ▸ hx)
    · refine .inr ⟨_, _, hp, ?_⟩
      rw [mem_singleton.mp hx, ← hout, ← ho']
      rfl
  have hs : b.takeOver.trackAll.appendNoop.sendHeartbeat.state = .leader := by
    rw [state_sendHeartbeat, appendNoop_eq]
    exact congrArg Core.state hc
  refine .ite (fun _ ↦ ?_) fun _ ↦ hd.trans (does_sendHeartbeat _)
  exact (hd.trans (does_sendHeartbeat _)).trans (does_advanceCommitIndex _ hs)

theorem does_becomeLeader {id : ServerID} (hs : r.state = .candidate) (hi : inp.IsGrant id r.term)
    (hq : r.electorate.hasVoteQuorum r.votes = true) (hL : L.lead r.core) :
    Does R L inp r r.becomeLeader := by
  have hm : Move R L inp r.core ([] ++ [.note (.becameLeader r.term r.electorate r.log)])
      r.core.lead := .lead id hs hi hq hL
  exact does_takeOver hm (append_nil _).symm fun x hx ↦ .inl hx

theorem askVoters_spec (req : RequestVoteRequest) :
    (r.askVoters req).core = r.core ∧ (r.askVoters req).journal = r.journal ∧
      ∃ asks, (r.askVoters req).outbox = r.outbox ++ asks ∧
        ∀ x ∈ asks, ∃ target, target ≠ r.localID ∧ x = .rpc target (.requestVote req) := by
  unfold askVoters
  generalize r.configuration.servers = servers
  induction servers generalizing r with
  | nil => exact ⟨rfl, rfl, [], by simp, by simp⟩
  | cons s servers ih =>
    rw [foldl_cons]
    split
    · exact ih r
    · rename_i hs
      obtain ⟨hc, hj, asks, ho, ha⟩ := ih (r.emit (.rpc s.id (.requestVote req)))
      refine ⟨hc, hj, .rpc s.id (.requestVote req) :: asks, ?_, ?_⟩
      · rw [ho]
        simp [emit]
      · intro x hx
        rcases mem_cons.mp hx with rfl | hx
        · exact ⟨s.id, fun h ↦ hs (.inl h), rfl⟩
        · exact ha x hx

theorem core_campaign : r.campaign.core = r.core.campaigned := rfl

/-- A crash in the middle of the two writes leaves the new term with the old vote, one right
after them the vote without its record. -/
theorem campaign_torn (hS : L.stand r.core) : ∀ x ∈ r.campaign.journal, x ∈ r.journal ∨
    ∃ out c, Path R L inp r.core out c ∧ x = (c.disk, r.outbox ++ out) := by
  intro x hx
  simp only [campaign, emit, persistTermAndVotedFor, checkpoint, append_assoc, mem_append,
    mem_cons, not_mem_nil, or_false] at hx
  have hm (who : Option ServerID) : Move R L inp r.core [] (r.core.raise (r.term + 1) who) :=
    .raise _ who (Nat.lt_succ_self _) (.inr hS) (.inr (.inr hS))
  rcases hx with hx | rfl | rfl
  · exact .inl hx
  · exact .inr ⟨[], r.core.raise (r.term + 1) r.stable.votedFor, .one (hm _), by simp; rfl⟩
  · exact .inr ⟨[], r.core.raise (r.term + 1) (some r.localID), .one (hm _), by simp; rfl⟩

theorem outbox_campaign :
    r.campaign.outbox = r.outbox ++ [.note (.voted r.localID (r.term + 1))] := rfl

theorem does_runElection (leaderTransfer : Bool) (hS : L.stand r.core)
    (hL : r.configuration.quorumSize = 1 → L.lead r.core.campaigned) :
    Does R L inp r (r.runElection leaderTransfer) := by
  unfold runElection
  dsimp only
  split
  · rename_i hq
    refine does_takeOver ?_ r.outbox_campaign (r.campaign_torn hS)
    exact .crown hq (hL hq) hS
  · obtain ⟨hc, hj, asks, ho, ha⟩ :=
      r.campaign.askVoters_spec (r.campaign.voteRequest r.campaign.term false leaderTransfer)
    refine ⟨⟨.note (.voted r.localID (r.term + 1)) :: asks, ?_, ?_⟩, ?_⟩
    · rw [ho, outbox_campaign]
      simp
    · rw [hc, core_campaign]
      refine .one (.campaign asks (fun x hx ↦ ?_) hS)
      obtain ⟨target, hne, rfl⟩ := ha x hx
      exact ⟨target, leaderTransfer, hne, rfl⟩
    · rw [hj]
      exact r.campaign_torn hS

variable {req : RequestVoteRequest} {resp : RequestVoteResponse} {stamp : ℕ}

theorem does_askPreVote (h : req.preVote = true) :
    Does R L inp r (r.askVoters req) := by
  refine (Does.foldl (fun _ ↦ True) (fun r s _ _ ↦ ⟨?_, trivial⟩) trivial).1
  exact .ite (fun _ ↦ .refl r) fun _ ↦ .emit (.call _ _ h)

theorem does_startPreVote (hS : r.core.Stands L)
    (hL : r.configuration.quorumSize = 1 → L.lead r.core.campaigned) :
    Does R L inp r r.startPreVote := by
  unfold startPreVote
  dsimp only
  refine .ite (fun hq ↦ ?_) fun _ ↦ ?_
  · refine Does.trans ?_ (does_runElection _ false hS.2 fun _ ↦ hL hq)
    exact .move (.setState .candidate (by simp) (fun _ ↦ hS.1) nofun) rfl rfl
  · refine Does.trans ?_ (does_askPreVote _ rfl)
    exact .move (.setState .candidate (by simp) (fun _ ↦ hS.1) nofun) rfl rfl

theorem does_startElectionWith (alreadyPreVoted leaderTransfer : Bool) (hS : r.core.Stands L)
    (hL : r.configuration.quorumSize = 1 → L.lead r.core.campaigned) :
    Does R L inp r (r.startElectionWith alreadyPreVoted leaderTransfer) :=
  .ite (fun _ ↦ r.does_startPreVote hS hL) fun _ ↦ r.does_runElection leaderTransfer hS.1 hL

theorem does_sendPreVoteReply (id : ServerID)
    (hi : inp = .reply id (.requestVote req) (.requestVote resp) stamp)
    (hS : r.state = .candidate → r.core.Stands L)
    (hL : r.state = .candidate → r.configuration.quorumSize = 1 → L.lead r.core.campaigned) :
    Does R L inp r (r.sendPreVoteReply id resp) := by
  unfold sendPreVoteReply
  refine .ite (fun _ ↦ .refl r) fun hs ↦ ?_
  simp only [Bool.or_eq_true, decide_eq_true_eq, not_or, not_not] at hs
  have hb : inp.Brings resp.term := by
    rw [hi]
    rfl
  refine .ite (fun ht ↦ ?_) fun _ ↦ .ite (fun _ ↦ ?_) fun _ ↦ .refl r
  · refine Does.trans ?_ (does_adoptTerm _ ht hb (.inr hs.2))
    exact .same rfl rfl rfl
  · refine .ite (fun _ ↦ ?_) fun _ ↦ .same rfl rfl rfl
    refine Does.trans ?_ (does_startElectionWith _ true false (hS hs.2) (hL hs.2))
    exact .same rfl rfl rfl

theorem does_sendVoteReply (id : ServerID)
    (hi : inp = .reply id (.requestVote req) (.requestVote resp) stamp) (hp : req.preVote = false)
    (hL : inp.IsGrant id r.term → r.state = .candidate →
      r.electorate.hasVoteQuorum (r.votes.insert id true) = true →
      L.lead { r.core with votes := r.votes.insert id true }) :
    Does R L inp r (r.sendVoteReply id resp) := by
  unfold sendVoteReply
  refine .ite (fun _ ↦ .refl r) fun hs ↦ ?_
  have hs' : r.state = .candidate := not_not.mp hs
  have hb : inp.Brings resp.term := by
    rw [hi]
    rfl
  refine .ite (fun ht ↦ r.does_adoptTerm ht hb (.inr hs')) fun _ ↦
    .ite (fun _ ↦ .refl r) fun ht ↦ .ite (fun hg ↦ ?_) fun _ ↦ .refl r
  have hgrant : inp.IsGrant id r.term := ⟨req, resp, stamp, hi, hp, hg, not_not.mp ht⟩
  have hcount : Does R L inp r
      { r with
        votes := r.votes.insert id true, voteCount := grantedCount (r.votes.insert id true) } :=
    .move (.tally id hs' hgrant) rfl rfl
  refine .ite (fun hq ↦ ?_) fun _ ↦ hcount
  exact hcount.trans (does_becomeLeader _ hs' hgrant hq (hL hgrant hs' hq))

/-- Two writes: after the first the disk has the term but still the old vote. -/
theorem does_grant (hi : inp = .request (.requestVote req))
    (hp : req.preVote = false) (ht : req.term = r.term)
    (hv : r.votedFor = "" ∨ r.votedFor = req.candidateID) (hl : r.logOK req = true) :
    Does R L inp r ({ r with votedFor := req.candidateID }.persistTermAndVotedFor.emit
      (.note (.voted req.candidateID r.term))) where
  path := by
    refine ⟨[.note (.voted req.candidateID r.term)], rfl, ?_⟩
    have hmark : Move R L inp r.core [] (r.core.mark req.candidateID) := .mark req hi hp ht hv hl
    exact (Path.one hmark).tail (.vote req hi hp ht rfl rfl rfl hl)
  torn x hx := by
    simp only [emit, persistTermAndVotedFor, checkpoint, append_assoc, mem_append,
      mem_cons, not_mem_nil, or_false] at hx
    rcases hx with hx | rfl | rfl
    · exact .inl hx
    · exact .inr ⟨[], _, .one .storeTerm, by simp; rfl⟩
    · exact .inr ⟨[], r.core.mark req.candidateID, .one (.mark req hi hp ht hv hl), by simp; rfl⟩

theorem does_handleRequestVote (rnd : ℕ)
    (hi : inp = .request (.requestVote req)) :
    Does R L inp r (r.handleRequestVote req rnd).1 ∧
      ((r.handleRequestVote req rnd).2.voteGranted = true → req.preVote = false →
        (r.handleRequestVote req rnd).2.term = req.term ∧
          .note (.voted req.candidateID req.term) ∈ (r.handleRequestVote req rnd).1.outbox) := by
  unfold handleRequestVote
  dsimp only
  split
  · exact ⟨.refl r, fun _ h ↦ by simp_all⟩
  rename_i hp
  have hp' : req.preVote = false := by simpa using hp
  split
  · exact ⟨.refl r, by simp⟩
  rename_i hle
  split
  · exact ⟨.refl r, by simp⟩
  have hadopt : Does R L inp r
      (if r.term < req.term then r.failPendingFutures.adoptTerm req.term else r) ∧
      (if r.term < req.term then r.failPendingFutures.adoptTerm req.term else r).term =
        req.term := by
    split
    · rename_i hlt
      have hcore := r.core_failPendingFutures
      have hb : inp.Brings req.term := by
        rw [hi]
        rfl
      refine ⟨r.does_failPendingFutures.trans (does_adoptTerm _ ?_ hb (.inl ?_)), rfl⟩
      · exact lt_of_eq_of_lt (congrArg Core.term hcore) hlt
      · rw [hcore]
        exact settled_settle r.pendingFutures rfl
    · exact ⟨.refl r, by omega⟩
  revert hadopt
  generalize (if r.term < req.term then r.failPendingFutures.adoptTerm req.term else r) = r₁
  rintro ⟨hd, ht⟩
  split
  · exact ⟨hd, by simp⟩
  rename_i hv
  split
  · exact ⟨hd, by simp⟩
  rename_i hl
  refine ⟨(hd.trans (r₁.does_grant hi hp' ht.symm (by tauto) (by simpa using hl))).trans
    (.same rfl rfl rfl), fun _ _ ↦ ⟨ht, ?_⟩⟩
  rw [← ht]
  exact mem_append_right _ mem_cons_self

theorem does_handleTimeoutNow (rnd : ℕ) (hS : r.core.Stands L)
    (hL : r.configuration.quorumSize = 1 → L.lead r.core.campaigned) :
    Does R L inp r (r.handleTimeoutNow rnd) := by
  refine Does.trans ?_ (does_startElectionWith _ true true hS hL)
  exact .same rfl rfl rfl

theorem does_tickElection (rnd : ℕ) (hS : r.electionTicks ≤ 1 → r.core.Stands L)
    (hL : r.electionTicks ≤ 1 → r.configuration.quorumSize = 1 → L.lead r.core.campaigned) :
    Does R L inp r (r.tickElection rnd) := by
  refine .ite (fun hle ↦ ?_) fun _ ↦ .same rfl rfl rfl
  have hticks : r.electionTicks - 1 ≤ 0 := hle
  refine Does.trans ?_ (does_startElectionWith _ false false (hS (by omega)) (hL (by omega)))
  exact .same rfl rfl rfl

theorem does_checkQuorum (rnd : ℕ) (now : ℤ) : Does R L inp r (r.checkQuorum rnd now) := by
  unfold checkQuorum
  refine .ite (fun _ ↦ .refl r) fun hlead ↦ .ite (fun _ ↦ .refl r) fun _ ↦
    .ite (fun _ ↦ .refl r) fun _ ↦ ?_
  refine Does.trans ?_ (quiet_finishTransfer _ _).does
  -- the futures may as well be failed before the step-down
  have hcore := r.core_failPendingFutures
  have heq : failPendingFutures { r with
        state := .follower
        leaderID := ""
        electionTicks := r.randomElectionTickCount rnd
        heartbeatAcks := ∅
        leaseExpiry := none } =
      { r.failPendingFutures with
        state := .follower
        leaderID := ""
        electionTicks := r.randomElectionTickCount rnd
        heartbeatAcks := ∅
        leaseExpiry := none } := by
    rw [failPendingFutures_eq, failPendingFutures_eq]
  rw [heq]
  refine r.does_failPendingFutures.trans ?_
  refine Does.trans (b := { r.failPendingFutures with state := .follower })
    (.move (.setState _ (by simp) nofun fun _ ↦ .inl ?_) rfl rfl) (.move .clearAcks rfl rfl)
  rw [hcore]
  refine ⟨?_, settled_settle r.pendingFutures rfl⟩
  by_contra hs
  exact hlead (by simp [show r.state ≠ .leader from hs])

theorem does_doLeadershipTransfer (now : ℤ) (order : List ServerID) :
    Does R L inp r (r.doLeadershipTransfer now order) := by
  unfold doLeadershipTransfer
  split
  · exact .refl r
  refine .ite (fun _ ↦ (r.quiet_finishTransfer _).does) fun _ ↦ .ite (fun _ ↦ ?_) fun _ ↦
    .ite (fun _ ↦ .same rfl rfl rfl) fun _ ↦ .ite (fun _ ↦ .same rfl rfl rfl) fun _ ↦ ?_
  · refine Does.trans ?_ (quiet_finishTransfer _ _).does
    exact .same rfl rfl rfl
  · refine Does.trans ?_ (.emit (.call _ _ rfl))
    exact .same rfl rfl rfl

theorem does_tick (rnd : ℕ) (now : ℤ) (order : List ServerID)
    (hS : (r.state = .follower ∨ r.state = .candidate) ∧ r.electionTicks ≤ 1 → r.core.Stands L)
    (hL : (r.state = .follower ∨ r.state = .candidate) ∧ r.electionTicks ≤ 1 →
      r.configuration.quorumSize = 1 → L.lead r.core.campaigned) :
    Does R L inp r (r.tick rnd now order) := by
  unfold tick
  split
  · exact r.does_tickElection rnd (fun hle ↦ hS ⟨.inl ‹_›, hle⟩) fun hle ↦ hL ⟨.inl ‹_›, hle⟩
  · exact r.does_tickElection rnd (fun hle ↦ hS ⟨.inr ‹_›, hle⟩) fun hle ↦ hL ⟨.inr ‹_›, hle⟩
  · refine .ite (fun _ ↦ r.does_checkQuorum rnd now) fun _ ↦ ?_
    exact ((r.does_checkQuorum rnd now).trans (does_sendHeartbeat _)).trans
      (does_doLeadershipTransfer _ _ _)
  · exact .refl r
  · exact .refl r

theorem quiet_requestLeadership (id : ℕ) : Quiet r (r.requestLeadership id) :=
  .ite (fun _ ↦ .note rfl) fun _ ↦ .same rfl rfl rfl

theorem quiet_cancelTransfer (id : ℕ) : Quiet r (r.cancelTransfer id) := by
  refine Quiet.trans (b := if r.leadershipTransfer.any (·.id = id) then
    { r with leadershipTransfer := none } else r) ?_ (.note rfl)
  exact .ite (fun _ ↦ .same rfl rfl rfl) fun _ ↦ .refl r

end Raft

end RaftConsensus
