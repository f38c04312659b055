import RaftConsensus.Single.Steps
import RaftConsensus.Leadership.Quorum

namespace RaftConsensus

variable {σ : Type} {F : FSM σ} {R : Rules} {inp : Input}

def RaftState.Passive (state : RaftState) : Prop := state ≠ .candidate ∧ state ≠ .leader

instance : DecidablePred RaftState.Passive := fun _ ↦ inferInstanceAs (Decidable (_ ∧ _))

def noCampaign : Warrant := { Licence.free.open with stand := fun _ ↦ False }

/-- The states in which the clock does not make a node campaign. -/
def RaftState.Resting (state : RaftState) : Prop := state = .learner ∨ state = .shutdown

theorem RaftState.Resting.ne_candidate {state : RaftState} (h : state.Resting) :
    state ≠ .candidate := by
  rcases h with rfl | rfl <;> simp

theorem RaftState.Resting.ne_leader {state : RaftState} (h : state.Resting) :
    state ≠ .leader := by
  rcases h with rfl | rfl <;> simp

theorem Path.rests {k : ℕ} {c c' : Core} {out : List Effect}
    (h : Path R noCampaign (.op k) c out c') (hst : c.started = true) (hc : c.state.Resting) :
    c'.started = true ∧ (c'.state = c.state ∨ c'.state = .shutdown) ∧ c'.term = c.term := by
  induction h with
  | refl => exact ⟨hst, .inl rfl, rfl⟩
  | @tail _ _ c₁ _ _ hm ih =>
    obtain ⟨hst', hs', ht⟩ := ih
    have hrest : c₁.state.Resting := hs'.elim (fun hs ↦ hs ▸ hc) .inr
    cases hm with
    | raise t who hlt hb hf => exact (hb.elim id id).elim
    | campaign asks hasks hS => exact hS.elim
    | crown hq hL hS => exact hS.elim
    | setState state hs hS hf =>
      refine ⟨hst', .inr ?_, ht⟩
      cases state with
      | follower => exact ((hf rfl).elim (fun h ↦ hrest.ne_leader h.1) hrest.ne_candidate).elim
      | candidate => exact (hS rfl).elim
      | leader => exact absurd rfl hs.1
      | learner => exact absurd rfl hs.2
      | shutdown => rfl
    | retire data hs => exact absurd hs hrest.ne_leader
    | lead id hs => exact absurd hs hrest.ne_candidate
    | start state lastTerm hn =>
      rw [hst'] at hn
      cases hn
    | _ => exact ⟨hst', hs', ht⟩

namespace Raft

variable {r r' : Raft σ} {s : Stimulus}

theorem state_becomeLeader (r : Raft σ) : r.becomeLeader.state = .leader := by
  have hs : r.takeOver.trackAll.appendNoop.sendHeartbeat.state = .leader := by
    rw [state_sendHeartbeat, appendNoop_eq]
    exact congrArg Core.state r.takeOver.trackAll_spec.1
  unfold becomeLeader
  dsimp only
  split <;> exact hs

theorem state_askVoters (r : Raft σ) (req : RequestVoteRequest) :
    (r.askVoters req).state = r.state := congrArg Core.state (r.askVoters_spec req).1

theorem not_passive_runElection (r : Raft σ) (leaderTransfer : Bool) :
    ¬ (r.runElection leaderTransfer).state.Passive := by
  unfold runElection
  dsimp only
  split
  · rw [state_becomeLeader]
    exact fun h ↦ h.2 rfl
  · rw [state_askVoters]
    exact fun h ↦ h.1 rfl

theorem not_passive_startElectionWith (r : Raft σ) (alreadyPreVoted leaderTransfer : Bool) :
    ¬ (r.startElectionWith alreadyPreVoted leaderTransfer).state.Passive := by
  unfold startElectionWith
  split
  · unfold startPreVote
    dsimp only
    split
    · exact not_passive_runElection _ _
    · rw [state_askVoters]
      exact fun h ↦ h.1 rfl
  · exact not_passive_runElection _ _

def standing (r : Raft σ) : RaftState × ℕ × Bool := (r.state, r.term, r.started)

theorem standing_truncateLog (r : Raft σ) (index : ℕ) :
    (r.truncateLog index).1.standing = r.standing := by
  unfold truncateLog
  dsimp only
  split
  · split
    · rfl
    · split <;> rfl
  · split <;> rfl

theorem standing_followCommit (r : Raft σ) (req : AppendEntriesRequest) :
    (r.followCommit req).standing = r.standing := by
  unfold followCommit
  split <;> rfl

theorem standing_handleAppendEntries (r : Raft σ) (req : AppendEntriesRequest) (rnd : ℕ) :
    (r.handleAppendEntries req rnd).1.standing =
      if req.term < r.term then r.standing else (r.heardFromLeader req rnd).standing := by
  split
  · rw [handleAppendEntries, if_pos ‹_›]
  · exact r.handleAppendEntries_rel (P := fun a b ↦ b.standing = a.standing) (fun _ ↦ rfl)
      (fun h h' ↦ h'.trans h) (fun _ _ ↦ rfl) (fun r index _ ↦ r.standing_truncateLog index) rnd
      (fun r ↦ r.standing_followCommit req) ‹_›

theorem standing_heardFromLeader {req : AppendEntriesRequest} (rnd : ℕ) (hr : r.state.Resting)
    (h : ¬ r.term < req.term) : (r.heardFromLeader req rnd).standing = r.standing := by
  have hcore := r.core_heardFromLeader req rnd
  rw [show r.catchUp req.term = r from if_neg h, if_neg hr.ne_candidate] at hcore
  exact congrArg (fun c : Core ↦ (c.state, c.term, c.started)) hcore

theorem standing_reconcileLog (r : Raft σ) (index term : ℕ) :
    (r.reconcileLog index term).standing = r.standing := by
  unfold reconcileLog
  dsimp only
  split_ifs <;> rfl

theorem standing_handleInstallSnapshot (F : FSM σ) {req : InstallSnapshotRequest} (rnd : ℕ)
    (h : ¬ req.term < r.term) :
    (r.handleInstallSnapshot F req rnd).1.standing = (r.catchUp req.term).standing := by
  unfold handleInstallSnapshot
  dsimp only
  rw [if_neg h]
  generalize r.catchUp req.term = r₁
  split
  · rfl
  · split_ifs
    · rfl
    · rfl
    · rfl
    · unfold installSnapshot restoreSnapshotData
      cases F.restore _ with
      | none => rfl
      | some fsm => exact standing_reconcileLog _ _ _

theorem term_catchUp (h : r.term < t) : (r.catchUp t).term = t := by
  rw [catchUp, if_pos h]
  rfl

theorem noCampaign_allows (r : Raft σ) (o : Op) : noCampaign.Allows F r o :=
  ⟨fun _ _ ↦ trivial, fun _ _ _ _ ↦ trivial, fun _ _ _ _ _ ↦ trivial, fun _ _ _ ↦ trivial,
    fun _ _ _ _ _ _ _ _ _ ↦ trivial, fun _ _ _ _ _ _ _ _ _ ↦ trivial, fun _ _ _ ↦ trivial⟩

theorem does_noCampaign (hs : s.mayLead r = false) (hw : s.Contiguous)
    (h : r.take F s = some r') : Does anyKind noCampaign s.input r r' :=
  does_take s.allowed_anyKind hw (Licence.free_covers _ _ _)
    ⟨trivial, fun hm ↦ by simp [hs] at hm, fun _ _ _ _ _ _ ↦ trivial⟩
    (fun o _ ↦ noCampaign_allows r o) h

/-- What ends the role of a learner: a request or a reply of a higher term that the node adopts,
and the order to campaign. -/
def rouses (r : Raft σ) : Stimulus → Bool
  | .request (.appendEntries req) _ => r.term < req.term
  | .request (.installSnapshot req) _ => r.term < req.term
  | .request (.requestVote req) _ => !req.preVote && r.term < req.term &&
      !(r.config.checkQuorum && !req.leaderTransfer && r.heardLeaderRecently)
  | .request .timeoutNow _ => true
  | .reply _ _ (.installSnapshot _) (.installSnapshot resp) => r.term < resp.term
  | _ => false

def Rests (r r' : Raft σ) : Prop :=
  r'.started = true ∧ (r'.state = r.state ∨ r'.state = .shutdown) ∧ r'.term = r.term

theorem rests_of_standing (hst : r.started = true) (h : r'.standing = r.standing) : Rests r r' :=
  ⟨(congrArg (·.2.2) h).trans hst, .inl (congrArg Prod.fst h), congrArg (·.2.1) h⟩

theorem standing_handleRequestVote {req : RequestVoteRequest} {rnd : ℕ}
    (hs : r.rouses (.request (.requestVote req) rnd) = false) :
    (r.handleRequestVote req rnd).1.standing = r.standing := by
  unfold handleRequestVote
  dsimp only
  split
  · rfl
  · split
    · rfl
    · split
      · rfl
      · have hterm : ¬ r.term < req.term := fun hlt ↦ by simp_all [rouses]
        rw [if_neg hterm]
        split_ifs <;> rfl

theorem standing_handle {req : Request} {rnd : ℕ} (hr : r.state.Resting)
    (hs : r.rouses (.request req rnd) = false) : (r.handle F rnd req).1.standing = r.standing := by
  cases req with
  | requestVote req => exact standing_handleRequestVote hs
  | appendEntries req =>
    have hle := standing_heardFromLeader rnd hr (of_decide_eq_false hs)
    refine (r.standing_handleAppendEntries req rnd).trans ?_
    rw [hle, ite_self]
  | installSnapshot req =>
    change (r.handleInstallSnapshot F req rnd).1.standing = r.standing
    by_cases hlt : req.term < r.term
    · rw [handleInstallSnapshot, if_pos hlt]
    · rw [standing_handleInstallSnapshot F rnd hlt, catchUp, if_neg (of_decide_eq_false hs)]
  | timeoutNow => cases hs

theorem standing_readClock {now : ℤ} (h : r.readClock now = some r') :
    r'.standing = r.standing := by
  rw [(r.readClock_some h).2]
  rfl

theorem standing_receive {id : ServerID} {now : ℤ} {req : Request} {resp : Response}
    (hr : r.state.Resting) (hs : r.rouses (.reply id now req resp) = false)
    (h : r.receive id now req resp = some r') : r'.standing = r.standing := by
  unfold receive at h
  split at h
  · cases h
    split
    · unfold sendPreVoteReply
      rw [if_pos (by simp [hr.ne_candidate])]
    · unfold sendVoteReply
      rw [if_pos hr.ne_candidate]
  · split at h
    · obtain ⟨r₁, hc, rfl⟩ := Option.map_eq_some_iff.mp h
      have hs := standing_readClock hc
      refine Eq.trans ?_ hs
      unfold replicateOnceReply
      have hstate : r₁.state = r.state := congrArg Prod.fst hs
      rw [if_pos (hstate ▸ hr.ne_leader)]
      rfl
    · cases h
  · split at h
    · cases h
      unfold sendSnapshotReply
      rw [if_neg (of_decide_eq_false hs), if_pos (.inl hr.ne_leader)]
      rfl
    · cases h
  · cases h
    rfl
  · cases h

theorem rests_take (hst : r.started = true) (hr : r.state.Resting) (hs : r.rouses s = false)
    (h : r.take F s = some r') : Rests r r' := by
  cases s with
  | op o =>
    have hlead : (Stimulus.op o).mayLead r = false := by
      rcases hr with hr | hr <;> cases o <;> simp [Stimulus.mayLead, Op.mayLead, hr]
    obtain ⟨out, -, hp⟩ := (does_noCampaign hlead trivial h).path
    have hop : ∃ k, (Stimulus.op o).input = .op k := by cases o <;> exact ⟨_, rfl⟩
    obtain ⟨k, hk⟩ := hop
    rw [hk] at hp
    exact hp.rests hst hr
  | request req rnd =>
    cases h
    exact rests_of_standing hst (standing_handle hr hs)
  | reply id now req resp => exact rests_of_standing hst (standing_receive hr hs h)
  | failed id req =>
    obtain ⟨out, -, hp⟩ := (does_noCampaign (s := .failed id req) rfl trivial h).path
    exact hp.rests hst hr

theorem not_rests_of_rouses (hs : r.rouses s = true) (h : r.take F s = some r') :
    ¬ (r'.state.Resting ∧ r'.term = r.term) := by
  rintro ⟨hrest, hterm⟩
  cases s with
  | op o => cases hs
  | failed id req => cases hs
  | request req rnd =>
    cases h
    cases req with
    | appendEntries req =>
      have hlt : r.term < req.term := of_decide_eq_true hs
      have hst : (r.handleAppendEntries req rnd).1.standing = _ :=
        r.standing_handleAppendEntries req rnd
      rw [if_neg hlt.le.not_gt] at hst
      have ht := (congrArg (·.2.1) hst).trans (r.term_heardFromLeader req rnd hlt.le)
      exact hlt.ne (hterm.symm.trans ht)
    | installSnapshot req =>
      have hlt : r.term < req.term := of_decide_eq_true hs
      have hst := congrArg (·.2.1) (standing_handleInstallSnapshot F rnd hlt.le.not_gt)
      exact hlt.ne (hterm.symm.trans (hst.trans (term_catchUp hlt)))
    | requestVote req =>
      simp only [rouses, Bool.and_eq_true, Bool.not_eq_true', decide_eq_true_eq] at hs
      obtain ⟨⟨hpre, hlt⟩, hshield⟩ := hs
      have ht : (r.handleRequestVote req rnd).1.term = req.term := by
        unfold handleRequestVote
        dsimp only
        rw [if_neg (by simp [hpre]), if_neg hlt.le.not_gt, if_neg (by simp [hshield]), if_pos hlt]
        split_ifs <;> rfl
      exact hlt.ne (hterm.symm.trans ht)
    | timeoutNow =>
      exact not_passive_startElectionWith
        { r with electionTicks := r.randomElectionTickCount rnd } true true
        ⟨hrest.ne_candidate, hrest.ne_leader⟩
  | reply id now req resp =>
    have h : r.receive id now req resp = some r' := h
    cases req <;> cases resp <;> try cases hs
    simp only [receive] at h
    split at h
    · cases h
      rw [sendSnapshotReply, if_pos (of_decide_eq_true hs)] at hrest
      rcases hrest with hrest | hrest <;> cases hrest
    · cases h

/-- The timeout of a follower, such as a learner becomes that adopts a term. -/
theorem tick_campaigns {rnd : ℕ} {now : ℤ} {order : List ServerID} (hstate : r.state = .follower)
    (hticks : r.electionTicks ≤ 1) (h : r.take F (.op (.tick rnd now order)) = some r') :
    ¬ r'.state.Passive := by
  simp only [take, exec] at h
  split at h
  · obtain ⟨r₁, h₁, h₂⟩ := Option.bind_eq_some_iff.mp h
    obtain ⟨-, rfl⟩ := r.readClock_some h₁
    unfold selected at h₂
    split at h₂ <;> cases h₂
    have htick : ({ r with clock := now } : Raft σ).tick rnd now order =
        ({ r with clock := now } : Raft σ).tickElection rnd := by
      simp only [tick, hstate]
    change ¬ (({ r with clock := now } : Raft σ).tick rnd now order).state.Passive
    rw [htick, tickElection]
    dsimp only
    rw [if_pos (by omega)]
    exact not_passive_startElectionWith _ false false
  · cases h

/-- The step applies a change that makes the node a voter. -/
def promotes (F : FSM σ) (r : Raft σ) (s : Stimulus) : Bool :=
  !r.configuration.isVoter r.localID &&
    (r.take F s).any fun r' ↦ r'.configuration.isVoter r.localID

/-- Until a change that makes it a voter is applied, a node that was started as a learner keeps
its role and its term for as long as nothing rouses it, and whatever rouses a learner ends that:
it campaigns at once, or it is a follower of a new term, which campaigns when its timeout ends. -/
theorem learner_rests_iff {c : Config} {n : ServerID} {d : Disk} {fsm : σ} {rnd : ℕ}
    (hc : c.startAsLearner = true)
    (h : Steps F (fun r s ↦ r.promotes F s = false ∧ r.rouses s = false)
      ((new c n d fsm).start rnd) r) :
    r.state.Resting ∧ r.term = ((new c n d fsm).start rnd).term ∧
      (∀ s r', r.state = .learner → r.take F s = some r' →
        (r'.state.Resting ∧ r'.term = r.term ↔ r.rouses s = false)) ∧
      ∀ r₁ r₂ : Raft σ, ∀ rnd now order, r₁.state = .follower → r₁.electionTicks ≤ 1 →
        r₁.take F (.op (.tick rnd now order)) = some r₂ → ¬ r₂.state.Passive := by
  obtain ⟨hst, hr, hterm⟩ : r.started = true ∧ r.state.Resting ∧
      r.term = ((new c n d fsm).start rnd).term := by
    refine h.invariant (I := fun r ↦ r.started = true ∧ r.state.Resting ∧ r.term = _) ?_
      fun r s r' hs ht ⟨hst, hr, hterm⟩ ↦ ?_
    · obtain ⟨lastTerm, hcore, -⟩ := (new c n d fsm).start_spec rnd rfl
      refine ⟨congrArg Core.started hcore, .inl ?_, rfl⟩
      exact (congrArg Core.state hcore).trans (if_pos hc)
    · obtain ⟨hst', hs', ht'⟩ := rests_take hst hr hs.2 ht
      exact ⟨hst', hs'.elim (fun heq ↦ show r'.state.Resting from heq ▸ hr) .inr, ht'.trans hterm⟩
  refine ⟨hr, hterm, fun s r' hl ht ↦ ⟨fun hkept ↦ ?_, fun hs ↦ ?_⟩,
    fun _ _ _ _ _ hstate hticks ht ↦ tick_campaigns hstate hticks ht⟩
  · by_contra hs
    exact not_rests_of_rouses (by simpa using hs) ht hkept
  · obtain ⟨-, hs', ht'⟩ := rests_take hst hr hs ht
    exact ⟨hs'.elim (fun heq ↦ .inl (heq.trans hl)) .inr, ht'⟩

end Raft

def startedLearner : Raft (List Bytes) :=
  (Raft.new { Config.least "B" voterAndLearner with startAsLearner := true } "B" .empty []).start 0

/-- A tick, a pre-vote request of term 1, a heartbeat of the term that B has, and the next tick. -/
def afterStart : List Stimulus :=
  [.op (.tick 0 0 []), .request (.requestVote ⟨1, "A", 0, 0, true, false⟩) 0,
    .request (.appendEntries ⟨0, "A", 0, 0, [], 0⟩) 0, .op (.runStep 0), .op (.runStep 0),
    .op (.runStep 0), .op (.tick 0 0 [])]

theorem startedLearner_rests : ∃ r : Raft (List Bytes),
    Raft.Steps .keeping (fun r s ↦ r.promotes .keeping s = false ∧ r.rouses s = false)
      startedLearner r ∧ r.leaderID = "A" ∧ r.state.Resting ∧
      ∀ r', r.take .keeping (.request (.appendEntries ⟨1, "A", 0, 0, [], 0⟩) 0) = some r' →
        ¬ (r'.state.Resting ∧ r'.term = r.term) := by
  have hrun : (startedLearner.checkedSteps .keeping
      (fun r s ↦ !r.promotes .keeping s && !r.rouses s) afterStart).any
      (fun r ↦ r.leaderID = "A" ∧ r.state = .learner ∧
        r.rouses (.request (.appendEntries ⟨1, "A", 0, 0, [], 0⟩) 0) = true) = true := by
    decide +kernel
  obtain ⟨r, hr, h⟩ := (Option.any_eq_true _ _).mp hrun
  obtain ⟨hid, hl, hs⟩ := of_decide_eq_true h
  have hsteps := Raft.steps_of_checkedSteps
    (P := fun r s ↦ r.promotes .keeping s = false ∧ r.rouses s = false) (by simp) hr
  obtain ⟨hrest, -, hkeeps, -⟩ := Raft.learner_rests_iff rfl hsteps
  refine ⟨r, hsteps, hid, hrest, fun r' ht hkept ↦ ?_⟩
  rw [(hkeeps _ r' hl ht).mp hkept] at hs
  cases hs

/-- The learner leads term 2, which it entered by itself, under a configuration that still
lists it as a learner. -/
theorem learner_leads : ∃ (w : World (List Bytes)) (r : Raft (List Bytes)),
    World.Reach learnerCluster .keeping (fun _ _ ↦ True) w ∧ w.raft? "B" = some r ∧
      r.config.startAsLearner = true ∧ r.configuration = voterAndLearner ∧ r.jointConfig = none ∧
      r.state = .leader ∧ r.term = 2 := by
  exact World.exists_reached_raft learnerCluster .keeping learnerElected "B" _ (by decide +kernel)

end RaftConsensus
