import RaftConsensus.Campaign.Aside

namespace RaftConsensus

namespace Raft

variable {σ : Type} {nil : Prop} {r r' : Raft σ} {F : FSM σ}

def timed (r : Raft σ) (now ticks : ℤ) : Raft σ := { r with clock := now, electionTicks := ticks }

/-- What a step is as seen from the pre-vote round and the pending transfer. -/
inductive Stage (r : Raft σ) : Stimulus → Raft σ → Prop
  | aside {s : Stimulus} {r' : Raft σ}
      (h : Aside (∃ req rnd, s = .request (.appendEntries req) rnd ∧ r.term ≤ req.term ∧
        req.leaderID ≠ r.localID) r r')
      (ht : ∀ rnd now order, s = .op (.tick rnd now order) → s.mayLead r = false) : Stage r s r'
  | timeout {rnd : ℕ} {now : ℤ} {order : List ServerID} (ticks : ℤ)
      (hm : Op.mayLead r (.tick rnd now order) = true) : Stage r (.op (.tick rnd now order))
        { (r.timed now ticks).startElection with run := .applyStart false }
  | timeoutNow {rnd : ℕ} (ticks : ℤ) :
      Stage r (.request .timeoutNow rnd) ((r.timed r.clock ticks).runElection true)
  | preVoteReply {id : ServerID} {now : ℤ} {req : RequestVoteRequest} {resp : RequestVoteResponse}
      (hp : req.preVote = true) :
      Stage r (.reply id now (.requestVote req) (.requestVote resp)) (r.sendPreVoteReply id resp)
  | voteReply {id : ServerID} {now : ℤ} {req : RequestVoteRequest} {resp : RequestVoteResponse}
      (hp : req.preVote = false) :
      Stage r (.reply id now (.requestVote req) (.requestVote resp)) (r.sendVoteReply id resp)
  | requestLeadership (id : ℕ) : Stage r (.op (.requestLeadership id)) (r.requestLeadership id)
  | cancelTransfer (id : ℕ) : Stage r (.op (.cancelTransfer id)) (r.cancelTransfer id)

theorem tick_cases (r : Raft σ) (rnd : ℕ) (now : ℤ) (order : List ServerID) :
    (r.state = .follower ∨ r.state = .candidate) ∧ r.tick rnd now order = r.tickElection rnd ∨
      ¬(r.state = .follower ∨ r.state = .candidate) ∧
        (r.tick rnd now order = r.tickLeader rnd now order ∨ r.tick rnd now order = r) := by
  unfold Raft.tick
  split
  case h_1 hs => exact .inl ⟨.inl hs, rfl⟩
  case h_2 hs => exact .inl ⟨.inr hs, rfl⟩
  case h_3 hs => exact .inr ⟨by simp [hs], .inl rfl⟩
  case h_4 hs => exact .inr ⟨by simp [hs], .inr rfl⟩
  case h_5 hs => exact .inr ⟨by simp [hs], .inr rfl⟩

theorem stage_tick {rnd : ℕ} {now : ℤ} {order : List ServerID}
    (hstep : r.exec F (.tick rnd now order) = some r') :
    Stage r (.op (.tick rnd now order)) r' := by
  simp only [Raft.exec] at hstep
  split at hstep
  · obtain ⟨r₁, h₁, hstep⟩ := Option.bind_eq_some_iff.mp hstep
    have hclock : Aside False r r₁ := Aside.walks.readClock h₁
    have hr₁ := (r.readClock_some h₁).2
    rcases r₁.tick_cases rnd now order with ⟨hs, htick⟩ | ⟨hs, htick⟩
    · unfold Raft.selected at hstep
      split at hstep
      · cases hstep
        change Stage r _ { r₁.tick rnd now order with run := .applyStart false }
        rw [htick]
        unfold tickElection
        dsimp only
        rw [hr₁] at hs ⊢
        split
        · rename_i hticks
          exact .timeout _ (decide_eq_true ⟨hs, by dsimp only at hticks; omega⟩)
        · rename_i hticks
          refine .aside (.same rfl rfl rfl rfl) fun _ _ _ _ ↦ decide_eq_false fun hm ↦ hticks ?_
          have := hm.2
          dsimp only
          omega
      · cases hstep
    · have hrest : Aside False r₁ (r₁.tick rnd now order) := by
        rcases htick with htick | htick
        · rw [htick]
          exact Aside.walks.tickLeader _ rnd now order
        · rw [htick]
          exact .refl _
      rw [hr₁] at hs
      refine .aside ((hclock.trans (Aside.walks.selected hstep hrest)).mono False.elim)
        fun _ _ _ _ ↦ ?_
      exact decide_eq_false fun hm ↦ hs hm.1
  · cases hstep

theorem aside_replicateStep {id : ServerID} (hstep : r.replicateStep id = some r') :
    Aside nil r r' := by
  unfold replicateStep at hstep
  split at hstep <;> cases hstep
  · exact r.aside_replicateOnce id
  · exact (r.aside_resetWindow id).trans (aside_setReplicator _ _ _)
  · exact Aside.walks.ite (fun _ ↦ r.aside_setReplicator _ _) fun _ ↦ r.aside_setReplicator _ _
  · unfold sendSnapshotOpen
    split <;> exact r.aside_setReplicator _ _
  · exact .same rfl rfl rfl rfl

theorem aside_exec {o : Op} (hstep : r.exec F o = some r')
    (ht : ∀ rnd now order, o ≠ .tick rnd now order) (hr : ∀ id, o ≠ .requestLeadership id)
    (hc : ∀ id, o ≠ .cancelTransfer id) : Aside nil r r' := by
  cases o with
  | tick rnd now order => exact absurd rfl (ht rnd now order)
  | requestLeadership id => exact absurd rfl (hr id)
  | cancelTransfer id => exact absurd rfl (hc id)
  | replicate target => exact aside_replicateStep hstep
  | snapshotChunk target n done =>
    simp only [Raft.exec] at hstep
    split at hstep
    · unfold sendSnapshotChunk at hstep
      split at hstep <;> cases hstep
      exact (r.aside_setReplicator _ _).trans (.emit ⟨rfl, rfl⟩)
    · cases hstep
  | snapshotSent target now =>
    simp only [Raft.exec] at hstep
    split at hstep
    · rename_i send _
      obtain ⟨r₁, h₁, rfl⟩ := Option.map_eq_some_iff.mp hstep
      refine (Aside.walks.readClock h₁).trans ?_
      refine Aside.trans (Aside.walks.ite (fun _ ↦ ?_) fun _ ↦ .refl _) (aside_setReplicator _ _ _)
      exact .same rfl rfl rfl rfl
    · cases hstep
  | _ => exact Aside.walks.exec rfl hstep

theorem aside_sendSnapshotReply (r : Raft σ) (id : ServerID) (send : SnapshotSend) (n : ℕ)
    (done : Bool) (resp : InstallSnapshotResponse) :
    Aside nil r (r.sendSnapshotReply id send n done resp) := by
  unfold sendSnapshotReply
  refine Aside.walks.ite (fun _ ↦ (r.aside_stepDownOnReply _).trans
    (aside_setReplicator _ _ _)) fun _ ↦ ?_
  exact Aside.walks.ite (fun _ ↦ r.aside_setReplicator _ _) fun _ ↦ r.aside_setReplicator _ _

theorem stage_receive {id : ServerID} {now : ℤ} {req : Request} {resp : Response}
    (hstep : r.receive id now req resp = some r') : Stage r (.reply id now req resp) r' := by
  unfold Raft.receive at hstep
  split at hstep
  · rename_i req resp
    cases hstep
    cases hp : req.preVote with
    | true => exact .preVoteReply hp
    | false => exact .voteReply hp
  · split at hstep
    · obtain ⟨r₁, h₁, rfl⟩ := Option.map_eq_some_iff.mp hstep
      exact .aside ((Aside.walks.readClock h₁).trans (aside_replicateOnceReply _ _ _ _ _)) nofun
    · cases hstep
  · split at hstep
    · cases hstep
      exact .aside (r.aside_sendSnapshotReply _ _ _ _ _) nofun
    · cases hstep
  · cases hstep
    exact .aside (.refl r) nofun
  · cases hstep

theorem aside_callFailed {id : ServerID} {req : Request} (hstep : r.callFailed id req = some r') :
    Aside nil r r' := by
  unfold Raft.callFailed at hstep
  split at hstep
  · split at hstep
    · cases hstep
      have hreset (c : Prop) [Decidable c] : Aside nil r (if c then r else r.resetWindow id) :=
        Aside.walks.ite (fun _ ↦ .refl r) fun _ ↦ r.aside_resetWindow id
      exact (hreset _).trans (aside_setReplicator _ _ _)
    · cases hstep
  · split at hstep
    · cases hstep
      exact r.aside_setReplicator _ _
    · cases hstep
  · cases hstep
    exact .refl r
  · cases hstep
    exact .refl r

theorem stage_take {s : Stimulus} (hstep : r.take F s = some r') : Stage r s r' := by
  cases s with
  | op o =>
    by_cases ht : ∃ rnd now order, o = .tick rnd now order
    · obtain ⟨rnd, now, order, rfl⟩ := ht
      exact stage_tick (F := F) hstep
    · by_cases hr : ∃ id, o = .requestLeadership id
      · obtain ⟨id, rfl⟩ := hr
        cases hstep
        exact .requestLeadership id
      · by_cases hc : ∃ id, o = .cancelTransfer id
        · obtain ⟨id, rfl⟩ := hc
          cases hstep
          exact .cancelTransfer id
        · refine .aside (aside_exec hstep ?_ ?_ ?_) ?_
          · exact fun rnd now order heq ↦ ht ⟨rnd, now, order, heq⟩
          · exact fun id heq ↦ hr ⟨id, heq⟩
          · exact fun id heq ↦ hc ⟨id, heq⟩
          · rintro rnd now order heq
            cases heq
            exact absurd ⟨rnd, now, order, rfl⟩ ht
  | request req rnd =>
    cases hstep
    cases req with
    | requestVote req => exact .aside (Aside.walks.handleRequestVote r req rnd) nofun
    | appendEntries req =>
      refine .aside (Aside.trans (Aside.walks.handleAppendEntries r req rnd ?_)
        (.same rfl rfl rfl rfl)) nofun
      intro a hle hne hid
      exact .finishTransfer a none (by simp) fun _ ↦ ⟨req, rnd, rfl, hle, hid ▸ hne⟩
    | installSnapshot req =>
      refine .aside (Aside.walks.handleInstallSnapshot r (fun a buffer ↦ ?_) F req rnd) nofun
      exact .same rfl rfl rfl rfl
    | timeoutNow =>
      have helect : (r.handle F rnd .timeoutNow).1 =
          (r.timed r.clock (r.randomElectionTickCount rnd)).runElection true :=
        if_neg (by simp)
      rw [helect]
      exact .timeoutNow _
  | reply id now req resp => exact stage_receive hstep
  | failed id req => exact .aside (aside_callFailed hstep) nofun

end Raft

end RaftConsensus
