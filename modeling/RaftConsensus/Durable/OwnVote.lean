import RaftConsensus.Durable.Ballot

namespace RaftConsensus

variable {σ : Type} {F : FSM σ} {R : Rules} {L : Warrant} {inp : Input}

/-- The term in which an effect counts the vote of `id` for itself or asks for votes; a pre-vote
asks for none. -/
def Effect.castsFor (id : ServerID) : Effect → Option ℕ
  | .note (.voted candidate term) => if candidate = id then some term else none
  | .rpc _ (.requestVote req) => if req.preVote then none else some req.term
  | _ => none

theorem Effect.castsFor_of_silent {x : Effect} {id : ServerID}
    (h : (∃ e, x = .note e ∧ e.silent = true) ∨ ∃ target req, x = .rpc target req ∧
      req.silent = true) :
    x.castsFor id = none := by
  rcases h with ⟨e, rfl, he⟩ | ⟨target, req, rfl, hr⟩
  · cases e with
    | transferred id err => rfl
    | _ => cases he
  · cases req with
    | requestVote req => exact if_pos hr
    | timeoutNow => rfl
    | _ => cases hr

variable {c c' : Core}

theorem Move.castless {out : List Effect} (h : Move R L inp c out c')
    (hS : ∀ c, ¬ L.stand c) (hi : ∀ req, inp ≠ .request (.requestVote req)) (id : ServerID) :
    ∀ x ∈ out, x.castsFor id = none := by
  intro x hx
  cases h with
  | note e he => exact Effect.castsFor_of_silent (.inl ⟨e, List.mem_singleton.mp hx, he⟩)
  | call target req hr =>
    exact Effect.castsFor_of_silent (.inr ⟨target, req, List.mem_singleton.mp hx, hr⟩)
  | campaign asks ha hs => exact absurd hs (hS c)
  | crown hq hL hs => exact absurd hs (hS c)
  | vote req hin => exact absurd hin (hi req)
  | fail =>
    obtain ⟨f, -, rfl⟩ := List.mem_map.mp hx
    rfl
  | drain hr hL =>
    obtain ⟨f, -, rfl⟩ := List.mem_map.mp hx
    split <;> rfl
  | readLocal rid hin hs hq =>
    rcases List.mem_cons.mp hx with rfl | hx
    · rfl
    · rw [List.mem_singleton.mp hx]
      rfl
  | lead | send | applied | restore | refuse | resolve | sendSnapshot | readBegin | readCapture
  | readLease | readConfirm | readFail =>
    rw [List.mem_singleton.mp hx]
    rfl
  | _ => cases hx

theorem Path.castless {out : List Effect} (h : Path R L inp c out c')
    (hS : ∀ c, ¬ L.stand c) (hi : ∀ req, inp ≠ .request (.requestVote req)) (id : ServerID) :
    ∀ x ∈ out, x.castsFor id = none := by
  induction h with
  | refl => exact fun x hx ↦ nomatch hx
  | tail _ hm ih =>
    intro x hx
    rcases List.mem_append.mp hx with hx | hx
    · exact ih x hx
    · exact hm.castless hS hi id x hx

def resting : Warrant := { noCampaign with turn := False }

theorem Path.ballot_eq {k : ℕ} {out : List Effect} (h : Path R resting (.op k) c out c')
    (hs : c.stable.term = some c.term) :
    c'.term = c.term ∧ c'.stable.ballot = c.stable.ballot := by
  induction h with
  | refl => exact ⟨rfl, rfl⟩
  | tail _ hm ih =>
    obtain ⟨ht, hb⟩ := ih
    cases hm with
    | raise t who hlt hbr => exact (hbr.elim id id).elim
    | campaign asks ha hS => exact hS.elim
    | crown hq hL hS => exact hS.elim
    | mark req hi => cases hi
    | start state lastTerm hn hsd hst hT => exact hT.elim
    | storeTerm =>
      refine ⟨ht, Eq.trans ?_ hb⟩
      have hterm : _ = some _ := (congrArg Ballot.term hb).trans hs
      rw [← ht] at hterm
      exact congrArg (Ballot.mk · _) hterm.symm
    | _ => exact ⟨ht, hb⟩

namespace Raft

variable {r r' : Raft σ} {s : Stimulus}

def Castless (r r' : Raft σ) : Prop :=
  ∃ out, r'.outbox = r.outbox ++ out ∧ ∀ x ∈ out, ∀ id, x.castsFor id = none

/-- Where a stretch of code casts the node's own vote, it has raised the term and meant to write
that vote. -/
def Casts (r r' : Raft σ) : Prop :=
  ∃ out, r'.outbox = r.outbox ++ out ∧ ∀ x ∈ out, ∀ t, x.castsFor r.localID = some t →
    r.term < r'.term ∧ r'.stable.ballot = ⟨some t, some r.localID⟩

theorem Castless.same (h : r'.outbox = r.outbox) : Castless r r' :=
  ⟨[], h.trans (List.append_nil _).symm, nofun⟩

theorem castless_of_does (h : Does R L inp r r') (hS : ∀ c, ¬ L.stand c)
    (hi : ∀ req, inp ≠ .request (.requestVote req)) : Castless r r' := by
  obtain ⟨out, ho, hp⟩ := h.path
  exact ⟨out, ho, fun x hx id ↦ hp.castless hS hi id x hx⟩

theorem Castless.casts (h : Castless r r') : Casts r r' := by
  obtain ⟨out, ho, hcast⟩ := h
  refine ⟨out, ho, fun x hx t ht ↦ ?_⟩
  rw [hcast x hx] at ht
  cases ht

theorem Casts.same (h : r'.outbox = r.outbox) : Casts r r' := (Castless.same h).casts

theorem Casts.after {r₁ : Raft σ} (h : Casts r₁ r') (ho : r₁.outbox = r.outbox)
    (hid : r₁.localID = r.localID) (ht : r₁.term = r.term) : Casts r r' := by
  obtain ⟨out, hout, hcast⟩ := h
  rw [ho] at hout
  rw [hid, ht] at hcast
  exact ⟨out, hout, hcast⟩

theorem ballot_becomeLeader (h : r.stable.term = some r.term) :
    r.becomeLeader.term = r.term ∧ r.becomeLeader.stable.ballot = r.stable.ballot ∧
      ∃ out, r.becomeLeader.outbox = r.outbox ++ out ∧ ∀ x ∈ out, ∀ id, x.castsFor id = none := by
  obtain ⟨hc, ho, -⟩ := r.takeOver.trackAll_spec
  have hstate : r.takeOver.trackAll.appendNoop.sendHeartbeat.state = .leader := by
    rw [state_sendHeartbeat, appendNoop_eq]
    exact congrArg Core.state hc
  have hnoop : r.takeOver.trackAll.appendNoop.term = r.term ∧
      r.takeOver.trackAll.appendNoop.stable = r.stable ∧
      r.takeOver.trackAll.appendNoop.outbox =
        r.outbox ++ [.note (.becameLeader r.term r.electorate r.log)] := by
    rw [appendNoop_eq]
    exact ⟨congrArg Core.term hc, congrArg Core.stable hc, ho⟩
  have hd : Does anyKind resting (.op 0) r.takeOver.trackAll.appendNoop r.becomeLeader := by
    refine .ite (fun _ ↦ ?_) fun _ ↦ does_sendHeartbeat _
    exact (does_sendHeartbeat _).trans (does_advanceCommitIndex _ hstate)
  obtain ⟨out, hout, hp⟩ := hd.path
  obtain ⟨ht, hb⟩ := hp.ballot_eq (c := r.takeOver.trackAll.appendNoop.core) (by
    change r.takeOver.trackAll.appendNoop.stable.term = some r.takeOver.trackAll.appendNoop.term
    rw [hnoop.1, hnoop.2.1, h])
  refine ⟨ht.trans hnoop.1, hb.trans (congrArg StableStore.ballot hnoop.2.1),
    .note (.becameLeader r.term r.electorate r.log) :: out, ?_, fun x hx id ↦ ?_⟩
  · rw [hout, hnoop.2.2, List.append_assoc]
    rfl
  · rcases List.mem_cons.mp hx with rfl | hx
    · rfl
    · exact hp.castless (fun _ hS ↦ hS) nofun id x hx

theorem casts_runElection (r : Raft σ) (leaderTransfer : Bool) :
    Casts r (r.runElection leaderTransfer) := by
  have hball : r.campaign.stable.ballot = ⟨some (r.term + 1), some r.localID⟩ := rfl
  have hown {x : Effect} {t : ℕ} (hx : x = .note (.voted r.localID (r.term + 1)))
      (ht : x.castsFor r.localID = some t) : t = r.term + 1 := by
    rw [hx] at ht
    simpa [Effect.castsFor] using ht.symm
  unfold runElection
  dsimp only
  split
  · obtain ⟨hterm, hb, out, ho, hcast⟩ := r.campaign.ballot_becomeLeader rfl
    refine ⟨.note (.voted r.localID (r.term + 1)) :: out, ?_, fun x hx t ht ↦ ?_⟩
    · rw [ho, outbox_campaign, List.append_assoc]
      rfl
    · rcases List.mem_cons.mp hx with hx | hx
      · rw [hterm, hb, hown hx ht]
        exact ⟨Nat.lt_succ_self _, hball⟩
      · rw [hcast x hx] at ht
        cases ht
  · obtain ⟨hc, -, asks, ho, hask⟩ := r.campaign.askVoters_spec
      (r.campaign.voteRequest r.campaign.term false leaderTransfer)
    refine ⟨.note (.voted r.localID (r.term + 1)) :: asks, ?_, fun x hx t ht ↦ ?_⟩
    · rw [ho, outbox_campaign, List.append_assoc]
      rfl
    · have hend : t = r.term + 1 := by
        rcases List.mem_cons.mp hx with hx | hx
        · exact hown hx ht
        · obtain ⟨target, -, rfl⟩ := hask x hx
          exact (Option.some.inj ht).symm
      have hterm := congrArg Core.term hc
      rw [hend]
      exact ⟨(Nat.lt_succ_self r.term).trans_eq hterm.symm,
        (congrArg (·.stable.ballot) hc).trans hball⟩

theorem casts_startElectionWith (r : Raft σ) (alreadyPreVoted leaderTransfer : Bool) :
    Casts r (r.startElectionWith alreadyPreVoted leaderTransfer) := by
  unfold startElectionWith
  split
  · unfold startPreVote
    dsimp only
    split
    · exact (casts_runElection _ false).after rfl rfl rfl
    · obtain ⟨-, -, asks, ho, hask⟩ := askVoters_spec (σ := σ) { r with
        state := .candidate
        inPreVote := true
        preVotes := (∅ : VoteMap).insert r.localID true
        preVoteCount := 1 } (r.voteRequest (r.term + 1) true false)
      refine ⟨asks, ho, fun x hx t ht ↦ ?_⟩
      obtain ⟨target, -, rfl⟩ := hask x hx
      cases ht
  · exact casts_runElection r leaderTransfer

theorem casts_sendPreVoteReply (r : Raft σ) (id : ServerID) (resp : RequestVoteResponse) :
    Casts r (r.sendPreVoteReply id resp) := by
  unfold sendPreVoteReply
  split
  · exact .same rfl
  · split
    · exact .same rfl
    · split
      · dsimp only
        split
        · exact (casts_startElectionWith _ true false).after rfl rfl rfl
        · exact .same rfl
      · exact .same rfl

theorem outbox_handleAppendEntries (r : Raft σ) (req : AppendEntriesRequest) (rnd : ℕ) :
    (r.handleAppendEntries req rnd).1.outbox =
      if req.term < r.term then r.outbox else (r.heardFromLeader req rnd).outbox := by
  split
  · rw [handleAppendEntries, if_pos ‹_›]
  · refine r.handleAppendEntries_rel (P := fun a b ↦ b.outbox = a.outbox) (fun _ ↦ rfl)
      (fun h h' ↦ h'.trans h) (fun _ _ ↦ rfl) (fun r index h ↦ (r.truncateLog_spec index h).2.1) rnd
      (fun r ↦ ?_) ‹_›
    unfold followCommit
    split <;> rfl

theorem castless_handleAppendEntries (F : FSM σ) (r : Raft σ) (req : AppendEntriesRequest)
    (rnd : ℕ) : Castless r (r.handle F rnd (.appendEntries req)).1 := by
  have ho : (r.handle F rnd (.appendEntries req)).1.outbox = _ :=
    r.outbox_handleAppendEntries req rnd
  split at ho
  · exact .same ho
  · have hd : Does anyKind noCampaign (.request (.appendEntries req)) r
        (r.heardFromLeader req rnd) :=
      r.does_heardFromLeader req rnd rfl
    obtain ⟨out, hout, hcast⟩ := castless_of_does hd (fun _ ↦ id) nofun
    exact ⟨out, ho.trans hout, hcast⟩

theorem castless_take (h : r.take F s = some r') (hmay : s.mayLead r = false)
    (hs : ∀ req rnd, s ≠ .request (.requestVote req) rnd) : Castless r r' := by
  have hdoes (hw : s.Contiguous) : Castless r r' := by
    refine castless_of_does (does_noCampaign hmay hw h) (fun _ ↦ id) fun req hi ↦ ?_
    cases s with
    | op o => cases o <;> cases hi
    | request req rnd =>
      cases hi
      exact hs _ rnd rfl
    | reply id now req resp => cases hi
    | failed id req => cases hi
  cases s with
  | request req rnd =>
    cases req with
    | appendEntries req =>
      cases h
      exact castless_handleAppendEntries F r req rnd
    | _ => exact hdoes trivial
  | _ => exact hdoes trivial

theorem casts_tick {rnd : ℕ} {now : ℤ} {order : List ServerID}
    (hmay : r.state = .follower ∨ r.state = .candidate)
    (h : r.exec F (.tick rnd now order) = some r') : Casts r r' := by
  simp only [exec] at h
  split at h
  · obtain ⟨r₁, hc, h⟩ := Option.bind_eq_some_iff.mp h
    rw [(r.readClock_some hc).2] at h
    unfold selected at h
    split at h
    · cases h
      have htick : tick { r with clock := now } rnd now order =
          tickElection { r with clock := now } rnd := by
        unfold tick
        rcases hmay with hs | hs <;> simp only [hs]
      have helect : Casts r (tickElection { r with clock := now } rnd) := by
        unfold tickElection
        dsimp only
        split
        · exact (casts_startElectionWith _ false false).after rfl rfl rfl
        · exact .same rfl
      rw [← htick] at helect
      exact helect
    · cases h
  · cases h

theorem casts_take (h : r.take F s = some r') (hmay : s.mayLead r = true) : Casts r r' := by
  cases s with
  | op o =>
    cases o with
    | tick rnd now order =>
      simp only [Stimulus.mayLead, Op.mayLead, decide_eq_true_eq] at hmay
      exact casts_tick (F := F) hmay.1 h
    | _ => cases hmay
  | request req rnd =>
    cases req with
    | timeoutNow =>
      cases h
      exact (casts_startElectionWith _ true true).after rfl rfl rfl
    | _ => cases hmay
  | reply id now req resp =>
    have h : r.receive id now req resp = some r' := h
    unfold receive at h
    split at h
    · cases h
      split
      · exact r.casts_sendPreVoteReply id _
      · rename_i req resp hp
        have hd : Does anyKind noCampaign (.reply id (.requestVote req) (.requestVote resp) 0) r
            (r.sendVoteReply id resp) :=
          r.does_sendVoteReply id rfl (by simpa using hp) fun _ _ _ ↦ trivial
        exact (castless_of_does hd (fun _ hS ↦ hS) (by simp)).casts
    · cases hmay
    · cases hmay
    · cases hmay
    · cases h
  | failed id req => cases hmay

end Raft

namespace Frail

variable {n n' : Frail σ} {s : Stimulus} {o : Calls × Calls} {id : ServerID}

/-- Where the node may start an election, none of the stable store's calls fails. -/
def assured (n : Frail σ) (s : Stimulus) (o : Calls × Calls) : Bool :=
  !(s.mayLead n.raft) || !o.1.failed

theorem outbox_adoptTerm (r : Raft σ) (t : ℕ) :
    ∀ x ∈ (r.failPendingFutures.adoptTerm t).outbox, x ∈ r.outbox ∨ x.castsFor id = none := by
  intro x hx
  have hx : x ∈ r.failPendingFutures.outbox := hx
  rw [Raft.failPendingFutures_eq] at hx
  rcases List.mem_append.mp hx with hx | hx
  · exact .inl hx
  · obtain ⟨f, -, rfl⟩ := List.mem_map.mp hx
    exact .inr rfl

variable {x : Effect}

theorem disk_grant (n : Frail σ) (req : RequestVoteRequest) (rnd : ℕ) (o : Calls) {t : ℕ}
    (hold : ∀ x ∈ n.raft.outbox, x.castsFor n.raft.localID = none)
    (hx : x ∈ (n.grant req rnd o).1.raft.outbox) (hc : x.castsFor n.raft.localID = some t) :
    (n.grant req rnd o).1.store.disk = ⟨some t, some n.raft.localID⟩ := by
  have hok := UnsureStore.disk_of_persisted (s := n.store) (o := o)
    (b := { n.raft with votedFor := req.candidateID }.persistTermAndVotedFor.stable.ballot)
  unfold grant at hx ⊢
  dsimp only at hx ⊢
  generalize n.store.persistTermAndVotedFor _ o = q at hok hx ⊢
  obtain ⟨store, ok⟩ := q
  cases ok with
  | false =>
    rw [hold x hx] at hc
    cases hc
  | true =>
    rcases List.mem_append.mp hx with hx | hx
    · rw [hold x hx] at hc
      cases hc
    · rw [List.mem_singleton.mp hx] at hc
      simp only [Effect.castsFor] at hc
      split at hc
      · rename_i hid
        cases hc
        rw [← hid]
        exact congrArg UnsureStore.disk (hok rfl)
      · cases hc

theorem disk_voteOn (n : Frail σ) (req : RequestVoteRequest) (rnd oldTerm : ℕ) (o : Calls)
    {t : ℕ} (hold : ∀ x ∈ n.raft.outbox, x.castsFor n.raft.localID = none)
    (hx : x ∈ (n.voteOn req rnd oldTerm o).1.raft.outbox)
    (hc : x.castsFor n.raft.localID = some t) :
    (n.voteOn req rnd oldTerm o).1.store.disk = ⟨some t, some n.raft.localID⟩ := by
  have habsurd {p : Prop} (hx : x ∈ n.raft.outbox) : p := by
    rw [hold x hx] at hc
    cases hc
  unfold voteOn at hx ⊢
  split at hx
  · exact habsurd hx
  · rename_i hfree
    rw [if_neg hfree]
    split at hx
    · exact habsurd hx
    · rename_i hlog
      rw [if_neg hlog]
      exact n.disk_grant req rnd o hold hx hc

theorem disk_handleRequestVote (n : Frail σ) (req : RequestVoteRequest) (rnd : ℕ)
    (o : Calls × Calls) (h0 : n.raft.outbox = []) {t : ℕ}
    (hx : x ∈ (n.handleRequestVote req rnd o).1.raft.outbox)
    (hc : x.castsFor n.raft.localID = some t) :
    (n.handleRequestVote req rnd o).1.store.disk = ⟨some t, some n.raft.localID⟩ := by
  have hnone {p : Prop} {x : Effect} (hx : x ∈ n.raft.outbox) : p := by
    rw [h0] at hx
    cases hx
  unfold handleRequestVote at hx ⊢
  dsimp only at hx ⊢
  split at hx
  · exact hnone hx
  · rename_i hpre
    rw [if_neg hpre]
    split at hx
    · exact hnone hx
    · rename_i hstale
      rw [if_neg hstale]
      split at hx
      · exact hnone hx
      · rename_i hguard
        rw [if_neg hguard]
        split at hx
        · rename_i hlt
          have hid : (logged n.store (n.raft.failPendingFutures.adoptTerm req.term)
              o.1).raft.localID = n.raft.localID := by
            change n.raft.failPendingFutures.localID = _
            rw [Raft.failPendingFutures_eq]
          rw [if_pos hlt]
          rw [← hid] at hc ⊢
          refine disk_voteOn _ req rnd _ _ (fun y hy ↦ ?_) hx hc
          exact (outbox_adoptTerm n.raft req.term y hy).elim hnone id
        · rename_i hge
          rw [if_neg hge]
          exact n.disk_voteOn req rnd _ _ (fun y hy ↦ hnone hy) hx hc

theorem disk_take (ht : n.take F s o = some n') (ha : n.assured s o = true)
    (h0 : n.raft.outbox = []) (hx : x ∈ n'.raft.outbox) {t : ℕ}
    (hc : x.castsFor n.raft.localID = some t) :
    n'.store.disk = ⟨some t, some n.raft.localID⟩ := by
  have hnew {r' : Raft σ} {out : List Effect} (ho : r'.outbox = n.raft.outbox ++ out)
      (hx : x ∈ r'.outbox) : x ∈ out := by
    rw [ho, h0] at hx
    exact hx
  have hless {r' : Raft σ} (h : n.raft.take F s = some r') (hmay : s.mayLead n.raft = false)
      (hs : ∀ req rnd, s ≠ .request (.requestVote req) rnd) (hx : x ∈ r'.outbox)
      {p : Prop} : p := by
    obtain ⟨out, ho, hcast⟩ := Raft.castless_take h hmay hs
    rw [hcast x (hnew ho hx)] at hc
    cases hc
  unfold take at ht
  split at ht
  · cases ht
    exact n.disk_handleRequestVote _ _ o h0 hx hc
  · obtain ⟨r', hr', rfl⟩ := Option.map_eq_some_iff.mp ht
    exact hless hr' rfl nofun hx
  · rename_i hrv _
    obtain ⟨r', hr', rfl⟩ := Option.map_eq_some_iff.mp ht
    have hx : x ∈ r'.outbox := by
      split at hx <;> exact hx
    cases hmay : s.mayLead n.raft with
    | false => exact hless hr' hmay (fun req rnd ↦ hrv req rnd) hx
    | true =>
      obtain ⟨out, ho, hcast⟩ := Raft.casts_take hr' hmay
      obtain ⟨hlt, hb⟩ := hcast x (hnew ho hx) t hc
      have hfine : o.1.failed = false := by simpa [assured, hmay] using ha
      rw [if_pos hlt, ← hb]
      exact congrArg UnsureStore.disk
        (UnsureStore.disk_of_persisted (UnsureStore.persisted_of_fine hfine))

section Restart

variable {cfg : Config} {d : Disk} {r : Raft σ} {t : ℕ}

/-- A node that starts from a disk with its own vote refuses every other candidate of that term. -/
theorem refuses_after_start (hr : Raft.newRaft F cfg id d = some r)
    (hd : d.stable.ballot = ⟨some t, some id⟩) (hid : id ≠ "") (rnd : ℕ) (store : UnsureStore)
    {req : RequestVoteRequest} (ht : req.term = t) (hp : req.preVote = false)
    (hc : req.candidateID ≠ id) (rnd' : ℕ) (o : Calls × Calls) :
    ((⟨r.start rnd, store⟩ : Frail σ).handleRequestVote req rnd' o).2.voteGranted = false := by
  obtain ⟨cfg', -, rfl⟩ := Option.map_eq_some_iff.mp hr
  obtain ⟨lastTerm, hcore, -⟩ := (Raft.new cfg' id d F.init).start_spec rnd rfl
  have hterm : ((Raft.new cfg' id d F.init).start rnd).term = t := by
    rw [show ((Raft.new cfg' id d F.init).start rnd).term = d.stable.term.getD 0 from
      congrArg Core.term hcore, show d.stable.term = some t from congrArg Ballot.term hd]
    rfl
  have hvote : ((Raft.new cfg' id d F.init).start rnd).votedFor = id := by
    rw [show ((Raft.new cfg' id d F.init).start rnd).votedFor = d.stable.votedFor.getD "" from
      congrArg Core.votedFor hcore,
      show d.stable.votedFor = some id from congrArg Ballot.votedFor hd]
    rfl
  generalize (Raft.new cfg' id d F.init).start rnd = r at hterm hvote
  unfold handleRequestVote
  dsimp only
  rw [if_neg (by simp [hp]), if_neg (by omega)]
  split
  · rfl
  · rw [if_neg (by omega)]
    unfold voteOn
    rw [if_pos ⟨hvote ▸ hid, hvote ▸ hc.symm⟩]

end Restart

inductive Site (σ : Type)
  | up (n : Frail σ)
  | down (b : Ballot)

/-- One step of a node on an unsure store. A crash may also strike inside a step, after any of the
calls to the store and before anything is handed out; the log it leaves is not looked at. -/
inductive Step (F : FSM σ) (id : ServerID) (P : Frail σ → Stimulus → Calls × Calls → Prop) :
    Site σ → Site σ → Prop
  | take {n n' : Frail σ} {s : Stimulus} {o : Calls × Calls} (hP : P n s o)
      (h : n.take F s o = some n') : Step F id P (.up n) (.up n'.rest)
  | torn {n n' : Frail σ} {s : Stimulus} {o : Calls × Calls} (h : n.take F s o = some n') :
      Step F id P (.up n) (.down n'.store.disk)
  | crash {n : Frail σ} : Step F id P (.up n) (.down n.store.disk)
  | boot {cfg : Config} {d : Disk} {r : Raft σ} (h : Raft.newRaft F cfg id d = some r) :
      Step F id P (.down d.stable.ballot) (.up ⟨r, ⟨d.stable.ballot, d.stable.ballot⟩⟩)

def Run (F : FSM σ) (id : ServerID) (P : Frail σ → Stimulus → Calls × Calls → Prop) (b : Ballot) :
    Site σ → Prop := Relation.ReflTransGen (Step F id P) (.down b)

theorem Run.outbox_eq {P : Frail σ → Stimulus → Calls × Calls → Prop} {b : Ballot} {x : Site σ}
    (h : Run F id P b x) (hx : x = .up n) : n.raft.outbox = [] := by
  subst hx
  rcases Relation.ReflTransGen.cases_tail h with heq | ⟨y, -, hs⟩
  · cases heq
  · cases hs with
    | take hP ht => rfl
    | boot hr =>
      obtain ⟨cfg', -, rfl⟩ := Option.map_eq_some_iff.mp hr
      rfl

/-- In a run in which no call of the stable store fails where the node may start an election, the
node counts its own vote and asks for votes only when its vote is on the disk; started again
from there, it refuses every other candidate of that term. -/
theorem own_vote_durable {b : Ballot} {t : ℕ} {x : Effect}
    (h : Run F id (fun n s o ↦ n.assured s o = true) b (.up n)) (ha : n.assured s o = true)
    (ht : n.take F s o = some n') (hx : x ∈ n'.raft.outbox)
    (hc : x.castsFor n.raft.localID = some t) :
    n'.store.disk = ⟨some t, some n.raft.localID⟩ ∧
      ∀ cfg d r rnd store req rnd' o', d.stable.ballot = n'.store.disk →
        Raft.newRaft F cfg n.raft.localID d = some r → n.raft.localID ≠ "" → req.term = t →
        req.preVote = false → req.candidateID ≠ n.raft.localID →
        ((⟨r.start rnd, store⟩ : Frail σ).handleRequestVote req rnd' o').2.voteGranted = false := by
  have hdisk := disk_take ht ha (h.outbox_eq rfl) hx hc
  refine ⟨hdisk, fun cfg d r rnd store req rnd' o' hd hr hid hreq hp hcand ↦ ?_⟩
  exact refuses_after_start hr (hd.trans hdisk) hid rnd store hreq hp hcand rnd' o'

def bootedA : Frail (List Bytes) where
  raft := Raft.new ((Config.least "A" abc).withDefaults.validate.getD (.least "A" abc))
    "A" .empty []
  store := ⟨⟨none, none⟩, ⟨none, none⟩⟩

def startedA : Frail (List Bytes) := ⟨(bootedA.raft.start 0).rest, bootedA.store⟩

theorem run_startedA {P : Frail (List Bytes) → Stimulus → Calls × Calls → Prop}
    (hP : P bootedA (.op (.start 0)) (.fine, .fine)) :
    Run .keeping "A" P ⟨none, none⟩ (.up startedA) := by
  have hnew : Raft.newRaft .keeping (.least "A" abc) "A" .empty = some bootedA.raft := rfl
  have hboot : Step .keeping "A" P (.down ⟨none, none⟩) (.up bootedA) := .boot hnew
  exact .tail (.single hboot) (.take hP rfl)

/-- A is told to stand for election, and its vote for itself is persisted. -/
theorem own_vote_durable_startedA : ∃ n' : Frail (List Bytes),
    Run .keeping "A" (fun n s o ↦ n.assured s o = true) ⟨none, none⟩ (.up startedA) ∧
      startedA.take .keeping (.request .timeoutNow 0) (.fine, .fine) = some n' ∧
      .rpc "B" (.requestVote ⟨1, "A", 0, 0, false, true⟩) ∈ n'.raft.outbox ∧
      n'.store.disk = ⟨some 1, some "A"⟩ := by
  have hrun : Run .keeping "A" (fun n s o ↦ n.assured s o = true) ⟨none, none⟩ (.up startedA) :=
    run_startedA rfl
  have hmem : Effect.rpc "B" (.requestVote ⟨1, "A", 0, 0, false, true⟩) ∈
      (startedA.raft.handleTimeoutNow 0).outbox := by
    decide +kernel
  have htake : startedA.take .keeping (.request .timeoutNow 0) (.fine, .fine) =
      some (logged startedA.store (startedA.raft.handleTimeoutNow 0) .fine) := by
    refine congrArg some (if_pos ?_)
    decide +kernel
  exact ⟨_, hrun, htake, hmem, (own_vote_durable hrun rfl htake hmem rfl).1⟩

def lost : Calls := ⟨⟨false, true, false⟩, ⟨false, true, false⟩, ⟨true, false, false⟩⟩

/-- A asks for votes all the same, crashes, and gives its vote of that term to B. -/
theorem own_vote_lost_startedA : ∃ n' : Frail (List Bytes),
    startedA.take .keeping (.request .timeoutNow 0) (lost, .fine) = some n' ∧
      Run .keeping "A" (fun _ _ _ ↦ True) ⟨none, none⟩ (.up n'.rest) ∧
      .note (.voted "A" 1) ∈ n'.raft.outbox ∧
      .rpc "B" (.requestVote ⟨1, "A", 0, 0, false, true⟩) ∈ n'.raft.outbox ∧
      n'.store.disk = ⟨none, none⟩ ∧
      Run .keeping "A" (fun _ _ _ ↦ True) ⟨none, none⟩ (.down n'.store.disk) ∧
      Run .keeping "A" (fun _ _ _ ↦ True) n'.store.disk (.up startedA) ∧
      (startedA.handleRequestVote ⟨1, "B", 0, 0, false, false⟩ 0
        (.fine, .fine)).2.voteGranted = true := by
  have hrun : Run .keeping "A" (fun _ _ _ ↦ True) ⟨none, none⟩ (.up startedA) :=
    run_startedA trivial
  have htake : startedA.take .keeping (.request .timeoutNow 0) (lost, .fine) =
      some (logged startedA.store (startedA.raft.handleTimeoutNow 0) lost) := by
    refine congrArg some (if_pos ?_)
    decide +kernel
  have hup := Relation.ReflTransGen.tail hrun (.take trivial htake)
  refine ⟨_, htake, hup, ?_, ?_, rfl, .tail hup .crash, hrun, ?_⟩
  all_goals decide +kernel

end Frail

end RaftConsensus
