import RaftConsensus.Does.Snapshot

namespace RaftConsensus

variable {σ : Type} {R : Rules} {L : Warrant} {inp : Input}

def Raft.Op.allowed (R : Rules) : Raft.Op → Bool
  | .addServer _ _ | .removeServer _ | .replaceServer _ _ _ | .addLearner _ _
  | .promoteLearner _ => R.membership
  | .snapshot | .snapshotChunk _ _ _ | .snapshotSent _ _ => R.snapshot
  | .restore _ _ => R.restore
  | _ => true

/-- What an answer says about the node that gave it; `said` are the events it has recorded. -/
def Core.Promises (c : Core) (said : Event → Prop) : Request → Response → Prop
  | .requestVote req, .requestVote resp => resp.voteGranted = true → req.preVote = false →
      resp.term = req.term ∧ said (.voted req.candidateID req.term)
  | .appendEntries req, .appendEntries resp => resp.success = true →
      resp.term = req.term ∧ c.term = req.term ∧ req.Agrees c.log (Raft.lastReqIndex req)
  | .installSnapshot _, .installSnapshot _ | .timeoutNow, .timeoutNow => True
  | _, _ => False

variable {c : Core}

theorem Core.Promises.mono {said said' : Event → Prop} {req : Request} {resp : Response}
    (h : c.Promises said req resp) (hs : ∀ e, said e → said' e) : c.Promises said' req resp := by
  cases req <;> cases resp
  case requestVote.requestVote req resp => exact fun hg hp ↦ ⟨(h hg hp).1, hs _ (h hg hp).2⟩
  all_goals exact h

def Request.Contiguous : Request → Prop
  | .appendEntries req => Raft.contiguous (req.prevLogIndex + 1) req.entries = true
  | _ => True

/-- What the licence asks of a node that takes the input `inp`; `may` says that it may
become a leader by this. -/
structure Licence.Covers (L : Licence) (may : Prop) (inp : Input) (c : Core) : Prop where
  crown : may → ∀ now, c.configuration.quorumSize = 1 → L.lead { c with clock := now }.campaigned
  lead : may → ∀ id, inp.IsGrant id c.term → c.state = .candidate →
    c.electorate.hasVoteQuorum (c.votes.insert id true) = true →
    L.lead { c with votes := c.votes.insert id true }
  follow : ∀ req, inp = .request (.appendEntries req) → ∀ c' : Core,
    c'.commitIndex = c.commitIndex → L.follow c' req
  ack : ∀ now id req resp stamp,
    inp = .reply id (.appendEntries req) (.appendEntries resp) stamp → resp.success = true →
    L.ack { c with clock := now } req stamp

def Raft.Op.changes : Raft.Op → Bool
  | .addServer _ _ | .removeServer _ | .replaceServer _ _ _ | .addLearner _ _
  | .promoteLearner _ => true
  | _ => false

namespace Warrant

structure Serves (L : Warrant) (may : Prop) (inp : Input) (c : Core) : Prop where
  turn : L.turn
  stand : may → ∀ now, ({ c with clock := now } : Core).Stands L
  obey : ∀ req, inp = .request req → ∀ t c', inp.Brings t → c.Heard t c' → L.obey c' req

structure Allows (L : Warrant) (F : FSM σ) (r : Raft σ) (op : Raft.Op) : Prop where
  change : op.changes = true → r.configChangePending = false → L.change r.core
  refuse : ∀ batch, op = .propose batch → ∀ p ∈ batch, L.refuse p.1
  issue : ∀ batch, op = .propose batch → ∀ i p, (r.accepted batch)[i]? = some p →
    L.issue p.1 ⟨r.term, r.lastIndex + 1 + i, .normal p.2⟩
  restore : ∀ future data, op = .restore future data → L.refuse future
  reads : ∀ rnd drain k a e, op = .runStep rnd → r.run = .applyLoop drain k a → a < k →
    r.log.get (a + 1) = some e → L.reads e
  returns : ∀ rnd drain k e data, op = .runStep rnd → r.run = .applyEntry drain k e →
    e.payload = .normal data → data ≠ [] → L.returns e (F.apply r.fsm data).2
  drain : ∀ rnd, op = .runStep rnd → r.run = .drainFutures → L.drain r.core

end Warrant

theorem Licence.open_serves (L : Licence) (may : Prop) (inp : Input) (c : Core) :
    L.open.Serves may inp c where
  turn := trivial
  stand _ _ := ⟨trivial, trivial⟩
  obey _ _ _ _ _ _ := trivial

theorem Licence.open_allows (L : Licence) (F : FSM σ) (r : Raft σ) (op : Raft.Op) :
    L.open.Allows F r op where
  change _ _ := trivial
  refuse _ _ _ _ := trivial
  issue _ _ _ _ _ := trivial
  restore _ _ _ := trivial
  reads _ _ _ _ _ _ _ _ _ := trivial
  returns _ _ _ _ _ _ _ _ _ := trivial
  drain _ _ _ := trivial

def still : Warrant :=
  { (⟨fun _ ↦ True, fun _ _ ↦ True, fun _ _ _ ↦ True⟩ : Licence).open with turn := False }

theorem Path.run_eq {c' : Core} {out : List Effect} (h : Path R still inp c out c') :
    c'.run = c.run := by
  induction h with
  | refl => rfl
  | tail _ hm ih =>
    cases hm with
    | goto pc hT => exact hT.elim
    | start state lastTerm hn hsd hs hT => exact hT.elim
    | exit e x drain k hi ht hp h hT => exact hT.elim
    | configure data drain k e h hp hT => exact hT.elim
    | _ => exact ih

theorem Does.run_eq {r r' : Raft σ} (h : Does R still inp r r') : r'.run = r.run := by
  obtain ⟨out, -, hp⟩ := h.path
  exact hp.run_eq

def Raft.Op.turns : Raft.Op → Bool
  | .start _ | .tick _ _ _ | .propose _ | .commitNotify | .persistCommit | .heartbeatTrigger
  | .snapshot | .restore _ _ | .stop | .runStep _ => true
  | _ => false

def Raft.Op.mayLead (r : Raft σ) : Raft.Op → Bool
  | .tick _ _ _ => (r.state = .follower ∨ r.state = .candidate) ∧ r.electionTicks ≤ 1
  | _ => false

def Request.mayLead (r : Raft σ) : Request → Bool
  | .requestVote _ => r.state = .candidate
  | _ => false

namespace Raft

variable (r : Raft σ)

theorem core_loadConfiguration : r.loadConfiguration.core = { r.core with configuration :=
    if r.config.initialConfiguration.servers = [] then r.configuration
    else r.config.initialConfiguration } := by
  unfold loadConfiguration
  split <;> rfl

theorem loadSnapshotState_spec : ∃ lastTerm, r.loadSnapshotState.core = { r.core with
      lastIndex := max r.lastIndex r.core.snapIndex
      lastTerm := lastTerm
      commitIndex := max r.commitIndex r.core.snapIndex
      applyIndex := max r.applyIndex r.core.snapIndex } ∧
    (r.snapshot.snapshots = [] → lastTerm = r.lastTerm) ∧
    r.loadSnapshotState.outbox = r.outbox ∧ r.loadSnapshotState.journal = r.journal := by
  cases hl : r.snapshot.latest with
  | none =>
    have h0 : r.core.snapIndex = 0 := by
      rw [Core.snapIndex, show r.core.snapshot = r.snapshot from rfl, hl]
      rfl
    refine ⟨r.lastTerm, ?_, fun _ ↦ rfl, ?_⟩
    · simp only [loadSnapshotState, hl, h0, Nat.max_zero]
      rfl
    · simp only [loadSnapshotState, hl, and_self]
  | some s =>
    have hi : r.core.snapIndex = s.index := by
      rw [Core.snapIndex, show r.core.snapshot = r.snapshot from rfl, hl]
      rfl
    refine ⟨if r.lastIndex < s.index then s.term else r.lastTerm, ?_, fun hn ↦ ?_, ?_⟩
    · simp only [loadSnapshotState, hl, hi]
      split
      · rename_i hlt
        rw [max_eq_right hlt.le]
        rfl
      · rename_i hge
        rw [max_eq_left (not_lt.mp hge)]
        rfl
    · simp [SnapshotStore.latest, hn] at hl
    · simp only [loadSnapshotState, hl]
      split <;> exact ⟨rfl, rfl⟩

theorem start_spec (rnd : ℕ) (h : r.state = .shutdown) :
    ∃ lastTerm, (r.start rnd).core =
        r.core.boot (if r.config.startAsLearner then .learner else .follower) lastTerm ∧
      (r.snapshot.snapshots = [] → lastTerm = r.core.endTerm) ∧
      (r.start rnd).outbox = r.outbox ∧ (r.start rnd).journal = r.journal := by
  have hcfg := r.core_loadConfiguration
  have ho : r.loadConfiguration.outbox = r.outbox ∧ r.loadConfiguration.journal = r.journal := by
    unfold loadConfiguration
    split <;> exact ⟨rfl, rfl⟩
  have hconf : r.loadConfiguration.config = r.config := by
    unfold loadConfiguration
    split <;> rfl
  simp only [start, h, ne_eq, not_true_eq_false, if_false]
  generalize r.loadConfiguration = r₁ at hcfg ho hconf
  obtain ⟨lastTerm, hc, hl, ho', hj'⟩ :=
    loadSnapshotState_spec r₁.loadTerm.loadLastIndex.loadCommitIndex
  have hconf' : r₁.loadTerm.loadLastIndex.loadCommitIndex.loadSnapshotState.config = r₁.config := by
    unfold loadSnapshotState
    split
    · rfl
    · dsimp only
      split <;> rfl
  generalize r₁.loadTerm.loadLastIndex.loadCommitIndex.loadSnapshotState = r₂ at hc ho' hj' hconf'
  rw [hconf] at hconf'
  refine ⟨lastTerm, ?_, fun hn ↦ ?_, ho'.trans ho.1, hj'.trans ho.2⟩
  · change ({ r₂.core with
      commitIndex := min r₂.core.commitIndex r₂.core.lastIndex
      state := if r₂.config.startAsLearner then .learner else .follower
      run := .select
      started := true } : Core) = _
    rw [hc, hconf']
    change ({ r₁.core with
      term := r₁.core.stable.term.getD r₁.core.term
      votedFor := r₁.core.stable.votedFor.getD r₁.core.votedFor
      lastIndex := max r₁.core.log.lastIndex r₁.core.snapIndex
      lastTerm := lastTerm
      commitIndex := min (max (r₁.core.stable.commitIndex.getD r₁.core.commitIndex)
        r₁.core.snapIndex) (max r₁.core.log.lastIndex r₁.core.snapIndex)
      applyIndex := max r₁.core.applyIndex r₁.core.snapIndex
      state := if r.config.startAsLearner then .learner else .follower
      run := .select
      started := true } : Core) = _
    rw [hcfg]
    rfl
  · have := hl (by rw [show r₁.loadTerm.loadLastIndex.loadCommitIndex.snapshot = r₁.core.snapshot
      from rfl, hcfg]; exact hn)
    rw [this]
    change r₁.core.endTerm = _
    rw [hcfg]
    rfl

theorem does_start (rnd : ℕ) (hn : r.started = false) (hT : L.turn) :
    Does R L inp r (r.start rnd) := by
  by_cases h : r.state = .shutdown
  · obtain ⟨lastTerm, hc, hl, ho, hj⟩ := r.start_spec rnd h
    refine .move ?_ ho hj
    rw [hc]
    refine .start _ lastTerm hn h ?_ hT hl
    split
    · exact .inr rfl
    · exact .inl rfl
  · rw [start, if_pos h]
    exact .refl r

theorem does_shutdown : Does R L inp r r.shutdown :=
  .ite (fun _ ↦ .refl r) fun _ ↦ .move (.setState .shutdown (by simp) nofun nofun) rfl rfl

theorem does_readBegin {id : ℕ} (hi : inp = .op id) : Does R L inp r (r.readBegin id) := by
  unfold readBegin
  have hd : Does R L inp r (r.emit (.note (.readBegan id r.term r.commitIndex))) :=
    .emit (.readBegin id)
  refine .ite (fun _ ↦ ?_) fun hs ↦ .ite (fun hq ↦ ?_) fun _ ↦ ?_
  · exact hd.trans (.one (.readFail id _) rfl rfl)
  · refine .one (.readLocal id hi (not_not.mp hs) hq) ?_ rfl
    exact List.append_assoc _ _ _
  · exact .one (.readCapture id hi (not_not.mp hs)) rfl rfl

variable {quorum readIndex : ℕ}

theorem does_readStart {id : ℕ} (now : ℤ)
    (h : r.reads.lookup id = some (.captured readIndex quorum)) :
    Does R L inp r (r.readStart id readIndex quorum now r.clock) := by
  refine .ite (fun hl ↦ ?_) fun _ ↦ ?_
  · simp only [Bool.and_eq_true] at hl
    exact .one (.readLease id readIndex quorum h hl.1) rfl rfl
  · exact .move (.readWait id readIndex quorum h) rfl rfl

theorem does_readPoll {id : ℕ} {start : ℤ}
    (h : r.reads.lookup id = some (.waiting readIndex quorum start)) :
    Does R L inp r (r.readPoll id readIndex quorum start) := by
  refine .ite (fun _ ↦ .one (.readFail id _) rfl rfl) fun hs ↦ .ite (fun hq ↦ ?_) fun _ ↦ .refl r
  exact .one (.readConfirm id readIndex quorum start h (not_not.mp hs) hq) rfl rfl

section Exec

variable {r' : Raft σ}

theorem does_runStep (F : FSM σ) (rnd : ℕ) (hT : L.turn) (hA : L.Allows F r (.runStep rnd))
    (h : r.runStep F rnd = some r') : Does R L inp r r' := by
  unfold runStep at h
  split at h <;> cases h
  · rename_i k hr
    have hd : Does R L inp r
        { r with stable := { r.stable with commitIndex := some k } }.checkpoint :=
      .write (.flush k hr) rfl rfl
    exact hd.trans (does_goto _ hT (.flushed hr))
  · exact r.does_applyBegin hT ‹_›
  · rename_i drain k a hr
    exact r.does_applyNext hT hr fun e ↦ hA.reads rnd drain k a e rfl hr
  · rename_i drain k e hr
    exact r.does_applyRun hT F rnd hr fun data ↦ hA.returns rnd drain k e data rfl hr
  · exact r.does_appendCommitJoint hT ‹_›
  · exact r.does_applyFinish hT ‹_›
  · rename_i hr
    split
    · exact r.does_goto hT (.stopped hr)
    · exact r.does_goto hT (.checked hr)
  · rename_i hr
    exact r.does_drainFutures hT hr (hA.drain rnd rfl hr)
  · exact r.does_snapshotTerm hT ‹_›
  · rename_i index config data hr
    exact r.does_gotoSnapshot (i := index) hT (by rw [hr]; rfl) rfl
  · exact r.does_snapshotCreate hT ‹_›
  · exact r.does_snapshotCompact hT ‹_›
  · exact r.does_snapshotDone hT ‹_›
  · exact r.does_restoreEnd hT ‹_›

theorem mem_inflight {id : ServerID} {pc : Replicator}
    (h : r.inflightReplication.lookup id = some pc) :
    id ∈ r.inflightReplication := AList.lookup_isSome.mp (by rw [h]; rfl)

theorem does_replicateStep {id : ServerID} (h : r.replicateStep id = some r') :
    Does R L inp r r' := by
  unfold replicateStep at h
  split at h
  · cases h
    exact r.does_replicateOnce (r.mem_inflight ‹_›)
  · cases h
    exact (r.quiet_resetWindow id).does.trans (does_setReplicator _ _ (.inl (r.mem_inflight ‹_›)))
  · cases h
    exact r.does_sendSnapshotBegin (r.mem_inflight ‹_›)
  · cases h
    exact r.does_sendSnapshotOpen (r.mem_inflight ‹_›) _
  · cases h
    refine .move (.replicators _ fun x hx ↦ .inl ?_) rfl rfl
    exact (AList.mem_erase.mp hx).2
  · cases h

theorem does_selected {f : Raft σ → Raft σ} (hT : L.turn) (hf : Does R L inp r (f r))
    (hrun : (f r).run = r.run) (h : r.selected f = some r') : Does R L inp r r' := by
  unfold selected at h
  split at h
  · rename_i hs
    cases h
    exact hf.trans (does_goto _ hT (.begin false (hrun.trans hs)))
  · cases h

variable {now : ℤ} {req : Request}

theorem readClock_some (h : r.readClock now = some r') :
    r.clock ≤ now ∧ r' = { r with clock := now } := by
  unfold readClock at h
  split at h <;> cases h
  exact ⟨‹_›, rfl⟩

theorem does_readClock (h : r.readClock now = some r') :
    Does R L inp r r' ∧ r' = { r with clock := now } := by
  obtain ⟨hle, rfl⟩ := r.readClock_some h
  exact ⟨.move (.readClock now hle) rfl rfl, rfl⟩

theorem does_exec (F : FSM σ) {op : Op} {k : ℕ} (hi : inp = .op k) (hk : op.namedAt k = true)
    (hop : op.allowed R = true) (hL : L.toLicence.Covers (op.mayLead r = true) inp r.core)
    (hT : op.turns = true → L.turn)
    (hS : op.mayLead r = true → ∀ now, ({ r.core with clock := now } : Core).Stands L)
    (hA : L.Allows F r op) (h : r.exec F op = some r') : Does R L inp r r' := by
  cases op with
  | start rnd =>
    simp only [exec] at h
    split at h <;> cases h
    exact r.does_start rnd (by simpa using ‹¬ r.started = true›) (hT rfl)
  | shutdown =>
    simp only [exec] at h
    split at h <;> cases h
    exact r.does_shutdown
  | tick rnd now order =>
    simp only [exec] at h
    split at h
    · obtain ⟨r₁, h₁, h₂⟩ := Option.bind_eq_some_iff.mp h
      obtain ⟨hd, rfl⟩ := r.does_readClock h₁
      refine hd.trans (does_selected _ (hT rfl) (does_tick _ rnd now order ?_ ?_) ?_ h₂)
      · exact fun hm ↦ hS (decide_eq_true hm) now
      · exact fun hm ↦ hL.crown (decide_eq_true hm) now
      · have hd : Does R still inp { r with clock := now }
            (({ r with clock := now } : Raft σ).tick rnd now order) :=
          does_tick _ rnd now order (fun _ ↦ ⟨trivial, trivial⟩) fun _ _ ↦ trivial
        exact hd.run_eq
    · cases h
  | propose batch =>
    simp only [exec] at h
    split at h
    · refine r.does_selected (hT rfl) (r.does_handleProposal batch (hA.refuse batch rfl)
        (hA.issue batch rfl)) ?_ h
      have hd : Does R still inp r (r.handleProposal batch) :=
        r.does_handleProposal batch (fun _ _ ↦ trivial) fun _ _ _ ↦ trivial
      exact hd.run_eq
    · cases h
  | commitNotify =>
    simp only [exec] at h
    split at h
    · exact r.does_selected (hT rfl) (.same rfl rfl rfl) rfl h
    · cases h
  | persistCommit =>
    simp only [exec] at h
    split at h <;> cases h
    rename_i hs
    exact (r.does_goto (hT rfl) (.flush hs.2)).trans (.same rfl rfl rfl)
  | heartbeatTrigger =>
    simp only [exec] at h
    split at h
    · have hd (L : Warrant) : Does R L inp r (if ({ r with heartbeatTrigger := false } :
          Raft σ).state = .leader then sendHeartbeat { r with heartbeatTrigger := false }
          else { r with heartbeatTrigger := false }) := by
        refine Does.trans (b := { r with heartbeatTrigger := false }) (.same rfl rfl rfl) ?_
        exact .ite (fun _ ↦ does_sendHeartbeat _) fun _ ↦ .refl _
      exact r.does_selected (hT rfl) (hd L) (hd still).run_eq h
    · cases h
  | snapshot =>
    simp only [exec] at h
    split at h <;> cases h
    exact r.does_snapshotBegin (hT rfl) F hop ‹_›
  | restore future data =>
    simp only [exec] at h
    split at h <;> cases h
    exact r.does_restoreBegin (hT rfl) F future data hop (hA.restore future data rfl) ‹_›
  | stop =>
    simp only [exec] at h
    split at h <;> cases h
    rename_i hs
    exact r.does_goto (hT rfl) (.begin true hs.1)
  | runStep rnd => exact r.does_runStep F rnd (hT rfl) hA h
  | replicate target => exact r.does_replicateStep h
  | snapshotChunk target n done =>
    simp only [exec] at h
    split at h
    · exact r.does_sendSnapshotChunk (r.mem_inflight ‹_›) hop h
    · cases h
  | snapshotSent target now =>
    simp only [exec] at h
    split at h
    · obtain ⟨r₁, h₁, rfl⟩ := Option.map_eq_some_iff.mp h
      obtain ⟨hd, rfl⟩ := r.does_readClock h₁
      refine hd.trans (does_sendSnapshotEnd _ ?_ _ hop)
      exact r.mem_inflight ‹_›
    · cases h
  | addServer target addr =>
    cases h
    exact r.does_addServer hop (hA.change rfl) target addr
  | removeServer target =>
    cases h
    exact r.does_removeServer hop (hA.change rfl) target
  | replaceServer oldID newID newAddr =>
    cases h
    exact r.does_replaceServer hop (hA.change rfl) oldID newID newAddr
  | addLearner target addr =>
    cases h
    exact r.does_addLearner hop (hA.change rfl) target addr
  | promoteLearner target =>
    cases h
    exact r.does_promoteLearner hop (hA.change rfl) target
  | requestLeadership id =>
    cases h
    exact (r.quiet_requestLeadership id).does
  | cancelTransfer id =>
    cases h
    exact (r.quiet_cancelTransfer id).does
  | readIndex id =>
    cases h
    exact r.does_readBegin (hi.trans (by rw [of_decide_eq_true hk]))
  | readStart id now start =>
    simp only [exec] at h
    split at h
    · obtain ⟨r₂, h₂, rfl⟩ := Option.map_eq_some_iff.mp h
      obtain ⟨r₁, h₁, h₂⟩ := Option.bind_eq_some_iff.mp h₂
      obtain ⟨hd, rfl⟩ := r.does_readClock (R := R) (L := L) h₁
      obtain ⟨hd', rfl⟩ := does_readClock (R := R) (L := L) _ h₂
      exact (hd.trans hd').trans (does_readStart _ now ‹_›)
    · cases h
  | readPoll id =>
    simp only [exec] at h
    split at h <;> cases h
    exact r.does_readPoll ‹_›
  | readTimer id =>
    simp only [exec] at h
    split at h <;> cases h
    exact .same rfl rfl rfl
  | readAbort id =>
    simp only [exec] at h
    split at h <;> cases h
    exact .one (.readFail id _) rfl rfl

theorem does_handle (F : FSM σ) (rnd : ℕ) (hi : inp = .request req)
    (hw : req.Contiguous) (hL : L.toLicence.Covers (req = .timeoutNow) inp r.core)
    (hS : req = .timeoutNow → ∀ now, ({ r.core with clock := now } : Core).Stands L)
    (hO : ∀ t c, inp.Brings t → r.core.Heard t c → L.obey c req) :
    Does R L inp r (r.handle F rnd req).1 ∧
      (r.handle F rnd req).1.core.Promises (fun e ↦ .note e ∈ (r.handle F rnd req).1.outbox) req
        (r.handle F rnd req).2 := by
  cases req with
  | requestVote req => exact r.does_handleRequestVote rnd hi
  | appendEntries req =>
    have hb : inp.Brings req.term := by
      rw [hi]
      rfl
    obtain ⟨hd, hp⟩ := r.does_handleAppendEntries (R := R) rnd hi hw (hL.follow req hi)
      fun c ↦ hO req.term c hb
    exact ⟨hd.trans (.same rfl rfl rfl), hp⟩
  | installSnapshot req =>
    have hb : inp.Brings req.term := by
      rw [hi]
      rfl
    exact ⟨r.does_handleInstallSnapshot hi F rnd fun c ↦ hO req.term c hb, trivial⟩
  | timeoutNow =>
    exact ⟨r.does_handleTimeoutNow rnd (hS rfl r.clock) (hL.crown rfl r.clock), trivial⟩

theorem does_receive {id : ServerID} {resp : Response} {stamp : ℕ}
    (hi : inp = .reply id req resp stamp)
    (hL : L.toLicence.Covers (req.mayLead r = true) inp r.core)
    (hS : req.mayLead r = true → ∀ now, ({ r.core with clock := now } : Core).Stands L)
    (h : r.receive id now req resp = some r') : Does R L inp r r' := by
  unfold receive at h
  split at h
  · cases h
    rename_i req resp
    refine .ite (fun _ ↦ ?_) fun hp ↦ ?_
    · exact r.does_sendPreVoteReply id hi (fun hs ↦ hS (decide_eq_true hs) r.clock)
        fun hs ↦ hL.crown (decide_eq_true hs) r.clock
    · exact r.does_sendVoteReply id hi (by simpa using hp) fun hg hs ↦
        hL.lead (decide_eq_true hs) id hg hs
  · split at h
    · obtain ⟨r₁, h₁, rfl⟩ := Option.map_eq_some_iff.mp h
      obtain ⟨hd, rfl⟩ := r.does_readClock (R := R) (L := L) h₁
      refine hd.trans (does_replicateOnceReply _ hi ?_ (hL.ack now id _ _ stamp hi))
      exact r.mem_inflight ‹_›
    · cases h
  · rename_i resp
    split at h <;> cases h
    have hb : inp.Brings resp.term := by
      rw [hi]
      rfl
    exact r.does_sendSnapshotReply (r.mem_inflight ‹_›) _ _ _ hb
  · cases h
    exact .refl r
  · cases h

theorem does_callFailed {id : ServerID} (h : r.callFailed id req = some r') :
    Does R L inp r r' := by
  unfold callFailed at h
  split at h
  · split at h <;> cases h
    exact r.does_replicateOnceError _ (r.mem_inflight ‹_›)
  · split at h <;> cases h
    exact r.does_setReplicator _ (.inl (r.mem_inflight ‹_›))
  · cases h
    exact .refl r
  · cases h
    exact .refl r

end Exec

end Raft

end RaftConsensus
