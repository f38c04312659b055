import RaftConsensus.Does.Process

namespace RaftConsensus

def Effect.transferred? : Effect → Option (ℕ × Option RaftError)
  | .note (.transferred id err) => some (id, err)
  | _ => none

def Effect.asksPreVote : Effect → Bool
  | .rpc _ (.requestVote req) => req.preVote
  | _ => false

def Effect.Aside (x : Effect) : Prop := x.transferred? = none ∧ x.asksPreVote = false

def RaftState.campaigns : RaftState → Bool
  | .candidate | .leader => true
  | _ => false

namespace Raft

variable {σ : Type} {P : Raft σ → Raft σ → Prop} {F : FSM σ} {r' : Raft σ}

def books (r : Raft σ) :=
  (r.localID, r.config, r.state, r.term, r.inPreVote, r.preVotes, r.leadershipTransfer,
    r.inflightWindows, r.inflightReplication, r.snapReasm, r.outbox)

def machine (r : Raft σ) := (r.fsm, r.applyIndex, r.run, r.fatalErr)

/-- A relation that follows the code that handles what others send: it holds of each thing that
this code does to the books. -/
structure Follows (P : Raft σ → Raft σ → Prop) : Prop where
  trans {a b c : Raft σ} : P a b → P b c → P a c
  same {a b : Raft σ} : b.books = a.books → b.machine = a.machine → P a b
  down {a b : Raft σ} : b.books = { a with state := b.state, term := b.term }.books →
    b.machine = a.machine → b.state.campaigns = false → P a b
  emit (a : Raft σ) {x : Effect} : x.Aside → P a (a.emit x)
  finishTransfer (a : Raft σ) (err : RaftError) :
    err ≠ .canceled → P a (a.finishTransfer (some err))
  addTracker (a : Raft σ) (id : ServerID) : P a (a.addTracker id)

/-- The relation also follows the `run` goroutine and the calls of the node's user. -/
structure Walks (P : Raft σ → Raft σ → Prop) : Prop extends Follows P where
  turn {a b : Raft σ} : b.books = a.books → P a b
  halt {a b : Raft σ} : b.books = { a with state := b.state, term := b.term }.books →
    b.state.campaigns = false → P a b
  retarget {a : Raft σ} {lt lt' : LeadershipTransfer} : a.leadershipTransfer = some lt →
    lt'.id = lt.id → P a { a with leadershipTransfer := some lt' }
  spawnReplication (a : Raft σ) (id : ServerID) : P a (a.spawnReplication id)

namespace Follows

theorem ite (_W : Follows P) {c : Prop} [Decidable c] {r a b : Raft σ} (ha : c → P r a)
    (hb : ¬ c → P r b) : P r (if c then a else b) := by
  split
  · exact ha ‹_›
  · exact hb ‹_›

variable (W : Follows P) (r : Raft σ)
include W

theorem refl : P r r := W.same rfl rfl

theorem foldl {α : Type} {f : Raft σ → α → Raft σ} (hf : ∀ r x, P r (f r x)) (l : List α) :
    P r (l.foldl f r) := by
  induction l generalizing r with
  | nil => exact W.refl r
  | cons x l ih => exact W.trans (hf r x) (ih (f r x))

theorem respond (future : ℕ) (err : Option RaftError) (index term : ℕ) (result : Bytes) :
    P r (r.respond future err index term result) := W.emit r ⟨rfl, rfl⟩

theorem failPendingFutures : P r r.failPendingFutures := by
  refine W.foldl r (fun r f ↦ W.ite (fun _ ↦ ?_) fun _ ↦ W.refl r) r.pendingFutures.entries
  exact W.trans (W.respond r f.2 (some .leadershipLost) 0 0 []) (W.same rfl rfl)

theorem adoptTerm (t : ℕ) : P r (r.adoptTerm t) := W.down rfl rfl rfl

theorem appendEntry (e : LogEntry) : P r (r.appendEntry e) := W.same rfl rfl

theorem persistLog {entries : List LogEntry} (h : r.persistLog entries = some r') : P r r' := by
  obtain ⟨-, rfl⟩ := r.persistLog_some h
  exact W.foldl r W.appendEntry entries

theorem truncateLog (index : ℕ) : P r (r.truncateLog index).1 := by
  unfold Raft.truncateLog
  dsimp only
  split
  · split
    · exact W.same rfl rfl
    · split <;> exact W.same rfl rfl
  · split <;> exact W.same rfl rfl

theorem catchUp (t : ℕ) : P r (r.catchUp t) := by
  refine W.ite (fun _ ↦ W.trans (W.failPendingFutures r) ?_) fun _ ↦ W.refl r
  exact W.down rfl rfl rfl

/-- Only here a transfer is answered without an error. -/
theorem heardFromLeader (req : AppendEntriesRequest) (rnd : ℕ)
    (hn : ∀ a : Raft σ, req.leaderID ≠ a.localID → a.localID = r.localID →
      P a (a.finishTransfer none)) : P r (r.heardFromLeader req rnd) := by
  have hid : (r.catchUp req.term).localID = r.localID := by
    unfold Raft.catchUp
    split
    · rw [failPendingFutures_eq]
      rfl
    · rfl
  unfold Raft.heardFromLeader
  dsimp only
  refine W.trans (W.catchUp r req.term) ?_
  generalize r.catchUp req.term = r₁ at hid
  have hstep : P r₁ (if r₁.state = .candidate then { r₁ with state := .follower } else r₁) :=
    W.ite (fun _ ↦ W.down rfl rfl rfl) fun _ ↦ W.refl r₁
  have hid' :
      (if r₁.state = .candidate then { r₁ with state := .follower } else r₁).localID =
      r.localID := by
    split <;> exact hid
  refine W.trans hstep ?_
  generalize
    (if r₁.state = .candidate then { r₁ with state := .follower } else r₁ : Raft σ) = r₂ at hid'
  have hheard : P r₂ { r₂ with
      leaderID := req.leaderID, electionTicks := r₂.randomElectionTickCount rnd } := W.same rfl rfl
  exact W.ite (fun hne ↦ W.trans hheard (hn _ hne hid')) fun _ ↦ hheard

theorem handleAppendEntries (req : AppendEntriesRequest) (rnd : ℕ)
    (hn : ∀ a : Raft σ, r.term ≤ req.term → req.leaderID ≠ a.localID → a.localID = r.localID →
      P a (a.finishTransfer none)) : P r (r.handleAppendEntries req rnd).1 := by
  by_cases hlt : req.term < r.term
  · rw [Raft.handleAppendEntries, if_pos hlt]
    exact W.refl r
  · refine W.trans (W.heardFromLeader r req rnd fun a ↦ hn a (not_lt.mp hlt)) ?_
    exact r.handleAppendEntries_rel W.refl W.trans W.appendEntry
      (fun r index _ ↦ W.truncateLog r index) rnd
      (fun r ↦ W.ite (fun _ ↦ W.same rfl rfl) fun _ ↦ W.refl r) hlt

theorem handleRequestVote (req : RequestVoteRequest) (rnd : ℕ) :
    P r (r.handleRequestVote req rnd).1 := by
  have hraise : P r (if r.term < req.term then r.failPendingFutures.adoptTerm req.term else r) :=
    W.ite (fun _ ↦ W.trans (W.failPendingFutures r) (W.adoptTerm _ _)) fun _ ↦ W.refl r
  unfold Raft.handleRequestVote
  dsimp only
  generalize (if r.term < req.term then r.failPendingFutures.adoptTerm req.term else r) = r₁
    at hraise
  split
  · exact W.refl r
  · split
    · exact W.refl r
    · split
      · exact W.refl r
      · split
        · exact hraise
        · split
          · exact hraise
          · have hvote : P r₁
                ({ r₁ with votedFor := req.candidateID } : Raft σ).persistTermAndVotedFor :=
              W.same rfl rfl
            exact W.trans (W.trans hraise hvote) (W.trans (W.emit _ ⟨rfl, rfl⟩) (W.same rfl rfl))

theorem reconcileLog (index term : ℕ) : P r (r.reconcileLog index term) := by
  unfold Raft.reconcileLog
  dsimp only
  split_ifs <;> exact W.same rfl rfl

theorem addMissingTrackers (servers : List Server) : P r (r.addMissingTrackers servers) :=
  W.foldl r (fun r s ↦ W.ite (fun _ ↦ W.addTracker r s.id) fun _ ↦ W.refl r) servers

theorem stepDownIfNotVoter (rnd : ℕ) : P r (r.stepDownIfNotVoter rnd) := by
  have hfail : P r (r.failPendingFutures.finishTransfer (some .leadershipLost)) :=
    W.trans (W.failPendingFutures r) (W.finishTransfer _ _ (by decide))
  refine W.ite (fun _ ↦ W.refl r) fun _ ↦ W.trans hfail ?_
  exact W.down rfl rfl rfl

theorem applyConfigurationEntry (data : ConfigurationData) (rnd : ℕ) :
    P r (r.applyConfigurationEntry data rnd).1 := by
  cases data with
  | joint newConfig =>
    have hj : P r { r with jointConfig := some ⟨r.configuration, newConfig⟩ } := W.same rfl rfl
    exact W.trans hj (W.ite (fun _ ↦ W.addMissingTrackers _ _) fun _ ↦ W.refl _)
  | commitJoint =>
    change P r (r.leaveJoint rnd)
    unfold leaveJoint
    split
    · exact W.refl r
    · dsimp only
      refine W.trans ?_ (W.stepDownIfNotVoter _ rnd)
      exact W.ite (fun _ ↦ W.same rfl rfl) fun _ ↦ W.same rfl rfl
  | single changeType rest =>
    have hj (c : ConfigurationChange) : P r (r.applySingle c rnd) := by
      have hc : P r { r with configuration := c.applyTo r.configuration } := W.same rfl rfl
      refine W.trans hc (W.trans ?_ (W.stepDownIfNotVoter _ rnd))
      exact W.ite (fun _ ↦ W.addMissingTrackers _ _) fun _ ↦ W.refl _
    exact hj _

theorem resolveFuture (e : LogEntry) (err : Option RaftError) (result : Bytes) :
    P r (r.resolveFuture e err result) := by
  unfold Raft.resolveFuture
  split
  · exact W.refl r
  · exact W.trans (W.respond r _ _ _ _ _) (W.same rfl rfl)

theorem noteAck (id : ServerID) (now : ℤ) : P r (r.noteAck id now) := by
  unfold Raft.noteAck extendLease
  dsimp only
  split_ifs <;> exact W.same rfl rfl

theorem backOff (id : ServerID) (resp : AppendEntriesResponse) : P r (r.backOff id resp) := by
  unfold Raft.backOff
  dsimp only
  split_ifs <;> exact W.same rfl rfl

theorem readClock {r : Raft σ} {now : ℤ} (hstep : r.readClock now = some r') : P r r' := by
  rw [(r.readClock_some hstep).2]
  exact W.same rfl rfl

theorem readReturn (id : ℕ) (result : Except RaftError ℕ) : P r (r.readReturn id result) := by
  refine W.trans ?_ (W.emit _ ⟨rfl, rfl⟩)
  exact W.same rfl rfl

end Follows

namespace Walks

variable (W : Walks P) (r : Raft σ)
include W

theorem stopFatal : P r r.stopFatal := by
  unfold Raft.stopFatal
  exact W.ite (fun _ ↦ W.turn rfl) fun _ ↦ W.halt rfl rfl

theorem sendHeartbeat : P r r.sendHeartbeat :=
  W.foldl r (fun r s ↦ W.ite (fun _ ↦ W.refl r) fun _ ↦ W.spawnReplication r s.id) _

theorem failAll (err : RaftError) (batch : List (ℕ × Bytes)) : P r (r.failAll err batch) :=
  W.foldl r (fun r (p : ℕ × Bytes) ↦ W.respond r p.1 (some err) 0 0 []) batch

theorem handleProposal (batch : List (ℕ × Bytes)) : P r (r.handleProposal batch) := by
  unfold Raft.handleProposal
  refine W.ite (fun _ ↦ W.failAll r _ _) fun _ ↦ W.ite (fun _ ↦ W.failAll r _ _) fun _ ↦ ?_
  refine W.trans (W.failAll r .nodeBusy
    (batch.drop (r.pendingFutureCap - r.pendingFutures.keys.length))) ?_
  dsimp only
  refine W.ite (fun _ ↦ W.refl _) fun _ ↦ ?_
  split
  · exact W.trans (W.failAll _ _ _) (W.stopFatal _)
  · rename_i r₁ h₁
    refine W.trans (W.persistLog _ h₁) (W.ite (fun _ ↦ W.turn rfl) fun _ ↦ ?_)
    refine W.trans ?_ (W.sendHeartbeat _)
    exact W.turn rfl

theorem changeConfiguration (data : ConfigurationData) : P r (r.changeConfiguration data).1 := by
  unfold Raft.changeConfiguration
  split
  · exact W.refl r
  · change P r (r.appendConfiguration data)
    unfold appendConfiguration
    split
    · exact W.refl r
    · rename_i r₁ h₁
      exact W.trans (W.persistLog r h₁) (W.turn rfl)

theorem checkQuorum (rnd : ℕ) (now : ℤ) : P r (r.checkQuorum rnd now) := by
  unfold Raft.checkQuorum
  refine W.ite (fun _ ↦ W.refl r) fun _ ↦ W.ite (fun _ ↦ W.refl r) fun _ ↦
    W.ite (fun _ ↦ W.refl r) fun _ ↦ ?_
  dsimp only
  refine W.trans ?_ (W.trans (W.failPendingFutures _) (W.finishTransfer _ _ (by decide)))
  exact W.down rfl rfl rfl

theorem doLeadershipTransfer (now : ℤ) (order : List ServerID) :
    P r (r.doLeadershipTransfer now order) := by
  unfold Raft.doLeadershipTransfer
  split
  · exact W.refl r
  · rename_i lt hlt
    refine W.ite (fun _ ↦ W.finishTransfer r _ (by decide)) fun _ ↦ ?_
    dsimp only
    generalize (if lt.target = "" then r.transferTarget order else lt.target) = target
    have hset (lt' : LeadershipTransfer) (hid : lt'.id = lt.id) :
        P r { r with leadershipTransfer := some lt' } := W.retarget hlt hid
    refine W.ite (fun _ ↦ W.trans (hset _ rfl) (W.finishTransfer _ _ (by decide))) fun _ ↦ ?_
    refine W.ite (fun _ ↦ hset _ rfl) fun _ ↦ W.ite (fun _ ↦ hset _ rfl) fun _ ↦ ?_
    refine W.trans (hset ⟨lt.id, target, true, some (now + r.electionTimeout)⟩ rfl) ?_
    exact W.emit _ ⟨rfl, rfl⟩

theorem tickLeader (rnd : ℕ) (now : ℤ) (order : List ServerID) :
    P r (r.tickLeader rnd now order) := by
  unfold Raft.tickLeader
  refine W.trans (W.checkQuorum r rnd now) (W.ite (fun _ ↦ W.refl _) fun _ ↦ ?_)
  exact W.trans (W.sendHeartbeat _) (W.doLeadershipTransfer _ _ _)

theorem installSnapshot (F : FSM σ) (req : InstallSnapshotRequest) (data : Bytes) :
    P r (r.installSnapshot F req data) := by
  have hrestore : P r (r.restoreSnapshotData F req data).1 := by
    unfold restoreSnapshotData
    dsimp only
    split <;> exact W.turn rfl
  unfold Raft.installSnapshot
  generalize r.restoreSnapshotData F req data = q at hrestore
  obtain ⟨r₁, ok⟩ := q
  cases ok with
  | false => exact hrestore
  | true =>
    have hrec := W.reconcileLog r₁ req.lastIncludedIndex req.lastIncludedTerm
    exact W.trans hrestore (W.trans hrec (W.turn rfl))

/-- The reassembly buffer is the one part of the books that a chunk of a snapshot writes. -/
theorem handleInstallSnapshot (hb : ∀ (a : Raft σ) buffer, P a { a with snapReasm := buffer })
    (F : FSM σ) (req : InstallSnapshotRequest) (rnd : ℕ) :
    P r (r.handleInstallSnapshot F req rnd).1 := by
  unfold Raft.handleInstallSnapshot
  dsimp only
  split
  · exact W.refl r
  · refine W.trans (W.catchUp r req.term) ?_
    have hheard (a : Raft σ) : P a { a with
        leaderID := req.leaderID, electionTicks := a.randomElectionTickCount rnd } := W.turn rfl
    generalize r.catchUp req.term = r₁
    split
    · exact W.trans (hheard r₁) (hb _ _)
    · split
      · exact W.trans (hheard r₁) (hb _ _)
      · split
        · exact W.trans (hheard r₁) (hb _ _)
        · split
          · exact W.trans (hheard r₁) (hb _ _)
          · exact W.trans (W.trans (hheard r₁) (hb _ _)) (W.installSnapshot _ F req _)

theorem applyRun (drain : Bool) (k : ℕ) (e : LogEntry) (rnd : ℕ) :
    P r (r.applyRun F drain k e rnd) := by
  unfold Raft.applyRun
  split
  · exact W.turn rfl
  · rename_i data _ _
    have hrun : P r { r with
        fsm := (F.apply r.fsm data).1, run := .applyDone drain k e (F.apply r.fsm data).2 } :=
      W.turn rfl
    exact W.trans hrun (W.emit _ ⟨rfl, rfl⟩)
  · rename_i data _
    have hconfig := W.applyConfigurationEntry r data rnd
    generalize r.applyConfigurationEntry data rnd = q at hconfig
    obtain ⟨r₁, more⟩ := q
    cases more <;> exact W.trans hconfig (W.turn rfl)

theorem applyFinish (drain : Bool) (commitIndex : ℕ) (e : LogEntry) (result : ApplyResult) :
    P r (r.applyFinish drain commitIndex e result) := by
  unfold Raft.applyFinish
  cases result with
  | panicked =>
    exact W.trans (W.resolveFuture r e (some .fsmPanic) []) (W.trans (W.stopFatal _) (W.turn rfl))
  | error =>
    refine W.trans ?_ (W.resolveFuture _ e (some .fsmError) [])
    exact W.turn rfl
  | ok out =>
    refine W.trans ?_ (W.resolveFuture _ e none out)
    exact W.turn rfl

theorem drainFuturesOnShutdown : P r r.drainFuturesOnShutdown := by
  unfold Raft.drainFuturesOnShutdown
  refine W.trans (W.foldl r (fun r f ↦ ?_) r.pendingFutures.entries) (W.turn rfl)
  exact W.ite (fun _ ↦ W.respond _ _ _ _ _ _) fun _ ↦ W.respond _ _ _ _ _ _

theorem runStep {rnd : ℕ} (hstep : r.runStep F rnd = some r') : P r r' := by
  unfold Raft.runStep at hstep
  split at hstep <;> cases hstep
  · exact W.turn rfl
  · exact W.ite (fun _ ↦ W.turn rfl) fun _ ↦ W.turn rfl
  · refine W.ite (fun _ ↦ ?_) fun _ ↦ W.turn rfl
    split <;> exact W.turn rfl
  · exact W.applyRun r _ _ _ _
  · unfold appendCommitJoint
    cases hp : r.persistLog [⟨r.term, r.lastIndex + 1, .configuration .commitJoint⟩] with
    | none => exact W.turn rfl
    | some r₁ => exact W.trans (W.persistLog r hp) (W.turn rfl)
  · exact W.applyFinish r _ _ _ _
  · exact W.turn rfl
  · exact W.drainFuturesOnShutdown r
  · unfold snapshotTerm
    split
    · exact W.turn rfl
    · split <;> exact W.turn rfl
  · exact W.turn rfl
  · exact W.turn rfl
  · exact W.turn rfl
  · exact W.turn rfl
  · refine W.trans ?_ (W.respond _ _ _ _ _ _)
    exact W.turn rfl

theorem start (rnd : ℕ) : P r (r.start rnd) := by
  refine W.ite (fun _ ↦ W.refl r) fun _ ↦ W.halt ?_ ?_
  · dsimp only [books, loadSnapshotState, loadCommitIndex, loadLastIndex, loadTerm,
      loadConfiguration]
    split <;> split <;> (try split) <;> rfl
  · dsimp only
    split <;> rfl

variable {r}

theorem selected {f : Raft σ → Raft σ} (hstep : r.selected f = some r') (h : P r (f r)) :
    P r r' := by
  unfold Raft.selected at hstep
  split at hstep
  · cases hstep
    exact W.trans h (W.turn rfl)
  · cases hstep

end Walks

/-- The calls that campaign, move a transfer or drive the replication to one server. -/
def Op.moves : Op → Bool
  | .tick .. | .requestLeadership _ | .cancelTransfer _ | .replicate _ | .snapshotChunk ..
  | .snapshotSent .. => true
  | _ => false

theorem Walks.exec (W : Walks P) {r : Raft σ} {o : Op} (ho : o.moves = false)
    (hstep : r.exec F o = some r') : P r r' := by
  cases o with
  | start rnd =>
    simp only [Raft.exec] at hstep
    split at hstep <;> cases hstep
    exact W.start r rnd
  | shutdown =>
    simp only [Raft.exec] at hstep
    split at hstep <;> cases hstep
    exact W.ite (fun _ ↦ W.refl r) fun _ ↦ W.halt rfl rfl
  | propose batch =>
    simp only [Raft.exec] at hstep
    split at hstep
    · exact W.selected hstep (W.handleProposal r batch)
    · cases hstep
  | commitNotify =>
    simp only [Raft.exec] at hstep
    split at hstep
    · exact W.selected hstep (W.turn rfl)
    · cases hstep
  | persistCommit =>
    simp only [Raft.exec] at hstep
    split at hstep <;> cases hstep
    exact W.turn rfl
  | heartbeatTrigger =>
    simp only [Raft.exec] at hstep
    split at hstep
    · have hq : P r { r with heartbeatTrigger := false } := W.turn rfl
      refine W.selected hstep (W.trans hq ?_)
      exact W.ite (fun _ ↦ W.sendHeartbeat _) fun _ ↦ W.refl _
    · cases hstep
  | snapshot =>
    simp only [Raft.exec] at hstep
    split at hstep <;> cases hstep
    unfold snapshotBegin
    split <;> exact W.turn rfl
  | restore future data =>
    simp only [Raft.exec] at hstep
    split at hstep <;> cases hstep
    unfold restoreBegin
    split
    · refine W.trans ?_ (W.respond _ _ _ _ _ _)
      exact W.turn rfl
    · exact W.turn rfl
  | stop =>
    simp only [Raft.exec] at hstep
    split at hstep <;> cases hstep
    exact W.turn rfl
  | runStep rnd => exact W.runStep r hstep
  | addServer target addr =>
    cases hstep
    unfold addServer
    split
    · exact W.refl r
    · exact W.changeConfiguration r _
  | removeServer target =>
    cases hstep
    unfold removeServer
    split
    · exact W.refl r
    · split
      · exact W.refl r
      · exact W.changeConfiguration r _
  | replaceServer oldID newID newAddr =>
    cases hstep
    unfold replaceServer
    split
    · exact W.refl r
    · exact W.changeConfiguration r _
  | addLearner target addr =>
    cases hstep
    unfold addLearner
    split
    · exact W.refl r
    · exact W.changeConfiguration r _
  | promoteLearner target =>
    cases hstep
    unfold promoteLearner
    generalize (if r.config.trailingLogs = 0 then 1000 else r.config.trailingLogs) = trailingLogs
    dsimp only
    split
    · exact W.refl r
    · split
      · exact W.refl r
      · split
        · exact W.refl r
        · exact W.changeConfiguration r _
  | readIndex id =>
    cases hstep
    have hbegin : P r (r.emit (.note (.readBegan id r.term r.commitIndex))) :=
      W.emit r ⟨rfl, rfl⟩
    refine W.trans hbegin (W.ite (fun _ ↦ W.readReturn _ _ _) fun _ ↦ ?_)
    exact W.ite (fun _ ↦ W.readReturn _ _ _) fun _ ↦ W.turn rfl
  | readStart id now start =>
    simp only [Raft.exec] at hstep
    split at hstep
    · obtain ⟨r₁, h₁, rfl⟩ := Option.map_eq_some_iff.mp hstep
      obtain ⟨r₂, h₂, h₁⟩ := Option.bind_eq_some_iff.mp h₁
      refine W.trans (W.trans (W.readClock h₂) (W.readClock h₁)) ?_
      exact W.ite (fun _ ↦ W.readReturn _ _ _) fun _ ↦ W.turn rfl
    · cases hstep
  | readPoll id =>
    simp only [Raft.exec] at hstep
    split at hstep
    · cases hstep
      refine W.ite (fun _ ↦ W.readReturn _ _ _) fun _ ↦ ?_
      exact W.ite (fun _ ↦ W.readReturn _ _ _) fun _ ↦ W.refl r
    · cases hstep
  | readTimer id =>
    simp only [Raft.exec] at hstep
    split at hstep
    · cases hstep
      exact W.turn rfl
    · cases hstep
  | readAbort id =>
    simp only [Raft.exec] at hstep
    split at hstep
    · cases hstep
      exact W.readReturn _ _ _
    · cases hstep
  | _ => cases ho

end Raft

end RaftConsensus
