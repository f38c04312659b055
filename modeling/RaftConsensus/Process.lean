import RaftConsensus.Snapshot

namespace RaftConsensus

/-- The defaults that `newRaft` sets before it validates. -/
def Config.withDefaults (c : Config) : Config :=
  { c with
    electionTick := if c.electionTick = 0 then 10 else c.electionTick
    heartbeatTick := if c.heartbeatTick = 0 then 1 else c.heartbeatTick
    maxSizePerMsg := if c.maxSizePerMsg = 0 then 2 ^ 64 - 1 else c.maxSizePerMsg
    maxInflight := if c.maxInflight = 0 then 256 else c.maxInflight }

/-- `Validate`, with the defaults it sets itself; `none` is an error. -/
def Config.validate (c : Config) : Option Config :=
  if c.electionTick = 0 ∨ c.heartbeatTick = 0 ∨ c.electionTick < 3 * c.heartbeatTick ∨
      c.localID = "" ∨ c.snapshotInterval < 0 ∨ c.fsyncInterval < 0 then none
  else some { c with
    snapshotInterval := if c.snapshotInterval = 0 then 120000 else c.snapshotInterval
    snapshotThreshold := if c.snapshotThreshold = 0 then 8192 else c.snapshotThreshold
    trailingLogs := if c.trailingLogs = 0 then 10240 else c.trailingLogs
    maxSizePerMsg := if c.maxSizePerMsg = 0 then 2 ^ 20 else c.maxSizePerMsg
    maxInflight := if c.maxInflight = 0 then 256 else c.maxInflight
    maxClockDrift := if c.maxClockDrift = 0 then 150 else c.maxClockDrift }

namespace Raft

variable {σ : Type}

def new (config : Config) (localID : ServerID) (d : Disk) (fsm : σ) : Raft σ where
  localID := localID
  config := config
  state := .shutdown
  term := 0
  votedFor := ""
  log := d.log
  stable := d.stable
  snapshot := d.snapshot
  fsm := fsm
  lastIndex := 0
  lastTerm := 0
  commitIndex := 0
  applyIndex := 0
  configuration := ⟨[]⟩
  jointConfig := none
  pendingConfigIndex := 0
  leaderID := ""
  votes := ∅
  voteCount := 0
  inPreVote := false
  preVotes := ∅
  preVoteCount := 0
  leadershipTransfer := none
  nextIndex := ∅
  matchIndex := ∅
  inflightReplication := ∅
  inflightWindows := ∅
  followerStates := ∅
  heartbeatAcks := ∅
  leaseExpiry := none
  pendingFutures := ∅
  electionTicks := 0
  snapshotIndex := 0
  snapReasm := ⟨0, []⟩
  fatalErr := false
  stopped := false
  commitNotify := false
  persistCommit := false
  heartbeatTrigger := false
  run := .off
  reads := ∅
  started := false
  clock := 0
  outbox := []
  journal := []

def newRaft (F : FSM σ) (config : Config) (localID : ServerID) (d : Disk) : Option (Raft σ) :=
  config.withDefaults.validate.map (fun config ↦ new config localID d F.init)

def loadConfiguration (r : Raft σ) : Raft σ :=
  if r.config.initialConfiguration.servers = [] then r
  else { r with configuration := r.config.initialConfiguration }

def loadTerm (r : Raft σ) : Raft σ :=
  { r with term := r.stable.term.getD r.term, votedFor := r.stable.votedFor.getD r.votedFor }

def loadLastIndex (r : Raft σ) : Raft σ :=
  let lastIndex := r.log.lastIndex
  { r with
    lastIndex := lastIndex
    lastTerm := if 0 < lastIndex then ((r.log.get lastIndex).map LogEntry.term).getD r.lastTerm
      else r.lastTerm }

def loadCommitIndex (r : Raft σ) : Raft σ :=
  { r with commitIndex := r.stable.commitIndex.getD r.commitIndex }

/-- The indices are raised to the latest snapshot. Neither the state machine nor the
configuration is taken from it. -/
def loadSnapshotState (r : Raft σ) : Raft σ :=
  match r.snapshot.latest with
  | none => r
  | some s =>
    let r := if r.lastIndex < s.index then
      { r with lastIndex := s.index, lastTerm := s.term } else r
    { r with applyIndex := max r.applyIndex s.index, commitIndex := max r.commitIndex s.index }

def start (r : Raft σ) (rnd : ℕ) : Raft σ :=
  if r.state ≠ .shutdown then r
  else
    let r := r.loadConfiguration.loadTerm.loadLastIndex.loadCommitIndex.loadSnapshotState
    { r with
      commitIndex := min r.commitIndex r.lastIndex
      state := if r.config.startAsLearner then .learner else .follower
      leaderID := ""
      electionTicks := r.randomElectionTickCount rnd
      stopped := false
      fatalErr := false
      snapshotIndex := if 0 < r.config.snapshotInterval then r.lastIndex else r.snapshotIndex
      run := .select
      started := true }

def shutdown (r : Raft σ) : Raft σ :=
  if r.state = .shutdown then r else { r with state := .shutdown, stopped := true }

def readReturn (r : Raft σ) (id : ℕ) (result : Except RaftError ℕ) : Raft σ :=
  { r with reads := r.reads.erase id }.emit (.note (.readReturned id result))

def readBegin (r : Raft σ) (id : ℕ) : Raft σ :=
  let quorum := r.configuration.quorumSize
  let r := r.emit (.note (.readBegan id r.term r.commitIndex))
  if r.state ≠ .leader then r.readReturn id (.error .notLeader)
  else if quorum = 1 then r.readReturn id (.ok r.commitIndex)
  else { r with reads := r.reads.insert id (.captured r.commitIndex quorum) }

/-- The lease is looked at with one clock reading, and `start` is the next one. -/
def readStart (r : Raft σ) (id : ℕ) (readIndex quorum : ℕ) (now start : ℤ) : Raft σ :=
  if r.config.leaseReads && r.leaseExpiry.any (now < ·) then r.readReturn id (.ok readIndex)
  else { r with
    reads := r.reads.insert id (.waiting readIndex quorum start)
    heartbeatTrigger := true }

def readPoll (r : Raft σ) (id : ℕ) (readIndex quorum : ℕ) (start : ℤ) : Raft σ :=
  if r.state ≠ .leader then r.readReturn id (.error .notLeader)
  else if quorum ≤ r.ackedSince start then r.readReturn id (.ok readIndex)
  else r

/-- One critical section of the node, or one unlocked stretch of a goroutine between two of
them. Random draws, clock readings, the order in which a map is read and the number of bytes
a reader returns are inputs. -/
inductive Op
  | start (rnd : ℕ)
  | shutdown
  | tick (rnd : ℕ) (now : ℤ) (order : List ServerID)
  | propose (batch : List (ℕ × Bytes))
  | commitNotify
  | persistCommit
  | heartbeatTrigger
  | snapshot
  | restore (future : ℕ) (data : Bytes)
  | stop
  | runStep (rnd : ℕ)
  | replicate (target : ServerID)
  | snapshotChunk (target : ServerID) (n : ℕ) (done : Bool)
  | snapshotSent (target : ServerID) (now : ℤ)
  | addServer (target : ServerID) (addr : ServerAddress)
  | removeServer (target : ServerID)
  | replaceServer (oldID newID : ServerID) (newAddr : ServerAddress)
  | addLearner (target : ServerID) (addr : ServerAddress)
  | promoteLearner (target : ServerID)
  | requestLeadership (id : ℕ)
  | cancelTransfer (id : ℕ)
  | readIndex (id : ℕ)
  | readStart (id : ℕ) (now start : ℤ)
  | readPoll (id : ℕ)
  | readTimer (id : ℕ)
  | readAbort (id : ℕ)
deriving DecidableEq

def maxProposalBatch : ℕ := 256

def runStep (F : FSM σ) (r : Raft σ) (rnd : ℕ) : Option (Raft σ) :=
  match r.run with
  | .off | .select => none
  | .flush c =>
    some { r with
      stable := { r.stable with commitIndex := some c }, run := .applyStart false }.checkpoint
  | .applyStart drain => some (r.applyBegin drain)
  | .applyLoop drain c a => some (r.applyNext drain c a)
  | .applyEntry drain c e => some (r.applyRun F drain c e rnd)
  | .applyJoint drain c e => some { r.appendCommitJoint with run := .applyDone drain c e (.ok []) }
  | .applyDone drain c e result => some (r.applyFinish drain c e result)
  | .fatalCheck => some { r with run := if r.fatalErr then .applyStart true else .select }
  | .drainFutures => some r.drainFuturesOnShutdown
  | .snapshotTerm index config data => some (r.snapshotTerm index config data)
  | .snapshotLastTerm index config data =>
    some { r with run := .snapshotCreate index r.lastTerm config data }
  | .snapshotCreate index term config data => some (r.snapshotCreate index term config data)
  | .snapshotCompact index => some (r.snapshotCompact index)
  | .snapshotDone index => some (r.snapshotDone index)
  | .restored future => some (r.restoreEnd future)

def replicateStep (r : Raft σ) (id : ServerID) : Option (Raft σ) :=
  match r.inflightReplication.lookup id with
  | some .loop => some (r.replicateOnce id)
  | some .needSnapshot => some ((r.resetWindow id).setReplicator id .snapStart)
  | some .snapStart => some (r.sendSnapshotBegin id)
  | some (.snapOpen reqTerm) => some (r.sendSnapshotOpen id reqTerm)
  | some .exiting => some { r with inflightReplication := r.inflightReplication.erase id }
  | _ => none

def selected (r : Raft σ) (f : Raft σ → Raft σ) : Option (Raft σ) :=
  if r.run = .select then some { f r with run := .applyStart false } else none

def readClock (r : Raft σ) (now : ℤ) : Option (Raft σ) :=
  if r.clock ≤ now then some { r with clock := now } else none

def exec (F : FSM σ) (r : Raft σ) : Op → Option (Raft σ)
  | .start rnd => if r.started then none else some (r.start rnd)
  | .shutdown => if r.started then some r.shutdown else none
  | .tick rnd now order =>
    if order.Perm r.matchIndex.keys then
      (r.readClock now).bind (fun r ↦ r.selected (fun r ↦ r.tick rnd now order))
    else none
  | .propose batch =>
    if batch ≠ [] ∧ batch.length ≤ maxProposalBatch then r.selected (·.handleProposal batch)
    else none
  | .commitNotify =>
    if r.commitNotify then r.selected (fun r ↦ { r with commitNotify := false }) else none
  | .persistCommit =>
    if r.persistCommit ∧ r.run = .select then
      some { r with persistCommit := false, run := .flush r.commitIndex }
    else none
  | .heartbeatTrigger =>
    if r.heartbeatTrigger then
      r.selected (fun r ↦
        let r := { r with heartbeatTrigger := false }
        if r.state = .leader then r.sendHeartbeat else r)
    else none
  | .snapshot => if r.run = .select then some (r.snapshotBegin F) else none
  | .restore future data => if r.run = .select then some (r.restoreBegin F future data) else none
  | .stop => if r.run = .select ∧ r.stopped then some { r with run := .applyStart true } else none
  | .runStep rnd => r.runStep F rnd
  | .replicate target => r.replicateStep target
  | .snapshotChunk target n done =>
    match r.inflightReplication.lookup target with
    | some (.snapRead send) => r.sendSnapshotChunk target send n done
    | _ => none
  | .snapshotSent target now =>
    match r.inflightReplication.lookup target with
    | some (.snapDone send) => (r.readClock now).map (fun r ↦ r.sendSnapshotEnd target send now)
    | _ => none
  | .addServer target addr => some (r.addServer target addr).1
  | .removeServer target => some (r.removeServer target).1
  | .replaceServer oldID newID newAddr => some (r.replaceServer oldID newID newAddr).1
  | .addLearner target addr => some (r.addLearner target addr).1
  | .promoteLearner target => some (r.promoteLearner target).1
  | .requestLeadership id => some (r.requestLeadership id)
  | .cancelTransfer id => some (r.cancelTransfer id)
  | .readIndex id => some (r.readBegin id)
  | .readStart id now start =>
    match r.reads.lookup id with
    | some (.captured readIndex quorum) =>
      ((r.readClock now).bind (·.readClock start)).map
        (fun r ↦ r.readStart id readIndex quorum now start)
    | _ => none
  | .readPoll id =>
    match r.reads.lookup id with
    | some (.waiting readIndex quorum start) => some (r.readPoll id readIndex quorum start)
    | _ => none
  | .readTimer id =>
    match r.reads.lookup id with
    | some (.waiting _ _ _) => some { r with heartbeatTrigger := true }
    | _ => none
  | .readAbort id =>
    match r.reads.lookup id with
    | some (.waiting _ _ _) =>
      some (r.readReturn id (.error (if r.stopped then .notStarted else .canceled)))
    | _ => none

/-- The RPC handlers. None of them looks at whether the node has been started. -/
def handle (F : FSM σ) (r : Raft σ) (rnd : ℕ) : Request → Raft σ × Response
  | .requestVote req =>
    let (r, resp) := r.handleRequestVote req rnd
    (r, .requestVote resp)
  | .appendEntries req =>
    let (r, resp) := r.handleAppendEntries req rnd
    ({ r with commitNotify := true }, .appendEntries resp)
  | .installSnapshot req =>
    let (r, resp) := r.handleInstallSnapshot F req rnd
    (r, .installSnapshot resp)
  | .timeoutNow => (r.handleTimeoutNow rnd, .timeoutNow)

def receive (r : Raft σ) (id : ServerID) (now : ℤ) : Request → Response → Option (Raft σ)
  | .requestVote req, .requestVote resp =>
    some (if req.preVote then r.sendPreVoteReply id resp else r.sendVoteReply id resp)
  | .appendEntries req, .appendEntries resp =>
    if r.inflightReplication.lookup id = some (.waiting req) then
      (r.readClock now).map (fun r ↦ r.replicateOnceReply id req resp now)
    else none
  | .installSnapshot _, .installSnapshot resp =>
    match r.inflightReplication.lookup id with
    | some (.snapWaiting send n done) => some (r.sendSnapshotReply id send n done resp)
    | _ => none
  | .timeoutNow, .timeoutNow => some r
  | _, _ => none

def callFailed (r : Raft σ) (id : ServerID) : Request → Option (Raft σ)
  | .appendEntries req =>
    if r.inflightReplication.lookup id = some (.waiting req) then some (r.replicateOnceError id req)
    else none
  | .installSnapshot _ =>
    match r.inflightReplication.lookup id with
    | some (.snapWaiting _ _ _) => some (r.setReplicator id .loop)
    | _ => none
  | .requestVote _ | .timeoutNow => some r

end Raft

end RaftConsensus
