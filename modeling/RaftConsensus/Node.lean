import RaftConsensus.Store

namespace RaftConsensus

inductive RaftState
  | follower | candidate | leader | learner | shutdown
deriving DecidableEq

inductive RaftError
  | notLeader | leadershipLost | notStarted | alreadyStarted | configuration | timeout
  | emptyCluster | configChangeInProgress | learnerNotReady | nodeBusy | canceled
  | nonContiguous | fsmError | fsmPanic
deriving DecidableEq

structure Config where
  localID : ServerID
  electionTick : ℕ
  heartbeatTick : ℕ
  maxSizePerMsg : ℕ
  maxInflight : ℕ
  snapshotInterval : ℤ
  snapshotThreshold : ℕ
  trailingLogs : ℕ
  fsyncInterval : ℤ
  preVote : Bool
  checkQuorum : Bool
  leaseReads : Bool
  maxClockDrift : ℤ
  initialConfiguration : Configuration
  startAsLearner : Bool
deriving DecidableEq

structure AppendEntriesRequest where
  term : ℕ
  leaderID : ServerID
  prevLogIndex : ℕ
  prevLogTerm : ℕ
  entries : List LogEntry
  leaderCommit : ℕ
deriving DecidableEq

structure AppendEntriesResponse where
  term : ℕ
  success : Bool
  index : ℕ
  conflictTerm : ℕ
deriving DecidableEq

structure RequestVoteRequest where
  term : ℕ
  candidateID : ServerID
  lastLogIndex : ℕ
  lastLogTerm : ℕ
  preVote : Bool
  leaderTransfer : Bool
deriving DecidableEq

structure RequestVoteResponse where
  term : ℕ
  voteGranted : Bool
  reason : String
deriving DecidableEq

structure InstallSnapshotRequest where
  term : ℕ
  leaderID : ServerID
  lastIncludedIndex : ℕ
  lastIncludedTerm : ℕ
  offset : ℕ
  data : Bytes
  done : Bool
deriving DecidableEq

structure InstallSnapshotResponse where
  term : ℕ
deriving DecidableEq

inductive Request
  | requestVote (req : RequestVoteRequest)
  | appendEntries (req : AppendEntriesRequest)
  | installSnapshot (req : InstallSnapshotRequest)
  | timeoutNow
deriving DecidableEq

inductive Response
  | requestVote (resp : RequestVoteResponse)
  | appendEntries (resp : AppendEntriesResponse)
  | installSnapshot (resp : InstallSnapshotResponse)
  | timeoutNow
deriving DecidableEq

inductive Event
  | voted (candidate : ServerID) (term : ℕ)
  | becameLeader (term : ℕ) (electorate : Electorate) (log : LogStore)
  | applied (entry : LogEntry)
  | responded (future : ℕ) (err : Option RaftError) (index term : ℕ) (result : Bytes)
  | transferred (id : ℕ) (err : Option RaftError)
  | readBegan (id term commitIndex : ℕ)
  | readReturned (id : ℕ) (result : Except RaftError ℕ)
deriving DecidableEq

/-- What a critical section hands to its surroundings: an RPC that a goroutine of the
node starts, or a recorded event. -/
inductive Effect
  | rpc (target : ServerID) (req : Request)
  | note (event : Event)
deriving DecidableEq

/-- The unacknowledged batches of one follower, oldest first. -/
structure InflightWindow where
  slots : List ℕ
  cap : ℕ
deriving DecidableEq

namespace InflightWindow

def new (cap : ℕ) : InflightWindow := ⟨[], if cap = 0 then 1 else cap⟩

def full (w : InflightWindow) : Bool := w.slots.length = w.cap

def count (w : InflightWindow) : ℕ := w.slots.length

def add (w : InflightWindow) (lastIdx : ℕ) : InflightWindow :=
  { w with slots := w.slots ++ [lastIdx] }

def ack (w : InflightWindow) (matchIdx : ℕ) : InflightWindow :=
  { w with slots := w.slots.dropWhile (· ≤ matchIdx) }

def reset (w : InflightWindow) : InflightWindow := { w with slots := [] }

end InflightWindow

inductive FollowerState
  | probe | replicate
deriving DecidableEq

structure LeadershipTransfer where
  id : ℕ
  target : ServerID
  sent : Bool
  deadline : Option ℤ
deriving DecidableEq

structure SnapshotReassembly where
  index : ℕ
  buf : Bytes
deriving DecidableEq

/-- The locals of `sendSnapshotTo` once the snapshot is open. -/
structure SnapshotSend where
  reqTerm : ℕ
  lastIncludedIndex : ℕ
  lastIncludedTerm : ℕ
  offset : ℕ
  rest : Bytes
deriving DecidableEq

inductive Replicator
  | loop
  | waiting (req : AppendEntriesRequest)
  | needSnapshot
  | snapStart
  | snapOpen (reqTerm : ℕ)
  | snapRead (send : SnapshotSend)
  | snapWaiting (send : SnapshotSend) (n : ℕ) (done : Bool)
  | snapDone (send : SnapshotSend)
  | exiting
deriving DecidableEq

/-- Where the `run` goroutine stands. The locals of the unlocked stretches of
`applyCommitted`, `flushCommitIndex`, `processSnapshot` and `processRestore` are kept here;
`drain` tells the last `applyCommitted` of a stopping node from the others. -/
inductive RunPC
  | off
  | select
  | flush (commitIndex : ℕ)
  | applyStart (drain : Bool)
  | applyLoop (drain : Bool) (commitIndex applyIndex : ℕ)
  | applyEntry (drain : Bool) (commitIndex : ℕ) (entry : LogEntry)
  | applyJoint (drain : Bool) (commitIndex : ℕ) (entry : LogEntry)
  | applyDone (drain : Bool) (commitIndex : ℕ) (entry : LogEntry) (result : ApplyResult)
  | fatalCheck
  | drainFutures
  | snapshotTerm (index : ℕ) (config : Configuration) (data : Bytes)
  | snapshotLastTerm (index : ℕ) (config : Configuration) (data : Bytes)
  | snapshotCreate (index term : ℕ) (config : Configuration) (data : Bytes)
  | snapshotCompact (index : ℕ)
  | snapshotDone (index : ℕ)
  | restored (future : ℕ)
deriving DecidableEq

inductive Read
  | captured (readIndex quorum : ℕ)
  | waiting (readIndex quorum : ℕ) (start : ℤ)
deriving DecidableEq

/-- The `raft` object of one process. The last four fields are not in the source: whether
`Start` has succeeded, the last clock reading, what the current critical section has handed
out so far, and the disk (with what was handed out by then) after each of its durable writes. -/
structure Raft (σ : Type) where
  localID : ServerID
  config : Config
  state : RaftState
  term : ℕ
  votedFor : ServerID
  log : LogStore
  stable : StableStore
  snapshot : SnapshotStore
  fsm : σ
  lastIndex : ℕ
  lastTerm : ℕ
  commitIndex : ℕ
  applyIndex : ℕ
  configuration : Configuration
  jointConfig : Option JointConfiguration
  pendingConfigIndex : ℕ
  leaderID : ServerID
  votes : VoteMap
  voteCount : ℕ
  inPreVote : Bool
  preVotes : VoteMap
  preVoteCount : ℕ
  leadershipTransfer : Option LeadershipTransfer
  nextIndex : AList (fun _ : ServerID ↦ ℕ)
  matchIndex : AList (fun _ : ServerID ↦ ℕ)
  inflightReplication : AList (fun _ : ServerID ↦ Replicator)
  inflightWindows : AList (fun _ : ServerID ↦ InflightWindow)
  followerStates : AList (fun _ : ServerID ↦ FollowerState)
  heartbeatAcks : AList (fun _ : ServerID ↦ ℤ)
  leaseExpiry : Option ℤ
  pendingFutures : AList (fun _ : ℕ ↦ ℕ)
  electionTicks : ℤ
  snapshotIndex : ℕ
  snapReasm : SnapshotReassembly
  fatalErr : Bool
  stopped : Bool
  commitNotify : Bool
  persistCommit : Bool
  heartbeatTrigger : Bool
  run : RunPC
  reads : AList (fun _ : ℕ ↦ Read)
  started : Bool
  clock : ℤ
  outbox : List Effect
  journal : List (Disk × List Effect)

namespace Raft

variable {σ : Type}

def disk (r : Raft σ) : Disk := ⟨r.log, r.stable, r.snapshot⟩

def electorate (r : Raft σ) : Electorate := ⟨r.configuration, r.jointConfig⟩

def emit (r : Raft σ) (e : Effect) : Raft σ := { r with outbox := r.outbox ++ [e] }

/-- A durable write has just returned: a crash may strike here. -/
def checkpoint (r : Raft σ) : Raft σ := { r with journal := r.journal ++ [(r.disk, r.outbox)] }

/-- Two `Set`s, the term first. -/
def persistTermAndVotedFor (r : Raft σ) : Raft σ :=
  let r := { r with stable := { r.stable with term := some r.term } }.checkpoint
  { r with stable := { r.stable with votedFor := some r.votedFor } }.checkpoint

def persistCommitIndex (r : Raft σ) : Raft σ := { r with persistCommit := true }

def contiguous : ℕ → List LogEntry → Bool
  | _, [] => true
  | expected, e :: rest => e.index = expected && contiguous (expected + 1) rest

theorem contiguous_cons {expected : ℕ} {e : LogEntry} {rest : List LogEntry} :
    contiguous expected (e :: rest) = true ↔
      e.index = expected ∧ contiguous (expected + 1) rest = true := by
  rw [contiguous, Bool.and_eq_true, decide_eq_true_eq]

def appendEntry (r : Raft σ) (e : LogEntry) : Raft σ :=
  { r with log := r.log.append e, lastIndex := e.index, lastTerm := e.term }.checkpoint

/-- `none` is the non-contiguous append error. A crash may keep any prefix of the batch. -/
def persistLog (r : Raft σ) (entries : List LogEntry) : Option (Raft σ) :=
  if contiguous (r.lastIndex + 1) entries then some (entries.foldl appendEntry r) else none

/-- The flag is false when the entry at `index` is missing afterwards. -/
def truncateLog (r : Raft σ) (index : ℕ) : Raft σ × Bool :=
  let r := { r with log := r.log.deleteRange (index + 1) (r.lastIndex + 1) }.checkpoint
  let r := { r with lastIndex := index }
  let cap (r : Raft σ) : Raft σ :=
    if r.lastIndex < r.commitIndex then { r with commitIndex := r.lastIndex }.persistCommitIndex
    else r
  if 0 < index then
    match r.log.get index with
    | none => (r, false)
    | some e => (cap { r with lastTerm := e.term }, true)
  else (cap { r with lastTerm := 0 }, true)

def respond (r : Raft σ) (future : ℕ) (err : Option RaftError) (index term : ℕ) (result : Bytes) :
    Raft σ := r.emit (.note (.responded future err index term result))

def failPendingFutures (r : Raft σ) : Raft σ :=
  r.pendingFutures.entries.foldl (fun r f ↦
    if r.commitIndex < f.1 then
      { r.respond f.2 (some .leadershipLost) 0 0 [] with
        pendingFutures := r.pendingFutures.erase f.1 }
    else r) r

/-- The transfer's future is resolved at most once: finishing also forgets the transfer. -/
def finishTransfer (r : Raft σ) (err : Option RaftError) : Raft σ :=
  match r.leadershipTransfer with
  | none => r
  | some lt => { r with leadershipTransfer := none }.emit (.note (.transferred lt.id err))

def transferring (r : Raft σ) : Bool := r.leadershipTransfer.isSome

def stopFatal (r : Raft σ) : Raft σ :=
  let r := { r with fatalErr := true }
  if r.state = .shutdown then r else { r with state := .shutdown, leaderID := "", stopped := true }

/-- Every step-down on a higher term: the new term is stored with an empty vote. -/
def adoptTerm (r : Raft σ) (term : ℕ) : Raft σ :=
  { r with
    term := term, state := .follower, votedFor := "", leaseExpiry := none }.persistTermAndVotedFor

def electionTimeout (r : Raft σ) : ℤ := r.config.electionTick * 50

/-- Between `ElectionTick` and `2 * ElectionTick`, by the random draw `rnd`. -/
def randomElectionTickCount (r : Raft σ) (rnd : ℕ) : ℤ :=
  r.config.electionTick + (rnd % (r.config.electionTick + 1) : ℕ)

end Raft

end RaftConsensus
