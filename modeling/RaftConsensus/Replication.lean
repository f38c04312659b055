import RaftConsensus.Node

namespace RaftConsensus

/-- Whether enough nodes hold index `idx`. In joint mode every member counts, learners
included; otherwise only voters do. -/
def Electorate.commitQuorum (e : Electorate) (localID : ServerID)
    (matchIndex : AList (fun _ : ServerID ↦ ℕ)) (idx : ℕ) : Bool :=
  let count (counts : ServerID → Bool) : ℕ :=
    (if counts localID then 1 else 0) +
      matchIndex.entries.countP (fun m ↦ idx ≤ m.2 && counts m.1)
  match e.jointConfig with
  | some j => j.oldConfig.quorumSize ≤ count j.oldConfig.contains &&
      j.newConfig.quorumSize ≤ count j.newConfig.contains
  | none => e.configuration.quorumSize ≤ count e.configuration.isVoter

/-- The node itself and the voters whose ack was processed after `cutoff`. -/
def acksAfter (heartbeatAcks : AList (fun _ : ServerID ↦ ℤ)) (cfg : Configuration) (cutoff : ℤ) :
    ℕ :=
  1 + heartbeatAcks.entries.countP (fun a ↦ cutoff < a.2 && cfg.isVoter a.1)

namespace Raft

variable {σ : Type}

def setReplicator (r : Raft σ) (id : ServerID) (pc : Replicator) : Raft σ :=
  { r with inflightReplication := r.inflightReplication.insert id pc }

def spawnReplication (r : Raft σ) (id : ServerID) : Raft σ :=
  if id ∈ r.inflightReplication then r else r.setReplicator id .loop

def sendHeartbeat (r : Raft σ) : Raft σ :=
  r.electorate.allServers.foldl
    (fun r s ↦ if s.id = r.localID then r else r.spawnReplication s.id) r

def addTracker (r : Raft σ) (id : ServerID) : Raft σ :=
  { r with
    nextIndex := r.nextIndex.insert id (r.lastIndex + 1)
    matchIndex := r.matchIndex.insert id 0
    inflightWindows := r.inflightWindows.insert id (.new r.config.maxInflight)
    followerStates := r.followerStates.insert id .probe }

def addMissingTrackers (r : Raft σ) (servers : List Server) : Raft σ :=
  servers.foldl
    (fun r s ↦ if s.id ≠ r.localID ∧ s.id ∉ r.nextIndex then r.addTracker s.id else r) r

def commitQuorum (r : Raft σ) (idx : ℕ) : Bool :=
  r.electorate.commitQuorum r.localID r.matchIndex idx

/-- The loop of `advanceCommitIndex` over the next `n` indices from `idx` on: the last
commit index it sets. -/
def commitLoop (r : Raft σ) : ℕ → ℕ → ℕ → ℕ
  | 0, _, commitIndex => commitIndex
  | n + 1, idx, commitIndex =>
    match r.log.get idx with
    | none => commitIndex
    | some e =>
      if e.term = r.term ∧ r.commitQuorum idx then r.commitLoop n (idx + 1) idx
      else r.commitLoop n (idx + 1) commitIndex

def advanceCommitIndex (r : Raft σ) : Raft σ :=
  { r with
    commitIndex := r.commitLoop (r.lastIndex - r.commitIndex) (r.commitIndex + 1) r.commitIndex
    commitNotify := true }.persistCommitIndex

def pendingFutureCap (r : Raft σ) : ℕ := max (r.config.maxInflight * 16) 1024

def proposalEntries (term : ℕ) : ℕ → List (ℕ × Bytes) → List LogEntry
  | _, [] => []
  | idx, p :: rest => ⟨term, idx, .normal p.2⟩ :: proposalEntries term (idx + 1) rest

def failAll (r : Raft σ) (err : RaftError) (batch : List (ℕ × Bytes)) : Raft σ :=
  batch.foldl (fun r p ↦ r.respond p.1 (some err) 0 0 []) r

def handleProposal (r : Raft σ) (batch : List (ℕ × Bytes)) : Raft σ :=
  if r.state ≠ .leader then r.failAll .notLeader batch
  else if r.transferring then r.failAll .leadershipLost batch
  else
    let room := r.pendingFutureCap - r.pendingFutures.keys.length
    let accepted := batch.take room
    let r := r.failAll .nodeBusy (batch.drop room)
    if accepted = [] then r
    else
      let entries := proposalEntries r.term (r.lastIndex + 1) accepted
      match r.persistLog entries with
      | none => (r.failAll .nonContiguous accepted).stopFatal
      | some r =>
        let r := { r with
          pendingFutures := (entries.zip accepted).foldl
            (fun fs (p : LogEntry × ℕ × Bytes) ↦ fs.insert p.1.index p.2.1) r.pendingFutures }
        if r.configuration.quorumSize = 1 then
          { r with commitIndex := r.lastIndex }.persistCommitIndex
        else r.sendHeartbeat

/-- The batch taken from index `idx` on: the first entry always, more while the sizes add
up to at most `maxSize`. -/
def collectEntries (r : Raft σ) (maxSize : ℕ) : ℕ → ℕ → Option ℕ → List LogEntry
  | 0, _, _ => []
  | n + 1, idx, total =>
    match r.log.get idx with
    | none => []
    | some e =>
      match total with
      | none => e :: r.collectEntries maxSize n (idx + 1) (some e.size)
      | some t =>
        if maxSize < t + e.size then []
        else e :: r.collectEntries maxSize n (idx + 1) (some (t + e.size))

def maxBatch : ℕ := 100

def windowFull (r : Raft σ) (id : ServerID) : Bool :=
  match r.inflightWindows.lookup id with
  | none => false
  | some w => w.full || ((r.followerStates.lookup id).getD .probe = .probe && 1 ≤ w.count)

def appendRequest (r : Raft σ) (nextIdx prevLogTerm : ℕ) : AppendEntriesRequest where
  term := r.term
  leaderID := r.localID
  prevLogIndex := nextIdx - 1
  prevLogTerm := prevLogTerm
  entries := r.collectEntries r.config.maxSizePerMsg (min maxBatch (r.lastIndex + 1 - nextIdx))
    nextIdx none
  leaderCommit := r.commitIndex

def addToWindow (r : Raft σ) (id : ServerID) (req : AppendEntriesRequest) : Raft σ :=
  match req.entries.getLast?, r.inflightWindows.lookup id with
  | some last, some w =>
    { r with inflightWindows := r.inflightWindows.insert id (w.add last.index) }
  | _, _ => r

def sendAppend (r : Raft σ) (id : ServerID) (req : AppendEntriesRequest) : Raft σ :=
  ((r.addToWindow id req).setReplicator id (.waiting req)).emit (.rpc id (.appendEntries req))

/-- `replicateOnce` up to the RPC, when the log store reports `firstIdx` as its first index. -/
def replicateOnceFrom (r : Raft σ) (firstIdx : ℕ) (id : ServerID) : Raft σ :=
  if r.state ≠ .leader then r.setReplicator id .exiting
  else if r.windowFull id then r.setReplicator id .exiting
  else
    let nextIdx := (r.nextIndex.lookup id).getD (r.lastIndex + 1)
    if 0 < firstIdx ∧ nextIdx < firstIdx then r.setReplicator id .needSnapshot
    else if nextIdx ≤ 1 then r.sendAppend id (r.appendRequest nextIdx 0)
    else
      match r.log.get (nextIdx - 1) with
      | some e => r.sendAppend id (r.appendRequest nextIdx e.term)
      | none =>
        if 0 < firstIdx ∧ nextIdx - 1 < firstIdx then r.setReplicator id .needSnapshot
        else r.sendAppend id (r.appendRequest nextIdx 0)

def replicateOnce (r : Raft σ) (id : ServerID) : Raft σ := r.replicateOnceFrom r.log.firstIndex id

def resetWindow (r : Raft σ) (id : ServerID) : Raft σ :=
  { r with
    inflightWindows := match r.inflightWindows.lookup id with
      | some w => r.inflightWindows.insert id w.reset
      | none => r.inflightWindows
    followerStates := r.followerStates.insert id .probe }

def replicateOnceError (r : Raft σ) (id : ServerID) (req : AppendEntriesRequest) : Raft σ :=
  (if req.entries = [] then r else r.resetWindow id).setReplicator id .exiting

def stepDownOnReply (r : Raft σ) (term : ℕ) : Raft σ :=
  { r.failPendingFutures with leaderID := "", heartbeatAcks := ∅ }.adoptTerm term

def ackedSince (r : Raft σ) (cutoff : ℤ) : ℕ := acksAfter r.heartbeatAcks r.configuration cutoff

def extendLease (r : Raft σ) (now : ℤ) : Raft σ :=
  let leaseDur := r.electionTimeout / 2 - r.config.maxClockDrift
  if r.configuration.quorumSize ≤ r.ackedSince (now - r.electionTimeout) ∧ 0 < leaseDur then
    { r with leaseExpiry := some (now + leaseDur) }
  else r

def raiseMatch (r : Raft σ) (id : ServerID) (idx : ℕ) : Raft σ :=
  let m := max idx ((r.matchIndex.lookup id).getD 0)
  { r with matchIndex := r.matchIndex.insert id m, nextIndex := r.nextIndex.insert id (m + 1) }

def recordMatch (r : Raft σ) (id : ServerID) (lastSentIdx : ℕ) : Raft σ :=
  let r := r.raiseMatch id lastSentIdx
  { r with
    inflightWindows := match r.inflightWindows.lookup id with
      | some w => r.inflightWindows.insert id (w.ack ((r.matchIndex.lookup id).getD 0))
      | none => r.inflightWindows
    followerStates := r.followerStates.insert id .replicate }

def lastIndexOfTerm (r : Raft σ) (term : ℕ) : ℕ → ℕ
  | 0 => 0
  | n + 1 =>
    match r.log.get (n + 1) with
    | none => 0
    | some e =>
      if e.term = term then n + 1 else if e.term < term then 0 else r.lastIndexOfTerm term n

/-- Where a rejected follower is probed next: past the conflicting term, or at the hint. -/
def nextProbe (r : Raft σ) (cur : ℕ) (resp : AppendEntriesResponse) : ℕ :=
  let last := r.lastIndexOfTerm resp.conflictTerm r.lastIndex
  let hinted := if 0 < resp.index then resp.index else cur
  let next :=
    if 0 < resp.conflictTerm then if 0 < last then last + 1 else hinted
    else if 0 < resp.index then resp.index
    else if 1 < cur then cur - 1 else cur
  max next 1

def backOff (r : Raft σ) (id : ServerID) (resp : AppendEntriesResponse) : Raft σ :=
  let cur := (r.nextIndex.lookup id).getD 0
  let next := r.nextProbe cur resp
  if next < cur then { r with nextIndex := r.nextIndex.insert id next }
  else if 1 < cur then { r with nextIndex := r.nextIndex.insert id (cur - 1) }
  else r

def noteAck (r : Raft σ) (id : ServerID) (now : ℤ) : Raft σ :=
  let r := { r with heartbeatAcks := r.heartbeatAcks.insert id now }
  if r.config.leaseReads then r.extendLease now else r

/-- A successful reply counts as a sign of life, and as a match when entries were sent. -/
def acknowledge (r : Raft σ) (id : ServerID) (req : AppendEntriesRequest) (now : ℤ) : Raft σ :=
  match req.entries.getLast? with
  | some last => (r.noteAck id now).recordMatch id last.index
  | none => r.noteAck id now

def replicateOnceReply (r : Raft σ) (id : ServerID) (req : AppendEntriesRequest)
    (resp : AppendEntriesResponse) (now : ℤ) : Raft σ :=
  if r.state ≠ .leader then r.setReplicator id .exiting
  else if r.term < resp.term then (r.stepDownOnReply resp.term).setReplicator id .exiting
  else if resp.term ≠ r.term then r.setReplicator id .exiting
  else if req.term ≠ r.term then r.setReplicator id .exiting
  else if resp.success then
    let r := (r.acknowledge id req now).advanceCommitIndex
    if (r.nextIndex.lookup id).getD 0 ≤ r.lastIndex then r.setReplicator id .loop
    else r.setReplicator id .exiting
  else ((r.resetWindow id).backOff id resp).setReplicator id .loop

def conflictStart (r : Raft σ) (term : ℕ) : ℕ → ℕ
  | 0 => 0
  | 1 => 1
  | n + 2 =>
    match r.log.get (n + 1) with
    | some e => if e.term = term then r.conflictStart term (n + 1) else n + 2
    | none => n + 2

/-- The consistency check on the entry before the new ones: `none` when it passes, otherwise
the index and the conflict term to answer with. -/
def prevLogConflict (r : Raft σ) (req : AppendEntriesRequest) : Option (ℕ × ℕ) :=
  if req.prevLogIndex = 0 then none
  else if r.log.lastIndex < req.prevLogIndex then some (r.log.lastIndex + 1, 0)
  else
    match r.log.get req.prevLogIndex with
    | none => some (req.prevLogIndex, 0)
    | some e =>
      if e.term = req.prevLogTerm then none
      else some (r.conflictStart e.term req.prevLogIndex, e.term)

/-- The loop over the entries of a request. `some i` is an early return with index `i`. -/
def storeEntries (r : Raft σ) : List LogEntry → Raft σ × Option ℕ
  | [] => (r, none)
  | e :: rest =>
    match r.log.get e.index with
    | none =>
      match r.persistLog (e :: rest) with
      | some r => (r, none)
      | none => (r, some 0)
    | some existing =>
      if existing.term = e.term then r.storeEntries rest
      else if e.index ≤ r.commitIndex then (r, some (r.commitIndex + 1))
      else
        match r.truncateLog (e.index - 1) with
        | (r, false) => (r, some 0)
        | (r, true) =>
          match r.persistLog (e :: rest) with
          | some r => (r, none)
          | none => (r, some 0)

def lastReqIndex (req : AppendEntriesRequest) : ℕ :=
  match req.entries.getLast? with
  | some e => e.index
  | none => req.prevLogIndex

def followCommit (r : Raft σ) (req : AppendEntriesRequest) : Raft σ :=
  if r.commitIndex < req.leaderCommit then
    { r with commitIndex := min req.leaderCommit (lastReqIndex req) }.persistCommitIndex
  else r

def catchUp (r : Raft σ) (term : ℕ) : Raft σ :=
  if r.term < term then { r.failPendingFutures with heartbeatAcks := ∅ }.adoptTerm term else r

def heardFromLeader (r : Raft σ) (req : AppendEntriesRequest) (rnd : ℕ) : Raft σ :=
  let r := r.catchUp req.term
  let r := if r.state = .candidate then { r with state := .follower } else r
  let r := { r with leaderID := req.leaderID, electionTicks := r.randomElectionTickCount rnd }
  if req.leaderID ≠ r.localID then r.finishTransfer none else r

/-- A refusal carries the term the node had before it looked at the request. -/
def handleAppendEntries (r : Raft σ) (req : AppendEntriesRequest) (rnd : ℕ) :
    Raft σ × AppendEntriesResponse :=
  let resp : AppendEntriesResponse := ⟨r.term, false, 0, 0⟩
  if req.term < r.term then (r, resp)
  else
    let r := r.heardFromLeader req rnd
    match r.prevLogConflict req with
    | some (index, conflictTerm) => (r, { resp with index := index, conflictTerm := conflictTerm })
    | none =>
      match r.storeEntries req.entries with
      | (r, some index) => (r, { resp with index := index })
      | (r, none) =>
        let r := r.followCommit req
        (r, ⟨r.term, true, r.lastIndex, 0⟩)

end Raft

end RaftConsensus
