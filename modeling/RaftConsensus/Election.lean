import RaftConsensus.Replication

namespace RaftConsensus

/-- Whether the candidate's log is at least as up to date as one with the given end. -/
def RequestVoteRequest.logOK (req : RequestVoteRequest) (lastIndex lastTerm : ℕ) : Bool :=
  lastTerm < req.lastLogTerm || (req.lastLogTerm = lastTerm && lastIndex ≤ req.lastLogIndex)

namespace Raft

variable {σ : Type}

def takeOver (r : Raft σ) : Raft σ :=
  { r with
    state := .leader
    leaderID := r.localID
    leadershipTransfer := none
    heartbeatAcks := ∅
    leaseExpiry := none
    nextIndex := ∅
    matchIndex := ∅
    inflightWindows := ∅
    followerStates := ∅ }.emit (.note (.becameLeader r.term r.electorate r.log))

def trackAll (r : Raft σ) : Raft σ :=
  r.electorate.allServers.foldl
    (fun r s ↦ if s.id = r.localID then r else r.addTracker s.id) r

def appendNoop (r : Raft σ) : Raft σ :=
  (r.persistLog [⟨r.term, r.lastIndex + 1, .normal []⟩]).getD r

def becomeLeader (r : Raft σ) : Raft σ :=
  let r := r.takeOver.trackAll.appendNoop.sendHeartbeat
  if r.configuration.quorumSize = 1 then r.advanceCommitIndex else r

def voteRequest (r : Raft σ) (term : ℕ) (preVote leaderTransfer : Bool) : RequestVoteRequest :=
  ⟨term, r.localID, r.lastIndex, r.lastTerm, preVote, leaderTransfer⟩

def askVoters (r : Raft σ) (req : RequestVoteRequest) : Raft σ :=
  r.configuration.servers.foldl
    (fun r s ↦ if s.id = r.localID ∨ s.learner then r else r.emit (.rpc s.id (.requestVote req))) r

def campaign (r : Raft σ) : Raft σ :=
  let r := { r with
    inPreVote := false
    state := .candidate
    term := r.term + 1
    votedFor := r.localID
    leaderID := ""
    votes := ∅
    voteCount := 1 }.persistTermAndVotedFor
  { r with votes := r.votes.insert r.localID true }.emit (.note (.voted r.localID r.term))

def runElection (r : Raft σ) (leaderTransfer : Bool) : Raft σ :=
  let r := r.campaign
  if r.configuration.quorumSize = 1 then r.becomeLeader
  else r.askVoters (r.voteRequest r.term false leaderTransfer)

def startPreVote (r : Raft σ) : Raft σ :=
  let r := { r with
    state := .candidate
    inPreVote := true
    preVotes := (∅ : VoteMap).insert r.localID true
    preVoteCount := 1 }
  if r.configuration.quorumSize = 1 then r.runElection false
  else r.askVoters (r.voteRequest (r.term + 1) true false)

def startElectionWith (r : Raft σ) (alreadyPreVoted leaderTransfer : Bool) : Raft σ :=
  if r.config.preVote && !alreadyPreVoted && !leaderTransfer then r.startPreVote
  else r.runElection leaderTransfer

def startElection (r : Raft σ) : Raft σ := r.startElectionWith false false

def grantedCount (votes : VoteMap) : ℕ := votes.entries.countP (fun e ↦ e.2)

def sendPreVoteReply (r : Raft σ) (id : ServerID) (resp : RequestVoteResponse) : Raft σ :=
  if !r.inPreVote || r.state ≠ .candidate then r
  else if r.term < resp.term then { r with inPreVote := false }.adoptTerm resp.term
  else if resp.voteGranted then
    let r := { r with preVotes := r.preVotes.insert id true }
    let r := { r with preVoteCount := grantedCount r.preVotes }
    if r.electorate.hasVoteQuorum r.preVotes then r.startElectionWith true false else r
  else r

def sendVoteReply (r : Raft σ) (id : ServerID) (resp : RequestVoteResponse) : Raft σ :=
  if r.state ≠ .candidate then r
  else if r.term < resp.term then r.adoptTerm resp.term
  else if resp.term ≠ r.term then r
  else if resp.voteGranted then
    let r := { r with votes := r.votes.insert id true }
    let r := { r with voteCount := grantedCount r.votes }
    if r.electorate.hasVoteQuorum r.votes then r.becomeLeader else r
  else r

def logOK (r : Raft σ) (req : RequestVoteRequest) : Bool := req.logOK r.lastIndex r.lastTerm

def heardLeaderRecently (r : Raft σ) : Bool := 0 < r.electionTicks && r.leaderID ≠ ""

def handlePreVote (r : Raft σ) (req : RequestVoteRequest) : RequestVoteResponse :=
  if req.term < r.term then ⟨r.term, false, "pre-vote: stale proposed term"⟩
  else if r.heardLeaderRecently then ⟨r.term, false, "pre-vote: heard from leader recently"⟩
  else if !r.logOK req then ⟨r.term, false, "pre-vote: candidate log not up-to-date"⟩
  else ⟨r.term, true, ""⟩

/-- A refusal carries the term the node had before it looked at the request. -/
def handleRequestVote (r : Raft σ) (req : RequestVoteRequest) (rnd : ℕ) :
    Raft σ × RequestVoteResponse :=
  let oldTerm := r.term
  if req.preVote then (r, r.handlePreVote req)
  else if req.term < r.term then (r, ⟨oldTerm, false, "stale term"⟩)
  else if r.config.checkQuorum && !req.leaderTransfer && r.heardLeaderRecently then
    (r, ⟨oldTerm, false, "recently heard from leader (disruptive-server protection)"⟩)
  else
    let r := if r.term < req.term then r.failPendingFutures.adoptTerm req.term else r
    if r.votedFor ≠ "" ∧ r.votedFor ≠ req.candidateID then (r, ⟨oldTerm, false, "already voted"⟩)
    else if !r.logOK req then (r, ⟨oldTerm, false, "candidate log is not up-to-date"⟩)
    else
      let r := { r with votedFor := req.candidateID }.persistTermAndVotedFor
      let r := r.emit (.note (.voted req.candidateID r.term))
      ({ r with electionTicks := r.randomElectionTickCount rnd }, ⟨r.term, true, ""⟩)

def handleTimeoutNow (r : Raft σ) (rnd : ℕ) : Raft σ :=
  { r with electionTicks := r.randomElectionTickCount rnd }.startElectionWith true true

def tickElection (r : Raft σ) (rnd : ℕ) : Raft σ :=
  let r := { r with electionTicks := r.electionTicks - 1 }
  if r.electionTicks ≤ 0 then
    { r with electionTicks := r.randomElectionTickCount rnd }.startElection
  else r

/-- The step-down keeps the term and the vote. -/
def checkQuorum (r : Raft σ) (rnd : ℕ) (now : ℤ) : Raft σ :=
  if !r.config.checkQuorum || r.state ≠ .leader then r
  else if r.configuration.quorumSize ≤ 1 then r
  else if r.configuration.quorumSize ≤ r.ackedSince (now - r.electionTimeout) then r
  else
    let r := { r with
      state := .follower
      leaderID := ""
      electionTicks := r.randomElectionTickCount rnd
      heartbeatAcks := ∅
      leaseExpiry := none }
    r.failPendingFutures.finishTransfer (some .notLeader)

/-- The voter of the highest match index, the first one in the order in which the map is read. -/
def transferTarget (r : Raft σ) (order : List ServerID) : ServerID :=
  (order.foldl (fun (best : ℕ × ServerID) id ↦
    let m := (r.matchIndex.lookup id).getD 0
    if r.configuration.isVoter id && best.1 < m then (m, id) else best) (0, "")).2

def doLeadershipTransfer (r : Raft σ) (now : ℤ) (order : List ServerID) : Raft σ :=
  match r.leadershipTransfer with
  | none => r
  | some lt =>
    if lt.sent && lt.deadline.any (· < now) then r.finishTransfer (some .timeout)
    else
      let target := if lt.target = "" then r.transferTarget order else lt.target
      let lt := { lt with target := target }
      let r := { r with leadershipTransfer := some lt }
      if target = "" then r.finishTransfer (some .emptyCluster)
      else if (r.matchIndex.lookup target).getD 0 < r.lastIndex then r
      else if lt.sent then r
      else
        { r with
          leadershipTransfer :=
            some { lt with sent := true, deadline := some (now + r.electionTimeout) } }.emit
              (.rpc target .timeoutNow)

def tickLeader (r : Raft σ) (rnd : ℕ) (now : ℤ) (order : List ServerID) : Raft σ :=
  let r := r.checkQuorum rnd now
  if r.state ≠ .leader then r else r.sendHeartbeat.doLeadershipTransfer now order

def tick (r : Raft σ) (rnd : ℕ) (now : ℤ) (order : List ServerID) : Raft σ :=
  match r.state with
  | .follower | .candidate => r.tickElection rnd
  | .leader => r.tickLeader rnd now order
  | .learner | .shutdown => r

def requestLeadership (r : Raft σ) (id : ℕ) : Raft σ :=
  if r.state ≠ .leader then r.emit (.note (.transferred id (some .notLeader)))
  else { r with leadershipTransfer := some ⟨id, "", false, none⟩ }

/-- The caller's context ended: only its own transfer is withdrawn. -/
def cancelTransfer (r : Raft σ) (id : ℕ) : Raft σ :=
  let r := if r.leadershipTransfer.any (·.id = id) then { r with leadershipTransfer := none } else r
  r.emit (.note (.transferred id (some .canceled)))

end Raft

end RaftConsensus
