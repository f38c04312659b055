import RaftConsensus.Apply

namespace RaftConsensus

namespace Raft

variable {σ : Type}

def snapshotChunkSize : ℕ := 2 ^ 20

def maxReassembledSnapshotBytes : ℕ := 2 ^ 30

def snapshotBegin (F : FSM σ) (r : Raft σ) : Raft σ :=
  match F.snapshot r.fsm with
  | none => { r with run := .applyStart false }
  | some data => { r with run := .snapshotTerm r.applyIndex r.configuration data }

/-- The term of the entry at the snapshot's index, read from the log outside the lock. -/
def snapshotTerm (r : Raft σ) (index : ℕ) (config : Configuration) (data : Bytes) : Raft σ :=
  if index = 0 then { r with run := .snapshotCreate index 0 config data }
  else
    match r.log.get index with
    | some e => { r with run := .snapshotCreate index e.term config data }
    | none => { r with run := .snapshotLastTerm index config data }

def snapshotCreate (r : Raft σ) (index term : ℕ) (config : Configuration) (data : Bytes) : Raft σ :=
  { r with
    snapshot := r.snapshot.create ⟨index, term, config, data⟩
    run := .snapshotCompact index }.checkpoint

def snapshotCompact (r : Raft σ) (index : ℕ) : Raft σ :=
  { r with log := r.log.compact index, run := .snapshotDone index }.checkpoint

def snapshotDone (r : Raft σ) (index : ℕ) : Raft σ :=
  { r with snapshotIndex := max index r.snapshotIndex, run := .applyStart false }

def restoreBegin (F : FSM σ) (r : Raft σ) (future : ℕ) (data : Bytes) : Raft σ :=
  match F.restore data with
  | none => { r with run := .applyStart false }.respond future (some .fsmError) 0 0 []
  | some fsm => { r with fsm := fsm, run := .restored future }

def restoreEnd (r : Raft σ) (future : ℕ) : Raft σ :=
  { r with
    applyIndex := 0
    commitIndex := 0
    lastIndex := 0
    lastTerm := 0
    run := .applyStart false }.persistCommitIndex.respond future none 0 0 []

/-- Each stage of `sendSnapshotTo` that returns leads back to the replication loop. -/
def sendSnapshotBegin (r : Raft σ) (id : ServerID) : Raft σ :=
  if r.state ≠ .leader then r.setReplicator id .loop else r.setReplicator id (.snapOpen r.term)

def sendSnapshotOpen (r : Raft σ) (id : ServerID) (reqTerm : ℕ) : Raft σ :=
  match r.snapshot.latest with
  | none => r.setReplicator id .loop
  | some s => r.setReplicator id (.snapRead ⟨reqTerm, s.index, s.term, 0, s.data⟩)

/-- The reader hands out `n` bytes, with `done` when it reports the end together with them. -/
def sendSnapshotChunk (r : Raft σ) (id : ServerID) (send : SnapshotSend) (n : ℕ) (done : Bool) :
    Option (Raft σ) :=
  if n ≤ snapshotChunkSize ∧ n ≤ send.rest.length ∧ (done → n = send.rest.length) ∧
      (n = 0 → done) then
    let req : InstallSnapshotRequest := ⟨send.reqTerm, r.localID, send.lastIncludedIndex,
      send.lastIncludedTerm, send.offset, send.rest.take n, done⟩
    some ((r.setReplicator id (.snapWaiting send n done)).emit (.rpc id (.installSnapshot req)))
  else none

def sendSnapshotReply (r : Raft σ) (id : ServerID) (send : SnapshotSend) (n : ℕ) (done : Bool)
    (resp : InstallSnapshotResponse) : Raft σ :=
  if r.term < resp.term then (r.stepDownOnReply resp.term).setReplicator id .loop
  else if r.state ≠ .leader ∨ r.term ≠ send.reqTerm then r.setReplicator id .loop
  else
    let send := { send with offset := send.offset + n, rest := send.rest.drop n }
    r.setReplicator id (if done then .snapDone send else .snapRead send)

def sendSnapshotEnd (r : Raft σ) (id : ServerID) (send : SnapshotSend) (now : ℤ) : Raft σ :=
  (if r.state = .leader ∧ r.term = send.reqTerm then
    let r := r.raiseMatch id send.lastIncludedIndex
    { r with heartbeatAcks := r.heartbeatAcks.insert id now }.advanceCommitIndex
  else r).setReplicator id .loop

/-- The reassembly buffer after one chunk, `none` when the chunk does not continue it. -/
def reassemble (b : SnapshotReassembly) (req : InstallSnapshotRequest) :
    Option SnapshotReassembly :=
  if req.offset = 0 then some ⟨req.lastIncludedIndex, req.data⟩
  else if b.index = req.lastIncludedIndex ∧ req.offset = b.buf.length then
    some { b with buf := b.buf ++ req.data }
  else none

/-- The snapshot is stored under the active configuration before the state machine is
asked to restore it. The calls of the snapshot store are taken to succeed. -/
def restoreSnapshotData (F : FSM σ) (r : Raft σ) (req : InstallSnapshotRequest) (data : Bytes) :
    Raft σ × Bool :=
  let snap : Snapshot := ⟨req.lastIncludedIndex, req.lastIncludedTerm, r.configuration, data⟩
  let r := { r with snapshot := r.snapshot.create snap }.checkpoint
  match F.restore data with
  | none => (r, false)
  | some fsm => ({ r with fsm := fsm }, true)

/-- The log keeps what follows the snapshot when it agrees with it, and nothing otherwise. -/
def reconcileLog (r : Raft σ) (index term : ℕ) : Raft σ :=
  if (r.log.get index).any (·.term = term) then
    let first := if r.log.firstIndex = 0 then 1 else r.log.firstIndex
    let r := if first ≤ index then
        { r with log := r.log.deleteRange first index }.checkpoint else r
    if r.lastIndex < index then { r with lastIndex := index, lastTerm := term } else r
  else
    let r := if 0 < r.log.lastIndex ∧ r.log.firstIndex ≤ r.log.lastIndex then
        { r with log := r.log.deleteRange r.log.firstIndex r.log.lastIndex }.checkpoint else r
    { r with lastIndex := index, lastTerm := term }

def installSnapshot (F : FSM σ) (r : Raft σ) (req : InstallSnapshotRequest) (data : Bytes) :
    Raft σ :=
  match r.restoreSnapshotData F req data with
  | (r, false) => r
  | (r, true) =>
    { r.reconcileLog req.lastIncludedIndex req.lastIncludedTerm with
      commitIndex := req.lastIncludedIndex
      applyIndex := req.lastIncludedIndex }.persistCommitIndex

/-- Only a snapshot that is already covered is answered with the term read afterwards. -/
def handleInstallSnapshot (F : FSM σ) (r : Raft σ) (req : InstallSnapshotRequest) (rnd : ℕ) :
    Raft σ × InstallSnapshotResponse :=
  let resp : InstallSnapshotResponse := ⟨r.term⟩
  if req.term < r.term then (r, resp)
  else
    let r := r.catchUp req.term
    let r := { r with leaderID := req.leaderID, electionTicks := r.randomElectionTickCount rnd }
    let reset (r : Raft σ) : Raft σ := { r with snapReasm := ⟨0, []⟩ }
    match reassemble r.snapReasm req with
    | none => (reset r, resp)
    | some b =>
      if maxReassembledSnapshotBytes < b.buf.length then (reset r, resp)
      else if !req.done then ({ r with snapReasm := b }, resp)
      else if req.lastIncludedIndex ≤ r.commitIndex then (reset r, ⟨r.term⟩)
      else ((reset r).installSnapshot F req b.buf, resp)

end Raft

end RaftConsensus
