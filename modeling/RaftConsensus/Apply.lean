import RaftConsensus.Election

namespace RaftConsensus

def ConfigurationChange.applyTo (c : ConfigurationChange) (cfg : Configuration) : Configuration :=
  match c.changeType with
  | .addNode => cfg.addServer c.serverID c.serverAddr false
  | .removeNode => cfg.removeServer c.serverID
  | .addLearner => cfg.addServer c.serverID c.serverAddr true
  | .promoteLearner => cfg.promote c.serverID
  | .auto => cfg

def Electorate.apply (e : Electorate) : ConfigurationData → Electorate
  | .joint newConfig => { e with jointConfig := some ⟨e.configuration, newConfig⟩ }
  | .commitJoint =>
    match e.jointConfig with
    | none => e
    | some j => ⟨j.newConfig, none⟩
  | .single changeType rest =>
    { e with configuration := (decodeConfigurationChange changeType rest).applyTo e.configuration }

namespace Raft

variable {σ : Type}

def configChangePending (r : Raft σ) : Bool :=
  r.jointConfig.isSome || r.commitIndex < r.pendingConfigIndex

/-- Every membership call ends like this: the entry is appended and noted as pending. -/
def appendConfiguration (r : Raft σ) (data : ConfigurationData) : Raft σ :=
  match r.persistLog [⟨r.term, r.lastIndex + 1, .configuration data⟩] with
  | none => r
  | some r => { r with pendingConfigIndex := r.lastIndex }

def changeConfiguration (r : Raft σ) (data : ConfigurationData) : Raft σ × Option RaftError :=
  if r.configChangePending then (r, some .configChangeInProgress)
  else (r.appendConfiguration data, none)

def addServer (r : Raft σ) (target : ServerID) (addr : ServerAddress) :
    Raft σ × Option RaftError :=
  if r.state ≠ .leader then (r, some .notLeader)
  else r.changeConfiguration (.joint (r.configuration.addServer target addr false))

def removeServer (r : Raft σ) (target : ServerID) : Raft σ × Option RaftError :=
  if r.state ≠ .leader then (r, some .notLeader)
  else if !r.configuration.contains target then (r, some .configuration)
  else r.changeConfiguration (.joint (r.configuration.removeServer target))

def replaceServer (r : Raft σ) (oldID newID : ServerID) (newAddr : ServerAddress) :
    Raft σ × Option RaftError :=
  if r.state ≠ .leader then (r, some .notLeader)
  else r.changeConfiguration
    (.joint ((r.configuration.removeServer oldID).addServer newID newAddr false))

def addLearner (r : Raft σ) (target : ServerID) (addr : ServerAddress) :
    Raft σ × Option RaftError :=
  if r.state ≠ .leader then (r, some .notLeader)
  else r.changeConfiguration (encodeConfigurationChange ⟨.addLearner, target, addr⟩)

def promoteLearner (r : Raft σ) (target : ServerID) : Raft σ × Option RaftError :=
  let trailingLogs := if r.config.trailingLogs = 0 then 1000 else r.config.trailingLogs
  if r.state ≠ .leader then (r, some .notLeader)
  else
    match r.matchIndex.lookup target with
    | none => (r, some .learnerNotReady)
    | some m =>
      if trailingLogs < r.lastIndex ∧ m < r.lastIndex - trailingLogs then (r, some .learnerNotReady)
      else r.changeConfiguration (encodeConfigurationChange ⟨.promoteLearner, target, ""⟩)

def stepDownIfNotVoter (r : Raft σ) (rnd : ℕ) : Raft σ :=
  if r.state ≠ .leader ∨ r.configuration.isVoter r.localID then r
  else
    let r := r.failPendingFutures.finishTransfer (some .leadershipLost)
    { r with
      state := .follower
      leaderID := ""
      votedFor := ""
      heartbeatAcks := ∅
      leaseExpiry := none
      electionTicks := r.randomElectionTickCount rnd }

def enterJoint (r : Raft σ) (newConfig : Configuration) : Raft σ :=
  let j : JointConfiguration := ⟨r.configuration, newConfig⟩
  let r := { r with jointConfig := some j }
  if r.state = .leader then r.addMissingTrackers j.allServers else r

/-- The second one, when the first was run by a leader. The node may have lost its
leadership in between. -/
def appendCommitJoint (r : Raft σ) : Raft σ :=
  (r.persistLog [⟨r.term, r.lastIndex + 1, .configuration .commitJoint⟩]).getD r

def leaveJoint (r : Raft σ) (rnd : ℕ) : Raft σ :=
  match r.jointConfig with
  | none => r
  | some j =>
    let r := { r with configuration := j.newConfig, jointConfig := none }
    let gone := r.nextIndex.keys.filter (fun id ↦ !r.configuration.contains id)
    let r := if r.state = .leader then
        { r with
          nextIndex := gone.foldl (fun m id ↦ m.erase id) r.nextIndex
          matchIndex := gone.foldl (fun m id ↦ m.erase id) r.matchIndex }
      else r
    r.stepDownIfNotVoter rnd

def applySingle (r : Raft σ) (change : ConfigurationChange) (rnd : ℕ) : Raft σ :=
  let r := { r with configuration := change.applyTo r.configuration }
  let r := if r.state = .leader then r.addMissingTrackers r.configuration.servers else r
  r.stepDownIfNotVoter rnd

/-- `applyConfigurationEntry` up to the end of its first critical section; the flag says
that a second one follows. -/
def applyConfigurationEntry (r : Raft σ) (data : ConfigurationData) (rnd : ℕ) : Raft σ × Bool :=
  match data with
  | .joint newConfig => (r.enterJoint newConfig, r.state = .leader)
  | .commitJoint => (r.leaveJoint rnd, false)
  | .single changeType rest =>
    (r.applySingle (decodeConfigurationChange changeType rest) rnd, false)

def applyBegin (r : Raft σ) (drain : Bool) : Raft σ :=
  if r.fatalErr then { r with run := if drain then .drainFutures else .fatalCheck }
  else { r with run := .applyLoop drain r.commitIndex r.applyIndex }

def applyNext (r : Raft σ) (drain : Bool) (commitIndex applyIndex : ℕ) : Raft σ :=
  let done := if drain then RunPC.drainFutures else .fatalCheck
  if applyIndex < commitIndex then
    match r.log.get (applyIndex + 1) with
    | none => { r with run := done }
    | some e => { r with run := .applyEntry drain commitIndex e }
  else { r with run := done }

def applyRun (F : FSM σ) (r : Raft σ) (drain : Bool) (commitIndex : ℕ) (e : LogEntry) (rnd : ℕ) :
    Raft σ :=
  match e.payload with
  | .normal [] => { r with run := .applyDone drain commitIndex e (.ok []) }
  | .normal data =>
    let (fsm, result) := F.apply r.fsm data
    { r with fsm := fsm, run := .applyDone drain commitIndex e result }.emit (.note (.applied e))
  | .configuration data =>
    match r.applyConfigurationEntry data rnd with
    | (r, true) => { r with run := .applyJoint drain commitIndex e }
    | (r, false) => { r with run := .applyDone drain commitIndex e (.ok []) }

def resolveFuture (r : Raft σ) (e : LogEntry) (err : Option RaftError) (result : Bytes) : Raft σ :=
  match r.pendingFutures.lookup e.index with
  | none => r
  | some f =>
    { r.respond f err e.index e.term result with
      pendingFutures := r.pendingFutures.erase e.index }

def applyFinish (r : Raft σ) (drain : Bool) (commitIndex : ℕ) (e : LogEntry)
    (result : ApplyResult) : Raft σ :=
  let advance (r : Raft σ) (err : Option RaftError) (out : Bytes) : Raft σ :=
    { r with applyIndex := e.index, run := .applyLoop drain commitIndex e.index }.resolveFuture
      e err out
  match result with
  | .panicked =>
    { (r.resolveFuture e (some .fsmPanic) []).stopFatal with
      run := if drain then .drainFutures else .fatalCheck }
  | .error => advance r (some .fsmError) []
  | .ok out => advance r none out

/-- The lock section of `drainFuturesOnShutdown`, after which the goroutine ends. -/
def drainFuturesOnShutdown (r : Raft σ) : Raft σ :=
  let r := r.pendingFutures.entries.foldl (fun r f ↦
    if f.1 ≤ r.commitIndex then
      r.respond f.2 none f.1 (((r.log.get f.1).map LogEntry.term).getD 0) []
    else r.respond f.2 (some .notStarted) 0 0 []) r
  { r with pendingFutures := ∅, run := .off }

end Raft

end RaftConsensus
