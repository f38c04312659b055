import RaftConsensus.Cluster

namespace RaftConsensus

structure Core where
  localID : ServerID
  initial : Configuration
  state : RaftState
  term : ℕ
  votedFor : ServerID
  votes : VoteMap
  log : LogStore
  stable : StableStore
  snapshot : SnapshotStore
  lastIndex : ℕ
  lastTerm : ℕ
  commitIndex : ℕ
  applyIndex : ℕ
  configuration : Configuration
  jointConfig : Option JointConfiguration
  pendingConfigIndex : ℕ
  matchIndex : AList (fun _ : ServerID ↦ ℕ)
  inflightReplication : AList (fun _ : ServerID ↦ Replicator)
  heartbeatAcks : AList (fun _ : ServerID ↦ ℤ)
  pendingFutures : AList (fun _ : ℕ ↦ ℕ)
  run : RunPC
  reads : AList (fun _ : ℕ ↦ Read)
  leaseReads : Bool
  started : Bool
  clock : ℤ

def Raft.core {σ : Type} (r : Raft σ) : Core where
  localID := r.localID
  initial := r.config.initialConfiguration
  state := r.state
  term := r.term
  votedFor := r.votedFor
  votes := r.votes
  log := r.log
  stable := r.stable
  snapshot := r.snapshot
  lastIndex := r.lastIndex
  lastTerm := r.lastTerm
  commitIndex := r.commitIndex
  applyIndex := r.applyIndex
  configuration := r.configuration
  jointConfig := r.jointConfig
  pendingConfigIndex := r.pendingConfigIndex
  matchIndex := r.matchIndex
  inflightReplication := r.inflightReplication
  heartbeatAcks := r.heartbeatAcks
  pendingFutures := r.pendingFutures
  run := r.run
  reads := r.reads
  leaseReads := r.config.leaseReads
  started := r.started
  clock := r.clock

/-- Kinds of steps that a run may or may not contain: an RPC handled before `Start`, a
membership call, a snapshot, a `Restore`. -/
structure Rules where
  early : Bool
  membership : Bool
  snapshot : Bool
  restore : Bool

/-- What makes a node run a critical section: an operation, when `k` events have been
recorded, a request, or the answer `id` gave to a request when `stamp` events had been. -/
inductive Input
  | op (k : ℕ)
  | request (req : Request)
  | reply (id : ServerID) (req : Request) (resp : Response) (stamp : ℕ)

def Event.silent : Event → Bool
  | .transferred _ _ => true
  | _ => false

def Request.silent : Request → Bool
  | .timeoutNow => true
  | .requestVote req => req.preVote
  | _ => false

/-- The copy of the commit index that the `run` goroutine works with. -/
def RunPC.commit? : RunPC → Option ℕ
  | .flush k | .applyLoop _ k _ | .applyEntry _ k _ | .applyJoint _ k _ | .applyDone _ k _ _ =>
    some k
  | _ => none

def RunPC.entry? : RunPC → Option LogEntry
  | .applyEntry _ _ e | .applyJoint _ _ e | .applyDone _ _ e _ => some e
  | _ => none

def RunPC.snapshot? : RunPC → Option ℕ
  | .snapshotTerm k _ _ | .snapshotLastTerm k _ _ | .snapshotCreate k _ _ _ | .snapshotCompact k
  | .snapshotDone k => some k
  | _ => none

def RunPC.snapshotting (pc : RunPC) : Bool := pc.snapshot?.isSome

def RunPC.applying : RunPC → Bool
  | .applyLoop _ _ _ | .applyEntry _ _ _ | .applyJoint _ _ _ | .applyDone _ _ _ _ => true
  | _ => false

def RunPC.endOf (drain : Bool) : RunPC := if drain then .drainFutures else .fatalCheck

def ConfigurationData.isJoint : ConfigurationData → Bool
  | .joint _ => true
  | _ => false

def ApplyResult.err : ApplyResult → Option RaftError
  | .ok _ => none
  | .error => some .fsmError
  | .panicked => some .fsmPanic

def ApplyResult.out : ApplyResult → Bytes
  | .ok result => result
  | _ => []

def overdue (k : ℕ) (futures : AList (fun _ : ℕ ↦ ℕ)) : List (Σ _ : ℕ, ℕ) :=
  futures.entries.filter (fun f ↦ k < f.1)

def settle (k : ℕ) (futures : AList (fun _ : ℕ ↦ ℕ)) : AList (fun _ : ℕ ↦ ℕ) :=
  (overdue k futures).foldl (fun m f ↦ m.erase f.1) futures

def Input.Brings : Input → ℕ → Prop
  | .request (.requestVote req), t => req.term = t
  | .request (.appendEntries req), t => req.term = t
  | .request (.installSnapshot req), t => req.term = t
  | .reply _ _ (.requestVote resp) _, t => resp.term = t
  | .reply _ _ (.appendEntries resp) _, t => resp.term = t
  | .reply _ _ (.installSnapshot resp) _, t => resp.term = t
  | _, _ => False

/-- The request says that the leader has an entry of term `t` at index `i`. -/
def AppendEntriesRequest.Carries (req : AppendEntriesRequest) (i t : ℕ) : Prop :=
  i = req.prevLogIndex ∧ t = req.prevLogTerm ∨ ∃ e ∈ req.entries, e.index = i ∧ e.term = t

def AppendEntriesRequest.Agrees (req : AppendEntriesRequest) (log : LogStore) (i : ℕ) : Prop :=
  i = 0 ∨ ∃ x, log.get i = some x ∧ req.Carries i x.term

/-- The reply that makes a candidate count one more vote. -/
def Input.IsGrant (inp : Input) (id : ServerID) (term : ℕ) : Prop :=
  ∃ req resp stamp, inp = .reply id (.requestVote req) (.requestVote resp) stamp ∧
    req.preVote = false ∧ resp.voteGranted = true ∧ resp.term = term

namespace Core

variable (c : Core)

def electorate : Electorate := ⟨c.configuration, c.jointConfig⟩

def disk : Disk := ⟨c.log, c.stable, c.snapshot⟩

def AtConfiguration (data : ConfigurationData) : Prop :=
  ∃ e, c.run.entry? = some e ∧ e.payload = .configuration data

def Settled : Prop := ∀ i ∈ c.pendingFutures, i ≤ c.commitIndex

/-- The disk may hold the new term with any vote: a crash can strike between the two writes. -/
def raise (t : ℕ) (who : Option ServerID) : Core :=
  { c with
    term := t
    state := .follower
    votedFor := ""
    stable := { c.stable with term := some t, votedFor := who } }

def mark (who : ServerID) : Core :=
  { c with
    votedFor := who
    stable := { c.stable with term := some c.term, votedFor := some who } }

def campaigned : Core :=
  { c with
    state := .candidate
    term := c.term + 1
    votedFor := c.localID
    votes := (∅ : VoteMap).insert c.localID true
    stable := { c.stable with term := some (c.term + 1), votedFor := some c.localID } }

/-- A new leader forgets the match indices and appends an empty entry of its term. -/
def lead : Core :=
  { c with
    state := .leader
    matchIndex := ∅
    log := c.log.append ⟨c.term, c.lastIndex + 1, .normal []⟩
    lastIndex := c.lastIndex + 1
    lastTerm := c.term }

def append (e : LogEntry) : Core :=
  { c with log := c.log.append e, lastIndex := e.index, lastTerm := e.term }

def truncate (index lastTerm : ℕ) : Core :=
  { c with
    log := c.log.deleteRange (index + 1) (c.lastIndex + 1)
    lastIndex := index
    lastTerm := lastTerm }

def configure (e : Electorate) : Core :=
  { c with configuration := e.configuration, jointConfig := e.jointConfig }

def snapIndex : ℕ := (c.snapshot.latest.map Snapshot.index).getD 0

def afterConfiguration (drain : Bool) (k : ℕ) (e : LogEntry) (data : ConfigurationData) : RunPC :=
  if data.isJoint ∧ c.state = .leader then .applyJoint drain k e else .applyDone drain k e (.ok [])

/-- The term of the last entry of the log. -/
def endTerm : ℕ :=
  if 0 < c.log.lastIndex then ((c.log.get c.log.lastIndex).map LogEntry.term).getD c.lastTerm
  else c.lastTerm

def boot (state : RaftState) (lastTerm : ℕ) : Core :=
  { c with
    configuration := if c.initial.servers = [] then c.configuration else c.initial
    term := c.stable.term.getD c.term
    votedFor := c.stable.votedFor.getD c.votedFor
    state := state
    lastIndex := max c.log.lastIndex c.snapIndex
    lastTerm := lastTerm
    commitIndex := min (max (c.stable.commitIndex.getD c.commitIndex) c.snapIndex)
      (max c.log.lastIndex c.snapIndex)
    applyIndex := max c.applyIndex c.snapIndex
    run := .select
    started := true }

end Core

/-- What is asked of a node that is about to lead, of one that is about to take over the
commit index of a request, and of one that takes the answer to a request as an ack. -/
structure Licence where
  lead : Core → Prop
  follow : Core → AppendEntriesRequest → Prop
  ack : Core → AppendEntriesRequest → ℕ → Prop

/-- What can be asked besides: of a node that is about to campaign, to change its log for a
leader's request, to log a membership change or to drain its futures; of a future that is
refused or issued for an entry; of an entry that is read to be applied, and of a result of the
state machine; and whether the `run` goroutine may move on at all. -/
structure Warrant extends Licence where
  stand : Core → Prop
  obey : Core → Request → Prop
  change : Core → Prop
  drain : Core → Prop
  refuse : ℕ → Prop
  issue : ℕ → LogEntry → Prop
  reads : LogEntry → Prop
  returns : LogEntry → ApplyResult → Prop
  turn : Prop

def Licence.open (L : Licence) : Warrant :=
  { L with
    stand := fun _ ↦ True
    obey := fun _ _ ↦ True
    change := fun _ ↦ True
    drain := fun _ ↦ True
    refuse := fun _ ↦ True
    issue := fun _ _ ↦ True
    reads := fun _ ↦ True
    returns := fun _ _ ↦ True
    turn := True }

/-- What `applyCommitted` has got out of a command before it finishes with it. -/
def Warrant.Ran (L : Warrant) (e : LogEntry) (result : ApplyResult) : Prop :=
  match e.payload with
  | .normal [] => result = .ok []
  | .normal _ => L.returns e result
  | .configuration _ => False

/-- Where the `run` goroutine may go from where it stands. -/
inductive Turn (R : Rules) (L : Warrant) (c : Core) : RunPC → Prop
  | begin (drain : Bool) (h : c.run = .select) : Turn R L c (.applyStart drain)
  | flush (h : c.run = .select) : Turn R L c (.flush c.commitIndex)
  | flushed {k : ℕ} (h : c.run = .flush k) : Turn R L c (.applyStart false)
  | halted {drain : Bool} (h : c.run = .applyStart drain) : Turn R L c (.endOf drain)
  | loop {drain : Bool} (h : c.run = .applyStart drain) :
      Turn R L c (.applyLoop drain c.commitIndex c.applyIndex)
  | entry {drain : Bool} {k a : ℕ} {e : LogEntry} (h : c.run = .applyLoop drain k a) (ha : a < k)
      (he : c.log.get (a + 1) = some e) (hr : L.reads e) : Turn R L c (.applyEntry drain k e)
  | done {drain : Bool} {k a : ℕ} (h : c.run = .applyLoop drain k a)
      (ha : a < k → c.log.get (a + 1) = none) : Turn R L c (.endOf drain)
  | ran {drain : Bool} {k : ℕ} {e : LogEntry} {result : ApplyResult}
      (h : c.run = .applyEntry drain k e) (hr : L.Ran e result) :
      Turn R L c (.applyDone drain k e result)
  | next {drain : Bool} {k : ℕ} {e : LogEntry} {result : ApplyResult}
      (h : c.run = .applyDone drain k e result) (ha : c.applyIndex = e.index) :
      Turn R L c (.applyLoop drain k e.index)
  | panicked {drain : Bool} {k : ℕ} {e : LogEntry} {result : ApplyResult}
      (h : c.run = .applyDone drain k e result) (hs : c.state = .shutdown) :
      Turn R L c (.endOf drain)
  | checked (h : c.run = .fatalCheck) : Turn R L c .select
  | stopped (h : c.run = .fatalCheck) : Turn R L c (.applyStart true)
  | off (h : c.run = .drainFutures) : Turn R L c .off
  | snapshot (config : Configuration) (data : Bytes) (h : c.run = .select) (hR : R.snapshot) :
      Turn R L c (.snapshotTerm c.applyIndex config data)
  | snapshotting {k : ℕ} {pc : RunPC} (h : c.run.snapshot? = some k) (hp : pc.snapshot? = some k) :
      Turn R L c pc
  | snapshotted {k : ℕ} (h : c.run.snapshot? = some k) : Turn R L c (.applyStart false)
  | restoring (future : ℕ) (h : c.run = .select) (hR : R.restore) : Turn R L c (.restored future)
  | restored {future : ℕ} (h : c.run = .restored future) : Turn R L c (.applyStart false)

namespace Turn

variable {R : Rules} {L : Warrant} {c : Core} {pc : RunPC}

variable {drain : Bool} {e : LogEntry} {k : ℕ}

theorem commit? (h : Turn R L c pc) (hk : pc.commit? = some k) :
    k = c.commitIndex ∨ c.run.commit? = some k := by
  cases h with
  | flush h | loop h => exact .inl (Option.some.inj hk).symm
  | entry h _ _ | ran h _ | next h _ =>
    rw [h]
    exact .inr hk
  | @halted drain h | @done drain _ _ h _ | @panicked drain _ _ _ h _ =>
    cases drain <;> cases hk
  | @snapshotting _ pc h hp => cases pc <;> first | cases hp; done | cases hk
  | _ => cases hk

theorem entry? (h : Turn R L c pc) (he : pc.entry? = some e) :
    c.run.entry? = some e ∨
      c.log.get e.index = some e ∧ ∃ k, c.run.commit? = some k ∧ e.index ≤ k := by
  cases h with
  | @entry _ k a x h ha hx =>
    cases he
    have hi : e.index = a + 1 := LogStore.get_index hx
    refine .inr ⟨by rw [hi]; exact hx, k, by rw [h]; rfl, by omega⟩
  | ran h _ =>
    rw [h]
    exact .inl he
  | @halted drain h | @done drain _ _ h _ | @panicked drain _ _ _ h _ =>
    cases drain <;> cases he
  | @snapshotting _ pc h hp => cases pc <;> first | cases hp; done | cases he
  | _ => cases he

theorem get_of_applyEntry (h : Turn R L c pc)
    (hpc : pc = .applyEntry drain k e) : c.log.get e.index = some e := by
  cases h with
  | entry h ha he =>
    cases hpc
    rw [LogStore.get_index he]
    exact he
  | @halted drain h | @done drain _ _ h _ | @panicked drain _ _ _ h _ =>
    cases drain <;> cases hpc
  | snapshotting h hp =>
    rw [hpc] at hp
    cases hp
  | _ => cases hpc

theorem loop_eq (h : Turn R L c pc) {a : ℕ} (hpc : pc = .applyLoop drain k a) :
    c.applyIndex = a := by
  cases h with
  | loop h =>
    cases hpc
    rfl
  | next h ha =>
    cases hpc
    exact ha
  | @halted drain h | @done drain _ _ h _ | @panicked drain _ _ _ h _ =>
    cases drain <;> cases hpc
  | snapshotting h hp =>
    rw [hpc] at hp
    cases hp
  | _ => cases hpc

theorem snapshot? (h : Turn R L c pc) (hk : pc.snapshot? = some k) :
    k = c.applyIndex ∨ c.run.snapshot? = some k := by
  cases h with
  | snapshot config data h hR => exact .inl (Option.some.inj hk).symm
  | snapshotting h hp =>
    rw [hp] at hk
    cases hk
    exact .inr h
  | @halted drain h | @done drain _ _ h _ | @panicked drain _ _ _ h _ =>
    cases drain <;> cases hk
  | _ => cases hk

theorem ne_applyJoint (h : Turn R L c pc) :
    pc ≠ .applyJoint drain k e := by
  intro hpc
  cases h with
  | @halted drain h | @done drain _ _ h _ | @panicked drain _ _ _ h _ =>
    cases drain <;> cases hpc
  | snapshotting h hp =>
    rw [hpc] at hp
    cases hp
  | _ => cases hpc

theorem snapshotting_of (h : Turn R L c pc) (hpc : pc.snapshotting = true) :
    c.run.snapshotting = true ∨ R.snapshot := by
  cases h with
  | snapshot config data h hR => exact .inr hR
  | snapshotting h hp =>
    rw [RunPC.snapshotting, h]
    exact .inl rfl
  | @halted drain h | @done drain _ _ h _ | @panicked drain _ _ _ h _ =>
    cases drain <;> cases hpc
  | _ => cases hpc

theorem restore_of (h : Turn R L c pc) {future : ℕ} (hpc : pc = .restored future) : R.restore := by
  cases h with
  | restoring _ h hR => exact hR
  | @halted drain h | @done drain _ _ h _ | @panicked drain _ _ _ h _ =>
    cases drain <;> cases hpc
  | snapshotting h hp =>
    rw [hpc] at hp
    cases hp
  | _ => cases hpc

end Turn

/-- The updates of the protocol state of which every critical section is made up, each with
what it hands out. -/
inductive Move (R : Rules) (L : Warrant) (inp : Input) (c : Core) : List Effect → Core → Prop
  | note (e : Event) (h : e.silent = true) : Move R L inp c [.note e] c
  | call (target : ServerID) (req : Request) (h : req.silent = true) :
      Move R L inp c [.rpc target req] c
  | raise (t : ℕ) (who : Option ServerID) (h : c.term < t) (hb : inp.Brings t ∨ L.stand c)
      (hf : c.Settled ∨ c.state = .candidate ∨ L.stand c) : Move R L inp c [] (c.raise t who)
  | campaign (asks : List Effect)
      (h : ∀ x ∈ asks, ∃ target leaderTransfer, target ≠ c.localID ∧
        x = .rpc target (.requestVote
          ⟨c.term + 1, c.localID, c.lastIndex, c.lastTerm, false, leaderTransfer⟩))
      (hS : L.stand c) : Move R L inp c (.note (.voted c.localID (c.term + 1)) :: asks) c.campaigned
  | crown (hq : c.configuration.quorumSize = 1) (hL : L.lead c.campaigned) (hS : L.stand c) :
      Move R L inp c [.note (.voted c.localID (c.term + 1)),
        .note (.becameLeader (c.term + 1) c.electorate c.log)] c.campaigned.lead
  | storeTerm : Move R L inp c [] { c with stable := { c.stable with term := some c.term } }
  | mark (req : RequestVoteRequest) (hi : inp = .request (.requestVote req))
      (hp : req.preVote = false) (ht : req.term = c.term)
      (hv : c.votedFor = "" ∨ c.votedFor = req.candidateID)
      (hl : req.logOK c.lastIndex c.lastTerm = true) : Move R L inp c [] (c.mark req.candidateID)
  | vote (req : RequestVoteRequest) (hi : inp = .request (.requestVote req))
      (hp : req.preVote = false) (ht : req.term = c.term) (hv : c.votedFor = req.candidateID)
      (hs : c.stable.term = some c.term) (hd : c.stable.votedFor = some req.candidateID)
      (hl : req.logOK c.lastIndex c.lastTerm = true) :
      Move R L inp c [.note (.voted req.candidateID c.term)] c
  | setState (state : RaftState) (h : state ≠ .leader ∧ state ≠ .learner)
      (hS : state = .candidate → L.stand c)
      (hf : state = .follower → c.state = .leader ∧ c.Settled ∨ c.state = .candidate) :
      Move R L inp c [] { c with state := state }
  | retire (data : ConfigurationData) (hs : c.state = .leader) (hc : c.AtConfiguration data)
      (hf : c.Settled) : Move R L inp c [] { c with state := .follower, votedFor := "" }
  | tally (id : ServerID) (hs : c.state = .candidate) (hi : inp.IsGrant id c.term) :
      Move R L inp c [] { c with votes := c.votes.insert id true }
  | lead (id : ServerID) (hs : c.state = .candidate) (hi : inp.IsGrant id c.term)
      (hq : c.electorate.hasVoteQuorum c.votes = true) (hL : L.lead c) :
      Move R L inp c [.note (.becameLeader c.term c.electorate c.log)] c.lead
  | propose (e : LogEntry) (hi : e.index = c.lastIndex + 1) (ht : e.term = c.term)
      (hs : c.state = .leader) (hp : ∃ data, e.payload = .normal data) :
      Move R L inp c [] (c.append e)
  | exit (e x : LogEntry) (drain : Bool) (k : ℕ) (hi : e.index = c.lastIndex + 1)
      (ht : e.term = c.term) (hp : e.payload = .configuration .commitJoint)
      (h : c.run = .applyJoint drain k x) (hT : L.turn) :
      Move R L inp c [] { c.append e with run := .applyDone drain k x (.ok []) }
  | submit (e : LogEntry) (future : ℕ) (hi : e.index = c.lastIndex + 1) (ht : e.term = c.term)
      (hs : c.state = .leader) (hp : ∃ data, e.payload = .normal data) (hL : L.issue future e) :
      Move R L inp c [] { c.append e with
        pendingFutures := c.pendingFutures.insert e.index future }
  | change (e : LogEntry) (data : ConfigurationData) (hi : e.index = c.lastIndex + 1)
      (ht : e.term = c.term) (hs : c.state = .leader) (hR : R.membership)
      (hp : e.payload = .configuration data) (hd : data ≠ .commitJoint)
      (hj : c.jointConfig = none) (hk : c.pendingConfigIndex ≤ c.commitIndex) (hL : L.change c) :
      Move R L inp c [] { c.append e with pendingConfigIndex := e.index }
  | copy (req : AppendEntriesRequest) (e : LogEntry) (hi : inp = .request (.appendEntries req))
      (ht : req.term = c.term) (he : e ∈ req.entries) (hx : e.index = c.lastIndex + 1)
      (ha : req.Agrees c.log c.lastIndex) (hO : L.obey c (.appendEntries req)) :
      Move R L inp c [] (c.append e)
  | truncate (req : AppendEntriesRequest) (e x : LogEntry) (lastTerm : ℕ)
      (hi : inp = .request (.appendEntries req)) (ht : req.term = c.term) (he : e ∈ req.entries)
      (hx : c.log.get e.index = some x) (hne : x.term ≠ e.term) (hc : c.commitIndex < e.index)
      (ha : req.Agrees c.log (e.index - 1)) (h0 : e.index = 1 → lastTerm = 0)
      (hl : ∀ y, c.log.get (e.index - 1) = some y → lastTerm = y.term)
      (hO : L.obey c (.appendEntries req)) :
      Move R L inp c [] (c.truncate (e.index - 1) lastTerm)
  | commit (k : ℕ) (e : LogEntry) (hs : c.state = .leader) (he : c.log.get k = some e)
      (ht : e.term = c.term) (hk : c.commitIndex ≤ k ∨ k = c.lastIndex)
      (hq : c.configuration.quorumSize = 1 ∨
        c.electorate.commitQuorum c.localID c.matchIndex k = true) :
      Move R L inp c [] { c with commitIndex := k }
  | follow (req : AppendEntriesRequest) (hi : inp = .request (.appendEntries req))
      (ht : req.term = c.term) (hlt : c.commitIndex < req.leaderCommit)
      (ha : req.Agrees c.log (Raft.lastReqIndex req)) (hL : L.follow c req) :
      Move R L inp c [] { c with commitIndex := min req.leaderCommit (Raft.lastReqIndex req) }
  | ack (id : ServerID) (req : AppendEntriesRequest) (resp : AppendEntriesResponse) (stamp : ℕ)
      (last : LogEntry) (hi : inp = .reply id (.appendEntries req) (.appendEntries resp) stamp)
      (hs : c.state = .leader) (ht : req.term = c.term) (hr : resp.success = true)
      (hl : req.entries.getLast? = some last) :
      Move R L inp c [] { c with
        matchIndex := c.matchIndex.insert id (max last.index ((c.matchIndex.lookup id).getD 0)) }
  | track (id : ServerID) (h : id ≠ c.localID) :
      Move R L inp c [] { c with matchIndex := c.matchIndex.insert id 0 }
  | untrack (id : ServerID) : Move R L inp c [] { c with matchIndex := c.matchIndex.erase id }
  | replicators (m : AList (fun _ : ServerID ↦ Replicator))
      (h : ∀ id ∈ m, id ∈ c.inflightReplication ∨ id ≠ c.localID) :
      Move R L inp c [] { c with inflightReplication := m }
  | send (id : ServerID) (req : AppendEntriesRequest) (hid : id ∈ c.inflightReplication)
      (hs : c.state = .leader) (ht : req.term = c.term) (hl : req.leaderID = c.localID)
      (hc : req.leaderCommit = c.commitIndex)
      (hw : Raft.contiguous (req.prevLogIndex + 1) req.entries = true)
      (he : ∀ e ∈ req.entries, c.log.get e.index = some e)
      (hp : req.prevLogIndex = 0 ∨ req.prevLogTerm = 0 ∨
        ∃ x, c.log.get req.prevLogIndex = some x ∧ x.term = req.prevLogTerm) :
      Move R L inp c [.rpc id (.appendEntries req)] c
  | goto (pc : RunPC) (hT : L.turn) (h : Turn R L c pc) : Move R L inp c [] { c with run := pc }
  | applied (drain : Bool) (k : ℕ) (e : LogEntry) (h : c.run = .applyEntry drain k e) :
      Move R L inp c [.note (.applied e)] c
  | advance (drain : Bool) (k : ℕ) (e : LogEntry) (result : ApplyResult)
      (h : c.run = .applyDone drain k e result) : Move R L inp c [] { c with applyIndex := e.index }
  | flush (k : ℕ) (h : c.run = .flush k) :
      Move R L inp c [] { c with stable := { c.stable with commitIndex := some k } }
  | configure (data : ConfigurationData) (drain : Bool) (k : ℕ) (e : LogEntry)
      (h : c.run = .applyEntry drain k e) (hp : e.payload = .configuration data) (hT : L.turn) :
      Move R L inp c [] { c.configure (c.electorate.apply data) with
        run := c.afterConfiguration drain k e data }
  | start (state : RaftState) (lastTerm : ℕ) (hn : c.started = false) (hsd : c.state = .shutdown)
      (hs : state = .follower ∨ state = .learner) (hT : L.turn)
      (h : c.snapshot.snapshots = [] → lastTerm = c.endTerm) :
      Move R L inp c [] (c.boot state lastTerm)
  | createSnapshot (snap : Snapshot)
      (h : c.run.snapshotting = true ∨ ∃ req, inp = .request (.installSnapshot req))
      (hT : L.turn ∨ ∃ req, inp = .request (.installSnapshot req)) :
      Move R L inp c [] { c with snapshot := c.snapshot.create snap }
  | compact (lo hi : ℕ)
      (h : c.run.snapshot? = some hi ∨
        ∃ req, inp = .request (.installSnapshot req) ∧ L.obey c (.installSnapshot req))
      (hT : L.turn ∨ ∃ req, inp = .request (.installSnapshot req)) :
      Move R L inp c [] { c with log := c.log.deleteRange lo hi }
  | install (req : InstallSnapshotRequest) (lastIndex lastTerm : ℕ)
      (hi : inp = .request (.installSnapshot req)) (hc : c.commitIndex < req.lastIncludedIndex)
      (hl : req.lastIncludedIndex ≤ lastIndex)
      (hx : c.lastIndex ≤ lastIndex ∨ ∀ i, c.log.get i = none)
      (hO : L.obey c (.installSnapshot req))
      (hs : ∃ s ∈ c.snapshot.snapshots, s.index = req.lastIncludedIndex) :
      Move R L inp c [] { c with
        lastIndex := lastIndex, lastTerm := lastTerm, commitIndex := req.lastIncludedIndex,
        applyIndex := req.lastIncludedIndex }
  | restore (future : ℕ) (h : c.run = .restored future) :
      Move R L inp c [.note (.responded future none 0 0 [])]
        { c with applyIndex := 0, commitIndex := 0, lastIndex := 0, lastTerm := 0 }
  | refuse (future : ℕ) (err : RaftError) (hL : L.refuse future) :
      Move R L inp c [.note (.responded future (some err) 0 0 [])] c
  | fail : Move R L inp c ((overdue c.commitIndex c.pendingFutures).map fun f ↦
        .note (.responded f.2 (some .leadershipLost) 0 0 []))
      { c with pendingFutures := settle c.commitIndex c.pendingFutures }
  | resolve (drain : Bool) (k : ℕ) (e : LogEntry) (result : ApplyResult) (future : ℕ)
      (h : c.run = .applyDone drain k e result)
      (hf : c.pendingFutures.lookup e.index = some future) :
      Move R L inp c [.note (.responded future result.err e.index e.term result.out)]
        { c with pendingFutures := c.pendingFutures.erase e.index }
  | drain (h : c.run = .drainFutures) (hL : L.drain c) :
      Move R L inp c (c.pendingFutures.entries.map fun f ↦
        .note (if f.1 ≤ c.commitIndex then
            .responded f.2 none f.1 (((c.log.get f.1).map LogEntry.term).getD 0) []
          else .responded f.2 (some .notStarted) 0 0 [])) { c with pendingFutures := ∅ }
  | sendSnapshot (id : ServerID) (req : InstallSnapshotRequest) (hid : id ∈ c.inflightReplication)
      (h : R.snapshot) : Move R L inp c [.rpc id (.installSnapshot req)] c
  | ackSnapshot (id : ServerID) (k : ℕ) (h : R.snapshot) :
      Move R L inp c [] { c with
        matchIndex := c.matchIndex.insert id k
        heartbeatAcks := c.heartbeatAcks.insert id c.clock }
  | clearAcks : Move R L inp c [] { c with heartbeatAcks := ∅ }
  | recordAck (id : ServerID) (req : AppendEntriesRequest) (resp : AppendEntriesResponse)
      (stamp : ℕ) (hi : inp = .reply id (.appendEntries req) (.appendEntries resp) stamp)
      (hs : c.state = .leader) (ht : req.term = c.term) (hr : resp.success = true)
      (hL : L.ack c req stamp) :
      Move R L inp c [] { c with heartbeatAcks := c.heartbeatAcks.insert id c.clock }
  | readClock (now : ℤ) (h : c.clock ≤ now) : Move R L inp c [] { c with clock := now }
  | readBegin (id : ℕ) :
      Move R L inp c [.note (.readBegan id c.term c.commitIndex)] c
  | readCapture (id : ℕ) (hi : inp = .op id) (hs : c.state = .leader) :
      Move R L inp c [.note (.readBegan id c.term c.commitIndex)]
        { c with reads := c.reads.insert id (.captured c.commitIndex c.configuration.quorumSize) }
  | readLocal (id : ℕ) (hi : inp = .op id) (hs : c.state = .leader)
      (hq : c.configuration.quorumSize = 1) :
      Move R L inp c [.note (.readBegan id c.term c.commitIndex),
        .note (.readReturned id (.ok c.commitIndex))] { c with reads := c.reads.erase id }
  | readWait (id readIndex quorum : ℕ) (h : c.reads.lookup id = some (.captured readIndex quorum)) :
      Move R L inp c [] { c with reads := c.reads.insert id (.waiting readIndex quorum c.clock) }
  | readLease (id readIndex quorum : ℕ)
      (h : c.reads.lookup id = some (.captured readIndex quorum)) (hl : c.leaseReads = true) :
      Move R L inp c [.note (.readReturned id (.ok readIndex))] { c with reads := c.reads.erase id }
  | readConfirm (id readIndex quorum : ℕ) (start : ℤ)
      (h : c.reads.lookup id = some (.waiting readIndex quorum start)) (hs : c.state = .leader)
      (hq : quorum ≤ acksAfter c.heartbeatAcks c.configuration start) :
      Move R L inp c [.note (.readReturned id (.ok readIndex))] { c with reads := c.reads.erase id }
  | readFail (id : ℕ) (err : RaftError) :
      Move R L inp c [.note (.readReturned id (.error err))] { c with reads := c.reads.erase id }

end RaftConsensus
