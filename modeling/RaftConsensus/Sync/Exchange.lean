import RaftConsensus.Sync.Logical
import RaftConsensus.Sync.Orderly

namespace RaftConsensus

open AList

variable {σ : Type}

def Request.ofLeader (T : ℕ) : Request → Bool
  | .appendEntries req => req.term = T
  | .installSnapshot req => req.term = T
  | .requestVote _ | .timeoutNow => false

def Request.Fits (log : List LogEntry) : Request → Prop
  | .appendEntries req => req.Fits log
  | .installSnapshot req => req.lastIncludedIndex ≤ log.length
  | .requestVote _ | .timeoutNow => True

def Raft.Op.replicates (id : ServerID) : Raft.Op → Bool
  | .replicate target | .snapshotChunk target _ _ | .snapshotSent target _ => target = id
  | _ => false

/-- A leader and one of its followers, each with its logical log. `call` is the RPC that the
replication goroutine waits for. -/
structure Exchange (σ : Type) where
  leader : Raft σ
  log : List LogEntry
  follower : Raft σ
  held : List LogEntry
  net : List Request
  replies : List (ℕ × Response)
  call : Option ℕ

namespace Exchange

inductive Act
  | run (o : Raft.Op)
  | reply (i : ℕ) (now : ℤ)
  | fail (i : ℕ)
  | deliver (i rnd : ℕ)
  | broken (i : ℕ)
  | leads
  | follows

def Leading (x : Exchange σ) (T : ℕ) : Prop := x.leader.state = .leader ∧ x.leader.term = T

def requestsTo (id : ServerID) (out : List Effect) : List Request :=
  out.filterMap fun
    | .rpc target req => if target = id then some req else none
    | .note _ => none

def send (x : Exchange σ) (id : ServerID) (r : Raft σ) : Exchange σ :=
  { x with
    leader := r.rest
    net := x.net ++ requestsTo id r.outbox
    call := if requestsTo id r.outbox = [] then x.call else some x.net.length }

/-- What the follower's logical log is where the store does not show it. A snapshot that is
installed stands for the leader's log. -/
def base (x : Exchange σ) : Request → List LogEntry
  | .installSnapshot req =>
    if (x.follower.installs req).isSome then
      x.log.take req.lastIncludedIndex ++ x.held.drop req.lastIncludedIndex
    else x.held
  | _ => x.held

def handled (F : FSM σ) (x : Exchange σ) (i : ℕ) (req : Request) (rnd : ℕ) : Exchange σ :=
  let q := x.follower.handle F rnd req
  { x with
    follower := q.1.rest
    held := q.1.core.logical (x.base req)
    replies := x.replies ++ [(i, q.2)] }

/-- What else the leader may do while it leads: its log grows by entries of its term, it may take
snapshots of it and drop what they cover, it may start the goroutine of `id` and forget what it
knows of it. -/
structure Leads (x : Exchange σ) (id : ServerID) (T : ℕ) (r : Raft σ) (log : List LogEntry) :
    Prop where
  leading : r.state = .leader ∧ r.term = T
  grows : x.log <+: log
  fresh : ∀ e ∈ log.drop x.log.length, e.term = T
  carries : r.core.Carries log
  within : r.core.Within log
  replicator : r.inflightReplication.lookup id = x.leader.inflightReplication.lookup id ∨
    r.inflightReplication.lookup id = some .loop
  matched : r.matchIndex.lookup id = x.leader.matchIndex.lookup id ∨
    (r.matchIndex.lookup id).getD 0 = 0

/-- Entries of term `T` stand in the list only where `log` has entries. -/
def Young (T : ℕ) (l log : List LogEntry) : Prop :=
  ∀ i e, l[i]? = some e → e.term = T → i < log.length

/-- A node that has not gone beyond term `T` next to the log of the leader of `T`: the two logs
match, and what the node takes for committed is in both. -/
def Beside (T : ℕ) (r : Raft σ) (l log : List LogEntry) : Prop :=
  r.term ≤ T → r.core.Follows l log ∧ Young T l log

/-- The requests of the leader are lost, delayed, reordered and delivered several times. What is
left of the follower, and what it answers, is open where one of its stores fails it in the middle
of a request (`broken`). The rest of what the two nodes do is left open as long as the leader leads
and the follower stays beside it. -/
inductive Step (F : FSM σ) (id : ServerID) (T : ℕ) : Exchange σ → Act → Exchange σ → Prop
  | run {x : Exchange σ} {o : Raft.Op} {r : Raft σ} (hl : x.Leading T) (ho : o.replicates id = true)
      (h : x.leader.rest.exec F o = some r) : Step F id T x (.run o) (x.send id r)
  | reply {x : Exchange σ} {i : ℕ} {now : ℤ} {req : Request} {resp : Response} {r : Raft σ}
      (hl : x.Leading T) (hc : x.call = some i) (hq : x.net[i]? = some req)
      (ha : req.ofLeader T = true → (i, resp) ∈ x.replies)
      (h : x.leader.receive id now req resp = some r) :
      Step F id T x (.reply i now) { x with leader := r.rest, call := none }
  | fail {x : Exchange σ} {i : ℕ} {req : Request} {r : Raft σ} (hl : x.Leading T)
      (hc : x.call = some i) (hq : x.net[i]? = some req) (h : x.leader.callFailed id req = some r) :
      Step F id T x (.fail i) { x with leader := r.rest, call := none }
  | deliver {x : Exchange σ} {i rnd : ℕ} {req : Request} (hq : x.net[i]? = some req)
      (ho : req.ofLeader T = true) : Step F id T x (.deliver i rnd) (x.handled F i req rnd)
  | broken {x : Exchange σ} {i : ℕ} {req : Request} {r : Raft σ} {l : List LogEntry}
      {resp : Response} (hq : x.net[i]? = some req) (ho : req.ofLeader T = true) :
      Step F id T x (.broken i)
        { x with follower := r, held := l, replies := x.replies ++ [(i, resp)] }
  | leads {x : Exchange σ} {r : Raft σ} {log : List LogEntry} (hl : x.Leading T)
      (h : x.Leads id T r log) : Step F id T x .leads { x with leader := r, log := log }
  | follows {x : Exchange σ} {r : Raft σ} {l : List LogEntry} (h : Beside T r l x.log) :
      Step F id T x .follows { x with follower := r, held := l }

/-- A last chunk that reaches the follower completes the snapshot, and the state machine accepts
it, unless the follower refuses the request or has the snapshot covered; and no call of the
follower's snapshot store or log store fails while it handles a request of the leader. -/
def completes (F : FSM σ) (x : Exchange σ) : Act → Bool
  | .deliver i _ => x.net[i]?.all fun
    | .installSnapshot req => x.follower.completes F req
    | _ => true
  | .broken _ => false
  | _ => true

def Next (F : FSM σ) (id : ServerID) (T : ℕ) (x x' : Exchange σ) : Prop :=
  ∃ a, x.completes F a = true ∧ Step F id T x a x'

def Steps (F : FSM σ) (id : ServerID) (T : ℕ) : Exchange σ → Exchange σ → Prop :=
  Relation.ReflTransGen (Next F id T)

def Holds (x : Exchange σ) (log : List LogEntry) (k : ℕ) : Prop :=
  x.follower.core.Carries x.held ∧ x.follower.core.Within log ∧ Shares x.held log k

theorem requestsTo_rpc (id : ServerID) (req : Request) : requestsTo id [.rpc id req] = [req] := by
  simp [requestsTo]

variable {F : FSM σ} {id : ServerID} {T : ℕ} {x x' : Exchange σ} {H H' : ℕ → Prop}

/-- What a reply stands for; `H` are the indices up to which the follower has held the log. -/
def Vouches (H : ℕ → Prop) (T : ℕ) : Request → Response → Prop
  | .appendEntries req, .appendEntries resp =>
    req.term = T → resp.success = true → H (Raft.lastReqIndex req)
  | .installSnapshot req, .installSnapshot resp =>
    req.term = T → req.done = true → resp.term ≤ T → H req.lastIncludedIndex
  | _, _ => True

def sending : Replicator → Option SnapshotSend
  | .snapRead send | .snapWaiting send _ _ | .snapDone send => some send
  | _ => none

def idle (pc : Replicator) : Bool := (sending pc).isNone

structure Tracks (H : ℕ → Prop) (id : ServerID) (T : ℕ) (c : Core) (log : List LogEntry)
    (net : List Request) (call : Option ℕ) : Prop where
  carries : c.Carries log
  within : c.Within log
  read : ∀ send, c.inflightReplication.lookup id = some (.snapRead send) → send.reqTerm = T →
    send.lastIncludedIndex ≤ log.length
  waiting : ∀ send n done, c.inflightReplication.lookup id = some (.snapWaiting send n done) →
    send.reqTerm = T → send.lastIncludedIndex ≤ log.length ∧
      ∃ i req, call = some i ∧ net[i]? = some (.installSnapshot req) ∧ req.term = T ∧
        req.lastIncludedIndex = send.lastIncludedIndex ∧ req.done = done
  sent : ∀ send, c.inflightReplication.lookup id = some (.snapDone send) → send.reqTerm = T →
    H send.lastIncludedIndex
  matched : 0 < (c.matchIndex.lookup id).getD 0 → H ((c.matchIndex.lookup id).getD 0)

structure Kept (H : ℕ → Prop) (id : ServerID) (T : ℕ) (x : Exchange σ) : Prop where
  indexed : Indexed x.log
  positive : ∀ e ∈ x.log, 0 < e.term
  fits : ∀ req ∈ x.net, req.ofLeader T = true → req.Fits x.log
  vouched : ∀ a ∈ x.replies, ∃ req, x.net[a.1]? = some req ∧ Vouches H T req a.2
  beside : Beside T x.follower x.held x.log
  tracks : x.Leading T → Tracks H id T x.leader.core x.log x.net x.call

theorem Vouches.mono (hH : ∀ k, H k → H' k) {req : Request} {resp : Response}
    (h : Vouches H T req resp) : Vouches H' T req resp := by
  cases req <;> cases resp <;> try trivial
  · exact fun ht hs ↦ hH _ (h ht hs)
  · exact fun ht hd hle ↦ hH _ (h ht hd hle)

variable {c c' : Core} {call call' : Option ℕ} {log : List LogEntry} {net net' new : List Request}
  {now : ℤ} {r : Raft σ}

theorem Tracks.mono (hH : ∀ k, H k → H' k) (h : Tracks H id T c log net call) :
    Tracks H' id T c log net call :=
  { h with
    sent := fun send hpc ht ↦ hH _ (h.sent send hpc ht)
    matched := fun hpos ↦ hH _ (h.matched hpos) }

theorem Kept.mono (hH : ∀ k, H k → H' k) (h : x.Kept H id T) : x.Kept H' id T := by
  refine { h with vouched := fun a ha ↦ ?_, tracks := fun hl ↦ (h.tracks hl).mono hH }
  obtain ⟨req, hreq, hv⟩ := h.vouched a ha
  exact ⟨req, hreq, hv.mono hH⟩

theorem Tracks.goto (h : Tracks H id T c log net call) (hlog : c'.log = c.log)
    (hlast : c'.lastIndex = c.lastIndex) (hsnap : c'.snapshot = c.snapshot)
    (hm : c'.matchIndex.lookup id = c.matchIndex.lookup id ∨ H ((c'.matchIndex.lookup id).getD 0))
    (hpc : ∀ pc, c'.inflightReplication.lookup id = some pc → idle pc = true) :
    Tracks H id T c' log net' call' := by
  have hno {pc : Replicator} {p : Prop} (hn : idle pc = false)
      (hl : c'.inflightReplication.lookup id = some pc) : p := by
    cases hn.symm.trans (hpc pc hl)
  refine ⟨h.carries.keep hlog hlast hsnap, fun s hs ↦ h.within s (hsnap ▸ hs), fun _ ↦ hno rfl,
    fun _ _ _ ↦ hno rfl, fun _ ↦ hno rfl, ?_⟩
  rcases hm with hm | hm
  · rw [hm]
    exact h.matched
  · exact fun _ ↦ hm

theorem Kept.lead (h : x.Kept H id T)
    (hnew : ∀ req ∈ new, req.ofLeader T = true → req.Fits x.log)
    (ht : r.state = .leader → r.term = T → Tracks H id T r.core x.log (x.net ++ new) call) :
    Kept H id T { x with leader := r, net := x.net ++ new, call := call } := by
  refine { h with
    fits := fun req hreq ho ↦ ?_, vouched := fun a ha ↦ ?_, tracks := fun hl ↦ ht hl.1 hl.2 }
  · rcases List.mem_append.mp hreq with hreq | hreq
    · exact h.fits req hreq ho
    · exact hnew req hreq ho
  · obtain ⟨req, hreq, hv⟩ := h.vouched a ha
    exact ⟨req, (List.getElem?_append_left (List.getElem?_eq_some_iff.mp hreq).1).trans hreq, hv⟩

theorem Kept.send (h : x.Kept H id T)
    (hout : requestsTo id r.outbox = new) (hc : r.core = c)
    (hnew : ∀ req ∈ new, req.ofLeader T = true → req.Fits x.log)
    (ht : Tracks H id T c x.log (x.net ++ new) (if new = [] then x.call else some x.net.length)) :
    (x.send id r).Kept H id T := by
  unfold Exchange.send
  rw [hout]
  refine h.lead hnew fun _ _ ↦ ?_
  rw [show r.rest.core = c from hc]
  exact ht

theorem fits_appendRequest (h : r.core.Carries log) {n t : ℕ}
    (ht : n ≤ 1 ∨ t = 0 ∨ ∃ e, r.log.get (n - 1) = some e ∧ e.term = t) :
    (r.appendRequest n t).Fits log := by
  refine ⟨?_, r.collectEntries_initial h.stored _ _ n none⟩
  rcases ht with hn | ht | ⟨e, he, ht⟩
  · exact .inl (by change n - 1 = 0; omega)
  · exact .inr (.inl ht)
  · exact .inr (.inr ⟨e, h.stored _ e he, ht⟩)

theorem replicateOnce_cases (h : r.core.Carries log) (id : ServerID) :
    (∃ pc, idle pc = true ∧ r.replicateOnce id = r.setReplicator id pc) ∨
      ∃ req, req.Fits log ∧ r.replicateOnce id = r.sendAppend id req := by
  unfold Raft.replicateOnce Raft.replicateOnceFrom
  dsimp only
  split_ifs
  · exact .inl ⟨_, rfl, rfl⟩
  · exact .inl ⟨_, rfl, rfl⟩
  · exact .inl ⟨_, rfl, rfl⟩
  · rename_i hn
    exact .inr ⟨_, fits_appendRequest h (.inl hn), rfl⟩
  · split
    · rename_i e he
      exact .inr ⟨_, fits_appendRequest h (.inr (.inr ⟨e, he, rfl⟩)), rfl⟩
    · exact .inl ⟨_, rfl, rfl⟩
  · split
    · rename_i e he
      exact .inr ⟨_, fits_appendRequest h (.inr (.inr ⟨e, he, rfl⟩)), rfl⟩
    · exact .inr ⟨_, fits_appendRequest h (.inr (.inl rfl)), rfl⟩

theorem sendAppend_eq (r : Raft σ) (id : ServerID) (req : AppendEntriesRequest) :
    ∃ w, r.sendAppend id req = { r with
      inflightWindows := w
      inflightReplication := r.inflightReplication.insert id (.waiting req)
      outbox := r.outbox ++ [.rpc id (.appendEntries req)] } := by
  unfold Raft.sendAppend Raft.addToWindow
  split <;> exact ⟨_, rfl⟩

theorem Kept.replicate (h : x.Kept H id T) (hl : x.Leading T)
    (hr : x.leader.rest.replicateStep id = some r) : (x.send id r).Kept H id T := by
  have ht := h.tracks hl
  have hset {r : Raft σ} {pc : Replicator} (hpc : idle pc = true) (hlog : r.log = x.leader.log)
      (hlast : r.lastIndex = x.leader.lastIndex) (hsnap : r.snapshot = x.leader.snapshot)
      (hm : r.matchIndex = x.leader.matchIndex) (hout : r.outbox = []) :
      (x.send id (r.setReplicator id pc)).Kept H id T := by
    refine h.send (congrArg (requestsTo id) hout) rfl nofun
      (ht.goto hlog hlast hsnap (.inl (congrArg (·.lookup id) hm)) fun pc' hpc' ↦ ?_)
    cases (lookup_insert _).symm.trans hpc'
    exact hpc
  unfold Raft.replicateStep at hr
  split at hr
  · cases hr
    have hcar : x.leader.rest.core.Carries x.log := ht.carries
    rcases replicateOnce_cases hcar id with ⟨pc, hpc, heq⟩ | ⟨req, hreq, heq⟩
    · rw [heq]
      exact hset hpc rfl rfl rfl rfl rfl
    · obtain ⟨w, hw⟩ := sendAppend_eq x.leader.rest id req
      rw [heq, hw]
      refine h.send (requestsTo_rpc id _) rfl (fun q hq _ ↦ ?_)
        (ht.goto rfl rfl rfl (.inl rfl) fun pc hpc ↦ ?_)
      · cases List.mem_singleton.mp hq
        exact hreq
      · cases (lookup_insert _).symm.trans hpc
        rfl
  · cases hr
    exact hset rfl rfl rfl rfl rfl rfl
  · cases hr
    unfold Raft.sendSnapshotBegin
    split <;> exact hset rfl rfl rfl rfl rfl rfl
  · cases hr
    unfold Raft.sendSnapshotOpen
    split
    · exact hset rfl rfl rfl rfl rfl rfl
    · rename_i s hs
      refine h.send (show requestsTo id _ = [] from rfl) rfl nofun ⟨ht.carries.keep rfl rfl rfl,
        ht.within, fun send hpc _ ↦ ?_, fun _ _ _ hpc ↦ ?_, fun _ hpc ↦ ?_, ht.matched⟩
      · cases (lookup_insert _).symm.trans hpc
        exact ht.within s (SnapshotStore.latest_mem hs)
      · cases (lookup_insert _).symm.trans hpc
      · cases (lookup_insert _).symm.trans hpc
  · cases hr
    refine h.send (show requestsTo id _ = [] from rfl) rfl nofun
      (ht.goto rfl rfl rfl (.inl rfl) fun pc hpc ↦ ?_)
    cases (lookup_erase _ _).symm.trans hpc
  · cases hr

theorem Kept.chunk (h : x.Kept H id T) (hl : x.Leading T) {send : SnapshotSend} {n : ℕ}
    {done : Bool} (hpc : x.leader.inflightReplication.lookup id = some (.snapRead send))
    (hr : x.leader.rest.sendSnapshotChunk id send n done = some r) : (x.send id r).Kept H id T := by
  have ht := h.tracks hl
  obtain ⟨req, hreq⟩ : ∃ req : InstallSnapshotRequest, req = ⟨send.reqTerm, x.leader.localID,
      send.lastIncludedIndex, send.lastIncludedTerm, send.offset, send.rest.take n, done⟩ :=
      ⟨_, rfl⟩
  unfold Raft.sendSnapshotChunk at hr
  split at hr
  · have hr := Option.some.inj hr
    have hcore : r.core = { x.leader.core with
        inflightReplication :=
          x.leader.inflightReplication.insert id (.snapWaiting send n done) } := by
      rw [← hr]
      rfl
    have hout : requestsTo id r.outbox = [.installSnapshot req] := by
      rw [← hr, hreq]
      exact requestsTo_rpc id _
    refine h.send hout hcore (fun q hq ho ↦ ?_) ⟨ht.carries.keep rfl rfl rfl, ht.within,
      fun _ hpc' ↦ ?_, fun send' n' done' hpc' hT ↦ ?_, fun _ hpc' ↦ ?_, ht.matched⟩
    · cases List.mem_singleton.mp hq
      rw [Request.ofLeader, hreq, decide_eq_true_eq] at ho
      rw [Request.Fits, hreq]
      exact ht.read send hpc ho
    · cases (lookup_insert _).symm.trans hpc'
    · cases (lookup_insert _).symm.trans hpc'
      refine ⟨ht.read send hpc hT, x.net.length, req, if_neg nofun, ?_, ?_⟩
      · rw [List.getElem?_append_right le_rfl, Nat.sub_self]
        rfl
      · rw [hreq]
        exact ⟨hT, rfl, rfl⟩
    · cases (lookup_insert _).symm.trans hpc'
  · cases hr

theorem Tracks.raise (h : Tracks H id T c log net call) {k : ℕ} (hk : H k) :
    H (max k ((c.matchIndex.lookup id).getD 0)) := by
  rcases Nat.eq_zero_or_pos ((c.matchIndex.lookup id).getD 0) with h0 | hpos
  · rw [h0, Nat.max_zero]
    exact hk
  · rcases max_choice k ((c.matchIndex.lookup id).getD 0) with hm | hm
    · rwa [hm]
    · rw [hm]
      exact h.matched hpos

theorem sendSnapshotEnd_spec (r : Raft σ) (id : ServerID) (send : SnapshotSend) (now : ℤ) :
    ∃ c : Core, (r.sendSnapshotEnd id send now).core = c ∧ c.log = r.log ∧
    c.lastIndex = r.lastIndex ∧
      c.snapshot = r.snapshot ∧ c.inflightReplication = r.inflightReplication.insert id .loop ∧
      (r.sendSnapshotEnd id send now).outbox = r.outbox ∧
      c.matchIndex = if r.state = .leader ∧ r.term = send.reqTerm then
        r.matchIndex.insert id (max send.lastIncludedIndex ((r.matchIndex.lookup id).getD 0))
      else r.matchIndex := by
  unfold Raft.sendSnapshotEnd
  split <;> exact ⟨_, rfl, rfl, rfl, rfl, rfl, rfl, rfl⟩

theorem Kept.sent (h : x.Kept H id T) (hl : x.Leading T) {send : SnapshotSend}
    (hpc : x.leader.inflightReplication.lookup id = some (.snapDone send))
    (hr : x.leader.rest.readClock now = some r) :
    (x.send id (r.sendSnapshotEnd id send now)).Kept H id T := by
  have ht := h.tracks hl
  obtain ⟨hclock, rfl⟩ : _ ∧ { x.leader.rest with clock := now } = r :=
    Option.ite_none_right_eq_some.mp hr |>.imp_right Option.some.inj
  obtain ⟨c, hc, hlog, hlast, hsnap, hrepl, hout, hm⟩ :=
    sendSnapshotEnd_spec { x.leader.rest with clock := now } id send now
  refine h.send (congrArg (requestsTo id) hout) hc nofun
    (ht.goto hlog hlast hsnap ?_ fun pc hpc ↦ ?_)
  · rw [hm]
    split
    · rename_i hlead
      have hT : send.reqTerm = T := hlead.2.symm.trans hl.2
      rw [lookup_insert]
      exact .inr (ht.raise (ht.sent send hpc hT))
    · exact .inl rfl
  · rw [hrepl, lookup_insert] at hpc
    cases hpc
    rfl

theorem Kept.run (h : x.Kept H id T) (hl : x.Leading T) {o : Raft.Op}
    (ho : o.replicates id = true) (hr : x.leader.rest.exec F o = some r) :
    (x.send id r).Kept H id T := by
  unfold Raft.Op.replicates at ho
  split at ho
  · cases of_decide_eq_true ho
    exact h.replicate hl hr
  · cases of_decide_eq_true ho
    simp only [Raft.exec] at hr
    split at hr
    · rename_i hpc
      exact h.chunk hl hpc hr
    · cases hr
  · cases of_decide_eq_true ho
    simp only [Raft.exec] at hr
    split at hr
    · rename_i hpc
      obtain ⟨r₁, hr₁, rfl⟩ := Option.map_eq_some_iff.mp hr
      exact h.sent hl hpc hr₁
    · cases hr
  · cases ho

/-- The leader has dealt with an answer: nothing of its log is touched, and what it notes as a match
is vouched for. -/
structure Answered (H : ℕ → Prop) (id : ServerID) (r r' : Raft σ) : Prop where
  log : r'.log = r.log
  lastIndex : r'.lastIndex = r.lastIndex
  snapshot : r'.snapshot = r.snapshot
  matched : r'.matchIndex.lookup id = r.matchIndex.lookup id ∨ H ((r'.matchIndex.lookup id).getD 0)

theorem answered_acknowledge (r : Raft σ) (id : ServerID) (req : AppendEntriesRequest) (now : ℤ)
    (hH : ∀ last, req.entries.getLast? = some last →
      H (max last.index ((r.matchIndex.lookup id).getD 0))) :
    Answered H id r (r.acknowledge id req now) := by
  have hcore := (r.quiet_noteAck id now).core
  have hm : (r.noteAck id now).matchIndex = r.matchIndex := congrArg Core.matchIndex hcore
  unfold Raft.acknowledge
  cases hlast : req.entries.getLast? with
  | none =>
    exact ⟨congrArg Core.log hcore, congrArg Core.lastIndex hcore, congrArg Core.snapshot hcore,
      .inl (congrArg (·.lookup id) hm)⟩
  | some last =>
    refine ⟨congrArg Core.log hcore, congrArg Core.lastIndex hcore, congrArg Core.snapshot hcore,
      .inr ?_⟩
    have hget : ((r.noteAck id now).recordMatch id last.index).matchIndex.lookup id =
        some (max last.index (((r.noteAck id now).matchIndex.lookup id).getD 0)) :=
      lookup_insert _
    rw [hget, hm]
    exact hH last hlast

theorem answered_replicateOnceReply {req : AppendEntriesRequest}
    {resp : AppendEntriesResponse} (now : ℤ) (hs : r.state = .leader)
    (hH : req.term = r.term → resp.success = true → ∀ last, req.entries.getLast? = some last →
      H (max last.index ((r.matchIndex.lookup id).getD 0))) :
    r.term < (r.replicateOnceReply id req resp now).term ∨
      Answered H id r (r.replicateOnceReply id req resp now) ∧
        ∃ pc, idle pc = true ∧
          (r.replicateOnceReply id req resp now).inflightReplication.lookup id = some pc := by
  have hset {r' : Raft σ} {pc : Replicator} (hpc : idle pc = true) (h : Answered H id r r') :
      Answered H id r (r'.setReplicator id pc) ∧
        ∃ pc', idle pc' = true ∧
          (r'.setReplicator id pc).inflightReplication.lookup id = some pc' :=
    ⟨{ h with }, pc, hpc, lookup_insert _⟩
  unfold Raft.replicateOnceReply
  rw [if_neg (not_not.mpr hs)]
  dsimp only
  split_ifs with hlt hresp hreq hok hmore
  · exact .inl hlt
  · exact .inr (hset rfl ⟨rfl, rfl, rfl, .inl rfl⟩)
  · exact .inr (hset rfl ⟨rfl, rfl, rfl, .inl rfl⟩)
  · exact .inr (hset rfl { answered_acknowledge r id req now (hH (not_not.mp hreq) hok) with })
  · exact .inr (hset rfl { answered_acknowledge r id req now (hH (not_not.mp hreq) hok) with })
  · have hcore := ((r.quiet_resetWindow id).trans (Raft.quiet_backOff _ id resp)).core
    exact .inr (hset rfl ⟨congrArg Core.log hcore, congrArg Core.lastIndex hcore,
      congrArg Core.snapshot hcore, .inl (congrArg (fun c : Core ↦ c.matchIndex.lookup id) hcore)⟩)

theorem Kept.lead_call (h : x.Kept H id T)
    (ht : r.state = .leader → r.term = T → Tracks H id T r.core x.log x.net none) :
    Kept H id T { x with leader := r.rest, call := none } :=
  { h with tracks := fun hl ↦ ht hl.1 hl.2 }

theorem Kept.appendReply (h : x.Kept H id T) (hl : x.Leading T) {i : ℕ}
    {req : AppendEntriesRequest} {resp : AppendEntriesResponse}
    (hq : x.net[i]? = some (.appendEntries req))
    (ha : req.term = T → (i, .appendEntries resp) ∈ x.replies)
    (hr : x.leader.readClock now = some r) :
    Kept H id T { x with leader := (r.replicateOnceReply id req resp now).rest, call := none } := by
  have ht := h.tracks hl
  obtain ⟨-, rfl⟩ : _ ∧ { x.leader with clock := now } = r :=
    Option.ite_none_right_eq_some.mp hr |>.imp_right Option.some.inj
  have hH (hterm : req.term = x.leader.term) (hok : resp.success = true) (last : LogEntry)
      (hlast : req.entries.getLast? = some last) :
      H (max last.index ((x.leader.matchIndex.lookup id).getD 0)) := by
    have hT : req.term = T := hterm.trans hl.2
    obtain ⟨req', hreq', hv⟩ := h.vouched _ (ha hT)
    cases hq.symm.trans hreq'
    have hk := hv hT hok
    rw [Raft.lastReqIndex, hlast] at hk
    exact ht.raise hk
  refine h.lead_call fun _ hT ↦ ?_
  have hans := answered_replicateOnceReply (r := { x.leader with clock := now }) now hl.1 hH
  rcases hans with hlt | ⟨hans, pc, hpc, hlook⟩
  · have hlt : x.leader.term < _ := hlt
    rw [hT, hl.2] at hlt
    exact absurd hlt (lt_irrefl T)
  · refine ht.goto hans.log hans.lastIndex hans.snapshot hans.matched fun pc' hpc' ↦ ?_
    cases hlook.symm.trans hpc'
    exact hpc

theorem Kept.snapshotReply (h : x.Kept H id T) (hl : x.Leading T) {i : ℕ}
    {req : InstallSnapshotRequest} {resp : InstallSnapshotResponse} {send : SnapshotSend} {n : ℕ}
    {done : Bool} (hc : x.call = some i) (hq : x.net[i]? = some (.installSnapshot req))
    (ha : req.term = T → (i, .installSnapshot resp) ∈ x.replies)
    (hpc : x.leader.inflightReplication.lookup id = some (.snapWaiting send n done)) :
    Kept H id T { x with
      leader := (x.leader.sendSnapshotReply id send n done resp).rest, call := none } := by
  have ht := h.tracks hl
  refine h.lead_call fun hs hT ↦ ?_
  unfold Raft.sendSnapshotReply at hs hT ⊢
  dsimp only at hs hT ⊢
  split_ifs at hs hT ⊢ with hlt hterm hd
  · cases hs
  · refine ht.goto rfl rfl rfl (.inl rfl) fun pc hpc ↦ ?_
    cases (lookup_insert _).symm.trans hpc
    rfl
  all_goals
    have hreqT : send.reqTerm = T := by
      rw [not_or, not_not, not_not] at hterm
      exact hterm.2.symm.trans hl.2
    obtain ⟨hle, j, req', hj, hnet, hT', hidx, hdone⟩ := ht.waiting send n done hpc hreqT
    cases hc.symm.trans hj
    cases hq.symm.trans hnet
    refine ⟨ht.carries.keep rfl rfl rfl, ht.within, fun send' hpc' _ ↦ ?_, fun _ _ _ hpc' ↦ ?_,
      fun send' hpc' _ ↦ ?_, ht.matched⟩
    all_goals cases (lookup_insert _).symm.trans hpc'
  · obtain ⟨req'', hreq'', hv⟩ := h.vouched _ (ha hT')
    cases hq.symm.trans hreq''
    have hresp : resp.term ≤ T := (not_lt.mp hlt).trans_eq hl.2
    have hk := hv hT' (hdone.trans hd) hresp
    rwa [hidx] at hk
  · exact hle

theorem Kept.hangUp (h : x.Kept H id T) {i : ℕ} {req : Request} (hc : x.call = some i)
    (hq : x.net[i]? = some req) (hreq : ∀ q, req ≠ .installSnapshot q) :
    Kept H id T { x with leader := x.leader.rest, call := none } := by
  refine h.lead_call fun hs hT ↦ ?_
  have ht := h.tracks ⟨hs, hT⟩
  refine { ht with waiting := fun send n done hpc hT ↦ ?_ }
  obtain ⟨-, j, q, hj, hnet, -⟩ := ht.waiting send n done hpc hT
  cases hc.symm.trans hj
  exact absurd (Option.some.inj (hq.symm.trans hnet)) (hreq q)

theorem Kept.reply (h : x.Kept H id T) (hl : x.Leading T) {i : ℕ} {req : Request}
    {resp : Response} (hc : x.call = some i) (hq : x.net[i]? = some req)
    (ha : req.ofLeader T = true → (i, resp) ∈ x.replies)
    (hr : x.leader.receive id now req resp = some r) :
    Kept H id T { x with leader := r.rest, call := none } := by
  unfold Raft.receive at hr
  split at hr
  · rename_i req resp
    have heq : x.leader = r := by
      refine Eq.trans ?_ (Option.some.inj hr)
      simp [Raft.sendPreVoteReply, Raft.sendVoteReply, hl.1]
    exact heq ▸ h.hangUp hc hq (by simp)
  · rename_i req resp
    split at hr
    · obtain ⟨r₁, hr₁, rfl⟩ := Option.map_eq_some_iff.mp hr
      exact h.appendReply hl hq (fun hT ↦ ha (decide_eq_true hT)) hr₁
    · cases hr
  · rename_i req resp
    split at hr
    · rename_i send n done hpc
      cases hr
      exact h.snapshotReply hl hc hq (fun hT ↦ ha (decide_eq_true hT)) hpc
    · cases hr
  · cases hr
    exact h.hangUp hc hq (by simp)
  · cases hr

theorem Kept.fail (h : x.Kept H id T) (hl : x.Leading T) {i : ℕ} {req : Request}
    (hc : x.call = some i) (hq : x.net[i]? = some req) (hr : x.leader.callFailed id req = some r) :
    Kept H id T { x with leader := r.rest, call := none } := by
  have ht := h.tracks hl
  have hidle {r : Raft σ} {pc : Replicator} (hpc : idle pc = true) (pc' : Replicator)
      (hpc' : (r.setReplicator id pc).core.inflightReplication.lookup id = some pc') :
      idle pc' = true := by
    cases (lookup_insert _).symm.trans hpc'
    exact hpc
  unfold Raft.callFailed at hr
  split at hr
  · split at hr
    · cases hr
      unfold Raft.replicateOnceError
      split <;> exact h.lead_call fun _ _ ↦ ht.goto rfl rfl rfl (.inl rfl) (hidle rfl)
    · cases hr
  · split at hr
    · cases hr
      exact h.lead_call fun _ _ ↦ ht.goto rfl rfl rfl (.inl rfl) (hidle rfl)
    · cases hr
  · cases hr
    exact h.hangUp hc hq nofun
  · cases hr
    exact h.hangUp hc hq nofun

end Exchange

end RaftConsensus
