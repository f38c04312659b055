import RaftConsensus.Kv.History
import RaftConsensus.Scripts

namespace RaftConsensus.Kv

structure WatchEvent where
  events : List Event
  revision : ℤ

inductive Replay
  | pending
  | sending (past : List Event)
  | done
deriving DecidableEq

/-- A subscription. `sent` is everything that was put on its channel, and the subscriber has taken
`taken` messages of it. -/
structure WatchEntry where
  key : Bytes
  isPrefix : Bool
  sinceRevision : ℤ
  startRev : ℤ
  registered : Bool
  canceled : Bool
  replay : Replay
  sent : List WatchEvent
  taken : ℕ

def watchChanSize : ℕ := 64

namespace WatchEntry

variable (e : WatchEntry)

def matchesKey (key : Bytes) : Bool := if e.isPrefix then e.key.isPrefixOf key else key = e.key

def subscription (key : Bytes) (isPrefix : Bool) (sinceRevision startRev : ℤ) : WatchEntry where
  key := key
  isPrefix := isPrefix
  sinceRevision := sinceRevision
  startRev := startRev
  registered := false
  canceled := false
  replay := if 0 ≤ sinceRevision ∧ sinceRevision < startRev then .pending else .done
  sent := []
  taken := 0

def ch : List WatchEvent := e.sent.drop e.taken

def push (m : WatchEvent) : WatchEntry := { e with sent := e.sent ++ [m] }

def live (x : Event) : Bool := e.startRev < x.revision && e.matchesKey x.key

def offer (events : List Event) : WatchEntry × ℕ :=
  let matching := events.filter e.live
  if e.canceled ∨ matching = [] then (e, 0)
  else if e.ch.length < watchChanSize then
    (e.push ⟨matching, (matching.getLast?.map Event.revision).getD 0⟩, 0)
  else (e, 1)

def send : Option WatchEntry :=
  match e.replay with
  | .sending [] => some { e with replay := .done }
  | .sending (x :: past) =>
    if e.startRev < x.revision ∨ !e.matchesKey x.key then some { e with replay := .sending past }
    else if e.ch.length < watchChanSize then
      some { e.push ⟨[x], x.revision⟩ with replay := .sending past }
    else none
  | _ => none

end WatchEntry

/-- Between two batches the dispatcher is idle; it fans a batch out under the read lock, to the
watchers that are left in `todo`. -/
inductive Dispatcher
  | idle
  | holding (events : List Event)
  | fanning (events : List Event) (todo : List ℕ)

/-- `entries` has every subscription ever made, in the order of the IDs. While `subscribing` is set
that subscription holds the write lock. `emitted` records the batches of all commands. -/
structure WatchManager where
  kv : KVStore
  entries : List WatchEntry
  subscribing : Option ℕ
  dispatcher : Dispatcher
  droppedEvents : ℕ
  emitted : List (List Event)

namespace WatchManager

def new (kv : KVStore) : WatchManager := ⟨kv, [], none, .idle, 0, []⟩

variable (w : WatchManager)

def watchers : List ℕ :=
  (List.range w.entries.length).filter fun id ↦ w.entries[id]?.any (·.registered)

def canLock : Bool :=
  match w.dispatcher with
  | .fanning _ _ => false
  | _ => w.subscribing.isNone

def log : List Event := w.emitted.flatten

inductive Action
  | apply (cmd : KvCommand)
  | receive
  | rlock
  | deliver (id : ℕ)
  | runlock
  | subscribe (key : Bytes) (isPrefix : Bool) (sinceRevision : ℤ)
  | register
  | fetch (id : ℕ)
  | send (id : ℕ)
  | take (id : ℕ)
  | cancel (id : ℕ)
  | remove (id : ℕ)

def modify (id : ℕ) (f : WatchEntry → Option WatchEntry) : Option WatchManager :=
  (w.entries[id]?.bind f).map fun e ↦ { w with entries := w.entries.set id e }

def step : Action → Option WatchManager
  | .apply cmd =>
    some { w with
      kv := (w.kv.apply cmd).1
      emitted := w.emitted ++ if w.kv.emitted cmd = [] then [] else [w.kv.emitted cmd] }
  | .receive =>
    match w.dispatcher, w.kv.eventCh with
    | .idle, events :: rest =>
      some { w with kv := { w.kv with eventCh := rest }, dispatcher := .holding events }
    | _, _ => none
  | .rlock =>
    match w.dispatcher with
    | .holding events =>
      if w.subscribing.isNone then some { w with dispatcher := .fanning events w.watchers }
      else none
    | _ => none
  | .deliver id =>
    match w.dispatcher, w.entries[id]? with
    | .fanning events todo, some e =>
      if id ∈ todo then
        some { w with
          entries := w.entries.set id (e.offer events).1
          dispatcher := .fanning events (todo.erase id)
          droppedEvents := w.droppedEvents + (e.offer events).2 }
      else none
    | _, _ => none
  | .runlock =>
    match w.dispatcher with
    | .fanning _ [] => some { w with dispatcher := .idle }
    | _ => none
  | .subscribe key isPrefix sinceRevision =>
    if w.canLock then
      some { w with
        entries := w.entries ++ [.subscription key isPrefix sinceRevision w.kv.revision]
        subscribing := some w.entries.length }
    else none
  | .register =>
    match w.subscribing with
    | none => none
    | some id =>
      (w.modify id fun e ↦ some { e with registered := true }).map
        fun w ↦ { w with subscribing := none }
  | .fetch id =>
    -- the goroutine of the replay starts after the write lock is released
    if w.subscribing = some id then none
    else w.modify id fun e ↦
      match e.replay with
      | .pending => some { e with replay := .sending (w.kv.getHistory e.sinceRevision) }
      | _ => none
  | .send id => w.modify id WatchEntry.send
  | .take id => w.modify id fun e ↦
    if e.taken < e.sent.length then some { e with taken := e.taken + 1 } else none
  | .cancel id => w.modify id fun e ↦ some { e with canceled := true }
  | .remove id =>
    if w.canLock then w.modify id fun e ↦ some { e with registered := false } else none

variable {w} in
theorem modify_eq_some {w' : WatchManager} {id : ℕ} {f : WatchEntry → Option WatchEntry}
    (h : w.modify id f = some w') : ∃ e e', w.entries[id]? = some e ∧ f e = some e' ∧
      w' = { w with entries := w.entries.set id e' } := by
  obtain ⟨e', hbind, rfl⟩ := Option.map_eq_some_iff.mp h
  obtain ⟨e, he, hfe⟩ := Option.bind_eq_some_iff.mp hbind
  exact ⟨e, e', he, hfe, rfl⟩

def steps : WatchManager → List Action → Option WatchManager := Script.run step

end WatchManager

end RaftConsensus.Kv
