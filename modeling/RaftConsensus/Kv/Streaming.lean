import RaftConsensus.Kv.Delivery

namespace RaftConsensus.Kv

open List

/-- A client of the event stream. Its current stream reads from the subscription `session`, of which
it has received `read` messages. -/
structure WatchClient where
  key : Bytes
  isPrefix : Bool
  lastRevision : ℤ
  session : Option ℕ
  read : ℕ
  received : List WatchEvent

def WatchClient.matchesKey (c : WatchClient) (key : Bytes) : Bool :=
  if c.isPrefix then c.key.isPrefixOf key else key = c.key

def WatchClient.selects (c : WatchClient) (start : ℤ) (x : Event) : Bool :=
  start < x.revision ∧ c.matchesKey x.key

def WatchClient.lastEventID (c : WatchClient) : ℤ :=
  if 0 < c.lastRevision then c.lastRevision else 0

structure Streaming where
  manager : WatchManager
  client : WatchClient

namespace Streaming

def new (kv : KVStore) (key : Bytes) (isPrefix : Bool) (sinceRevision : ℤ) : Streaming :=
  ⟨.new kv, ⟨key, isPrefix, sinceRevision, none, 0, []⟩⟩

inductive Action
  | server (a : WatchManager.Action)
  | connect
  | receive
  | disconnect

def entry (w : Streaming) : Option WatchEntry := w.client.session.bind (w.manager.entries[·]?)

def step (w : Streaming) : Action → Option Streaming
  | .server a => (w.manager.step a).map fun m ↦ { w with manager := m }
  | .connect =>
    if w.client.session.isNone then
      (w.manager.step (.subscribe w.client.key w.client.isPrefix w.client.lastEventID)).map fun m ↦
        ⟨m, { w.client with session := some w.manager.entries.length, read := 0 }⟩
    else none
  | .receive =>
    match w.entry with
    | none => none
    | some e =>
      if w.client.read < e.taken then
        e.sent[w.client.read]?.map fun m ↦
          { w with client := { w.client with
            lastRevision := max w.client.lastRevision m.revision
            read := w.client.read + 1
            received := w.client.received ++ [m] } }
      else none
  | .disconnect => some { w with client := { w.client with session := none } }

def steps : Streaming → List Action → Option Streaming := Script.run step

/-- A client that disconnects has received all events of its last revision that are on the way to
it. -/
def allowed (w : Streaming) : Action → Bool
  | .server a => w.manager.allowed a
  | .disconnect => w.entry.all fun e ↦
      (e.messages.drop w.client.read ++ e.rest w.manager.emitted).flatten.all
        (·.revision ≠ w.client.lastRevision)
  | _ => true

def allowedSteps : Streaming → List Action → Option Streaming :=
  Script.run (Script.guarded allowed step)

def received (w : Streaming) : List Event := (w.client.received.map WatchEvent.events).flatten

/-- The client has a registered subscription, nothing is queued for it, and it has received what was
sent. -/
def caughtUp (w : Streaming) : Bool :=
  w.client.session.any fun id ↦ w.manager.entries[id]?.any fun e ↦
    e.registered ∧ e.canceled = false ∧ e.replay = .done ∧ w.manager.queue id = [] ∧
      w.client.read = e.sent.length

end Streaming

/-- What a step can do to a subscription: messages are added and taken. -/
structure WatchEntry.Extends (e e' : WatchEntry) : Prop where
  key : e'.key = e.key
  isPrefix : e'.isPrefix = e.isPrefix
  sinceRevision : e'.sinceRevision = e.sinceRevision
  startRev : e'.startRev = e.startRev
  sent : e.sent <+: e'.sent
  taken : e.taken ≤ e'.taken

theorem WatchEntry.Extends.refl (e : WatchEntry) : e.Extends e :=
  ⟨rfl, rfl, rfl, rfl, prefix_rfl, le_rfl⟩

namespace WatchManager

structure Grows (w w' : WatchManager) : Prop where
  revision_le : w.kv.revision ≤ w'.kv.revision
  emitted : ∃ new, w'.emitted = w.emitted ++ new ∧ ∀ b ∈ new, ∀ x ∈ b, w.kv.revision < x.revision
  entries : ∀ (id : ℕ) (e : WatchEntry), w.entries[id]? = some e → ∃ e', w'.entries[id]? = some e' ∧
    e.Extends e'

section Grows

variable {w w' : WatchManager} {id : ℕ} {e e' : WatchEntry} {a : Action}

theorem extends_set (he : w.entries[id]? = some e) (h : e.Extends e') (j : ℕ) (x : WatchEntry)
    (hx : w.entries[j]? = some x) : ∃ x', (w.entries.set id e')[j]? = some x' ∧ x.Extends x' := by
  rw [getElem?_set]
  split_ifs with hj hlt
  · subst hj
    cases he.symm.trans hx
    exact ⟨e', rfl, h⟩
  · exact absurd (length_lt_of_getElem? he) hlt
  · exact ⟨x, hx, .refl x⟩

theorem Grows.quiet (hrev : w'.kv.revision = w.kv.revision) (hem : w'.emitted = w.emitted)
    (he : ∀ (id : ℕ) (e : WatchEntry), w.entries[id]? = some e → ∃ e', w'.entries[id]? = some e' ∧
      e.Extends e') :
    Grows w w' := by
  refine ⟨hrev.ge, ⟨[], ?_, forall_mem_nil _⟩, he⟩
  rw [hem, append_nil]

theorem Grows.modify {f : WatchEntry → Option WatchEntry}
    (hf : ∀ e e', f e = some e' → e.Extends e') (hs : w.modify id f = some w') : Grows w w' := by
  obtain ⟨e, e', he, hfe, rfl⟩ := modify_eq_some hs
  exact .quiet rfl rfl (extends_set he (hf e e' hfe))

theorem extends_offer (e : WatchEntry) (events : List Event) : e.Extends (e.offer events).1 := by
  unfold WatchEntry.offer
  dsimp only
  split_ifs
  · exact .refl e
  · exact ⟨rfl, rfl, rfl, rfl, prefix_append _ _, le_rfl⟩
  · exact .refl e

theorem extends_send (hs : e.send = some e') : e.Extends e' := by
  unfold WatchEntry.send at hs
  split at hs
  · cases hs
    exact ⟨rfl, rfl, rfl, rfl, prefix_rfl, le_rfl⟩
  · split_ifs at hs
    · cases hs
      exact ⟨rfl, rfl, rfl, rfl, prefix_rfl, le_rfl⟩
    · cases hs
      exact ⟨rfl, rfl, rfl, rfl, prefix_append _ _, le_rfl⟩
  · cases hs

theorem grows_apply (w : WatchManager) (cmd : KvCommand) : Grows w { w with
    kv := (w.kv.apply cmd).1
    emitted := w.emitted ++ if w.kv.emitted cmd = [] then [] else [w.kv.emitted cmd] } := by
  have hf := w.kv.follows_apply cmd
  refine ⟨hf.revision_le, ⟨_, rfl, fun b hb x hx ↦ ?_⟩, fun id e he ↦ ⟨e, he, .refl e⟩⟩
  split_ifs at hb
  · cases hb
  · cases mem_singleton.mp hb
    exact (hf.revision x hx).1

theorem grows_step (hs : w.step a = some w') : Grows w w' := by
  cases a with
  | apply cmd =>
    cases hs
    exact grows_apply w cmd
  | receive =>
    dsimp only [step] at hs
    split at hs <;> cases hs
    exact .quiet rfl rfl fun id e he ↦ ⟨e, he, .refl e⟩
  | rlock =>
    dsimp only [step] at hs
    split at hs
    · split_ifs at hs
      cases hs
      exact .quiet rfl rfl fun id e he ↦ ⟨e, he, .refl e⟩
    · cases hs
  | deliver id =>
    dsimp only [step] at hs
    split at hs
    · rename_i events todo e hd he
      split_ifs at hs
      cases hs
      exact .quiet rfl rfl (extends_set he (extends_offer e events))
    · cases hs
  | runlock =>
    dsimp only [step] at hs
    split at hs <;> cases hs
    exact .quiet rfl rfl fun id e he ↦ ⟨e, he, .refl e⟩
  | subscribe key isPrefix sinceRevision =>
    dsimp only [step] at hs
    split_ifs at hs
    cases hs
    refine .quiet rfl rfl fun id e he ↦ ⟨e, ?_, .refl e⟩
    exact (getElem?_append_left (length_lt_of_getElem? he)).trans he
  | register =>
    dsimp only [step] at hs
    split at hs
    · cases hs
    · obtain ⟨w₁, hmod, rfl⟩ := Option.map_eq_some_iff.mp hs
      obtain ⟨e, e', he, hfe, rfl⟩ := modify_eq_some hmod
      cases hfe
      refine .quiet rfl rfl (extends_set he ?_)
      exact ⟨rfl, rfl, rfl, rfl, prefix_rfl, le_rfl⟩
  | fetch id =>
    dsimp only [step] at hs
    split_ifs at hs
    refine .modify (fun e e' hf ↦ ?_) hs
    split at hf <;> cases hf
    exact ⟨rfl, rfl, rfl, rfl, prefix_rfl, le_rfl⟩
  | send id => exact .modify (fun e e' hf ↦ extends_send hf) hs
  | take id =>
    refine .modify (fun e e' hf ↦ ?_) hs
    split_ifs at hf
    cases hf
    exact ⟨rfl, rfl, rfl, rfl, prefix_rfl, Nat.le_succ _⟩
  | cancel id =>
    refine .modify (fun e e' hf ↦ ?_) hs
    cases hf
    exact ⟨rfl, rfl, rfl, rfl, prefix_rfl, le_rfl⟩
  | remove id =>
    dsimp only [step] at hs
    split_ifs at hs
    refine .modify (fun e e' hf ↦ ?_) hs
    cases hf
    exact ⟨rfl, rfl, rfl, rfl, prefix_rfl, le_rfl⟩

end Grows

end WatchManager

end RaftConsensus.Kv
