import RaftConsensus.Kv.Streaming

namespace RaftConsensus.Kv

open List

namespace Streaming

variable {kv : KVStore} {w w' : Streaming} {e e' : WatchEntry} {start revision bound : ℤ}

def upTo (c : WatchClient) (start bound : ℤ) (x : Event) : Bool :=
  c.selects start x ∧ x.revision ≤ bound

structure Reading (start : ℤ) (w : Streaming) (e : WatchEntry) : Prop where
  key : e.key = w.client.key
  isPrefix : e.isPrefix = w.client.isPrefix
  start_le : start ≤ e.sinceRevision
  known : e.sinceRevision = start ∨ e.sinceRevision ≤ e.startRev
  read_le : w.client.read ≤ e.taken
  since_le : e.sinceRevision ≤ w.client.lastRevision
  le_last : ∀ m ∈ e.sent.take w.client.read, m.revision ≤ w.client.lastRevision
  last : w.client.lastRevision = e.sinceRevision ∨
    ∃ m ∈ e.sent.take w.client.read, m.revision = w.client.lastRevision
  received : w.received.filter (start < ·.revision) =
    w.manager.log.filter (upTo w.client start e.sinceRevision) ++
      (e.messages.take w.client.read).flatten.filter (e.sinceRevision < ·.revision)

structure Inv (kv : KVStore) (start : ℤ) (w : Streaming) : Prop where
  manager : w.manager.Inv kv
  start_le : start ≤ w.client.lastRevision
  known : w.client.lastRevision = start ∨ w.client.lastRevision ≤ w.manager.kv.revision
  idle : w.client.session = none → w.received.filter (start < ·.revision) =
    w.manager.log.filter (upTo w.client start w.client.lastRevision)
  reading : ∀ id, w.client.session = some id → ∃ e, w.manager.entries[id]? = some e ∧
    w.Reading start e

theorem filter_upTo_append {c : WatchClient} (hb : bound = start ∨ bound ≤ revision)
    (log : List Event) {new : List Event} (hnew : ∀ x ∈ new, revision < x.revision) :
    (log ++ new).filter (upTo c start bound) = log.filter (upTo c start bound) := by
  have hnil : new.filter (upTo c start bound) = [] := by
    refine filter_eq_nil_iff.mpr fun x hx hup ↦ ?_
    obtain ⟨hsel, hle⟩ := of_decide_eq_true hup
    have hlt := (of_decide_eq_true hsel).1
    have := hnew x hx
    omega
  rw [filter_append, hnil, append_nil]

theorem filter_selects_le (c : WatchClient) (log : List Event) :
    (log.filter (c.selects start)).filter (·.revision ≤ bound) =
    log.filter (upTo c start bound) := by
  rw [filter_filter]
  refine filter_congr fun x _ ↦ ?_
  simp only [upTo, Bool.decide_and, Bool.decide_eq_true]
  exact Bool.and_comm _ _

theorem Reading.selects (h : w.Reading start e) (x : Event) :
    e.selects x = w.client.selects e.sinceRevision x := by
  unfold WatchEntry.selects WatchClient.selects WatchEntry.matchesKey WatchClient.matchesKey
  rw [h.key, h.isPrefix]

theorem Reading.upTo_append (h : w.Reading start e) (hB : Batched revision w.manager.emitted) :
    w.manager.log.filter (upTo w.client start e.sinceRevision) ++ w.manager.log.filter e.selects =
      w.manager.log.filter (w.client.selects start) := by
  have hstart := h.start_le
  have hsort : w.manager.log.Pairwise (·.revision ≤ ·.revision) := hB.sorted
  refine Eq.trans ?_ (filter_le_append_filter_lt Event.revision e.sinceRevision
    (hsort.filter (w.client.selects start)))
  rw [filter_selects_le, filter_filter]
  congr 1
  refine filter_congr fun x _ ↦ ?_
  rw [h.selects]
  simp only [WatchClient.selects, ← Bool.decide_and, decide_eq_decide]
  constructor
  · exact fun hx ↦ ⟨hx.1, by omega, hx.2⟩
  · exact fun hx ↦ ⟨hx.1, hx.2.2⟩

theorem Reading.filter_events (h : w.Reading start e) (hi : w.manager.Inv kv) {id : ℕ}
    (he : w.manager.entries[id]? = some e) {m : WatchEvent} (hm : m ∈ e.sent) :
    m.events.filter (start < ·.revision) = m.events.filter (e.sinceRevision < ·.revision) := by
  rcases h.known with hknown | hknown
  · rw [hknown]
  · have hs := h.start_le
    refine filter_congr fun x hx ↦ ?_
    have hlt : e.sinceRevision < x.revision := by
      rcases ((hi.served id e he).mem_events hm hx).2 with hlt | hlt
      · exact hlt
      · exact hknown.trans_lt hlt
    rw [decide_eq_true hlt, decide_eq_true (hs.trans_lt hlt)]

theorem Inv.server (h : Inv kv start w) (hk : WatchManager.Fresh kv) {a : WatchManager.Action}
    {m : WatchManager} (ha : w.manager.allowed a = true) (hs : w.manager.step a = some m) :
    Inv kv start { w with manager := m } := by
  have hgrow := WatchManager.grows_step hs
  obtain ⟨new, hem, hnew⟩ := hgrow.emitted
  have hlog : m.log = w.manager.log ++ new.flatten := by
    rw [WatchManager.log, hem, flatten_append]
    rfl
  have hlater : ∀ x ∈ new.flatten, w.manager.kv.revision < x.revision := by
    intro x hx
    obtain ⟨b, hb, hxb⟩ := mem_flatten.mp hx
    exact hnew b hb x hxb
  refine ⟨h.manager.step hk ha hs, h.start_le, ?_, fun hnone ↦ ?_, fun id hid ↦ ?_⟩
  · exact h.known.imp_right fun hle ↦ hle.trans hgrow.revision_le
  · rw [hlog, filter_upTo_append h.known _ hlater]
    exact h.idle hnone
  · obtain ⟨e, he, hr⟩ := h.reading id hid
    obtain ⟨e', he', hx⟩ := hgrow.entries id e he
    have hlen : w.client.read ≤ e.sent.length :=
      hr.read_le.trans (h.manager.served id e he).taken_le
    have htake : e'.sent.take w.client.read = e.sent.take w.client.read := by
      obtain ⟨more, hmore⟩ := hx.sent
      rw [← hmore, take_append_of_le_length hlen]
    have hbound : e.sinceRevision = start ∨ e.sinceRevision ≤ w.manager.kv.revision :=
      hr.known.imp_right fun hle ↦ hle.trans (h.manager.served id e he).startRev_le
    refine ⟨e', he', hx.key.trans hr.key, hx.isPrefix.trans hr.isPrefix, ?_, ?_, ?_, ?_, ?_, ?_, ?_⟩
    · rw [hx.sinceRevision]
      exact hr.start_le
    · rw [hx.sinceRevision, hx.startRev]
      exact hr.known
    · exact hr.read_le.trans hx.taken
    · rw [hx.sinceRevision]
      exact hr.since_le
    · rw [htake]
      exact hr.le_last
    · rw [htake, hx.sinceRevision]
      exact hr.last
    · rw [hx.sinceRevision, hlog, filter_upTo_append hbound _ hlater, WatchEntry.messages,
        ← map_take, htake, map_take]
      exact hr.received

theorem Inv.connect (h : Inv kv start w) (hk : WatchManager.Fresh kv) (hstart : 0 ≤ start)
    {m : WatchManager} (hnone : w.client.session = none)
    (hs : w.manager.step (.subscribe w.client.key w.client.isPrefix w.client.lastEventID) =
      some m) :
    Inv kv start ⟨m, { w.client with session := some w.manager.entries.length, read := 0 }⟩ := by
  have hm := h.manager.step hk (a := .subscribe _ _ _) rfl hs
  have hid : w.client.lastEventID = w.client.lastRevision := by
    have := h.start_le
    unfold WatchClient.lastEventID
    split_ifs <;> omega
  dsimp only [WatchManager.step] at hs
  split_ifs at hs
  cases hs
  refine ⟨hm, h.start_le, h.known, nofun, fun id hsome ↦ ?_⟩
  cases hsome
  refine ⟨_, getElem?_concat_length, ⟨rfl, rfl, ?_, ?_, le_rfl, ?_, ?_, ?_, ?_⟩⟩
  · exact h.start_le.trans hid.ge
  · change w.client.lastEventID = start ∨ w.client.lastEventID ≤ _
    rw [hid]
    exact h.known
  · exact hid.le
  · exact forall_mem_nil _
  · exact .inl hid.symm
  · rw [take_zero, flatten_nil, filter_nil, append_nil]
    change _ = w.manager.log.filter (upTo w.client start w.client.lastEventID)
    rw [hid]
    exact h.idle hnone

theorem Inv.receive (h : Inv kv start w) {id : ℕ} {m : WatchEvent}
    (hid : w.client.session = some id) (he : w.manager.entries[id]? = some e)
    (hlt : w.client.read < e.taken) (hm : e.sent[w.client.read]? = some m) :
    Inv kv start { w with client := { w.client with
      lastRevision := max w.client.lastRevision m.revision
      read := w.client.read + 1
      received := w.client.received ++ [m] } } := by
  obtain ⟨e₁, he₁, hr⟩ := h.reading id hid
  cases he.symm.trans he₁
  have hserved := h.manager.served id e he
  have htake : e.sent.take (w.client.read + 1) = e.sent.take w.client.read ++ [m] := by
    rw [take_add_one, hm]
    rfl
  have hmem : m ∈ e.sent := mem_of_getElem? hm
  refine ⟨h.manager, h.start_le.trans (le_max_left _ _), ?_, fun hnone ↦ ?_, fun id' hid' ↦ ?_⟩
  · have hle := hserved.revision_le h.manager.batched hmem
    rcases h.known with hknown | hknown
    · rcases le_total w.client.lastRevision m.revision with hmax | hmax
      · exact .inr (max_le (hmax.trans hle) hle)
      · exact .inl ((max_eq_left hmax).trans hknown)
    · exact .inr (max_le hknown hle)
  · rw [hid] at hnone
    cases hnone
  · cases hid.symm.trans hid'
    refine ⟨e, he, hr.key, hr.isPrefix, hr.start_le, hr.known, hlt,
      hr.since_le.trans (le_max_left _ _), ?_, ?_, ?_⟩
    · intro m' hm'
      rw [htake] at hm'
      rcases mem_append.mp hm' with hm' | hm'
      · exact (hr.le_last m' hm').trans (le_max_left _ _)
      · cases mem_singleton.mp hm'
        exact le_max_right _ _
    · dsimp only
      rw [htake]
      rcases le_total w.client.lastRevision m.revision with hmax | hmax
      · exact .inr ⟨m, mem_append_right _ mem_cons_self, (max_eq_right hmax).symm⟩
      · rw [max_eq_left hmax]
        exact hr.last.imp_right fun ⟨m', hm', heq⟩ ↦ ⟨m', mem_append_left _ hm', heq⟩
    · have hgot := hr.received
      have hevents := hr.filter_events h.manager he hmem
      dsimp only [received] at hgot ⊢
      rw [map_append, flatten_append, filter_append, hgot, WatchEntry.messages,
        ← map_take, ← map_take, htake, map_append, flatten_append,
        filter_append, append_assoc]
      congr 2
      simpa using hevents

theorem Inv.disconnect (h : Inv kv start w) (hstart : 0 ≤ start)
    (ha : w.allowed .disconnect = true) :
    Inv kv start { w with client := { w.client with session := none } } := by
  refine ⟨h.manager, h.start_le, h.known, fun _ ↦ ?_, nofun⟩
  cases hs : w.client.session with
  | none => exact h.idle hs
  | some id =>
    obtain ⟨e, he, hr⟩ := h.reading id hs
    have hnot : ∀ x ∈ (e.messages.drop w.client.read ++ e.rest w.manager.emitted).flatten,
        x.revision ≠ w.client.lastRevision := by
      have hentry : w.entry = some e := by rw [entry, hs]; exact he
      dsimp only [allowed] at ha
      rw [hentry] at ha
      intro x hx
      exact of_decide_eq_true (all_eq_true.mp ha x hx)
    have htake := (h.manager.served id e he).filter_take h.manager.batched
      (hstart.trans hr.start_le) hr.le_last hr.last hnot
    have hall := congrArg (filter (·.revision ≤ w.client.lastRevision))
      (hr.upTo_append h.manager.batched)
    have hbefore : (w.manager.log.filter (upTo w.client start e.sinceRevision)).filter
        (·.revision ≤ w.client.lastRevision) =
          w.manager.log.filter (upTo w.client start e.sinceRevision) := by
      refine filter_eq_self.mpr fun x hx ↦ decide_eq_true ?_
      exact (of_decide_eq_true (mem_filter.mp hx).2).2.trans hr.since_le
    rw [filter_append, hbefore, filter_selects_le] at hall
    refine hr.received.trans (Eq.trans ?_ hall)
    rw [htake]
    rfl

theorem Inv.step (h : Inv kv start w) (hk : WatchManager.Fresh kv) (hstart : 0 ≤ start) {a : Action}
    (ha : w.allowed a = true) (hs : w.step a = some w') : Inv kv start w' := by
  cases a with
  | server a =>
    obtain ⟨m, hm, rfl⟩ := Option.map_eq_some_iff.mp hs
    exact h.server hk ha hm
  | connect =>
    dsimp only [Streaming.step] at hs
    split_ifs at hs with hnone
    obtain ⟨m, hm, rfl⟩ := Option.map_eq_some_iff.mp hs
    exact h.connect hk hstart (Option.isNone_iff_eq_none.mp hnone) hm
  | receive =>
    dsimp only [Streaming.step] at hs
    split at hs
    · cases hs
    · rename_i e hentry
      split_ifs at hs with hlt
      obtain ⟨m, hm, rfl⟩ := Option.map_eq_some_iff.mp hs
      obtain ⟨id, hid, he⟩ := Option.bind_eq_some_iff.mp hentry
      exact h.receive hid he hlt hm
  | disconnect =>
    cases hs
    exact h.disconnect hstart ha

theorem inv_new (hk : WatchManager.Fresh kv) (key : Bytes) (isPrefix : Bool) (start : ℤ) :
    Inv kv start (new kv key isPrefix start) :=
  ⟨WatchManager.inv_new hk, le_rfl, .inl rfl, fun _ ↦ rfl, nofun⟩

theorem Inv.allowedSteps (h : Inv kv start w) (hk : WatchManager.Fresh kv) (hstart : 0 ≤ start)
    {actions : List Action} (hs : w.allowedSteps actions = some w') : Inv kv start w' := by
  refine Script.invariant (fun w₁ a w₂ ha h₁ ↦ ?_) hs h
  obtain ⟨ha, hs⟩ := Script.of_guarded ha
  exact h₁.step hk hstart ha hs

theorem Inv.received_prefix (h : Inv kv start w) (hstart : 0 ≤ start) :
    w.received.filter (start < ·.revision) <+: w.manager.log.filter (w.client.selects start) := by
  cases hs : w.client.session with
  | none =>
    have hsort : w.manager.log.Pairwise (·.revision ≤ ·.revision) := h.manager.batched.sorted
    have hsplit := filter_le_append_filter_lt Event.revision w.client.lastRevision
      (hsort.filter (w.client.selects start))
    rw [filter_selects_le] at hsplit
    rw [h.idle hs]
    exact ⟨_, hsplit⟩
  | some id =>
    obtain ⟨e, he, hr⟩ := h.reading id hs
    obtain ⟨tail, heq, -⟩ := (h.manager.served id e he).split_at w.client.read
    have hfilter := WatchEntry.filter_wanted (e := e) h.manager.batched (hstart.trans hr.start_le)
    rw [← heq, flatten_append, filter_append] at hfilter
    rw [hr.received, ← hr.upTo_append h.manager.batched]
    exact (prefix_append_right_inj _).mpr ⟨_, hfilter⟩

theorem Inv.received_eq (h : Inv kv start w) (hstart : 0 ≤ start) (hc : w.caughtUp = true) :
    w.received.filter (start < ·.revision) = w.manager.log.filter (w.client.selects start) := by
  obtain ⟨id, hs, hentry⟩ := (Option.any_eq_true _ _).mp hc
  obtain ⟨e, he, hspec⟩ := (Option.any_eq_true _ _).mp hentry
  obtain ⟨hreg, hcan, hdone, hq, hread⟩ := of_decide_eq_true hspec
  obtain ⟨e₁, he₁, hr⟩ := h.reading id hs
  cases he.symm.trans he₁
  obtain ⟨tail, heq, -, htail⟩ := (h.manager.served id e he).split_at w.client.read
  have hnil : tail = [] := by
    rw [htail ⟨hcan, .inl hreg⟩, hq]
    rfl
  have hrest : e.rest w.manager.emitted = [] := by rw [WatchEntry.rest, hdone]
  have hdrop : e.messages.drop w.client.read = [] := by
    rw [hread, WatchEntry.messages, ← map_drop, drop_length]
    rfl
  have hfilter := WatchEntry.filter_wanted (e := e) h.manager.batched (hstart.trans hr.start_le)
  rw [← heq, hdrop, hrest, hnil, append_nil, append_nil, append_nil] at hfilter
  rw [hr.received, hfilter]
  exact hr.upTo_append h.manager.batched

/-- A client that never disconnects inside a revision has no gap: it has received the first of the
matching events after its start, and all of them when it has caught up. -/
theorem received_of_allowedSteps (hk : WatchManager.Fresh kv) (hstart : 0 ≤ start) {key : Bytes}
    {isPrefix : Bool} {actions : List Action}
    (h : (new kv key isPrefix start).allowedSteps actions = some w) :
    w.received.filter (start < ·.revision) <+: w.manager.log.filter (w.client.selects start) ∧
      (w.caughtUp = true →
        w.received.filter (start < ·.revision) =
          w.manager.log.filter (w.client.selects start)) := by
  have hi := (inv_new hk key isPrefix start).allowedSteps hk hstart h
  exact ⟨hi.received_prefix hstart, hi.received_eq hstart⟩

def putBoth : KvCommand :=
  encodeTxn ⟨[], [⟨.put, ascii "a1", ascii "1"⟩, ⟨.put, ascii "a2", ascii "2"⟩], []⟩

def stream : List WatchManager.Action → List Action := map .server

def reconnect (id : ℕ) : List Action :=
  .disconnect :: stream [.cancel id, .remove id] ++ [.connect, .server .register]

/-- The client is replayed both events of the transaction before it reconnects. -/
def cutAfterBoth : List Action :=
  .server (.apply putBoth) :: .connect ::
    stream [.register, .fetch 0, .send 0, .send 0, .send 0, .take 0, .take 0] ++
    [.receive, .receive] ++ reconnect 0 ++
    stream [.receive, .rlock, .deliver 1, .runlock]

theorem received_cutAfterBoth : ∃ w,
    (new .new (ascii "a") true 0).allowedSteps cutAfterBoth = some w ∧ w.manager.log.length = 2 ∧
      w.received.filter (0 < ·.revision) = w.manager.log.filter (w.client.selects 0) := by
  have hrun : ((new .new (ascii "a") true 0).allowedSteps cutAfterBoth).any (fun w ↦
      w.manager.log.length = 2 ∧ w.caughtUp) = true := by decide +kernel
  obtain ⟨w, hw, hspec⟩ := (Option.any_eq_true _ _).mp hrun
  obtain ⟨hlen, hc⟩ := of_decide_eq_true hspec
  exact ⟨w, hw, hlen, (received_of_allowedSteps ⟨rfl, rfl⟩ le_rfl hw).2 hc⟩

/-- The client is cut off after the first event of the transaction. -/
def cutInside : List Action :=
  .server (.apply putBoth) :: .connect ::
    stream [.register, .fetch 0, .send 0, .send 0, .send 0, .take 0] ++
    [.receive] ++ reconnect 0 ++
    stream [.receive, .rlock, .deliver 1, .runlock]

theorem event_lost_on_resume : ((new .new (ascii "a") true 0).steps cutInside).any (fun w ↦
    w.manager.kv.droppedEvents = 0 ∧ w.manager.droppedEvents = 0 ∧ w.caughtUp ∧
      (w.manager.log.map (fun x ↦ (x.key, x.revision))) = [(ascii "a1", 1), (ascii "a2", 1)] ∧
      w.client.lastRevision = 1 ∧ w.received.map Event.key = [ascii "a1"]) = true := by
  decide +kernel

end Streaming

end RaftConsensus.Kv
