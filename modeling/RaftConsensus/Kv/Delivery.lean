import RaftConsensus.Kv.Messages

namespace RaftConsensus.Kv

open List

def Dispatcher.queued (id : ℕ) : Dispatcher → List (List Event)
  | .idle => []
  | .holding events => [events]
  | .fanning events todo => if id ∈ todo then [events] else []

namespace WatchManager

def queue (w : WatchManager) (id : ℕ) : List (List Event) := w.dispatcher.queued id ++ w.kv.eventCh

def Active (w : WatchManager) (id : ℕ) (e : WatchEntry) : Prop :=
  e.canceled = false ∧ (e.registered = true ∨ w.subscribing = some id)

/-- No batch and no message is dropped, no live message goes to a subscriber whose replay is not
finished, and the replay reads the history while it holds everything that was asked for. -/
def allowed (w : WatchManager) : Action → Bool
  | .apply cmd => w.kv.emitted cmd = [] ∨ w.kv.eventCh.length < defaultEventChanSize
  | .deliver id =>
    match w.dispatcher, w.entries[id]? with
    | .fanning events _, some e =>
      e.canceled ∨ events.filter e.live = [] ∨ e.replay = .done ∧ e.ch.length < watchChanSize
    | _, _ => true
  | .fetch id =>
    match w.entries[id]? with
    | some e => (w.log.filter (e.sinceRevision < ·.revision)).length ≤ defaultHistorySize
    | none => true
  | _ => true

def allowedSteps : WatchManager → List Action → Option WatchManager :=
  Script.run (Script.guarded allowed step)

def Fresh (kv : KVStore) : Prop := kv.history.toList = [] ∧ kv.eventCh = []

structure Inv (kv : KVStore) (w : WatchManager) : Prop where
  batched : Batched w.kv.revision w.emitted
  history : w.kv.history = w.log.foldl Ring.push kv.history
  queue : ∀ id, ∀ b ∈ w.queue id, b ∈ w.emitted
  todo : ∀ events todo, w.dispatcher = .fanning events todo →
    events ∈ w.emitted ∧ todo.Nodup ∧ ∀ id ∈ todo, ∀ e, w.entries[id]? = some e →
    e.registered = true
  served : ∀ id (e : WatchEntry), w.entries[id]? = some e →
    e.Served w.kv.revision w.emitted (w.queue id) (w.Active id e)

section Steps

variable {kv : KVStore} {w w' : WatchManager} {id : ℕ} {e e' : WatchEntry}

theorem inv_new (h : Fresh kv) : Inv kv (new kv) := by
  refine ⟨⟨.nil, forall_mem_nil _, forall_mem_nil _⟩, rfl, fun id b hb ↦ ?_, nofun, nofun⟩
  have hq : (new kv).queue id = [] := h.2
  rw [hq] at hb
  cases hb

theorem length_lt_of_getElem? (he : w.entries[id]? = some e) : id < w.entries.length := by
  by_contra hlt
  rw [getElem?_eq_none (not_lt.mp hlt)] at he
  cases he

theorem Inv.set (h : Inv kv w) (he : w.entries[id]? = some e)
    (hreg : ∀ events todo, w.dispatcher = .fanning events todo →
      e.registered = true → e'.registered = true)
    (hs : e'.Served w.kv.revision w.emitted (w.queue id) (w.Active id e')) :
    Inv kv { w with entries := w.entries.set id e' } := by
  refine ⟨h.batched, h.history, h.queue, fun events todo hd ↦ ?_, fun j x hx ↦ ?_⟩
  · obtain ⟨hmem, hnodup, hall⟩ := h.todo events todo hd
    refine ⟨hmem, hnodup, fun j hj x hx ↦ ?_⟩
    dsimp only at hx hd
    rw [getElem?_set] at hx
    split_ifs at hx with hj' hlt
    · cases hx
      subst hj'
      exact hreg events todo hd (hall _ hj e he)
    · exact hall j hj x hx
  · dsimp only at hx
    rw [getElem?_set] at hx
    split_ifs at hx with hj hlt
    · cases hx
      subst hj
      exact hs
    · exact h.served j x hx

theorem Inv.modify (h : Inv kv w) {f : WatchEntry → Option WatchEntry}
    (hf : ∀ e e', w.entries[id]? = some e → f e = some e' →
      (∀ events todo, w.dispatcher = .fanning events todo →
        e.registered = true → e'.registered = true) ∧
        e'.Served w.kv.revision w.emitted (w.queue id) (w.Active id e'))
    (hs : w.modify id f = some w') : Inv kv w' := by
  obtain ⟨e, e', he, hfe, rfl⟩ := modify_eq_some hs
  obtain ⟨hreg, hserved⟩ := hf e e' he hfe
  exact h.set he hreg hserved

theorem Inv.apply (h : Inv kv w) (cmd : KvCommand)
    (hroom : w.kv.emitted cmd = [] ∨ w.kv.eventCh.length < defaultEventChanSize) :
    Inv kv { w with
      kv := (w.kv.apply cmd).1
      emitted := w.emitted ++ if w.kv.emitted cmd = [] then [] else [w.kv.emitted cmd] } := by
  have hemit := w.kv.emits_apply cmd
  have hch : (w.kv.apply cmd).1.eventCh = w.kv.eventCh ++ _ := hemit.eventCh_eq hroom
  have hrev : w.kv.revision ≤ (w.kv.apply cmd).1.revision := hemit.revision_le
  have hhist : (w.kv.apply cmd).1.history = _ := hemit.history_eq
  have hevents : ∀ x ∈ w.kv.emitted cmd, x.revision = (w.kv.apply cmd).1.revision ∧
      w.kv.revision < (w.kv.apply cmd).1.revision := hemit.revision
  have hnew : ∀ x ∈ w.kv.emitted cmd, w.kv.revision < x.revision := by
    intro x hx
    have := hevents x hx
    omega
  by_cases hnil : w.kv.emitted cmd = []
  · rw [if_pos hnil, append_nil] at hch
    rw [hnil] at hhist
    rw [if_pos hnil, append_nil]
    refine ⟨h.batched.mono hrev, hhist.trans h.history, fun id ↦ ?_, h.todo, fun id e he ↦ ?_⟩
    · rw [WatchManager.queue, hch]
      exact h.queue id
    · rw [WatchManager.queue, hch]
      exact (h.served id e he).frame hrev fun ha ↦ ⟨ha, rfl⟩
  · rw [if_neg hnil] at hch
    rw [if_neg hnil]
    refine ⟨h.batched.concat hrev hevents, ?_, fun id b hb ↦ ?_, fun events todo hd ↦ ?_,
      fun id e he ↦ ?_⟩
    · rw [hhist, log, flatten_append, foldl_append, flatten_singleton]
      exact congrArg (foldl Ring.push · _) h.history
    · rw [WatchManager.queue, hch, ← append_assoc] at hb
      rcases mem_append.mp hb with hb | hb
      · exact mem_append_left _ (h.queue id b hb)
      · exact mem_append_right _ hb
    · obtain ⟨hmem, hrest⟩ := h.todo events todo hd
      exact ⟨mem_append_left _ hmem, hrest⟩
    · rw [WatchManager.queue, hch, ← append_assoc]
      exact (h.served id e he).emit hrev hnew

theorem mem_watchers (he : w.entries[id]? = some e) (hr : e.registered = true) :
    id ∈ w.watchers := by
  refine mem_filter.mpr ⟨mem_range.mpr (length_lt_of_getElem? he), ?_⟩
  rw [he]
  exact hr

theorem registered_of_mem_watchers (hid : id ∈ w.watchers) (he : w.entries[id]? = some e) :
    e.registered = true := by
  have := (mem_filter.mp hid).2
  rw [he] at this
  exact this

variable {events : List Event}

theorem Inv.receive (h : Inv kv w) {rest : List (List Event)}
    (hd : w.dispatcher = .idle) (hch : w.kv.eventCh = events :: rest) :
    Inv kv { w with kv := { w.kv with eventCh := rest }, dispatcher := .holding events } := by
  have hq (id : ℕ) : WatchManager.queue
      { w with kv := { w.kv with eventCh := rest }, dispatcher := .holding events } id =
        w.queue id := by
    rw [WatchManager.queue, WatchManager.queue, hd, hch]
    rfl
  refine ⟨h.batched, h.history, fun id ↦ ?_, nofun, fun id e he ↦ ?_⟩
  · rw [hq id]
    exact h.queue id
  · rw [hq id]
    exact h.served id e he

theorem Inv.rlock (h : Inv kv w) (hd : w.dispatcher = .holding events)
    (hsub : w.subscribing.isNone = true) :
    Inv kv { w with dispatcher := .fanning events w.watchers } := by
  have hmem : events ∈ w.emitted := by
    refine h.queue 0 events ?_
    rw [WatchManager.queue, hd]
    exact mem_cons_self
  refine ⟨h.batched, h.history, fun id b hb ↦ ?_, fun ev todo heq ↦ ?_, fun id e he ↦ ?_⟩
  · rcases mem_append.mp hb with hb | hb
    · dsimp only [Dispatcher.queued] at hb
      split_ifs at hb
      · exact mem_singleton.mp hb ▸ hmem
      · cases hb
    · exact h.queue id b (mem_append_right _ hb)
  · cases heq
    exact ⟨hmem, nodup_range.filter _, fun id hid e he ↦ registered_of_mem_watchers hid he⟩
  · refine (h.served id e he).frame le_rfl fun ha ↦ ⟨ha, ?_⟩
    have hreg : e.registered = true := by
      refine ha.2.resolve_right fun hs ↦ ?_
      dsimp only at hs
      rw [hs] at hsub
      cases hsub
    rw [WatchManager.queue, WatchManager.queue, hd]
    dsimp only [Dispatcher.queued]
    rw [if_pos (mem_watchers (w := w) he hreg)]

theorem Inv.deliver (h : Inv kv w) {todo : List ℕ}
    (hd : w.dispatcher = .fanning events todo) (he : w.entries[id]? = some e) (hid : id ∈ todo)
    (hok : e.canceled = true ∨ events.filter e.live = [] ∨
      e.replay = .done ∧ e.ch.length < watchChanSize) (n : ℕ) :
    Inv kv { w with
      entries := w.entries.set id (e.offer events).1
      dispatcher := .fanning events (todo.erase id)
      droppedEvents := n } := by
  obtain ⟨hmem, hnodup, hall⟩ := h.todo events todo hd
  have hoffer : (e.offer events).1.registered = e.registered ∧
      (e.offer events).1.canceled = e.canceled := by
    unfold WatchEntry.offer
    dsimp only
    split_ifs <;> exact ⟨rfl, rfl⟩
  have hreg := hall id hid e he
  have hqid : w.queue id = events :: w.kv.eventCh := by
    rw [WatchManager.queue, hd]
    dsimp only [Dispatcher.queued]
    rw [if_pos hid]
    rfl
  refine ⟨h.batched, h.history, fun j b hb ↦ ?_, fun ev todo' heq ↦ ?_, fun j x hx ↦ ?_⟩
  · rcases mem_append.mp hb with hb | hb
    · dsimp only [Dispatcher.queued] at hb
      split_ifs at hb
      · exact mem_singleton.mp hb ▸ hmem
      · cases hb
    · exact h.queue j b (mem_append_right _ hb)
  · cases heq
    refine ⟨hmem, hnodup.erase id, fun j hj x hx ↦ ?_⟩
    dsimp only at hx
    rw [getElem?_set] at hx
    split_ifs at hx with hj' hlt
    · cases hx
      exact hoffer.1.trans hreg
    · exact hall j (mem_of_mem_erase hj) x hx
  · dsimp only at hx
    rw [getElem?_set] at hx
    split_ifs at hx with hj hlt
    · cases hx
      subst hj
      have hserved := h.served _ e he
      rw [hqid] at hserved
      have hnext := hserved.offer h.batched hmem (fun hc ↦ ⟨hc, .inl hreg⟩) (fun ha ↦ ha.1) hok
      refine hnext.frame le_rfl fun ha ↦ ⟨⟨hoffer.2 ▸ ha.1, .inl hreg⟩, ?_⟩
      rw [WatchManager.queue]
      dsimp only [Dispatcher.queued]
      rw [if_neg fun hj ↦ (hnodup.mem_erase_iff.mp hj).1 rfl]
      rfl
    · refine (h.served j x hx).frame le_rfl fun ha ↦ ⟨ha, ?_⟩
      rw [WatchManager.queue, WatchManager.queue, hd]
      dsimp only [Dispatcher.queued]
      simp only [mem_erase_of_ne (Ne.symm hj)]

theorem Inv.runlock (h : Inv kv w) (hd : w.dispatcher = .fanning events []) :
    Inv kv { w with dispatcher := .idle } := by
  have hq (id : ℕ) : ({ w with dispatcher := .idle } : WatchManager).queue id = w.queue id := by
    rw [WatchManager.queue, WatchManager.queue, hd]
    rfl
  refine ⟨h.batched, h.history, fun id ↦ ?_, nofun, fun id e he ↦ ?_⟩
  · rw [hq id]
    exact h.queue id
  · rw [hq id]
    exact h.served id e he

theorem canLock_spec (h : w.canLock = true) :
    w.subscribing = none ∧ ∀ events todo, w.dispatcher ≠ .fanning events todo := by
  unfold canLock at h
  split at h
  · cases h
  · rename_i hfree
    exact ⟨Option.isNone_iff_eq_none.mp h, hfree⟩

theorem Inv.subscribe (h : Inv kv w) (hlock : w.canLock = true) (key : Bytes) (isPrefix : Bool)
    (sinceRevision : ℤ) :
    Inv kv { w with
      entries := w.entries ++ [.subscription key isPrefix sinceRevision w.kv.revision]
      subscribing := some w.entries.length } := by
  refine ⟨h.batched, h.history, h.queue, fun events todo hd ↦ ?_, fun id e he ↦ ?_⟩
  · exact absurd hd ((canLock_spec hlock).2 events todo)
  · dsimp only at he
    rw [getElem?_append] at he
    split_ifs at he with hlt
    · refine (h.served id e he).frame le_rfl fun ha ↦ ⟨⟨ha.1, .inl (ha.2.resolve_right ?_)⟩, rfl⟩
      intro hs
      cases hs
      exact lt_irrefl _ hlt
    · rw [getElem?_singleton] at he
      split_ifs at he with hi
      cases he
      exact .subscribe h.batched (h.queue id) key isPrefix sinceRevision

/-- The history that the replay reads has all events after the revision that was asked for. -/
theorem Inv.getHistory_eq (h : Inv kv w) (hk : Fresh kv) {sinceRevision : ℤ}
    (hn : (w.log.filter (sinceRevision < ·.revision)).length ≤ defaultHistorySize) :
    w.kv.getHistory sinceRevision = w.log.filter (sinceRevision < ·.revision) := by
  have hlen : kv.history.len = 0 := by
    rw [← Ring.length_toList, hk.1]
    rfl
  have hsort := filter_le_append_filter_lt Event.revision sinceRevision h.batched.sorted
  have hlog : w.log = w.log.filter (·.revision ≤ sinceRevision) ++
      w.log.filter (sinceRevision < ·.revision) := hsort.symm
  unfold Contents.getHistory
  rw [h.history, Ring.toList_foldl_push, hk.1, hlen, nil_append, Nat.zero_add]
  nth_rewrite 2 [hlog]
  rw [drop_append_of_le_length, filter_append, filter_eq_nil_iff.mpr, nil_append,
    filter_filter]
  · simp only [Bool.and_self]
  · intro x hx
    have := (mem_filter.mp (mem_of_mem_drop hx)).2
    simpa using this
  · have hl := congrArg length hlog
    rw [length_append] at hl
    omega

theorem Inv.register (h : Inv kv w) (hsub : w.subscribing = some id)
    (he : w.entries[id]? = some e) :
    Inv kv { w with
      entries := w.entries.set id { e with registered := true }, subscribing := none } := by
  have hset : Inv kv { w with entries := w.entries.set id { e with registered := true } } :=
    h.set he (fun _ _ _ _ ↦ rfl)
      ((h.served id e he).flags true e.canceled fun ha ↦ ⟨ha.1, .inr hsub⟩)
  refine { hset with served := fun j x hx ↦ ?_ }
  exact (hset.served j x hx).frame le_rfl fun ha ↦ ⟨⟨ha.1, .inl (ha.2.resolve_right nofun)⟩, rfl⟩

theorem registered_send (hs : e.send = some e') :
    e'.registered = e.registered ∧ e'.canceled = e.canceled := by
  unfold WatchEntry.send at hs
  split at hs
  · cases hs
    exact ⟨rfl, rfl⟩
  · split_ifs at hs <;> cases hs <;> exact ⟨rfl, rfl⟩
  · cases hs

theorem Inv.step (h : Inv kv w) (hk : Fresh kv) {a : Action} (ha : w.allowed a = true)
    (hs : w.step a = some w') : Inv kv w' := by
  cases a with
  | apply cmd =>
    cases hs
    exact h.apply cmd (of_decide_eq_true ha)
  | receive =>
    dsimp only [WatchManager.step] at hs
    split at hs
    · rename_i events rest hd hch
      cases hs
      exact h.receive hd hch
    · cases hs
  | rlock =>
    dsimp only [WatchManager.step] at hs
    split at hs
    · rename_i events hd
      split_ifs at hs with hsub
      cases hs
      exact h.rlock hd hsub
    · cases hs
  | deliver id =>
    dsimp only [WatchManager.step] at hs
    split at hs
    · rename_i events todo e hd he
      split_ifs at hs with hid
      cases hs
      dsimp only [allowed] at ha
      rw [hd, he] at ha
      exact h.deliver hd he hid (of_decide_eq_true ha) _
    · cases hs
  | runlock =>
    dsimp only [WatchManager.step] at hs
    split at hs
    · rename_i events hd
      cases hs
      exact h.runlock hd
    · cases hs
  | subscribe key isPrefix sinceRevision =>
    dsimp only [WatchManager.step] at hs
    split_ifs at hs with hlock
    cases hs
    exact h.subscribe hlock key isPrefix sinceRevision
  | register =>
    dsimp only [WatchManager.step] at hs
    split at hs
    · cases hs
    · rename_i id hsub
      obtain ⟨w₁, hmod, rfl⟩ := Option.map_eq_some_iff.mp hs
      obtain ⟨e, e', he, hfe, rfl⟩ := modify_eq_some hmod
      cases hfe
      exact h.register hsub he
  | fetch id =>
    dsimp only [WatchManager.step] at hs
    split_ifs at hs with hsub
    refine h.modify (fun e e' he hf ↦ ?_) hs
    split at hf
    · rename_i hp
      cases hf
      refine ⟨fun _ _ _ hr ↦ hr, ?_⟩
      dsimp only [allowed] at ha
      rw [he] at ha
      rw [h.getHistory_eq hk (of_decide_eq_true ha)]
      exact (h.served id e he).fetch hp
    · cases hf
  | send id =>
    refine h.modify (fun e e' he hf ↦ ?_) hs
    obtain ⟨hreg, hcan⟩ := registered_send hf
    refine ⟨fun _ _ _ hr ↦ hreg.trans hr, ?_⟩
    unfold Active
    rw [hreg, hcan]
    exact (h.served id e he).send hf
  | take id =>
    refine h.modify (fun e e' he hf ↦ ?_) hs
    split_ifs at hf with hlt
    cases hf
    have hserved := h.served id e he
    exact ⟨fun _ _ _ hr ↦ hr, hserved.since, hserved.startRev_le, hlt, hserved.uniform,
      hserved.split⟩
  | cancel id =>
    refine h.modify (fun e e' he hf ↦ ?_) hs
    cases hf
    exact ⟨fun _ _ _ hr ↦ hr, (h.served id e he).flags e.registered true fun ha ↦ nomatch ha.1⟩
  | remove id =>
    dsimp only [WatchManager.step] at hs
    split_ifs at hs with hlock
    refine h.modify (fun e e' he hf ↦ ?_) hs
    cases hf
    obtain ⟨hsub, hfree⟩ := canLock_spec hlock
    refine ⟨fun events todo hd ↦ absurd hd (hfree events todo), ?_⟩
    refine (h.served id e he).flags false e.canceled fun ha ↦ ?_
    rcases ha.2 with hr | hr
    · cases hr
    · rw [hsub] at hr
      cases hr

theorem Inv.allowedSteps (h : Inv kv w) (hk : Fresh kv) {actions : List Action}
    (hs : w.allowedSteps actions = some w') : Inv kv w' := by
  refine Script.invariant (fun w₁ a w₂ ha h₁ ↦ ?_) hs h
  obtain ⟨ha, hs⟩ := Script.of_guarded ha
  exact h₁.step hk ha hs

/-- In an allowed run a subscriber gets the matching events after its revision in their order and
each of them once, and has all of them when its replay is finished and nothing is queued. -/
theorem delivered_of_allowedSteps (hk : Fresh kv) {actions : List Action}
    (h : (new kv).allowedSteps actions = some w) (he : w.entries[id]? = some e)
    (hs : 0 ≤ e.sinceRevision) :
    e.delivered.Pairwise (·.revision ≤ ·.revision) ∧
      e.delivered.filter (e.sinceRevision < ·.revision) <+: w.log.filter e.selects ∧
      (w.Active id e → e.replay = .done → w.queue id = [] →
        e.delivered.filter (e.sinceRevision < ·.revision) = w.log.filter e.selects) := by
  have hi := (inv_new hk).allowedSteps hk h
  have hserved := hi.served id e he
  obtain ⟨tail, heq, -, htail⟩ := hserved.split
  have hflat : e.delivered ++ (e.rest w.emitted ++ tail).flatten =
      (e.wanted w.emitted).flatten := by
    rw [← heq]
    exact flatten_append.symm
  have hfilter := WatchEntry.filter_wanted (e := e) hi.batched hs
  rw [← hflat, filter_append] at hfilter
  refine ⟨?_, ⟨_, hfilter⟩, fun hact hdone hq ↦ ?_⟩
  · have hsort := WatchEntry.sorted_wanted (e := e) hi.batched
    rw [← hflat] at hsort
    exact (pairwise_append.mp hsort).1
  · have hrest : e.rest w.emitted = [] := by rw [WatchEntry.rest, hdone]
    have hnil : tail = [] := by
      rw [htail hact, hq]
      rfl
    rw [hrest, hnil] at hfilter
    rw [log, ← hfilter]
    exact (append_nil _).symm

end Steps

def watchA : List Action := [.apply KVStore.putA, .subscribe (ascii "a") false 0, .register]

def dispatchNext : List Action := [.receive, .rlock, .deliver 0, .runlock]

def replayAll : List Action := [.fetch 0, .send 0, .send 0]

def replayFirst : List Action :=
  watchA ++ replayAll ++ .apply KVStore.putA :: dispatchNext ++ dispatchNext

theorem delivered_replayFirst : ∃ w e, (new .new).allowedSteps replayFirst = some w ∧
    w.entries[0]? = some e ∧ w.log.length = 2 ∧
      e.delivered.filter (e.sinceRevision < ·.revision) = w.log.filter e.selects := by
  have hrun : ((new .new).allowedSteps replayFirst).any (fun w ↦ w.log.length = 2 ∧ w.queue 0 = [] ∧
      w.entries[0]?.any (fun e ↦ e.sinceRevision = 0 ∧ e.canceled = false ∧ e.registered ∧
        e.replay = .done)) = true := by decide +kernel
  obtain ⟨w, hw, hspec⟩ := (Option.any_eq_true _ _).mp hrun
  obtain ⟨hlen, hq, hentry⟩ := of_decide_eq_true hspec
  obtain ⟨e, he, hfields⟩ := (Option.any_eq_true _ _).mp hentry
  obtain ⟨hs, hc, hr, hdone⟩ := of_decide_eq_true hfields
  exact ⟨w, e, hw, he, hlen,
    (delivered_of_allowedSteps ⟨rfl, rfl⟩ hw he hs.ge).2.2 ⟨hc, .inl hr⟩ hdone hq⟩

def dispatchFirst : List Action :=
  watchA ++ .apply KVStore.putA :: dispatchNext ++ dispatchNext ++ replayAll

theorem replay_overtaken : ((new .new).steps dispatchFirst).any (fun w ↦
    w.kv.droppedEvents = 0 ∧ w.droppedEvents = 0 ∧ w.log.map Event.revision = [1, 2] ∧
      w.entries[0]?.any (fun e ↦ e.sinceRevision = 0 ∧ e.canceled = false ∧
        e.delivered.map Event.revision = [2, 1])) = true := by decide +kernel

end WatchManager

end RaftConsensus.Kv
