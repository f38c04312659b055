import RaftConsensus.Kv.Store

namespace RaftConsensus.Kv

open List

def applyEvent (data : KeyData) (e : Event) : KeyData :=
  match e.eventType with
  | .put => e.kv.elim data (data.insert e.key)
  | .delete => data.erase e.key

namespace Contents

variable (s : Contents) (cmd : KvCommand)

def getHistory (sinceRevision : ℤ) : List Event :=
  s.history.toList.filter (sinceRevision < ·.revision)

section Events

def putEvents (key value : Bytes) (prev : Option KeyValue) (expiresAt : ℤ) : List Event :=
  [⟨.put, key, some (s.applyPutLocked key value prev expiresAt).2, prev, s.revision + 1⟩]

def sweepEvents : List Event :=
  if sortStrings s.expired = [] ∨ s.revisionExhausted then []
  else (sortStrings s.expired).map
    (fun key ↦ ⟨.delete, key, none, s.data.lookup key, s.revision + 1⟩)

def txnOps (req : TxnRequest) : List TxnOp :=
  if req.compare.all s.evalCompare then req.success else req.failure

def txnEvents (req : TxnRequest) : List Event :=
  if s.revisionExhausted ∨ (s.txnOps req).any s.missing then []
  else (runTxnOps (s.revision + 1) s.data (s.txnOps req)).2.2

def events : List Event :=
  match cmd.op with
  | .tick => s.sweepEvents
  | .set =>
    if s.revisionExhausted then [] else s.putEvents cmd.key cmd.value (s.data.lookup cmd.key) 0
  | .put =>
    if s.revisionExhausted then []
    else s.putEvents cmd.key cmd.value (s.data.lookup cmd.key) (s.expiresAt cmd)
  | .delete =>
    match s.live cmd.key with
    | none => []
    | some kv =>
      if s.revisionExhausted then [] else [⟨.delete, cmd.key, none, some kv, s.revision + 1⟩]
  | .incr =>
    match s.incrSum cmd with
    | .error _ => []
    | .ok sum => s.putEvents cmd.key (formatInt sum) (s.live cmd.key) 0
  | .txn => cmd.txn.elim [] s.txnEvents
  | _ => []

structure Emits (s s' : Contents) (events : List Event) : Prop where
  eq : s' = if events = [] then { s with revision := s'.revision }
    else { s with
      revision := s'.revision
      data := events.foldl applyEvent s.data }.emitEvents events
  revision_le : s.revision ≤ s'.revision
  revision : ∀ e ∈ events, e.revision = s'.revision ∧ s.revision < s'.revision

variable {s cmd}

theorem Emits.silent (s : Contents) {revision : ℤ} (h : s.revision ≤ revision) :
    Emits s { s with revision := revision } [] := by
  refine ⟨?_, h, forall_mem_nil _⟩
  rw [if_pos rfl]

theorem emits_nil (s : Contents) : Emits s s [] := by
  refine ⟨?_, le_rfl, forall_mem_nil _⟩
  rw [if_pos rfl]

theorem Emits.of_emitEvents {data : KeyData} {events : List Event} (hne : events ≠ [])
    (hdata : events.foldl applyEvent s.data = data)
    (hrev : ∀ e ∈ events, e.revision = s.revision + 1) :
    Emits s ({ s with revision := s.revision + 1, data := data }.emitEvents events) events := by
  have hr : ({ s with revision := s.revision + 1, data := data }.emitEvents events).revision =
      s.revision + 1 := emitEvents_revision _ _
  refine ⟨?_, ?_, fun e he ↦ ?_⟩
  · rw [hr, if_neg hne, hdata]
  · rw [hr]
    omega
  · rw [hr]
    exact ⟨hrev e he, by omega⟩

theorem emits_putEvent (key value : Bytes) (prev : Option KeyValue) (expiresAt : ℤ) :
    Emits s (s.putEvent key value prev expiresAt).1 (s.putEvents key value prev expiresAt) := by
  refine Emits.of_emitEvents (cons_ne_nil _ _) rfl fun e he ↦ ?_
  cases mem_singleton.mp he
  rfl

theorem foldl_erase_eq (keys : List Bytes) (data : KeyData) (f : Bytes → Option KeyValue)
    (revision : ℤ) :
    (keys.map (fun key ↦ (⟨.delete, key, none, f key, revision⟩ : Event))).foldl applyEvent data =
      keys.foldl (fun data key ↦ data.erase key) data := by
  induction keys generalizing data with
  | nil => rfl
  | cons key keys ih => exact ih _

theorem emits_sweepExpiredLocked (s : Contents) : Emits s s.sweepExpiredLocked.1 s.sweepEvents := by
  unfold sweepExpiredLocked sweepEvents
  dsimp only
  split_ifs with h
  · exact emits_nil s
  · refine Emits.of_emitEvents ?_ (foldl_erase_eq _ _ _ _) fun e he ↦ ?_
    · exact fun hnil ↦ h (.inl (map_eq_nil_iff.mp hnil))
    · obtain ⟨key, -, rfl⟩ := mem_map.mp he
      rfl

theorem foldl_runTxnOps (txnRev : ℤ) (data : KeyData) (ops : List TxnOp) :
    (runTxnOps txnRev data ops).2.2.foldl applyEvent data = (runTxnOps txnRev data ops).1 ∧
      ∀ e ∈ (runTxnOps txnRev data ops).2.2, e.revision = txnRev := by
  induction ops generalizing data with
  | nil => exact ⟨rfl, forall_mem_nil _⟩
  | cons op rest ih =>
    unfold runTxnOps
    dsimp only
    split
    · refine ⟨(ih _).1, fun e he ↦ ?_⟩
      rcases mem_cons.mp he with rfl | he
      · rfl
      · exact (ih _).2 e he
    · refine ⟨(ih _).1, fun e he ↦ ?_⟩
      rcases mem_cons.mp he with rfl | he
      · rfl
      · exact (ih _).2 e he
    · exact ih data

theorem emits_applyTxnLocked (s : Contents) (req : TxnRequest) :
    Emits s (s.applyTxnLocked req).1 (s.txnEvents req) := by
  obtain ⟨hdata, hrev⟩ := foldl_runTxnOps (s.revision + 1) s.data (s.txnOps req)
  have hops : (if req.compare.all s.evalCompare = true then req.success else req.failure) =
      s.txnOps req := rfl
  unfold applyTxnLocked txnEvents
  dsimp only
  rw [hops]
  by_cases h0 : s.txnOps req = []
  · rw [if_pos h0, h0]
    have hnil : (if s.revisionExhausted = true ∨ ([] : List TxnOp).any s.missing = true then []
        else (runTxnOps (s.revision + 1) s.data []).2.2) = [] := ite_self _
    rw [hnil]
    exact emits_nil s
  · rw [if_neg h0]
    by_cases hr : s.revisionExhausted = true
    · rw [if_pos hr, if_pos (.inl hr)]
      exact emits_nil s
    · rw [if_neg hr]
      by_cases hm : (s.txnOps req).any s.missing = true
      · rw [if_pos hm, if_pos (.inr hm)]
        exact emits_nil s
      · rw [if_neg hm, if_neg (not_or.mpr ⟨hr, hm⟩)]
        dsimp only
        generalize runTxnOps (s.revision + 1) s.data (s.txnOps req) = out at hdata hrev
        obtain ⟨data, results, events⟩ := out
        dsimp only at hdata hrev ⊢
        split_ifs with hnil
        · subst hnil
          cases hdata
          exact .silent s (Int.le_add_one le_rfl)
        · exact Emits.of_emitEvents hnil hdata hrev

theorem emits_delete (key : Bytes) (kv : KeyValue) :
    Emits s ({ s with revision := s.revision + 1, data := s.data.erase key }.emitEvents
      [⟨.delete, key, none, some kv, s.revision + 1⟩])
      [⟨.delete, key, none, some kv, s.revision + 1⟩] := by
  refine Emits.of_emitEvents (cons_ne_nil _ _) rfl fun e he ↦ ?_
  cases mem_singleton.mp he
  rfl

/-- What a command does to the store is what its events say. -/
theorem emits_execute (s : Contents) (cmd : KvCommand) :
    Emits s (s.execute cmd).1 (s.events cmd) := by
  unfold execute events
  cases cmd.op with
  | tick => exact emits_sweepExpiredLocked s
  | set =>
    cases s.revisionExhausted with
    | true => exact emits_nil s
    | false => exact emits_putEvent _ _ _ _
  | get => cases s.live cmd.key <;> exact emits_nil s
  | delete =>
    cases s.live cmd.key with
    | none => exact emits_nil s
    | some kv =>
      cases s.revisionExhausted with
      | true => exact emits_nil s
      | false => exact emits_delete _ _
  | list => exact emits_nil s
  | put =>
    cases s.revisionExhausted with
    | true => exact emits_nil s
    | false => exact emits_putEvent _ _ _ _
  | getV2 => cases s.live cmd.key <;> exact emits_nil s
  | range => exact emits_nil s
  | incr =>
    dsimp only
    cases s.incrSum cmd with
    | error message => exact emits_nil s
    | ok sum => exact emits_putEvent _ _ _ _
  | txn =>
    cases cmd.txn with
    | none => exact emits_nil s
    | some req => exact emits_applyTxnLocked s req
  | other name => exact emits_nil s

section Emits

variable {s' : Contents} {events : List Event}

theorem emitEvents_spec (s : Contents) (events : List Event) :
    (s.emitEvents events).data = s.data ∧
      (s.emitEvents events).history = events.foldl Ring.push s.history := by
  unfold emitEvents
  dsimp only
  split_ifs <;> exact ⟨rfl, rfl⟩

theorem data_putEvent (s : Contents) (key value : Bytes) (prev : Option KeyValue) (expiresAt : ℤ) :
    (s.putEvent key value prev expiresAt).1.data =
      s.data.insert key (s.putEvent key value prev expiresAt).2 := (emitEvents_spec _ _).1

theorem Emits.data_eq (h : Emits s s' events) : events.foldl applyEvent s.data = s'.data := by
  by_cases hnil : events = []
  · rw [h.eq, if_pos hnil, hnil]
    rfl
  · rw [h.eq, if_neg hnil, (emitEvents_spec _ _).1]

theorem Emits.history_eq (h : Emits s s' events) :
    s'.history = events.foldl Ring.push s.history := by
  by_cases hnil : events = []
  · rw [h.eq, if_pos hnil, hnil]
    rfl
  · rw [h.eq, if_neg hnil, (emitEvents_spec _ _).2]

theorem Emits.applyTimeMs_eq (h : Emits s s' events) : s'.applyTimeMs = s.applyTimeMs := by
  by_cases hnil : events = []
  · rw [h.eq, if_pos hnil]
  · rw [h.eq, if_neg hnil]
    unfold emitEvents
    dsimp only
    split_ifs <;> rfl

theorem Emits.eventCh_eq (h : Emits s s' events)
    (hroom : events = [] ∨ s.eventCh.length < defaultEventChanSize) :
    s'.eventCh = s.eventCh ++ if events = [] then [] else [events] := by
  by_cases hnil : events = []
  · rw [h.eq, if_pos hnil, if_pos hnil, append_nil]
  · rw [h.eq, if_neg hnil, if_neg hnil]
    unfold emitEvents
    dsimp only
    rw [if_pos (hroom.resolve_left hnil)]

end Emits

end Events

end Contents

namespace KVStore

variable {s : KVStore} {cmd : KvCommand}

def emitted (s : KVStore) (cmd : KvCommand) : List Event :=
  if ((s.advance cmd).cached cmd).isSome then [] else (s.advance cmd).events cmd

def emittedBy (s : KVStore) : List KvCommand → List Event
  | [] => []
  | cmd :: rest => s.emitted cmd ++ (s.apply cmd).1.emittedBy rest

def restoreWith (s : KVStore) (data : KeyData) (revision : ℤ) (index : ℕ) (applyTimeMs : ℤ)
    (dedupTable : AList (fun _ : Bytes ↦ DedupEntry)) : KVStore :=
  { s with
    data := data
    revision := revision
    index := index
    applyTimeMs := applyTimeMs
    dedupTable := dedupTable
    eventCh := []
    history := .empty _ defaultHistorySize_pos }

inductive Reach : KVStore → Prop
  | new : Reach new
  | apply {s : KVStore} (h : Reach s) (cmd : KvCommand) : Reach (s.apply cmd).1
  | restore {s : KVStore} (h : Reach s) (data : KeyData) (revision : ℤ) (index : ℕ)
    (applyTimeMs : ℤ) (dedupTable : AList (fun _ : Bytes ↦ DedupEntry)) :
    Reach (s.restoreWith data revision index applyTimeMs dedupTable)

theorem toContents_record (s : KVStore) (cmd : KvCommand) (result : Reply) :
    (s.record cmd result).toContents = s.toContents := by
  unfold record evictDedupIfNeeded
  split_ifs
  · rfl
  · dsimp only

theorem toContents_apply (s : KVStore) (cmd : KvCommand) : (s.apply cmd).1.toContents =
    if ((s.advance cmd).cached cmd).isSome then (s.advance cmd).toContents
    else ((s.advance cmd).execute cmd).1 := by
  unfold apply
  dsimp only
  split
  · rename_i result hc
    rw [hc]
    rfl
  · rename_i hc
    have hnone : ¬((s.advance cmd).cached cmd).isSome = true := by
      rw [hc]
      exact Bool.false_ne_true
    rw [if_neg hnone]
    split_ifs
    · exact toContents_record _ _ _
    · rfl

theorem emits_apply (s : KVStore) (cmd : KvCommand) :
    (s.advance cmd).toContents.Emits (s.apply cmd).1.toContents (s.emitted cmd) := by
  rw [toContents_apply]
  unfold emitted
  split_ifs
  · exact Contents.emits_nil _
  · exact Contents.emits_execute _ _

structure Follows (s s' : KVStore) (events : List Event) : Prop where
  data : events.foldl applyEvent s.data = s'.data
  history : s'.history = events.foldl Ring.push s.history
  revision_le : s.revision ≤ s'.revision
  order : events.Pairwise (·.revision ≤ ·.revision)
  revision : ∀ e ∈ events, s.revision < e.revision ∧ e.revision ≤ s'.revision

theorem follows_apply (s : KVStore) (cmd : KvCommand) :
    Follows s (s.apply cmd).1 (s.emitted cmd) := by
  have h := s.emits_apply cmd
  refine ⟨h.data_eq, h.history_eq, h.revision_le, ?_, fun e he ↦ ?_⟩
  · refine pairwise_iff_forall_sublist.mpr fun {a b} hab ↦ ?_
    have ha := h.revision a (hab.subset mem_cons_self)
    have hb := h.revision b (hab.subset (mem_cons_of_mem _ mem_cons_self))
    omega
  · obtain ⟨heq, hlt⟩ := h.revision e he
    change s.revision < _ at hlt
    omega

theorem Follows.trans {s s' s'' : KVStore} {l l' : List Event} (h : Follows s s' l)
    (h' : Follows s' s'' l') : Follows s s'' (l ++ l') := by
  refine ⟨?_, ?_, h.revision_le.trans h'.revision_le, ?_, fun e he ↦ ?_⟩
  · rw [foldl_append, h.data, h'.data]
  · rw [foldl_append, ← h.history, ← h'.history]
  · refine pairwise_append.mpr ⟨h.order, h'.order, fun a ha b hb ↦ ?_⟩
    exact (h.revision a ha).2.trans (h'.revision b hb).1.le
  · have h₁ := h.revision_le
    have h₂ := h'.revision_le
    rcases mem_append.mp he with he | he
    · have := h.revision e he
      omega
    · have := h'.revision e he
      omega

theorem follows_run (s : KVStore) (log : List KvCommand) :
    Follows s (s.run log).1 (s.emittedBy log) := by
  induction log generalizing s with
  | nil => exact ⟨rfl, rfl, le_rfl, .nil, forall_mem_nil _⟩
  | cons cmd rest ih => exact (s.follows_apply cmd).trans (ih _)

theorem Reach.revision_le (h : Reach s) : ∀ e ∈ s.history.toList, e.revision ≤ s.revision := by
  induction h with
  | new => exact forall_mem_nil _
  | @apply s h cmd ih =>
    have hf := s.follows_apply cmd
    have hle := hf.revision_le
    intro e he
    rw [hf.history, Ring.toList_foldl_push] at he
    rcases mem_append.mp (mem_of_mem_drop he) with he | he
    · exact (ih e he).trans hle
    · exact (hf.revision e he).2
  | restore => exact forall_mem_nil _

/-- The history since a point is what was emitted after it, in order, and leads from the data of
that point to the present one. -/
theorem getHistory_faithful (h : Reach s) {log : List KvCommand}
    (hn : (s.emittedBy log).length ≤ defaultHistorySize) :
    ((s.run log).1.getHistory s.revision).Pairwise (·.revision ≤ ·.revision) ∧
      ((s.run log).1.getHistory s.revision).foldl applyEvent s.data = (s.run log).1.data := by
  have hf := s.follows_run log
  have heq : (s.run log).1.getHistory s.revision = s.emittedBy log := by
    obtain ⟨k, hk⟩ := Ring.toList_foldl_push_of_le (r := s.history) hn
    unfold Contents.getHistory
    rw [hf.history, hk, filter_append, filter_eq_nil_iff.mpr, nil_append,
      filter_eq_self]
    · exact fun e he ↦ decide_eq_true (hf.revision e he).1
    · intro e he
      have := h.revision_le e (mem_of_mem_drop he)
      simpa using this
  rw [heq]
  exact ⟨hf.order, hf.data⟩

def putA : KvCommand := encodeCommand .put (ascii "a") (ascii "1")

def deleteA : KvCommand := encodeCommand .delete (ascii "a") []

theorem getHistory_putA : (new.emittedBy [putA, deleteA]).length = 2 ∧
    ((new.run [putA, deleteA]).1.getHistory new.revision).Pairwise (·.revision ≤ ·.revision) ∧
      ((new.run [putA, deleteA]).1.getHistory new.revision).foldl applyEvent new.data =
        (new.run [putA, deleteA]).1.data := by
  have hn : (new.emittedBy [putA, deleteA]).length = 2 := by decide +kernel
  exact ⟨hn, getHistory_faithful .new (by rw [hn]; decide)⟩

end KVStore

end RaftConsensus.Kv
