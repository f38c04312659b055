import RaftConsensus.Kv.Duplicates

namespace RaftConsensus.Kv

inductive Method
  | put (key value : Bytes)
  | putWithTTL (key value : Bytes) (ttlSeconds : ℤ)
  | increment (key : Bytes) (delta : ℤ)
  | deleteKV (key : Bytes)
  | txn (req : TxnRequest)
  | submitCommand (key value : Bytes)
deriving DecidableEq

/-- The endpoints that mutate, with what the path, the query and the body carry. -/
inductive Route
  | command (data : KvCommand)
  | putKV (key value : Bytes) (ttlSeconds : ℤ)
  | incr (key : Bytes) (delta : ℤ)
  | deleteKV (key : Bytes)
  | txn (req : TxnRequest)
deriving DecidableEq

structure HTTPRequest where
  route : Route
  clientID : Bytes
  seqNum : ℕ
deriving DecidableEq

/-- One call of a method. Every attempt of the call carries the same sequence number, which
`nextSeqNum` never leaves at zero. -/
structure Call where
  clientID : Bytes
  seqNum : ℕ
  method : Method
  clientID_ne : clientID ≠ []
  seqNum_pos : 0 < seqNum
deriving DecidableEq

def Method.route : Method → Route
  | .put key value => .putKV key value 0
  | .putWithTTL key value ttlSeconds => .putKV key value (if 0 < ttlSeconds then ttlSeconds else 0)
  | .increment key delta => .incr key delta
  | .deleteKV key => .deleteKV key
  | .txn req => .txn req
  | .submitCommand key value => .command (encodeSet key value)

def Method.keyed : Method → Bool
  | .txn _ | .submitCommand _ _ => false
  | _ => true

def Call.request (k : Call) : HTTPRequest := ⟨k.method.route, k.clientID, k.seqNum⟩

def maxKeySize : ℕ := 4 * 2 ^ 10

def maxValueSize : ℕ := 512 * 2 ^ 10

def validateKeyValue (key value : Bytes) : Bool :=
  key.length ≤ maxKeySize && value.length ≤ maxValueSize

def HTTPRequest.encode (r : HTTPRequest) (op : Op) (key value : Bytes) : KvCommand :=
  if r.clientID ≠ [] ∧ 0 < r.seqNum then encodeCommandWithID op key value r.clientID r.seqNum
  else encodeCommand op key value

def handleV1Put (r : HTTPRequest) (now : ℤ) (key value : Bytes) (ttlSeconds : ℤ) :
    Option KvCommand :=
  if !validateKeyValue key value then none
  else if 0 < ttlSeconds then
    some (encodeCommandWithTTL .put key value r.clientID r.seqNum now ttlSeconds)
  else some (r.encode .put key value)

def handleV1Incr (r : HTTPRequest) (key : Bytes) (delta : ℤ) : Option KvCommand :=
  if !validateKeyValue key [] then none else some (r.encode .incr key (formatInt delta))

def handleV1Delete (r : HTTPRequest) (key : Bytes) : Option KvCommand :=
  some (r.encode .delete key [])

def handleV1Txn (req : TxnRequest) : Option KvCommand := some (encodeTxn req)

def handleCommand (data : KvCommand) : Option KvCommand := some data

/-- What the leader's handler proposes at time `now`, `none` when it refuses the request. -/
def HTTPRequest.propose (r : HTTPRequest) (now : ℤ) : Option KvCommand :=
  match r.route with
  | .command data => handleCommand data
  | .putKV key value ttlSeconds => if key = [] then none else handleV1Put r now key value ttlSeconds
  | .incr key delta => if key = [] then none else handleV1Incr r key delta
  | .deleteKV key => if key = [] then none else handleV1Delete r key
  | .txn req => handleV1Txn req

structure Logged where
  command : KvCommand
  call : Option Call
  proposed : ∀ k, call = some k → ∃ now, k.request.propose now = some command

namespace KVStore

variable {s : KVStore} {cmd : KvCommand} {ids : List Bytes} {k : Call}

def takesEffect (s : KVStore) (cmd : KvCommand) : Bool :=
  let s' := (s.apply cmd).1
  s'.data.entries ≠ s.data.entries || s'.revision ≠ s.revision

def effects (k : Call) (s : KVStore) : List Logged → ℕ
  | [] => 0
  | e :: rest =>
    (if e.call = some k ∧ s.takesEffect e.command then 1 else 0) +
      effects k (s.apply e.command).1 rest

theorem proposed_keyed (hk : k.method.keyed = true) {now : ℤ}
    (h : k.request.propose now = some cmd) :
    cmd.clientID = k.clientID ∧ cmd.seqNum = k.seqNum ∧ cmd.op ≠ .tick := by
  have henc (op : Op) (key value : Bytes) : k.request.encode op key value =
      encodeCommandWithID op key value k.clientID k.seqNum :=
    if_pos ⟨k.clientID_ne, k.seqNum_pos⟩
  unfold HTTPRequest.propose at h
  cases hr : k.request.route with
  | command data =>
    rw [Call.request] at hr
    cases hm : k.method <;> rw [hm] at hr hk <;> cases hr
    cases hk
  | txn req =>
    rw [Call.request] at hr
    cases hm : k.method <;> rw [hm] at hr hk <;> cases hr
    cases hk
  | putKV key value ttlSeconds =>
    simp only [hr, handleV1Put, henc] at h
    repeat' split at h
    all_goals cases h
    all_goals exact ⟨rfl, rfl, nofun⟩
  | incr key delta =>
    simp only [hr, handleV1Incr, henc] at h
    repeat' split at h
    all_goals cases h
    exact ⟨rfl, rfl, nofun⟩
  | deleteKV key =>
    simp only [hr, handleV1Delete, henc] at h
    split at h <;> cases h
    exact ⟨rfl, rfl, nofun⟩

theorem Tracks.covers_of_takesEffect (h : Tracks ids s) (hc : cmd.clientID ∈ ids)
    (hid : cmd.clientID ≠ []) (hop : cmd.op ≠ .tick) (he : s.takesEffect cmd = true) :
    (s.apply cmd).1.Covers cmd.clientID cmd.seqNum := by
  rw [h.covers_apply hc hid, keeps, Bool.or_eq_true]
  by_contra hn
  obtain ⟨hu, hm⟩ := not_or.mp hn
  have halt : (s.advance cmd).alters cmd = false := by
    rw [Contents.alters, Bool.eq_false_of_not_eq_true hm, decide_eq_false hop]
    rfl
  have happ := h.apply_of_uncached (.inr hc) (Option.not_isSome_iff_eq_none.mp hu)
  unfold takesEffect at he
  rw [happ, Contents.execute_of_not_alters halt] at he
  simp [advance] at he

theorem not_takesEffect_of_covers (hid : cmd.clientID ≠ [])
    (h : s.Covers cmd.clientID cmd.seqNum) : s.takesEffect cmd = false := by
  obtain ⟨result, hr⟩ := Option.isSome_iff_exists.mp ((cached_isSome hid).mpr h)
  unfold takesEffect
  rw [apply_of_cached hr]
  simp [advance]

theorem Tracks.covers_mono (h : Tracks ids s) (hc : cmd.clientID = [] ∨ cmd.clientID ∈ ids)
    {id : Bytes} {n : ℕ} (hcov : s.Covers id n) : (s.apply cmd).1.Covers id n := by
  by_cases hne : id = cmd.clientID
  · subst hne
    obtain ⟨e, he, hn⟩ := hcov
    cases hu : s.cached cmd with
    | some result =>
      rw [apply_of_cached hu]
      exact ⟨e, he, hn⟩
    | none =>
      rw [h.apply_of_uncached hc hu]
      by_cases hm : (s.advance cmd).mutates cmd = true ∧ cmd.clientID ≠ []
      · rw [if_pos hm]
        refine ⟨_, AList.lookup_insert _, hn.trans ?_⟩
        -- the recorded number was lower, or the cache would have answered
        by_contra hlt
        have hsome := (cached_isSome hm.2).mpr ⟨e, he, (not_le.mp hlt).le⟩
        rw [hu] at hsome
        cases hsome
      · rw [if_neg hm]
        exact ⟨e, he, hn⟩
  · obtain ⟨e, he, hn⟩ := hcov
    exact ⟨e, (h.lookup_apply_of_ne hc hne).trans he, hn⟩

theorem Tracks.effects_of_covers {log : List Logged} (h : Tracks ids s)
    (hlog : ∀ e ∈ log, e.command.clientID = [] ∨ e.command.clientID ∈ ids)
    (hk : k.method.keyed = true) (hcov : s.Covers k.clientID k.seqNum) : effects k s log = 0 := by
  induction log generalizing s with
  | nil => rfl
  | cons e log ih =>
    have hc := hlog e List.mem_cons_self
    have hrest := ih (h.apply hc) (fun x hx ↦ hlog x (List.mem_cons_of_mem _ hx))
      (h.covers_mono hc hcov)
    rw [effects, hrest, if_neg]
    rintro ⟨he, heff⟩
    obtain ⟨now, hnow⟩ := e.proposed k he
    obtain ⟨hid, hseq, -⟩ := proposed_keyed hk hnow
    rw [not_takesEffect_of_covers (hid ▸ k.clientID_ne) (by rwa [hid, hseq])] at heff
    cases heff

theorem Tracks.effects_le_one {log : List Logged} (h : Tracks ids s)
    (hlog : ∀ e ∈ log, e.command.clientID = [] ∨ e.command.clientID ∈ ids)
    (hk : k.method.keyed = true) : effects k s log ≤ 1 := by
  induction log generalizing s with
  | nil => exact Nat.zero_le 1
  | cons e log ih =>
    have hc := hlog e List.mem_cons_self
    have hlog' (x) (hx : x ∈ log) := hlog x (List.mem_cons_of_mem _ hx)
    rw [effects]
    split
    · rename_i he
      obtain ⟨now, hnow⟩ := e.proposed k he.1
      obtain ⟨hid, hseq, hop⟩ := proposed_keyed hk hnow
      have hne : e.command.clientID ≠ [] := hid ▸ k.clientID_ne
      have hcov := h.covers_of_takesEffect (hc.resolve_left hne) hne hop he.2
      rw [hid, hseq] at hcov
      rw [(h.apply hc).effects_of_covers hlog' hk hcov]
    · rw [Nat.zero_add]
      exact ih (h.apply hc) hlog'

/-- The mutation of one call of a method that passes its idempotency key on takes effect at most
once, whatever attempts of it and whatever other commands the log holds, and in which order. -/
theorem mutation_at_most_once (k : Call) (hk : k.method.keyed = true) (log : List Logged)
    (hfew : (clients (log.map Logged.command)).length < maxDedupEntries) :
    effects k new log ≤ 1 :=
  (tracks_new hfew.le).effects_le_one (fun _ he ↦ mem_clients (List.mem_map_of_mem he)) hk

def firstCall (method : Method) : Call := ⟨ascii "c1", 1, method, by decide, by decide⟩

def retried (k : Call) : List Logged :=
  match h : k.request.propose 0 with
  | none => []
  | some command => List.replicate 2 ⟨command, some k, fun _ hk ↦ ⟨0, Option.some.inj hk ▸ h⟩⟩

def incrementCall : Call := firstCall (.increment (ascii "k") 1)

def txnCall : Call := firstCall (.txn ⟨[], [⟨.put, ascii "k", ascii "v"⟩], []⟩)

def submitCall : Call := firstCall (.submitCommand (ascii "k") (ascii "v"))

theorem increment_at_most_once_retried : incrementCall.method.keyed = true ∧
    (retried incrementCall).length = 2 ∧ effects incrementCall new (retried incrementCall) ≤ 1 :=
  ⟨rfl, by decide +kernel, mutation_at_most_once incrementCall rfl _ (by decide +kernel)⟩

/-- The handlers of transactions and of raw commands drop the idempotency key: a retried call
is applied twice. -/
theorem txn_and_submit_applied_twice :
    effects txnCall new (retried txnCall) = 2 ∧ effects submitCall new (retried submitCall) = 2 ∧
      ∀ k ∈ [txnCall, submitCall],
        (clients ((retried k).map Logged.command)).length < maxDedupEntries := by
  decide +kernel

end KVStore

end RaftConsensus.Kv
