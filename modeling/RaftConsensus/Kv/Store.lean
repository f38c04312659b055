import RaftConsensus.Ring
import RaftConsensus.Store
import Mathlib.Data.List.Sort

namespace RaftConsensus.Kv

def ascii (s : String) : Bytes := s.toList.map (fun c ↦ UInt8.ofNat c.toNat)

def bytesLE : Bytes → Bytes → Bool
  | [], _ => true
  | _ :: _, [] => false
  | a :: s, b :: t => a < b || (a = b && bytesLE s t)

def sortStrings (l : List Bytes) : List Bytes := l.insertionSort (fun a b ↦ bytesLE a b)

def maxInt64 : ℤ := 2 ^ 63 - 1

def minInt64 : ℤ := -2 ^ 63

def int64 (x : ℤ) : ℤ := x.bmod (2 ^ 64)

def parseUint (s : Bytes) : Option ℕ :=
  if s = [] then none
  else s.foldlM (fun n b ↦ if 48 ≤ b ∧ b ≤ 57 then some (10 * n + (b.toNat - 48)) else none) 0

def parseInt (s : Bytes) : Option ℤ :=
  if s.head? = some 45 then
    (parseUint s.tail).bind (fun n ↦ if n ≤ 2 ^ 63 then some (-n : ℤ) else none)
  else
    (parseUint (if s.head? = some 43 then s.tail else s)).bind
      (fun n ↦ if n < 2 ^ 63 then some (n : ℤ) else none)

def formatInt (i : ℤ) : Bytes :=
  (if i < 0 then [45] else []) ++ (Nat.toDigits 10 i.natAbs).map (fun c ↦ UInt8.ofNat c.toNat)

structure KeyValue where
  key : Bytes
  value : Bytes
  createRevision : ℤ
  modRevision : ℤ
  version : ℤ
  expiresAtMs : ℤ
deriving DecidableEq

inductive EventType
  | put | delete
deriving DecidableEq, Inhabited

structure Event where
  eventType : EventType
  key : Bytes
  kv : Option KeyValue
  prevKV : Option KeyValue
  revision : ℤ
deriving DecidableEq, Inhabited

inductive CompareTarget
  | value | version | createRevision | modRevision | other
deriving DecidableEq

inductive CompareResult
  | equal | notEqual | greater | less | other
deriving DecidableEq

structure Compare where
  key : Bytes
  target : CompareTarget
  result : CompareResult
  value : Bytes
  rev : ℤ
deriving DecidableEq

inductive TxnOpType
  | put | delete | other
deriving DecidableEq

structure TxnOp where
  opType : TxnOpType
  key : Bytes
  value : Bytes
deriving DecidableEq

structure TxnRequest where
  compare : List Compare
  success : List TxnOp
  failure : List TxnOp
deriving DecidableEq

structure TxnResult where
  kv : Option KeyValue
  error : String
deriving DecidableEq

structure TxnResponse where
  succeeded : Bool
  results : List TxnResult
  revision : ℤ
deriving DecidableEq

def compareInt64 (actual expected : ℤ) : CompareResult → Bool
  | .equal => actual = expected
  | .notEqual => actual ≠ expected
  | .greater => expected < actual
  | .less => actual < expected
  | .other => false

inductive Op
  | tick | set | get | delete | list | put | getV2 | range | incr | txn
  | other (name : Bytes)
deriving DecidableEq

structure KvCommand where
  op : Op
  key : Bytes
  value : Bytes
  txn : Option TxnRequest
  clientID : Bytes
  seqNum : ℕ
  leaderTimestampMs : ℤ
  ttlSeconds : ℤ
  returnPrevKV : Bool
deriving DecidableEq

def encodeCommand (op : Op) (key value : Bytes) : KvCommand :=
  ⟨op, key, value, none, [], 0, 0, 0, false⟩

def encodeCommandWithID (op : Op) (key value clientID : Bytes) (seqNum : ℕ) : KvCommand :=
  { encodeCommand op key value with clientID := clientID, seqNum := seqNum }

def encodeCommandWithTTL (op : Op) (key value clientID : Bytes) (seqNum : ℕ)
    (leaderTSMs ttlSeconds : ℤ) : KvCommand :=
  { encodeCommandWithID op key value clientID seqNum with
    leaderTimestampMs := leaderTSMs, ttlSeconds := ttlSeconds }

def encodeSet (key value : Bytes) : KvCommand := encodeCommand .set key value

def encodeTxn (req : TxnRequest) : KvCommand := { encodeCommand .txn [] [] with txn := some req }

/-- The text of `KvResult.Value`. The JSON and the list formats are kept as what they show. -/
inductive KvText
  | plain (text : Bytes)
  | count (n : ℕ)
  | values (values : List Bytes)
  | keyValue (kv : KeyValue)
  | keyValues (kvs : List KeyValue)
deriving DecidableEq

structure KvResult where
  value : KvText
  error : String
  prevKV : Option KeyValue
deriving DecidableEq

inductive Reply
  | kv (result : KvResult)
  | txn (response : TxnResponse)
deriving DecidableEq

def Reply.ok (value : KvText) : Reply := .kv ⟨value, "", none⟩

def Reply.error (message : String) : Reply := .kv ⟨.plain [], message, none⟩

structure DedupEntry where
  seqNum : ℕ
  result : Reply
  order : ℕ
deriving DecidableEq

abbrev KeyData := AList (fun _ : Bytes ↦ KeyValue)

def defaultHistorySize : ℕ := 1024

theorem defaultHistorySize_pos : 0 < defaultHistorySize := by decide

/-- The part of the store that the commands themselves work on. `eventCh` holds what the watch
manager has not taken yet. -/
structure Contents where
  data : KeyData
  revision : ℤ
  eventCh : List (List Event)
  droppedEvents : ℕ
  history : Ring Event defaultHistorySize
  applyTimeMs : ℤ

structure KVStore extends Contents where
  index : ℕ
  dedupTable : AList (fun _ : Bytes ↦ DedupEntry)

def maxDedupEntries : ℕ := 10000

def defaultEventChanSize : ℕ := 512

def maxRangeResults : ℕ := 10000

def errRangeLimit : String :=
  "range result exceeds limit of 10000 keys; use a more specific prefix"

def maxRevision : ℤ := 2 ^ 62

def errRevisionExhausted : String := "revision counter exhausted"

namespace Contents

def revisionExhausted (s : Contents) : Bool := maxRevision ≤ s.revision

def isLive (s : Contents) (kv : KeyValue) : Bool :=
  kv.expiresAtMs = 0 || s.applyTimeMs < kv.expiresAtMs

def live (s : Contents) (key : Bytes) : Option KeyValue := (s.data.lookup key).filter s.isLive

def emitEvents (s : Contents) (events : List Event) : Contents :=
  let s := { s with history := events.foldl Ring.push s.history }
  if s.eventCh.length < defaultEventChanSize then { s with eventCh := s.eventCh ++ [events] }
  else { s with droppedEvents := s.droppedEvents + 1 }

@[simp]
theorem emitEvents_revision (s : Contents) (events : List Event) :
    (s.emitEvents events).revision = s.revision := by
  unfold emitEvents
  dsimp only
  split <;> rfl

/-- The version of the pair that a put writes over `prev`. -/
def nextVersion (prev : Option KeyValue) : ℤ :=
  (prev.map fun kv ↦ int64 (kv.version + 1)).getD 1

def applyPutLocked (s : Contents) (key value : Bytes) (prev : Option KeyValue) (expiresAt : ℤ) :
    Contents × KeyValue :=
  let revision := s.revision + 1
  let kv : KeyValue := ⟨key, value, (prev.map KeyValue.createRevision).getD revision, revision,
    nextVersion prev, expiresAt⟩
  ({ s with revision := revision, data := s.data.insert key kv }, kv)

def putEvent (s : Contents) (key value : Bytes) (prev : Option KeyValue) (expiresAt : ℤ) :
    Contents × KeyValue :=
  let (s, kv) := s.applyPutLocked key value prev expiresAt
  (s.emitEvents [⟨.put, key, some kv, prev, s.revision⟩], kv)

def expired (s : Contents) : List Bytes :=
  (s.data.entries.filter (fun e ↦ 0 < e.2.expiresAtMs && e.2.expiresAtMs ≤ s.applyTimeMs)).map (·.1)

def sweepExpiredLocked (s : Contents) : Contents × ℕ :=
  let expired := sortStrings s.expired
  if expired = [] ∨ s.revisionExhausted then (s, 0)
  else
    let revision := s.revision + 1
    let events := expired.map (fun key ↦
      (⟨.delete, key, none, s.data.lookup key, revision⟩ : Event))
    let s := { s with
      revision := revision, data := expired.foldl (fun data key ↦ data.erase key) s.data }
    (s.emitEvents events, expired.length)

def evalCompare (s : Contents) (c : Compare) : Bool :=
  let kv := s.live c.key
  match c.target with
  | .value =>
    match kv, c.result with
    | none, result => result = .notEqual
    | some kv, .equal => kv.value = c.value
    | some kv, .notEqual => kv.value ≠ c.value
    | some _, _ => false
  | .version => compareInt64 ((kv.map KeyValue.version).getD 0) c.rev c.result
  | .createRevision => compareInt64 ((kv.map KeyValue.createRevision).getD 0) c.rev c.result
  | .modRevision => compareInt64 ((kv.map KeyValue.modRevision).getD 0) c.rev c.result
  | .other => false

/-- A put by a transaction has no expiry; operations of an unknown type are skipped. -/
def runTxnOps (txnRev : ℤ) (data : KeyData) : List TxnOp → KeyData × List TxnResult × List Event
  | [] => (data, [], [])
  | op :: rest =>
    let prev := data.lookup op.key
    match op.opType with
    | .put =>
      let kv : KeyValue := ⟨op.key, op.value, (prev.map KeyValue.createRevision).getD txnRev,
        txnRev, nextVersion prev, 0⟩
      let (data, results, events) := runTxnOps txnRev (data.insert op.key kv) rest
      (data, ⟨some kv, ""⟩ :: results, ⟨.put, op.key, some kv, prev, txnRev⟩ :: events)
    | .delete =>
      let (data, results, events) := runTxnOps txnRev (data.erase op.key) rest
      (data, ⟨prev, ""⟩ :: results, ⟨.delete, op.key, none, prev, txnRev⟩ :: events)
    | .other => runTxnOps txnRev data rest

/-- A delete whose key is absent aborts the transaction; an expired key counts as present. -/
def missing (s : Contents) (op : TxnOp) : Bool :=
  op.opType = .delete && (s.data.lookup op.key).isNone

def applyTxnLocked (s : Contents) (req : TxnRequest) : Contents × TxnResponse :=
  let succeeded := req.compare.all s.evalCompare
  let ops := if succeeded then req.success else req.failure
  if ops = [] then (s, ⟨succeeded, [], s.revision⟩)
  else if s.revisionExhausted then (s, ⟨false, [], s.revision⟩)
  else if ops.any s.missing then
    (s, ⟨false, ops.map (fun op ↦ ⟨none, if s.missing op then "key not found" else ""⟩),
    s.revision⟩)
  else
    let txnRev := s.revision + 1
    let (data, results, events) := runTxnOps txnRev s.data ops
    let s := { s with revision := txnRev, data := data }
    (if events = [] then s else s.emitEvents events, ⟨succeeded, results, txnRev⟩)

def listValues (s : Contents) : List Bytes :=
  (sortStrings ((s.data.entries.filter (fun e ↦ s.isLive e.2)).map (·.1))).filterMap
    (fun key ↦ (s.data.lookup key).map KeyValue.value)

def rangeKeys (s : Contents) (keyPrefix : Bytes) : List Bytes :=
  sortStrings ((s.data.entries.filter
    (fun e ↦ keyPrefix.isPrefixOf e.1 && s.isLive e.2)).map (·.1))

def rangeReply (s : Contents) (keyPrefix : Bytes) : Reply :=
  let keys := s.rangeKeys keyPrefix
  if maxRangeResults < keys.length then .error errRangeLimit
  else .ok (.keyValues (keys.filterMap (fun key ↦ s.data.lookup key)))

def incrSum (s : Contents) (cmd : KvCommand) : Except String ℤ :=
  if s.revisionExhausted then .error errRevisionExhausted
  else
    match parseInt cmd.value with
    | none => .error "incr: delta is not a base-10 int64"
    | some delta =>
      match (s.live cmd.key).elim (some 0) (fun prev ↦ parseInt prev.value) with
      | none => .error "incr: existing value is not a base-10 int64"
      | some cur =>
        if 0 < delta ∧ maxInt64 - delta < cur ∨ delta < 0 ∧ cur < minInt64 - delta then
          .error "incr: int64 overflow"
        else .ok (cur + delta)

def expiresAt (s : Contents) (cmd : KvCommand) : ℤ :=
  if 0 < cmd.ttlSeconds then int64 (s.applyTimeMs + cmd.ttlSeconds * 1000) else 0

/-- The switch of `Apply`; the flag is `isMutation`. -/
def execute (s : Contents) (cmd : KvCommand) : Contents × Reply × Bool :=
  match cmd.op with
  | .tick =>
    let (s, n) := s.sweepExpiredLocked
    (s, .ok (.count n), false)
  | .set =>
    if s.revisionExhausted then (s, .error errRevisionExhausted, false)
    else ((s.putEvent cmd.key cmd.value (s.data.lookup cmd.key) 0).1, .ok (.plain cmd.value), true)
  | .get =>
    match s.live cmd.key with
    | none => (s, .error "key not found", false)
    | some kv => (s, .ok (.plain kv.value), false)
  | .delete =>
    match s.live cmd.key with
    | none => (s, .error "key not found", false)
    | some kv =>
      if s.revisionExhausted then (s, .error errRevisionExhausted, false)
      else
        let s := { s with revision := s.revision + 1, data := s.data.erase cmd.key }
        (s.emitEvents [⟨.delete, cmd.key, none, some kv, s.revision⟩],
          .kv ⟨.plain (ascii "ok"), "", if cmd.returnPrevKV then some kv else none⟩, true)
  | .list => (s, .ok (.values s.listValues), false)
  | .put =>
    if s.revisionExhausted then (s, .error errRevisionExhausted, false)
    else
      let prev := s.data.lookup cmd.key
      let (s, kv) := s.putEvent cmd.key cmd.value prev (s.expiresAt cmd)
      (s, .kv ⟨.keyValue kv, "", if cmd.returnPrevKV then prev else none⟩, true)
  | .getV2 =>
    match s.live cmd.key with
    | none => (s, .error "key not found", false)
    | some kv => (s, .ok (.keyValue kv), false)
  | .range => (s, s.rangeReply cmd.key, false)
  | .incr =>
    match s.incrSum cmd with
    | .error message => (s, .error message, false)
    | .ok sum =>
      let (s, kv) := s.putEvent cmd.key (formatInt sum) (s.live cmd.key) 0
      (s, .ok (.keyValue kv), true)
  | .txn =>
    match cmd.txn with
    | none => (s, .error "missing txn payload", false)
    | some req =>
      let (s, response) := s.applyTxnLocked req
      (s, .txn response, true)
  | .other _ => (s, .error "unknown operation", false)

end Contents

namespace KVStore

def new : KVStore := ⟨⟨∅, 0, [], 0, .empty _ (by decide), 0⟩, 0, ∅⟩

def advance (s : KVStore) (cmd : KvCommand) : KVStore :=
  { s with index := s.index + 1, applyTimeMs := max s.applyTimeMs cmd.leaderTimestampMs }

/-- The cached answer to a command that is not newer than the client's last recorded one. -/
def cached (s : KVStore) (cmd : KvCommand) : Option Reply :=
  if cmd.clientID = [] then none
  else ((s.dedupTable.lookup cmd.clientID).filter (cmd.seqNum ≤ ·.seqNum)).map DedupEntry.result

/-- The entry of the lowest order, the lowest client ID among equals. -/
def victim (table : AList (fun _ : Bytes ↦ DedupEntry)) : Option Bytes :=
  (table.entries.foldl (fun (best : Option (Bytes × ℕ)) e ↦
    match best with
    | none => some (e.1, e.2.order)
    | some (id, order) =>
      if e.2.order < order ∨ e.2.order = order ∧ !bytesLE id e.1 then some (e.1, e.2.order)
      else best) none).map (·.1)

def evict (table : AList (fun _ : Bytes ↦ DedupEntry)) : ℕ → AList (fun _ : Bytes ↦ DedupEntry)
  | 0 => table
  | n + 1 =>
    match victim table with
    | none => table
    | some id => evict (table.erase id) n

def evictDedupIfNeeded (s : KVStore) : KVStore :=
  { s with dedupTable := evict s.dedupTable (s.dedupTable.entries.length - maxDedupEntries) }

def record (s : KVStore) (cmd : KvCommand) (result : Reply) : KVStore :=
  if (s.dedupTable.lookup cmd.clientID).any (cmd.seqNum < ·.seqNum) then s
  else { s with
    dedupTable :=
      s.dedupTable.insert cmd.clientID ⟨cmd.seqNum, result, s.index⟩ }.evictDedupIfNeeded

def apply (s : KVStore) (cmd : KvCommand) : KVStore × Reply :=
  let s := s.advance cmd
  match s.cached cmd with
  | some result => (s, result)
  | none =>
    let (contents, result, isMutation) := s.execute cmd
    let s := { s with toContents := contents }
    (if isMutation ∧ cmd.clientID ≠ [] then s.record cmd result else s, result)

def run (s : KVStore) : List KvCommand → KVStore × List Reply
  | [] => (s, [])
  | cmd :: rest =>
    let (s, result) := s.apply cmd
    let (s, results) := s.run rest
    (s, result :: results)

section Cached

variable {s : KVStore} {cmd : KvCommand}

theorem apply_of_cached {result : Reply} (h : s.cached cmd = some result) :
    s.apply cmd = (s.advance cmd, result) := by
  have hc : (s.advance cmd).cached cmd = some result := h
  simp only [apply, hc]

def executed (s : KVStore) (cmd : KvCommand) : KVStore :=
  { s.advance cmd with toContents := ((s.advance cmd).execute cmd).1 }

theorem apply_of_uncached (h : s.cached cmd = none) :
    s.apply cmd = (if ((s.advance cmd).execute cmd).2.2 = true ∧ cmd.clientID ≠ [] then
      (s.executed cmd).record cmd ((s.advance cmd).execute cmd).2.1 else s.executed cmd,
      ((s.advance cmd).execute cmd).2.1) := by
  have hc : (s.advance cmd).cached cmd = none := h
  rw [KVStore.apply, hc]
  rfl

end Cached

end KVStore

end RaftConsensus.Kv
