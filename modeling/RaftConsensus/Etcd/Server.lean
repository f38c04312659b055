import RaftConsensus.Kv.LocalReads
import RaftConsensus.Utf8

namespace RaftConsensus

namespace Etcd

open Kv

inductive Code
  | invalidArgument | internal
deriving DecidableEq

structure Status where
  code : Code
  message : String
deriving DecidableEq

structure ResponseHeader where
  clusterID : ℕ
  memberID : ℕ
  revision : ℤ
deriving DecidableEq

structure PbKeyValue where
  key : Bytes
  value : Bytes
  createRevision : ℤ
  modRevision : ℤ
  version : ℤ
deriving DecidableEq

inductive SortOrder
  | none | ascend | descend
deriving DecidableEq

inductive SortTarget
  | key | version | create | mod | value
deriving DecidableEq

structure RangeRequest where
  key : Bytes
  rangeEnd : Bytes
  limit : ℤ
  sortOrder : SortOrder
  sortTarget : SortTarget
  serializable : Bool
  keysOnly : Bool
  countOnly : Bool
  minModRevision : ℤ
  maxModRevision : ℤ
  minCreateRevision : ℤ
  maxCreateRevision : ℤ
deriving DecidableEq

structure RangeResponse where
  header : ResponseHeader
  kvs : List PbKeyValue
  more : Bool
  count : ℤ
deriving DecidableEq

structure DeleteRangeRequest where
  key : Bytes
  rangeEnd : Bytes
  prevKv : Bool
deriving DecidableEq

structure DeleteRangeResponse where
  header : ResponseHeader
  deleted : ℤ
  prevKvs : List PbKeyValue
deriving DecidableEq

/-- What is left of a string after it was encoded as JSON and decoded again. -/
def jsonText (s : Bytes) : Bytes := Utf8.sanitize s

def jsonKeyValue (kv : KeyValue) : KeyValue :=
  { kv with key := jsonText kv.key, value := jsonText kv.value }

def jsonValue : KvText → KvText
  | .plain text => .plain (jsonText text)
  | value => value

def decodeResult : Kv.Reply → KvResult
  | .kv result => ⟨jsonValue result.value, result.error, result.prevKV.map jsonKeyValue⟩
  | .txn _ => ⟨.plain [], "", none⟩

def decodeKeyValueResult (raw : Kv.Reply) : Except String KeyValue :=
  let res := decodeResult raw
  if res.error ≠ "" then .error res.error
  else
    match res.value with
    | .keyValue kv => .ok (jsonKeyValue kv)
    | _ => .error "not a key-value pair"

def decodeKeyValuesResult (raw : Kv.Reply) : Except String (List KeyValue) :=
  let res := decodeResult raw
  if res.error ≠ "" then .error res.error
  else
    match res.value with
    | .keyValues kvs => .ok (kvs.map jsonKeyValue)
    | _ => .error "not a list of key-value pairs"

def encodeDeleteWithPrevKV (key : Bytes) : KvCommand :=
  { encodeCommand .delete (jsonText key) [] with returnPrevKV := true }

def fsmKVToPb (kv : KeyValue) : PbKeyValue :=
  ⟨kv.key, kv.value, kv.createRevision, kv.modRevision, kv.version⟩

def isRangeEndPrefix (key rangeEnd : Bytes) : Bool :=
  if rangeEnd = [] then false
  else if rangeEnd = [0] then true
  else rangeEnd.length = key.length + 1 ∧ key.isPrefixOf rangeEnd ∧ rangeEnd.getLast? = some 0

def rangePrefix (key rangeEnd : Bytes) : Bytes :=
  if rangeEnd = [0] ∧ key = [] then []
  else if rangeEnd.length = key.length + 1 ∧ key.isPrefixOf rangeEnd ∧
      rangeEnd.getLast? = some 0 then key
  else []

def inRange (key start finish : Bytes) : Bool :=
  if finish = [] then key = start
  else if finish = [0] then bytesLE start key
  else if finish.length = start.length + 1 ∧ finish.take start.length = start ∧
      finish.getLast? = some 0 then start.isPrefixOf key
  else bytesLE start key && !bytesLE finish key

def less (order : SortOrder) (target : SortTarget) (a b : KeyValue) : Bool :=
  let lt : Bool :=
    match target with
    | .version => a.version < b.version
    | .create => a.createRevision < b.createRevision
    | .mod => a.modRevision < b.modRevision
    | .value => !bytesLE b.value a.value
    | .key => !bytesLE b.key a.key
  if order = .descend then !lt else lt

/-- `sort.Slice`, which is not stable: it permutes a list, and sorts it when `less` is a strict weak
order. The descending ones of `less` are none. -/
structure Sorter where
  slice : (KeyValue → KeyValue → Bool) → List KeyValue → List KeyValue
  perm : ∀ less kvs, (slice less kvs).Perm kvs
  sorted : ∀ less kvs, (∀ a b, less b a = false ∨ less a b = false) →
    (∀ a b c, less b a = false → less c b = false → less c a = false) →
    (slice less kvs).Pairwise fun a b ↦ less b a = false

def Sorter.insertion : Sorter where
  slice less kvs := kvs.insertionSort fun a b ↦ less b a = false
  perm _ _ := List.perm_insertionSort _ _
  sorted _ kvs htotal htrans :=
    @List.pairwise_insertionSort _ _ _ ⟨htotal⟩ ⟨htrans⟩ kvs

def sortKVs (sort : Sorter) (kvs : List KeyValue) (order : SortOrder) (target : SortTarget) :
    List KeyValue :=
  if order = .none then sort.slice (fun a b ↦ !bytesLE b.key a.key) kvs
  else sort.slice (less order target) kvs

def filterAndSortRange (sort : Sorter) (kvs : List KeyValue) (key rangeEnd : Bytes)
    (req : RangeRequest) : List KeyValue :=
  sortKVs sort (kvs.filter fun kv ↦ inRange kv.key key rangeEnd ∧
    ¬(0 < req.minModRevision ∧ kv.modRevision < req.minModRevision) ∧
    ¬(0 < req.maxModRevision ∧ req.maxModRevision < kv.modRevision) ∧
    ¬(0 < req.minCreateRevision ∧ kv.createRevision < req.minCreateRevision) ∧
    ¬(0 < req.maxCreateRevision ∧ req.maxCreateRevision < kv.createRevision))
    req.sortOrder req.sortTarget

structure KVServer where
  kv : KVStore
  clusterID : ℕ
  memberID : ℕ
  sort : Sorter

namespace KVServer

variable (s : KVServer)

def header : ResponseHeader := ⟨s.clusterID, s.memberID, s.kv.revision⟩

def apply (cmd : KvCommand) : KVServer × Kv.Reply :=
  ({ s with kv := (s.kv.apply cmd).1 }, (s.kv.apply cmd).2)

def linearizableGet (key : Bytes) (req : RangeRequest) : KVServer × Except Status RangeResponse :=
  let (s, raw) := s.apply (encodeCommand .getV2 key [])
  match decodeKeyValueResult raw with
  | .error _ => (s, .ok ⟨s.header, [], false, 0⟩)
  | .ok kv =>
    if req.countOnly then (s, .ok ⟨s.header, [], false, 1⟩)
    else
      let pbKV := fsmKVToPb kv
      (s, .ok ⟨s.header, [if req.keysOnly then { pbKV with value := [] } else pbKV], false, 1⟩)

def rangeResponse (kvs : List KeyValue) (req : RangeRequest) : RangeResponse :=
  let total : ℤ := kvs.length
  if req.countOnly then ⟨s.header, [], false, total⟩
  else
    let limited := 0 < req.limit ∧ req.limit < kvs.length
    let kvs := if limited then kvs.take req.limit.toNat else kvs
    ⟨s.header, kvs.map fun kv ↦
      if req.keysOnly then { fsmKVToPb kv with value := [] } else fsmKVToPb kv, limited, total⟩

def linearizableRange (key rangeEnd : Bytes) (req : RangeRequest) :
    KVServer × Except Status RangeResponse :=
  let (s, raw) := s.apply (encodeCommand .range [] [])
  match decodeKeyValuesResult raw with
  | .error message => (s, .error ⟨.internal, "decode range result: " ++ message⟩)
  | .ok kvs => (s, .ok (s.rangeResponse (filterAndSortRange s.sort kvs key rangeEnd req) req))

def staleRange (key rangeEnd : Bytes) (req : RangeRequest) : Except Status RangeResponse :=
  match s.kv.range (rangePrefix key rangeEnd) with
  | .error message => .error ⟨.internal, "range: " ++ message⟩
  | .ok kvs => .ok (s.rangeResponse (filterAndSortRange s.sort kvs key rangeEnd req) req)

def range (req : RangeRequest) : KVServer × Except Status RangeResponse :=
  if req.key = [] then (s, .error ⟨.invalidArgument, "key must not be empty"⟩)
  else if req.limit < 0 then (s, .error ⟨.invalidArgument, "limit must be non-negative"⟩)
  else
    let isSingleKey := !isRangeEndPrefix req.key req.rangeEnd && req.rangeEnd.isEmpty
    if !req.serializable && isSingleKey then s.linearizableGet req.key req
    else if !req.serializable && !isSingleKey then s.linearizableRange req.key req.rangeEnd req
    else (s, s.staleRange req.key req.rangeEnd req)

def encodeDelete (key : Bytes) (prevKv : Bool) : KvCommand :=
  if prevKv then encodeDeleteWithPrevKV key else encodeCommand .delete key []

def deleteSingleKey (key : Bytes) (req : DeleteRangeRequest) :
    KVServer × Except Status DeleteRangeResponse :=
  let (s, raw) := s.apply (encodeDelete key req.prevKv)
  let res := decodeResult raw
  let deleted := if res.error = "" then 1 else 0
  let prevKvs := if req.prevKv then res.prevKV.toList.map fsmKVToPb else []
  (s, .ok ⟨s.header, deleted, prevKvs⟩)

def deleteNext (prevKv : Bool) (acc : KVServer × ℤ × List PbKeyValue) (key : Bytes) :
    KVServer × ℤ × List PbKeyValue :=
  let (s, deleted, prevKvs) := acc
  let (s, raw) := s.apply (encodeDelete key prevKv)
  let res := decodeResult raw
  if res.error = "" then
    (s, deleted + 1, prevKvs ++ if prevKv then res.prevKV.toList.map fsmKVToPb else [])
  else (s, deleted, prevKvs)

def deleteKeys (prevKv : Bool) (s : KVServer) (keys : List Bytes) :
    KVServer × ℤ × List PbKeyValue :=
  keys.foldl (deleteNext prevKv) (s, 0, [])

def deletePrefixRange (key rangeEnd : Bytes) (req : DeleteRangeRequest) :
    KVServer × Except Status DeleteRangeResponse :=
  match s.kv.range (rangePrefix key rangeEnd) with
  | .error message => (s, .error ⟨.internal, "range before delete: " ++ message⟩)
  | .ok existing =>
    let toDelete := (existing.filter fun kv ↦ inRange kv.key key rangeEnd).map KeyValue.key
    let (s, deleted, prevKvs) := deleteKeys req.prevKv s toDelete
    (s, .ok ⟨s.header, deleted, prevKvs⟩)

def deleteRange (req : DeleteRangeRequest) : KVServer × Except Status DeleteRangeResponse :=
  if req.key = [] then (s, .error ⟨.invalidArgument, "key must not be empty"⟩)
  else if isRangeEndPrefix req.key req.rangeEnd then s.deletePrefixRange req.key req.rangeEnd req
  else s.deleteSingleKey req.key req

end KVServer

end Etcd

end RaftConsensus
