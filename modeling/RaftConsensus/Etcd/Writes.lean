import RaftConsensus.Etcd.Server

namespace RaftConsensus.Etcd

open Kv

structure PutRequest where
  key : Bytes
  value : Bytes
  prevKv : Bool
deriving DecidableEq

structure PutResponse where
  header : ResponseHeader
  prevKv : Option PbKeyValue
deriving DecidableEq

/-- The numbers of the enumeration that have no name are left as numbers. -/
inductive PbCompareResult
  | equal | greater | less | notEqual
  | other (n : ℤ)
deriving DecidableEq

inductive PbCompareTarget
  | version | create | mod | value
  | other (n : ℤ)
deriving DecidableEq

inductive TargetUnion
  | version (version : ℤ)
  | createRevision (createRevision : ℤ)
  | modRevision (modRevision : ℤ)
  | value (value : Bytes)
  | unset
deriving DecidableEq

structure PbCompare where
  result : PbCompareResult
  target : PbCompareTarget
  key : Bytes
  targetUnion : TargetUnion
  rangeEnd : Bytes
deriving DecidableEq

/-- What a nested transaction asks for is not looked at, nor is the end of a compare's range. -/
inductive RequestOp
  | requestPut (req : PutRequest)
  | requestDeleteRange (req : DeleteRangeRequest)
  | requestRange (req : RangeRequest)
  | requestTxn
  | unset
deriving DecidableEq

inductive ResponseOp
  | responsePut (resp : PutResponse)
  | responseDeleteRange (resp : DeleteRangeResponse)
  | unset
deriving DecidableEq

structure PbTxnRequest where
  compare : List PbCompare
  success : List RequestOp
  failure : List RequestOp
deriving DecidableEq

structure PbTxnResponse where
  header : ResponseHeader
  succeeded : Bool
  responses : List ResponseOp
deriving DecidableEq

def encodePutWithPrevKV (key value : Bytes) : KvCommand :=
  { encodeCommand .put (jsonText key) (jsonText value) with returnPrevKV := true }

def jsonCompare (c : Compare) : Compare :=
  { c with key := jsonText c.key, value := jsonText c.value }

def jsonTxnOp (op : TxnOp) : TxnOp := { op with key := jsonText op.key, value := jsonText op.value }

def encodeTxn (req : TxnRequest) : KvCommand :=
  Kv.encodeTxn ⟨req.compare.map jsonCompare, req.success.map jsonTxnOp, req.failure.map jsonTxnOp⟩

def decodeTxnResult : Kv.Reply → TxnResponse
  | .txn resp =>
    { resp with results := resp.results.map fun res ↦ { res with kv := res.kv.map jsonKeyValue } }
  | .kv _ => ⟨false, [], 0⟩

def translateCompare (c : PbCompare) : Except String Compare := do
  let result ← match c.result with
    | .equal => .ok .equal
    | .notEqual => .ok .notEqual
    | .greater => .ok .greater
    | .less => .ok .less
    | .other n => .error s!"unknown compare result {n}"
  match c.target with
  | .version =>
    return ⟨c.key, .version, result, [], match c.targetUnion with | .version v => v | _ => 0⟩
  | .create =>
    return ⟨c.key, .createRevision, result, [],
      match c.targetUnion with | .createRevision v => v | _ => 0⟩
  | .mod =>
    return ⟨c.key, .modRevision, result, [],
      match c.targetUnion with | .modRevision v => v | _ => 0⟩
  | .value =>
    return ⟨c.key, .value, result, match c.targetUnion with | .value v => v | _ => [], 0⟩
  | .other n => .error s!"unknown compare target {n}"

def translateCompares (cmps : List PbCompare) : Except String (List Compare) :=
  cmps.mapM translateCompare

def translateOp : RequestOp → Except String TxnOp
  | .requestPut req => .ok ⟨.put, req.key, req.value⟩
  | .requestDeleteRange req =>
    if req.rangeEnd ≠ [] then .error "range deletes in transactions are not supported"
    else .ok ⟨.delete, req.key, []⟩
  | .requestRange _ => .error "range ops inside transactions are not supported"
  | .requestTxn => .error "nested transactions are not supported"
  | .unset => .error "unsupported RequestOp type"

def translateOps (ops : List RequestOp) : Except String (List TxnOp) := ops.mapM translateOp

theorem forall₂_translateOps {reqs : List RequestOp} {ops : List TxnOp}
    (h : translateOps reqs = .ok ops) :
    List.Forall₂ (fun req op ↦ translateOp req = .ok op) reqs ops := by
  induction reqs generalizing ops with
  | nil =>
    cases h
    exact .nil
  | cons req reqs ih =>
    unfold translateOps at h ih
    rw [List.mapM_cons] at h
    cases hop : translateOp req with
    | error message =>
      rw [hop] at h
      cases h
    | ok op =>
      cases hrest : reqs.mapM translateOp with
      | error message =>
        rw [hop, hrest] at h
        cases h
      | ok rest =>
        rw [hop, hrest] at h
        cases h
        exact .cons hop (ih hrest)

def buildResponseOp (req : RequestOp) (res : TxnResult) (hdr : ResponseHeader) : ResponseOp :=
  match req with
  | .requestPut _ => .responsePut ⟨hdr, none⟩
  | .requestDeleteRange _ =>
    .responseDeleteRange ⟨hdr, if res.error = "" then 1 else 0, []⟩
  | _ => .unset

namespace KVServer

variable (s : KVServer)

def put (req : PutRequest) : KVServer × Except Status PutResponse :=
  if req.key = [] then (s, .error ⟨.invalidArgument, "key must not be empty"⟩)
  else
    let cmd := if req.prevKv then encodePutWithPrevKV req.key req.value
      else encodeCommand .put req.key req.value
    let (s, raw) := s.apply cmd
    let res := decodeResult raw
    if res.error ≠ "" then (s, .error ⟨.internal, "put failed: " ++ res.error⟩)
    else (s, .ok ⟨s.header, if req.prevKv then res.prevKV.map fsmKVToPb else none⟩)

def applyTxn (req : PbTxnRequest) (fsmReq : TxnRequest) : KVServer × PbTxnResponse :=
  let (s, raw) := s.apply (encodeTxn fsmReq)
  let txnResp := decodeTxnResult raw
  let ops := if txnResp.succeeded then req.success else req.failure
  (s, ⟨s.header, txnResp.succeeded, txnResp.results.mapIdx fun i res ↦
    match ops[i]? with
    | some op => buildResponseOp op res s.header
    | none => .unset⟩)

def txn (req : PbTxnRequest) : KVServer × Except Status PbTxnResponse :=
  match translateCompares req.compare with
  | .error message => (s, .error ⟨.invalidArgument, "compare: " ++ message⟩)
  | .ok compare =>
    match translateOps req.success with
    | .error message => (s, .error ⟨.invalidArgument, "success: " ++ message⟩)
    | .ok success =>
      match translateOps req.failure with
      | .error message => (s, .error ⟨.invalidArgument, "failure: " ++ message⟩)
      | .ok failure =>
        let (s, resp) := s.applyTxn req ⟨compare, success, failure⟩
        (s, .ok resp)

end KVServer

end RaftConsensus.Etcd
