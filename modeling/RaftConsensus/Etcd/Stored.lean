import RaftConsensus.Etcd.Reads
import RaftConsensus.Etcd.Writes

namespace RaftConsensus

open List Option AList

namespace Kv

def lastOp (key : Bytes) : List TxnOp → Option TxnOp
  | [] => none
  | op :: rest => (lastOp key rest).or (if Etcd.jsonText op.key = key then some op else none)

section Txn

variable {key : Bytes} {txnRev : ℤ}

theorem lookup_runTxnOps (data : KeyData) {ops : List TxnOp}
    (hops : ∀ op ∈ ops, op.opType ≠ .other) :
    ((Contents.runTxnOps txnRev data (ops.map Etcd.jsonTxnOp)).1.lookup key).map
        (fun kv ↦ (kv.value, kv.expiresAtMs)) =
      match lastOp key ops with
      | none => (data.lookup key).map fun kv ↦ (kv.value, kv.expiresAtMs)
      | some op => if op.opType = .put then some (Etcd.jsonText op.value, 0) else none := by
  induction ops generalizing data with
  | nil => rfl
  | cons op ops ih =>
    have hrest : ∀ x ∈ ops, x.opType ≠ .other := fun x hx ↦ hops x (mem_cons_of_mem op hx)
    rw [map_cons, lastOp]
    unfold Contents.runTxnOps
    cases hop : op.opType with
    | put =>
      have hj : (Etcd.jsonTxnOp op).opType = .put := hop
      simp only [hj]
      rw [ih _ hrest]
      cases hlast : lastOp key ops with
      | some x => rfl
      | none =>
        by_cases hk : Etcd.jsonText op.key = key
        · have hk' : (Etcd.jsonTxnOp op).key = key := hk
          rw [hk', lookup_insert, if_pos hk, none_or]
          simp only [hop]
          rfl
        · have hk' : key ≠ (Etcd.jsonTxnOp op).key := fun h ↦ hk h.symm
          rw [lookup_insert_ne hk', if_neg hk]
          rfl
    | delete =>
      have hj : (Etcd.jsonTxnOp op).opType = .delete := hop
      simp only [hj]
      rw [ih _ hrest]
      cases hlast : lastOp key ops with
      | some x => rfl
      | none =>
        by_cases hk : Etcd.jsonText op.key = key
        · have hk' : (Etcd.jsonTxnOp op).key = key := hk
          rw [hk', lookup_erase, if_pos hk, none_or]
          simp only [hop]
          rfl
        · have hk' : key ≠ (Etcd.jsonTxnOp op).key := fun h ↦ hk h.symm
          rw [lookup_erase_ne hk', if_neg hk]
          rfl
    | other => exact absurd hop (hops op mem_cons_self)

end Txn

namespace KVStore

variable {s : KVStore}

theorem data_put (hs : s.Sound) {key value : Bytes} {returnPrevKV : Bool} {cmd : KvCommand}
    (hcmd : cmd = { encodeCommand .put key value with returnPrevKV := returnPrevKV })
    (hok : (s.apply cmd).2 ≠ .error errRevisionExhausted) :
    ∃ kv : KeyValue, kv.value = value ∧ kv.expiresAtMs = 0 ∧
      (s.apply cmd).1.data = s.data.insert key kv := by
  have hexec : s.execute cmd =
      if s.revisionExhausted then (s.toContents, .error errRevisionExhausted, false)
      else ((s.putEvent key value (s.data.lookup key) 0).1,
        .kv ⟨.keyValue (s.putEvent key value (s.data.lookup key) 0).2, "",
          if returnPrevKV then s.data.lookup key else none⟩, true) := by
    rw [hcmd]
    rfl
  rw [apply_anonymous s (by rw [hcmd]; rfl), toContents_advance hs (by rw [hcmd]; rfl),
    hexec] at hok ⊢
  by_cases hr : s.revisionExhausted = true
  · rw [if_pos hr] at hok
    exact absurd rfl hok
  · rw [if_neg hr]
    exact ⟨_, rfl, rfl, Contents.data_putEvent _ key value (s.data.lookup key) 0⟩

theorem data_txn (hs : s.Sound) {req : TxnRequest}
    (hrev : (s.apply (Kv.encodeTxn req)).1.revision = s.revision + 1) :
    ∃ resp, (s.apply (Kv.encodeTxn req)).2 = .txn resp ∧
      (s.apply (Kv.encodeTxn req)).1.data = (Contents.runTxnOps (s.revision + 1) s.data
        (if resp.succeeded then req.success else req.failure)).1 := by
  have hexec : s.execute (Kv.encodeTxn req) =
      ((s.applyTxnLocked req).1, .txn (s.applyTxnLocked req).2, true) := rfl
  rw [apply_anonymous s rfl, toContents_advance hs rfl, hexec] at hrev ⊢
  refine ⟨_, rfl, ?_⟩
  dsimp only at hrev ⊢
  have hsame : s.revision ≠ s.revision + 1 := by omega
  unfold Contents.applyTxnLocked at hrev ⊢
  dsimp only at hrev ⊢
  split_ifs at hrev ⊢ <;>
    first | exact absurd hrev hsame | rfl | exact (Contents.emitEvents_spec _ _).1

end KVStore

end Kv

namespace Etcd

open Kv

/-- A write of a pair that was carried out. A command that travels as JSON is given by its
operations from the put of the pair on. -/
inductive Wrote (s : KVServer) (key value : Bytes) : Option (List TxnOp) → KVServer → Prop
  | put (req : PutRequest) (resp : PutResponse) :
      req.key = key → req.value = value → (s.put req).2 = .ok resp →
      Wrote s key value (if req.prevKv then some [⟨.put, key, value⟩] else none) (s.put req).1
  | txn (req : PbTxnRequest) (resp : PbTxnResponse) (before after : List TxnOp) :
      (s.txn req).2 = .ok resp → resp.header.revision = s.kv.revision + 1 →
      translateOps (if resp.succeeded then req.success else req.failure) =
        .ok (before ++ ⟨.put, key, value⟩ :: after) →
      (∀ op ∈ after, op.key ≠ key) → Wrote s key value (some (⟨.put, key, value⟩ :: after))
      (s.txn req).1

def lastPut (key : Bytes) (ops : List TxnOp) : Option Bytes :=
  (lastOp (jsonText key) ops).bind fun op ↦
    if op.opType = .put then some (jsonText op.value) else none

/-- The pair is in the store after the write. When the key is no text a command that travels as
JSON does not reach it. -/
def Lands (s : KVServer) (key value : Bytes) : Option (List TxnOp) → Prop
  | none => True
  | some ops =>
    if jsonText key = key then lastPut key ops = some value
    else (s.kv.data.lookup key).map KeyValue.value = some value

section Writes

variable {s s' : KVServer} {key value : Bytes} {ops : Option (List TxnOp)}

theorem opType_translateOp {req : RequestOp} {op : TxnOp} (h : translateOp req = .ok op) :
    op.opType ≠ .other := by
  cases req with
  | requestPut req =>
    cases h
    exact TxnOpType.noConfusion
  | requestDeleteRange req =>
    dsimp only [translateOp] at h
    split_ifs at h
    cases h
    exact TxnOpType.noConfusion
  | requestRange _ => cases h
  | requestTxn => cases h
  | unset => cases h

theorem opType_translateOps {reqs : List RequestOp} {ops : List TxnOp}
    (h : translateOps reqs = .ok ops) : ∀ op ∈ ops, op.opType ≠ .other := by
  have hall := forall₂_translateOps h
  clear h
  induction hall with
  | nil => exact forall_mem_nil _
  | cons hop _ ih => exact forall_mem_cons.mpr ⟨opType_translateOp hop, ih⟩

theorem lastOp_append (key : Bytes) (before ops : List TxnOp) :
    lastOp key (before ++ ops) = (lastOp key ops).or (lastOp key before) := by
  induction before with
  | nil => exact (or_none).symm
  | cons op before ih => rw [cons_append, lastOp, ih, Option.or_assoc, lastOp]

theorem lastOp_eq_none (hkey : jsonText key ≠ key) (ops : List TxnOp) : lastOp key ops = none := by
  induction ops with
  | nil => rfl
  | cons op ops ih =>
    rw [lastOp, ih, if_neg]
    · rfl
    · rintro rfl
      exact hkey (Utf8.sanitize_sanitize _)

def stored (s : KVServer) (key value : Bytes) : Option (List TxnOp) → Option (Bytes × ℤ)
  | none => some (value, 0)
  | some ops =>
    if jsonText key = key then (lastPut key ops).map fun v ↦ (v, 0)
    else (s.kv.data.lookup key).map fun kv ↦ (kv.value, kv.expiresAtMs)

theorem put_ok {req : PutRequest} {resp : PutResponse} (h : (s.put req).2 = .ok resp) :
    ∃ cmd, cmd = (if req.prevKv then encodePutWithPrevKV req.key req.value
      else encodeCommand .put req.key req.value) ∧ (s.put req).1.kv = (s.kv.apply cmd).1 ∧
      (decodeResult (s.kv.apply cmd).2).error = "" := by
  refine ⟨_, rfl, ?_⟩
  unfold KVServer.put KVServer.apply at h ⊢
  dsimp only at h ⊢
  generalize (if req.prevKv = true then encodePutWithPrevKV req.key req.value
    else encodeCommand .put req.key req.value) = cmd at h ⊢
  by_cases hkey : req.key = []
  · rw [if_pos hkey] at h
    cases h
  · rw [if_neg hkey] at h ⊢
    by_cases herr : (decodeResult (s.kv.apply cmd).2).error = ""
    · rw [if_neg (not_not.mpr herr)]
      exact ⟨rfl, herr⟩
    · rw [if_pos herr] at h
      cases h

theorem txn_ok {req : PbTxnRequest} {resp : PbTxnResponse} {ops : List TxnOp}
    (h : (s.txn req).2 = .ok resp)
    (hops : translateOps (if resp.succeeded then req.success else req.failure) = .ok ops) :
    ∃ fsmReq : TxnRequest, (s.txn req).1.kv = (s.kv.apply (encodeTxn fsmReq)).1 ∧
      resp.succeeded = (decodeTxnResult (s.kv.apply (encodeTxn fsmReq)).2).succeeded ∧
      resp.header.revision = (s.txn req).1.kv.revision ∧
      ops = if resp.succeeded then fsmReq.success else fsmReq.failure := by
  unfold KVServer.txn at h ⊢
  cases hcompare : translateCompares req.compare with
  | error message =>
    rw [hcompare] at h
    cases h
  | ok compare =>
    cases hsuccess : translateOps req.success with
    | error message =>
      rw [hcompare, hsuccess] at h
      cases h
    | ok success =>
      cases hfailure : translateOps req.failure with
      | error message =>
        rw [hcompare, hsuccess, hfailure] at h
        cases h
      | ok failure =>
        rw [hcompare, hsuccess, hfailure] at h
        dsimp only at h ⊢
        cases h
        refine ⟨⟨compare, success, failure⟩, rfl, rfl, rfl, ?_⟩
        split_ifs at hops ⊢
        · exact Except.ok.inj (hops.symm.trans hsuccess)
        · exact Except.ok.inj (hops.symm.trans hfailure)

theorem Wrote.lookup (hs : s.kv.Sound) (h : Wrote s key value ops s') :
    (s'.kv.data.lookup key).map (fun kv ↦ (kv.value, kv.expiresAtMs)) = stored s key value ops := by
  cases h with
  | put req resp hkey hvalue hok =>
    subst hkey hvalue
    obtain ⟨cmd, hcmd, hkv, herr⟩ := put_ok hok
    rw [hkv]
    have hne : (s.kv.apply cmd).2 ≠ .error errRevisionExhausted := by
      intro hreply
      rw [hreply] at herr
      exact absurd herr (by decide)
    cases hprev : req.prevKv with
    | false =>
      rw [hprev] at hcmd
      obtain ⟨kv, hv, he, hdata⟩ := KVStore.data_put hs hcmd hne
      rw [hdata, lookup_insert, map_some, hv, he]
      rfl
    | true =>
      rw [hprev] at hcmd
      obtain ⟨kv, hv, he, hdata⟩ := KVStore.data_put hs hcmd hne
      rw [hdata, if_pos rfl, stored]
      split_ifs with hkey
      · rw [hkey, lookup_insert, map_some, hv, he]
        simp [lastPut, lastOp]
      · rw [lookup_insert_ne (Ne.symm hkey)]
  | txn req resp before after hok hrev hops hafter =>
    obtain ⟨fsmReq, hkv, hsucc, hheader, hbranch⟩ := txn_ok hok hops
    have hrev' : (s.kv.apply (encodeTxn fsmReq)).1.revision = s.kv.revision + 1 := by
      rw [← hkv, ← hheader, hrev]
    obtain ⟨out, hreply, hdata⟩ := KVStore.data_txn hs hrev'
    have hout : out.succeeded = resp.succeeded := by
      rw [hsucc, encodeTxn, hreply]
      rfl
    have hdata' : (s.kv.apply (encodeTxn fsmReq)).1.data = (Contents.runTxnOps (s.kv.revision + 1)
        s.kv.data ((before ++ ⟨.put, key, value⟩ :: after).map jsonTxnOp)).1 := by
      refine hdata.trans ?_
      rw [hout, hbranch]
      split_ifs <;> rfl
    rw [hkv, hdata', lookup_runTxnOps _ (opType_translateOps hops), lastOp_append, stored]
    split_ifs with hkey
    · have hsome : ∃ op, lastOp key (⟨.put, key, value⟩ :: after) = some op := by
        rw [lastOp, if_pos hkey]
        cases lastOp key after <;> exact ⟨_, rfl⟩
      obtain ⟨op, hop⟩ := hsome
      rw [lastPut, hkey, hop, some_or]
      simp only [bind_some]
      split_ifs <;> rfl
    · rw [lastOp_eq_none hkey, lastOp_eq_none hkey]
      rfl

theorem Wrote.sound (hs : s.kv.Sound) (h : Wrote s key value ops s') : s'.kv.Sound := by
  cases h with
  | put req resp hkey hvalue hok =>
    obtain ⟨cmd, -, hkv, -⟩ := put_ok hok
    rw [hkv]
    exact hs.apply _
  | txn req resp before after hok hrev hops hafter =>
    obtain ⟨fsmReq, hkv, -⟩ := txn_ok hok hops
    rw [hkv]
    exact hs.apply _

theorem lands_iff : Lands s key value ops ↔ (stored s key value ops).map Prod.fst = some value := by
  cases ops with
  | none => exact iff_of_true trivial rfl
  | some ops =>
    unfold Lands stored
    dsimp only
    split_ifs <;> rw [Option.map_map] <;> simp [Function.comp_def]

theorem jsonText_lastPut {ops : List TxnOp} {v : Bytes} (h : lastPut key ops = some v) :
    jsonText v = v := by
  obtain ⟨op, -, hop⟩ := bind_eq_some_iff.mp h
  split_ifs at hop
  cases hop
  exact Utf8.sanitize_sanitize op.value

theorem map_jsonText_stored (hkey : jsonText key = key) :
    (stored s key value ops).map (fun p ↦ jsonText p.1) = some value ↔
      (stored s key value ops).map Prod.fst = some value ∧ jsonText value = value := by
  cases ops with
  | none => simp [stored]
  | some ops =>
    rw [stored, if_pos hkey, Option.map_map, Option.map_map]
    cases hlast : lastPut key ops with
    | none => simp
    | some v =>
      have hv := jsonText_lastPut hlast
      simp only [map_some, Function.comp_apply, some_inj, hv]
      constructor
      · rintro rfl
        exact ⟨rfl, hv⟩
      · exact And.left

theorem Wrote.live (hs : s.kv.Sound) (h : Wrote s key value ops s') (hkey : jsonText key = key) :
    s'.kv.live key = s'.kv.data.lookup key := by
  have hlookup := h.lookup hs
  unfold Contents.live
  cases hl : s'.kv.data.lookup key with
  | none => rfl
  | some kv =>
    rw [hl, map_some] at hlookup
    have h0 : kv.expiresAtMs = 0 := by
      cases ops with
      | none => exact (Prod.ext_iff.mp (some_inj.mp hlookup)).2
      | some ops =>
        rw [stored, if_pos hkey] at hlookup
        obtain ⟨v, -, hv⟩ := map_eq_some_iff.mp hlookup.symm
        exact (Prod.ext_iff.mp hv).2.symm
    simp [Contents.isLive, h0]

end Writes

end Etcd

end RaftConsensus
