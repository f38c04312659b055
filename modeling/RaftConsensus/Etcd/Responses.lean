import RaftConsensus.Etcd.Stored
import RaftConsensus.Kv.Transactions

namespace RaftConsensus

open Kv List

namespace Kv

/-- What a compare says of a pair, or of a missing key, whose numbers are zero. -/
def Compare.says (c : Compare) (kv : Option KeyValue) : Bool :=
  match c.target with
  | .value =>
    match kv, c.result with
    | none, result => result = .notEqual
    | some kv, .equal => kv.value = c.value
    | some kv, .notEqual => kv.value ≠ c.value
    | some kv, .greater => !bytesLE kv.value c.value
    | some kv, .less => !bytesLE c.value kv.value
    | some _, .other => false
  | .version => compareInt64 ((kv.map KeyValue.version).getD 0) c.rev c.result
  | .createRevision => compareInt64 ((kv.map KeyValue.createRevision).getD 0) c.rev c.result
  | .modRevision => compareInt64 ((kv.map KeyValue.modRevision).getD 0) c.rev c.result
  | .other => false

section Loop

variable {data : KeyData} {gone : List Bytes} {ops : List TxnOp} (txnRev : ℤ)

theorem results_runTxnOps (data : KeyData) (h : ∀ op ∈ ops, op.opType ≠ .other) :
    (Contents.runTxnOps txnRev data ops).2.1.length = ops.length ∧
      ∀ res ∈ (Contents.runTxnOps txnRev data ops).2.1, res.error = "" := by
  induction ops generalizing data with
  | nil => exact ⟨rfl, forall_mem_nil _⟩
  | cons op ops ih =>
    obtain ⟨hop, hops⟩ := forall_mem_cons.mp h
    cases hty : op.opType with
    | put =>
      rw [runTxnOps_put _ _ _ hty]
      exact ⟨congrArg (· + 1) (ih _ hops).1, forall_mem_cons.mpr ⟨rfl, (ih _ hops).2⟩⟩
    | delete =>
      rw [runTxnOps_delete _ _ _ hty]
      exact ⟨congrArg (· + 1) (ih _ hops).1, forall_mem_cons.mpr ⟨rfl, (ih _ hops).2⟩⟩
    | other => exact absurd hty hop

theorem deletesOnce_iff_present (h : Absent data gone ops) (hk : ∀ op ∈ ops, op.opType ≠ .other) :
    deletesOnce gone ops = true ↔ ∀ i op, ops[i]? = some op → op.opType = .delete →
      ((Contents.runTxnOps txnRev data (ops.take i)).1.lookup op.key).isSome = true := by
  induction ops generalizing data gone with
  | nil => exact iff_of_true rfl nofun
  | cons op ops ih =>
    obtain ⟨hop, hops⟩ := forall_mem_cons.mp hk
    rw [← Nat.and_forall_add_one, deletesOnce]
    simp only [getElem?_cons_zero, Option.some.injEq, getElem?_cons_succ,
      take_succ_cons, forall_eq', take_zero]
    cases hty : op.opType with
    | put =>
      simp only [runTxnOps_put _ _ _ hty, reduceCtorEq, false_imp_iff, true_and]
      exact ih (h.put _) hops
    | delete =>
      simp only [runTxnOps_delete _ _ _ hty, Bool.and_eq_true, true_imp_iff]
      refine and_congr ?_ (ih h.delete hops)
      rw [decide_eq_true_iff, h op mem_cons_self hty, ← ne_eq, Option.isSome_iff_ne_none]
      rfl
    | other => exact absurd hty hop

end Loop

namespace Contents

def removes (s : Contents) (req : TxnRequest) (i : ℕ) : Bool :=
  !s.aborts req && (s.txnOps req)[i]?.any fun op ↦ op.opType = .delete &&
    ((runTxnOps (s.revision + 1) s.data ((s.txnOps req).take i)).1.lookup op.key).isSome

end Contents

end Kv

namespace Etcd

/-- A compare of a range is about all live pairs of it. -/
def PbCompare.holds (s : Contents) (c : PbCompare) : Bool :=
  match translateCompare c with
  | .error _ => false
  | .ok fc =>
    if c.rangeEnd = [] then fc.says (s.live fc.key)
    else s.data.entries.all fun e ↦
      !(s.isLive e.2 && inRange e.1 fc.key c.rangeEnd) || fc.says (some e.2)

def PbTxnRequest.Sends (req : PbTxnRequest) (sent : TxnRequest) : Prop :=
  ∃ fsmReq : TxnRequest, translateCompares req.compare = .ok fsmReq.compare ∧
    translateOps req.success = .ok fsmReq.success ∧ translateOps req.failure = .ok fsmReq.failure ∧
    sent = ⟨fsmReq.compare.map jsonCompare, fsmReq.success.map jsonTxnOp,
      fsmReq.failure.map jsonTxnOp⟩

def PbTxnRequest.branch (req : PbTxnRequest) (succeeded : Bool) : List RequestOp :=
  if succeeded then req.success else req.failure

/-- The response is of the kind of the operation, and tells whether a key was removed. -/
def ResponseOp.Answers : ResponseOp → RequestOp → Bool → Prop
  | .responsePut _, .requestPut _, _ => True
  | .responseDeleteRange resp, .requestDeleteRange _, removed =>
    resp.deleted = if removed then 1 else 0
  | _, _, _ => False

structure TxnAnswered (s : Contents) (req : PbTxnRequest) (sent : TxnRequest)
    (resp : PbTxnResponse) : Prop where
  succeeded : resp.succeeded = req.compare.all (PbCompare.holds s)
  length : resp.responses.length = (req.branch resp.succeeded).length
  responses : ∀ i op (answer : ResponseOp), (req.branch resp.succeeded)[i]? = some op →
    resp.responses[i]? = some answer → answer.Answers op (s.removes sent i)

def RequestOp.isDelete : RequestOp → Bool
  | .requestDeleteRange _ => true
  | _ => false

/-- The chosen branch is carried out and deletes keys that are there. A branch that is refused
should be the one of compares that fail, and delete nothing but missing keys. -/
def Answerable (s : Contents) (req : PbTxnRequest) (sent : TxnRequest) : Prop :=
  if s.aborts sent = false then
    sent.compare.all s.evalCompare = req.compare.all (PbCompare.holds s) ∧
      deletesOnce [] (s.txnOps sent) = true
  else req.compare.all (PbCompare.holds s) = false ∧
    if s.revisionExhausted then req.failure = []
    else List.Forall₂ (fun req op ↦ req.isDelete = true → s.missing op = true) req.failure
      (s.txnOps sent)

section Translated

variable {s : KVServer} {req : PbTxnRequest} {sent : TxnRequest}

/-- The operations of a branch and those that reach the store. -/
theorem forall₂_sent (h : req.Sends sent) (b : Bool) :
    List.Forall₂ (fun r op ↦ ∃ op', translateOp r = .ok op' ∧ op = jsonTxnOp op') (req.branch b)
      (if b then sent.success else sent.failure) := by
  obtain ⟨fsmReq, -, hsuccess, hfailure, rfl⟩ := h
  cases b with
  | true =>
    refine forall₂_map_right_iff.mpr ((forall₂_translateOps hsuccess).imp fun r op hop ↦ ?_)
    exact ⟨op, hop, rfl⟩
  | false =>
    refine forall₂_map_right_iff.mpr ((forall₂_translateOps hfailure).imp fun r op hop ↦ ?_)
    exact ⟨op, hop, rfl⟩

def answersTo (hdr : ResponseHeader) (req : PbTxnRequest) (out : TxnResponse) : PbTxnResponse :=
  ⟨hdr, out.succeeded, out.results.mapIdx fun i res ↦
    match (req.branch out.succeeded)[i]? with
    | some op => buildResponseOp op res hdr
    | none => .unset⟩

theorem txn_of_sent (hs : s.kv.Sound) (h : req.Sends sent) :
    ∃ hdr, (s.txn req).2 = .ok (answersTo hdr req (s.kv.applyTxnLocked sent).2) := by
  obtain ⟨fsmReq, hcompare, hsuccess, hfailure, hsent⟩ := h
  refine ⟨(s.applyTxn req fsmReq).1.header, ?_⟩
  have htxn : (s.txn req).2 = .ok (s.applyTxn req fsmReq).2 := by
    unfold KVServer.txn
    rw [hcompare, hsuccess, hfailure]
  have hreply : (s.kv.apply (encodeTxn fsmReq)).2 = .txn (s.kv.applyTxnLocked sent).2 := by
    rw [hsent, encodeTxn, KVStore.apply_anonymous s.kv rfl, KVStore.toContents_advance hs rfl]
    rfl
  rw [htxn]
  unfold KVServer.applyTxn KVServer.apply answersTo
  dsimp only
  rw [hreply]
  refine congrArg (fun l ↦ Except.ok (PbTxnResponse.mk _ _ l)) (ext_getElem? fun i ↦ ?_)
  simp only [decodeTxnResult, getElem?_mapIdx, getElem?_map, Option.map_map]
  rfl

theorem sent_at (h : req.Sends sent) (b : Bool) (i : ℕ) :
    (∃ r op, (req.branch b)[i]? = some r ∧ translateOp r = .ok op ∧
      (if b then sent.success else sent.failure)[i]? = some (jsonTxnOp op)) ∨
    (req.branch b)[i]? = none ∧ (if b then sent.success else sent.failure)[i]? = none := by
  obtain ⟨hlen, hget⟩ := forall₂_iff_get.mp (forall₂_sent h b)
  by_cases hi : i < (req.branch b).length
  · obtain ⟨op, hop, heq⟩ := hget i hi (hlen ▸ hi)
    exact .inl ⟨_, op, getElem?_eq_getElem hi, hop,
      (getElem?_eq_getElem (hlen ▸ hi)).trans (congrArg some heq)⟩
  · rw [not_lt] at hi
    exact .inr ⟨getElem?_eq_none hi, getElem?_eq_none (hlen ▸ hi)⟩

theorem isDelete_of_translateOp {r : RequestOp} {op : TxnOp} (h : translateOp r = .ok op) :
    (r.isDelete = true ↔ op.opType = .delete) := by
  cases r with
  | requestPut req =>
    cases h
    exact iff_of_false nofun nofun
  | requestDeleteRange req =>
    dsimp only [translateOp] at h
    split_ifs at h
    cases h
    exact iff_of_true rfl rfl
  | requestRange _ => cases h
  | requestTxn => cases h
  | unset => cases h

theorem answers_buildResponseOp {r : RequestOp} {op : TxnOp} (h : translateOp r = .ok op)
    (res : TxnResult) (hdr : ResponseHeader) (removed : Bool) :
    (buildResponseOp r res hdr).Answers r removed ↔
      (r.isDelete = true → (res.error = "" ↔ removed = true)) := by
  cases r with
  | requestPut req => exact iff_of_true trivial nofun
  | requestDeleteRange req =>
    dsimp only [buildResponseOp, ResponseOp.Answers, RequestOp.isDelete]
    cases removed <;> by_cases he : res.error = "" <;> simp [he]
  | requestRange _ => cases h
  | requestTxn => cases h
  | unset => cases h

/-- What the response has to say of the results of the store. -/
theorem answered_iff (h : req.Sends sent) (k : Contents) (hdr : ResponseHeader)
    (out : TxnResponse) : TxnAnswered k req sent (answersTo hdr req out) ↔
      out.succeeded = req.compare.all (PbCompare.holds k) ∧
      out.results.length = (req.branch out.succeeded).length ∧
      ∀ i r res, (req.branch out.succeeded)[i]? = some r → out.results[i]? = some res →
        r.isDelete = true → (res.error = "" ↔ k.removes sent i = true) := by
  have hbuilt (i : ℕ) (r : RequestOp) (res : TxnResult)
      (hr : (req.branch out.succeeded)[i]? = some r) (hres : out.results[i]? = some res) :
      (answersTo hdr req out).responses[i]? = some (buildResponseOp r res hdr) := by
    dsimp only [answersTo]
    rw [getElem?_mapIdx, hres, hr]
    rfl
  have hok (i : ℕ) (r : RequestOp) (hr : (req.branch out.succeeded)[i]? = some r) :
      ∃ op, translateOp r = .ok op := by
    rcases sent_at h out.succeeded i with ⟨r', op, hr', hop, -⟩ | ⟨hnone, -⟩
    · rw [hr] at hr'
      cases hr'
      exact ⟨op, hop⟩
    · rw [hr] at hnone
      cases hnone
  constructor
  · rintro ⟨hsucc, hlen, hresp⟩
    refine ⟨hsucc, (length_mapIdx).symm.trans hlen, fun i r res hr hres ↦ ?_⟩
    obtain ⟨op, hop⟩ := hok i r hr
    exact (answers_buildResponseOp hop res hdr _).mp (hresp i r _ hr (hbuilt i r res hr hres))
  · rintro ⟨hsucc, hlen, hresp⟩
    refine ⟨hsucc, length_mapIdx.trans hlen, fun i r answer hr hanswer ↦ ?_⟩
    have hlt : i < out.results.length := by
      rw [hlen]
      exact (List.getElem?_eq_some_iff.mp hr).1
    have hres : out.results[i]? = some out.results[i] := getElem?_eq_getElem hlt
    rw [hbuilt i r _ hr hres] at hanswer
    cases hanswer
    obtain ⟨op, hop⟩ := hok i r hr
    exact (answers_buildResponseOp hop _ hdr _).mpr (hresp i r _ hr hres)

theorem opType_sent (h : req.Sends sent) (b : Bool) :
    ∀ op ∈ (if b then sent.success else sent.failure), op.opType ≠ .other := by
  intro op hop
  obtain ⟨i, hi⟩ := mem_iff_getElem?.mp hop
  rcases sent_at h b i with ⟨r, op', -, hop', hget⟩ | ⟨-, hnone⟩
  · rw [hi] at hget
    cases hget
    exact fun hother ↦ opType_translateOp hop' hother
  · rw [hi] at hnone
    cases hnone

end Translated

section Main

variable {s : KVServer} {k : Contents} {req : PbTxnRequest} {sent : TxnRequest}

theorem committed_results (h : req.Sends sent) (hab : k.aborts sent = false) :
    (k.applyTxnLocked sent).2.succeeded = sent.compare.all k.evalCompare ∧
      (k.applyTxnLocked sent).2.results.length = (k.txnOps sent).length ∧
      ∀ res ∈ (k.applyTxnLocked sent).2.results, res.error = "" := by
  by_cases hnil : k.txnOps sent = []
  · rw [Contents.applyTxnLocked_nil hnil, hnil]
    exact ⟨rfl, rfl, forall_mem_nil _⟩
  · obtain ⟨hex, hm⟩ := Contents.not_missing_of_commits hab hnil
    rw [Contents.applyTxnLocked_run hnil hex hm]
    exact ⟨rfl, results_runTxnOps _ _ (opType_sent h _)⟩

theorem answered_of_commits (h : req.Sends sent) (hdr : ResponseHeader)
    (hab : k.aborts sent = false) :
    TxnAnswered k req sent (answersTo hdr req (k.applyTxnLocked sent).2) ↔
      sent.compare.all k.evalCompare = req.compare.all (PbCompare.holds k) ∧
        deletesOnce [] (k.txnOps sent) = true := by
  obtain ⟨hsucc, hlen, herr⟩ := committed_results h hab
  have hops : (if sent.compare.all k.evalCompare then sent.success else sent.failure) =
    k.txnOps sent := rfl
  have hrem (i : ℕ) (op : TxnOp) (hi : (k.txnOps sent)[i]? = some op)
      (hdel : op.opType = .delete) : k.removes sent i = ((Contents.runTxnOps (k.revision + 1) k.data
        ((k.txnOps sent).take i)).1.lookup op.key).isSome := by
    simp [Contents.removes, hab, hi, hdel]
  have habsent : Absent k.data [] (k.txnOps sent) := by
    by_cases hnil : k.txnOps sent = []
    · rw [hnil]
      exact fun op hop ↦ absurd hop not_mem_nil
    · exact Contents.absent_of_not_missing (Contents.not_missing_of_commits hab hnil).2
  rw [answered_iff h, hsucc, hlen,
    deletesOnce_iff_present (k.revision + 1) habsent (opType_sent h _)]
  refine and_congr_right fun _ ↦ ?_
  constructor
  · rintro ⟨-, hall⟩ i op hi hdel
    rcases sent_at h (sent.compare.all k.evalCompare) i with ⟨r, op', hr, hop', hget⟩ | ⟨-, hnone⟩
    · rw [hops, hi] at hget
      cases hget
      have hlt : i < (k.applyTxnLocked sent).2.results.length := by
        rw [hlen]
        exact (List.getElem?_eq_some_iff.mp hi).1
      have hres := getElem?_eq_getElem hlt
      rw [← hrem i _ hi hdel]
      exact (hall i r _ hr hres ((isDelete_of_translateOp hop').mpr hdel)).mp
        (herr _ (getElem_mem hlt))
    · rw [hops, hi] at hnone
      cases hnone
  · intro hall
    refine ⟨(forall₂_sent h _).length_eq.symm, fun i r res hr hres hdel ↦ ?_⟩
    rcases sent_at h (sent.compare.all k.evalCompare) i with ⟨r', op', hr', hop', hget⟩ | ⟨hnone, -⟩
    · rw [hr] at hr'
      cases hr'
      have hty := (isDelete_of_translateOp hop').mp hdel
      rw [hrem i _ hget hty]
      exact iff_of_true (herr res (mem_of_getElem? hres)) (hall i _ hget hty)
    · rw [hr] at hnone
      cases hnone

theorem answered_of_aborts (h : req.Sends sent) (hdr : ResponseHeader)
    (hab : k.aborts sent = true) :
    TxnAnswered k req sent (answersTo hdr req (k.applyTxnLocked sent).2) ↔
      req.compare.all (PbCompare.holds k) = false ∧
        if k.revisionExhausted then req.failure = []
        else List.Forall₂ (fun req op ↦ req.isDelete = true → k.missing op = true) req.failure
          (k.txnOps sent) := by
  obtain ⟨hne, hab'⟩ := Bool.and_eq_true_iff.mp hab
  have hops := of_decide_eq_true hne
  have hrem (i : ℕ) : k.removes sent i = false := by simp [Contents.removes, hab]
  rw [answered_iff h]
  generalize req.compare.all (PbCompare.holds k) = holds
  by_cases hex : k.revisionExhausted = true
  · rw [Contents.applyTxnLocked_exhausted hops hex, if_pos hex]
    constructor
    · rintro ⟨hsucc, hlen, -⟩
      exact ⟨hsucc.symm, length_eq_zero_iff.mp hlen.symm⟩
    · rintro ⟨hsucc, hnil⟩
      refine ⟨hsucc.symm, (length_eq_zero_iff.mpr hnil).symm, fun i r res _ hres ↦ ?_⟩
      rw [getElem?_nil] at hres
      cases hres
  · have hm := ((Bool.or_eq_true _ _).mp hab').resolve_left hex
    have herr (op : TxnOp) : (if k.missing op then "key not found" else "") = "" ↔
        ¬ k.missing op = true := by
      split_ifs with hmiss <;> simp [hmiss]
    rw [Contents.applyTxnLocked_missing hops hex hm, if_neg hex, forall₂_iff_get]
    constructor
    · rintro ⟨hsucc, hlen, hall⟩
      refine ⟨hsucc.symm, hlen.symm.trans (length_map _), fun i hi hi' hdel ↦ ?_⟩
      have hres : ((k.txnOps sent).map fun op ↦
          (⟨none, if k.missing op then "key not found" else ""⟩ : TxnResult))[i]? =
          some ⟨none, if k.missing ((k.txnOps sent).get ⟨i, hi'⟩) then
            "key not found" else ""⟩ := by
        rw [getElem?_map, getElem?_eq_getElem hi']
        rfl
      have hiff := hall i _ _ (getElem?_eq_getElem hi) hres hdel
      rw [hrem i] at hiff
      by_contra hmiss
      exact absurd (hiff.mp ((herr _).mpr hmiss)) Bool.false_ne_true
    · rintro ⟨hsucc, hlen, hall⟩
      refine ⟨hsucc.symm, (length_map _).trans hlen.symm, fun i r res hr hres hdel ↦ ?_⟩
      rw [getElem?_map] at hres
      obtain ⟨op, hop, rfl⟩ := Option.map_eq_some_iff.mp hres
      obtain ⟨hi, rfl⟩ := List.getElem?_eq_some_iff.mp hr
      obtain ⟨hi', rfl⟩ := List.getElem?_eq_some_iff.mp hop
      rw [hrem i]
      exact iff_of_false (fun he ↦ (herr _).mp he (hall i hi hi' hdel)) Bool.false_ne_true

theorem txnAnswered_iff (hs : s.kv.Sound) (h : req.Sends sent) :
    (∃ resp, (s.txn req).2 = .ok resp ∧ TxnAnswered s.kv.toContents req sent resp) ↔
      Answerable s.kv.toContents req sent := by
  obtain ⟨hdr, hresp⟩ := txn_of_sent hs h
  have hone : (∃ resp, (s.txn req).2 = .ok resp ∧ TxnAnswered s.kv.toContents req sent resp) ↔
      TxnAnswered s.kv.toContents req sent (answersTo hdr req (s.kv.applyTxnLocked sent).2) := by
    rw [hresp]
    constructor
    · rintro ⟨resp, heq, hans⟩
      cases heq
      exact hans
    · exact fun hans ↦ ⟨_, rfl, hans⟩
  rw [hone, Answerable]
  cases hab : s.kv.aborts sent with
  | false =>
    rw [if_pos rfl]
    exact answered_of_commits h hdr hab
  | true =>
    rw [if_neg Bool.true_eq_false_eq_False]
    exact answered_of_aborts h hdr hab

/-- A compare of one key, between texts, of a value only whether it is equal, has the outcome that
it should have. -/
theorem evalCompare_eq_holds {c : PbCompare} {fc : Compare} (h : translateCompare c = .ok fc)
    (hend : c.rangeEnd = []) (hkey : jsonText fc.key = fc.key)
    (hvalue : jsonText fc.value = fc.value)
    (hres : fc.target = .value → fc.result = .equal ∨ fc.result = .notEqual) :
    k.evalCompare (jsonCompare fc) = c.holds k := by
  have hjson : jsonCompare fc = fc := by
    unfold jsonCompare
    rw [hkey, hvalue]
  rw [hjson, PbCompare.holds, h]
  dsimp only
  rw [if_pos hend]
  unfold Contents.evalCompare Compare.says
  dsimp only
  cases htarget : fc.target with
  | value => cases k.live fc.key <;> rcases hres htarget with hr | hr <;> rw [hr]
  | version => rfl
  | createRevision => rfl
  | modRevision => rfl
  | other => rfl

def emptyServer : KVServer := ⟨KVStore.new, 0, 0, .insertion⟩

def serverOfA : KVServer := ⟨(KVStore.new.apply KVStore.putA).1, 0, 0, .insertion⟩

def deleteKeyA : RequestOp := .requestDeleteRange ⟨ascii "a", [], false⟩

def toggleA : PbTxnRequest :=
  ⟨[⟨.greater, .version, ascii "a", .version 0, []⟩], [deleteKeyA],
    [.requestPut ⟨ascii "a", ascii "1", false⟩]⟩

theorem txnAnswered_toggleA :
    ∃ sent, toggleA.Sends sent ∧ ∃ resp, (serverOfA.txn toggleA).2 = .ok resp ∧
      TxnAnswered serverOfA.kv.toContents toggleA sent resp := by
  have hsends : toggleA.Sends _ := ⟨⟨_, _, _⟩, rfl, rfl, rfl, rfl⟩
  refine ⟨_, hsends, (txnAnswered_iff (KVStore.sound_new.apply _) hsends).mpr ?_⟩
  rw [Answerable, if_pos (by decide +kernel)]
  exact ⟨by decide +kernel, by decide +kernel⟩

def deleteThenPut : PbTxnRequest := { toggleA with compare := [] }

def deleteTwiceA : PbTxnRequest := ⟨[], [deleteKeyA, deleteKeyA], []⟩

/-- Where the key is missing, the answer to the delete is that of the put in the other branch. A key
that is deleted twice is counted twice. -/
theorem txn_answered_wrong :
    (∃ sent resp, deleteThenPut.Sends sent ∧ (emptyServer.txn deleteThenPut).2 = .ok resp ∧
      resp.responses = [.responsePut ⟨emptyServer.header, none⟩] ∧
      ¬ TxnAnswered emptyServer.kv.toContents deleteThenPut sent resp) ∧
    ∃ sent resp, deleteTwiceA.Sends sent ∧ (serverOfA.txn deleteTwiceA).2 = .ok resp ∧
      ¬ TxnAnswered serverOfA.kv.toContents deleteTwiceA sent resp := by
  refine ⟨⟨_, _, ⟨⟨_, _, _⟩, rfl, rfl, rfl, rfl⟩, rfl, by decide +kernel, fun h ↦ ?_⟩,
    ⟨_, _, ⟨⟨_, _, _⟩, rfl, rfl, rfl, rfl⟩, rfl, fun h ↦ ?_⟩⟩
  · exact absurd h.succeeded (by decide +kernel)
  · have hdeleted : (1 : ℤ) = if _ then 1 else 0 := h.responses 1 deleteKeyA _ rfl rfl
    exact absurd hdeleted (by decide +kernel)

end Main

end Etcd

end RaftConsensus
