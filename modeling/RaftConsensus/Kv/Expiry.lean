import RaftConsensus.Kv.SameLive
import RaftConsensus.Kv.Transactions

namespace RaftConsensus.Kv

open Option

namespace Contents

section Txn

variable {s : Contents} {gone : Bytes → Bool} {d : KeyData} {req : TxnRequest}

/-- No delete is of a key that is left out, and no put is that would be carried out. -/
def SparesTxn (s : Contents) (gone : Bytes → Bool) (req : TxnRequest) : Prop :=
  (∀ op ∈ s.txnOps req, op.opType = .delete → gone op.key = false) ∧
    ((s.txnOps req).any s.missing = true ∨
      ∀ op ∈ s.txnOps req, op.opType = .put → gone op.key = false)

theorem sameLive_of_thins (h : Thins (fun kv ↦ s.isLive kv = false) gone s.data d) :
    SameLive s { s with data := d } := by
  refine ⟨rfl, fun key ↦ ?_⟩
  change (d.lookup key).filter s.isLive = (s.data.lookup key).filter s.isLive
  cases hg : gone key with
  | false => rw [h.kept key hg]
  | true =>
    obtain ⟨hnone, kv, hkv, hdead⟩ := h.gone key hg
    rw [hnone, hkv, filter_some, hdead]
    rfl

theorem missing_of_delete {op : TxnOp} (h : op.opType = .delete) :
    s.missing op = (s.data.lookup op.key).isNone := by
  unfold missing
  rw [decide_eq_true h, Bool.true_and]

theorem missing_eq (h : Thins (fun kv ↦ s.isLive kv = false) gone s.data d) {op : TxnOp}
    (hop : op.opType = .delete → gone op.key = false) :
    ({ s with data := d } : Contents).missing op = s.missing op := by
  by_cases hd : op.opType = .delete
  · rw [missing_of_delete hd, missing_of_delete hd]
    dsimp only
    rw [h.kept op.key (hop hd)]
  · unfold missing
    rw [decide_eq_false hd, Bool.false_and, Bool.false_and]

theorem applyTxnLocked_thin (h : Thins (fun kv ↦ s.isLive kv = false) gone s.data d)
    (hreq : s.revisionExhausted = true ∨ s.SparesTxn gone req) :
    (({ s with data := d } : Contents).applyTxnLocked req).2 = (s.applyTxnLocked req).2 ∧
      SameLive (s.applyTxnLocked req).1
      (({ s with data := d } : Contents).applyTxnLocked req).1 := by
  have hsame := sameLive_of_thins h
  have hops := hsame.reads.txnOps req
  have hall : req.compare.all ({ s with data := d } : Contents).evalCompare =
      req.compare.all s.evalCompare := by rw [hsame.reads.evalCompare]
  by_cases hnil : s.txnOps req = []
  · rw [applyTxnLocked_nil hnil, applyTxnLocked_nil (hops.trans hnil), hall]
    exact ⟨rfl, hsame⟩
  have hnil' : ({ s with data := d } : Contents).txnOps req ≠ [] := by rwa [hops]
  by_cases hex : s.revisionExhausted = true
  · rw [applyTxnLocked_exhausted hnil hex, applyTxnLocked_exhausted hnil' hex]
    exact ⟨rfl, hsame⟩
  obtain ⟨hdel, hput⟩ := hreq.resolve_left hex
  have hmissing : ∀ op ∈ s.txnOps req,
      ({ s with data := d } : Contents).missing op = s.missing op :=
    fun op hop ↦ missing_eq h (hdel op hop)
  have hany : (({ s with data := d } : Contents).txnOps req).any
    ({ s with data := d } : Contents).missing =
      (s.txnOps req).any s.missing := by
    rw [hops, Bool.eq_iff_iff, List.any_eq_true, List.any_eq_true]
    refine exists_congr fun op ↦ and_congr_right fun hop ↦ ?_
    rw [hmissing op hop]
  by_cases hm : (s.txnOps req).any s.missing = true
  · rw [applyTxnLocked_missing hnil hex hm, applyTxnLocked_missing hnil' hex (hany.trans hm), hops]
    refine ⟨?_, hsame⟩
    dsimp only
    congr 1
    exact List.map_congr_left fun op hop ↦ by rw [hmissing op hop]
  · have huntouched : ∀ op ∈ s.txnOps req, op.opType ≠ .other → gone op.key = false := by
      intro op hop hother
      cases htype : op.opType with
      | put => exact hput.resolve_left hm op hop htype
      | delete => exact hdel op hop htype
      | other => exact absurd htype hother
    obtain ⟨hres, hdata⟩ := h.runTxnOps (s.revision + 1) huntouched
    rw [applyTxnLocked_run hnil hex hm, applyTxnLocked_run hnil' hex (by rwa [hany]), hops, hall]
    dsimp only
    rw [hres]
    have hbase := sameLive_of_thins
      (s := { s with
        revision := s.revision + 1, data := (runTxnOps (s.revision + 1) s.data (s.txnOps req)).1 })
      hdata
    split_ifs
    · exact ⟨rfl, hbase⟩
    · exact ⟨rfl, SameLive.writes.emitEvents _ hbase⟩

theorem sparesTxn_of_applyTxnLocked (h : Thins (fun kv ↦ s.isLive kv = false) gone s.data d)
    (hpos : Thins (int64 ·.version ≠ 0) gone s.data d) (hex : ¬ s.revisionExhausted = true)
    (hresponse : (({ s with data := d } : Contents).applyTxnLocked req).2 =
      (s.applyTxnLocked req).2) :
    s.SparesTxn gone req := by
  have hops := (sameLive_of_thins h).reads.txnOps req
  by_cases hnil : s.txnOps req = []
  · unfold SparesTxn
    rw [hnil]
    exact ⟨fun op hop ↦ absurd hop List.not_mem_nil, .inr fun op hop ↦ absurd hop List.not_mem_nil⟩
  have hnil' : ({ s with data := d } : Contents).txnOps req ≠ [] := by rwa [hops]
  by_cases hm : (s.txnOps req).any s.missing = true
  · have hm' : (({ s with data := d } : Contents).txnOps req).any
      ({ s with data := d } : Contents).missing =
        true := by
      obtain ⟨op, hop, hmop⟩ := List.any_eq_true.mp hm
      rw [hops]
      refine List.any_eq_true.mpr ⟨op, hop, ?_⟩
      obtain ⟨hdel, hnone⟩ := Bool.and_eq_true_iff.mp hmop
      exact Bool.and_eq_true_iff.mpr ⟨hdel, h.isNone hnone⟩
    rw [applyTxnLocked_missing hnil hex hm, applyTxnLocked_missing hnil' hex hm', hops] at hresponse
    refine ⟨fun op hop hdel ↦ h.kept_of_isNone ?_, .inl hm⟩
    have herror := congrArg TxnResult.error
      (List.map_inj_left.mp (congrArg TxnResponse.results hresponse) op hop)
    dsimp only at herror
    rw [missing_of_delete hdel, missing_of_delete hdel] at herror
    cases hd : (d.lookup op.key).isNone <;> cases hs : (s.data.lookup op.key).isNone <;>
      first | rfl | exact absurd (hd ▸ hs ▸ herror) (by decide)
  · by_cases hm' : (({ s with data := d } : Contents).txnOps req).any
        ({ s with data := d } : Contents).missing = true
    · rw [applyTxnLocked_run hnil hex hm, applyTxnLocked_missing hnil' hex hm'] at hresponse
      have hrev : s.revision = s.revision + 1 := congrArg TxnResponse.revision hresponse
      omega
    · rw [applyTxnLocked_run hnil hex hm, applyTxnLocked_run hnil' hex hm', hops] at hresponse
      have huntouched := hpos.untouched (congrArg TxnResponse.results hresponse)
      refine ⟨fun op hop hdel ↦ huntouched op hop ?_, .inr fun op hop hput ↦ huntouched op hop ?_⟩
      · rw [hdel]
        exact TxnOpType.noConfusion
      · rw [hput]
        exact TxnOpType.noConfusion

end Txn

def stale (s : Contents) (key : Bytes) : Bool := (s.data.lookup key).any fun kv ↦ !s.isLive kv

end Contents

namespace KVStore

def purged (s : KVStore) : KVStore :=
  { s with data := ⟨s.data.entries.filter fun e ↦ s.isLive e.2,
      List.NodupKeys.sublist List.filter_sublist s.data.nodupKeys⟩ }

structure SameLive (s t : KVStore) : Prop where
  contents : s.toContents.SameLive t.toContents
  index : t.index = s.index
  dedupTable : t.dedupTable = s.dedupTable

/-- The command does the same whether the keys that are not live are there or not. -/
structure ActsAbsent (s : KVStore) (cmd : KvCommand) : Prop where
  reply : (s.purged.apply cmd).2 = (s.apply cmd).2
  store : SameLive (s.apply cmd).1 (s.purged.apply cmd).1

/-- The command is not carried out, or it does not write to a key that is stored but not live. -/
def Spares (s : KVStore) (cmd : KvCommand) : Prop :=
  (s.cached cmd).isSome = true ∨ s.revisionExhausted = true ∨
    match cmd.op with
    | .set | .put => s.stale cmd.key = false
    | .txn => ∀ req, cmd.txn = some req → (s.advance cmd).SparesTxn s.stale req
    | _ => True

variable {s : KVStore} {cmd : KvCommand}

theorem lookup_purged (s : KVStore) (key : Bytes) : s.purged.data.lookup key = s.live key := by
  refine ext fun kv ↦ ?_
  have hmem : kv ∈ s.purged.data.lookup key ↔ _ := AList.mem_lookup_iff
  have hlive : s.live key = some kv ↔ _ := filter_eq_some_iff
  have hdata : kv ∈ s.data.lookup key ↔ _ := AList.mem_lookup_iff
  rw [hlive]
  refine hmem.trans (List.mem_filter.trans ?_)
  rw [← hdata]
  rfl

theorem isLive_advance {kv : KeyValue} (h : s.isLive kv = false) :
    (s.advance cmd).isLive kv = false := by
  obtain ⟨hne, hle⟩ := Bool.or_eq_false_iff.mp h
  refine Bool.or_eq_false_iff.mpr ⟨hne, decide_eq_false ?_⟩
  have hclock : s.applyTimeMs ≤ (s.advance cmd).applyTimeMs := le_max_left _ _
  exact fun hlt ↦ of_decide_eq_false hle (hclock.trans_lt hlt)

theorem thins_purged {Good : KeyValue → Prop}
    (h : ∀ key kv, s.data.lookup key = some kv → s.isLive kv = false → Good kv) :
    Thins Good s.stale s.data s.purged.data := by
  refine ⟨fun key hkey ↦ ?_, fun key hkey ↦ ?_⟩ <;> rw [lookup_purged]
  · cases hl : s.data.lookup key with
    | none =>
      unfold Contents.live
      rw [hl]
      rfl
    | some kv =>
      unfold Contents.stale at hkey
      rw [hl, any_some, Bool.not_eq_false'] at hkey
      unfold Contents.live
      rw [hl, filter_some, if_pos hkey]
  · obtain ⟨kv, hkv, hdead⟩ := (any_eq_true _ _).mp hkey
    rw [Bool.not_eq_true'] at hdead
    refine ⟨?_, kv, hkv, h key kv hkv hdead⟩
    unfold Contents.live
    rw [hkv, filter_some, hdead]
    rfl

theorem thins_advance (s : KVStore) (cmd : KvCommand) :
    Thins (fun kv ↦ (s.advance cmd).isLive kv = false) s.stale (s.advance cmd).data s.purged.data :=
  thins_purged fun _ _ _ hdead ↦ isLive_advance hdead

/-- A put over an expired pair does not write the version of a new key. -/
def Versioned (s : KVStore) : Prop :=
  Stores (fun _ kv ↦ s.isLive kv = false → int64 kv.version ≠ 0) s.data

theorem thins_version (h : s.Versioned) :
    Thins (int64 ·.version ≠ 0) s.stale s.data s.purged.data := thins_purged h

theorem SameLive.record {t : KVStore} (h : SameLive s t) (cmd : KvCommand) (result : Reply) :
    SameLive (s.record cmd result) (t.record cmd result) := by
  obtain ⟨hcontents, hindex, htable⟩ := h
  unfold KVStore.record evictDedupIfNeeded
  dsimp only
  rw [htable, hindex]
  split_ifs
  · exact ⟨hcontents, hindex, htable⟩
  · exact ⟨hcontents, rfl, rfl⟩

theorem actsAbsent_of_execute (h : s.cached cmd = none)
    (hres : ((s.purged.advance cmd).execute cmd).2 = ((s.advance cmd).execute cmd).2)
    (hsame : ((s.advance cmd).execute cmd).1.SameLive ((s.purged.advance cmd).execute cmd).1) :
    s.ActsAbsent cmd := by
  have h' : s.purged.cached cmd = none := h
  refine ⟨?_, ?_⟩ <;> rw [apply_of_uncached h, apply_of_uncached h'] <;> dsimp only
  · rw [hres]
  · rw [hres]
    have hstore : SameLive (s.executed cmd) (s.purged.executed cmd) := ⟨hsame, rfl, rfl⟩
    split_ifs
    · exact hstore.record _ _
    · exact hstore

theorem ActsAbsent.execute (h : s.ActsAbsent cmd) (hc : s.cached cmd = none) :
    ((s.purged.advance cmd).execute cmd).2.1 = ((s.advance cmd).execute cmd).2.1 ∧
      ((s.advance cmd).execute cmd).1.SameLive ((s.purged.advance cmd).execute cmd).1 := by
  have hc' : s.purged.cached cmd = none := hc
  refine ⟨?_, ?_⟩
  · have hreply := h.reply
    rw [apply_of_uncached hc, apply_of_uncached hc'] at hreply
    exact hreply
  · have hstore := h.store.contents
    have hnot : ∀ t : KVStore, t.cached cmd = none → (t.apply cmd).1.toContents =
        ((t.advance cmd).execute cmd).1 := by
      intro t ht
      have ht' : (t.advance cmd).cached cmd = none := ht
      rw [toContents_apply, ht']
      rfl
    rwa [hnot s hc, hnot s.purged hc'] at hstore

theorem actsAbsent_of_cached (h : (s.cached cmd).isSome = true) : s.ActsAbsent cmd := by
  obtain ⟨reply, hc⟩ := isSome_iff_exists.mp h
  have hc' : s.purged.cached cmd = some reply := hc
  refine ⟨?_, ?_⟩ <;> rw [apply_of_cached hc, apply_of_cached hc']
  exact ⟨Contents.sameLive_of_thins (s.thins_advance cmd), rfl, rfl⟩

theorem actsAbsent_of_spares (hop : cmd.op ≠ .tick) (h : s.Spares cmd) : s.ActsAbsent cmd := by
  rcases h with hc | h
  · exact actsAbsent_of_cached hc
  cases hc : s.cached cmd with
  | some reply => exact actsAbsent_of_cached (by rw [hc]; rfl)
  | none =>
    have hthins := s.thins_advance cmd
    have hput : (s.advance cmd).revisionExhausted = false → cmd.op = .set ∨ cmd.op = .put →
        s.purged.data.lookup cmd.key = s.data.lookup cmd.key := by
      intro hex hop
      have hex' : ¬ s.revisionExhausted = true := Bool.eq_false_iff.mp hex
      have hspare := h.resolve_left hex'
      refine hthins.kept cmd.key ?_
      rcases hop with hop | hop <;> rw [hop] at hspare <;> exact hspare
    have htxn : ∀ req, cmd.op = .txn → cmd.txn = some req →
        s.revisionExhausted = true ∨ (s.advance cmd).SparesTxn s.stale req := by
      intro req hop hreq
      rw [hop] at h
      exact h.imp_right fun h ↦ h req hreq
    obtain ⟨hres, hsame⟩ := Contents.SameLive.writes.execute (Contents.sameLive_of_thins hthins)
      (fun htick ↦ absurd htick hop) hput
      fun req hop hreq ↦ Contents.applyTxnLocked_thin hthins (htxn req hop hreq)
    exact actsAbsent_of_execute hc hres hsame

theorem live_putEvent (s : Contents) (key value : Bytes) (prev : Option KeyValue) :
    (s.putEvent key value prev 0).1.live key = some (s.putEvent key value prev 0).2 := by
  unfold Contents.putEvent
  dsimp only
  rw [Contents.live_emitEvents]
  unfold Contents.live
  refine (congrArg _ (AList.lookup_insert _)).trans ?_
  rfl

theorem spares_of_actsAbsent (hs : s.Versioned) (h : s.ActsAbsent cmd) : s.Spares cmd := by
  cases hc : s.cached cmd with
  | some reply => exact .inl (by rw [hc]; rfl)
  | none =>
    refine .inr (or_iff_not_imp_left.mpr fun hex ↦ ?_)
    obtain ⟨hreply, hsame⟩ := h.execute hc
    have hpos := thins_version hs
    have hex₁ : ¬ (s.advance cmd).revisionExhausted = true := hex
    have hex₂ : ¬ (s.purged.advance cmd).revisionExhausted = true := hex
    cases hop : cmd.op with
    | set =>
      have hlive := hsame.live cmd.key
      unfold Contents.execute at hlive
      rw [hop] at hlive
      dsimp only at hlive
      rw [if_neg hex₁, if_neg hex₂, live_putEvent, live_putEvent] at hlive
      exact hpos.kept_of_version (congrArg KeyValue.version (some.inj hlive)).symm
    | put =>
      unfold Contents.execute at hreply
      rw [hop] at hreply
      dsimp only at hreply
      rw [if_neg hex₁, if_neg hex₂] at hreply
      have hkv := KvText.keyValue.inj (congrArg KvResult.value (Reply.kv.inj hreply))
      exact hpos.kept_of_version (congrArg KeyValue.version hkv).symm
    | txn =>
      intro req hreq
      unfold Contents.execute at hreply
      rw [hop, hreq] at hreply
      have hresponse := Reply.txn.inj hreply
      exact Contents.sparesTxn_of_applyTxnLocked (s.thins_advance cmd) hpos hex₁ hresponse
    | _ => trivial

/-- An expired key acts as an absent one exactly when the command does not write to it. -/
theorem actsAbsent_iff (hs : s.Versioned) (hop : cmd.op ≠ .tick) :
    s.ActsAbsent cmd ↔ s.Spares cmd :=
  ⟨spares_of_actsAbsent hs, actsAbsent_of_spares hop⟩

def overdue : KVStore :=
  (new.run [encodeCommandWithTTL .put (ascii "a") (ascii "1") [] 0 1000 1,
    encodeCommandWithTTL .get (ascii "b") [] [] 0 5000 0]).1

theorem actsAbsent_overdue : overdue.ActsAbsent deleteA := by
  have hpairs : ∀ e ∈ overdue.data.entries, int64 e.2.version ≠ 0 := by decide +kernel
  have hs : overdue.Versioned := fun key kv hkv _ ↦ hpairs ⟨key, kv⟩ (AList.mem_lookup_iff.mp hkv)
  exact (actsAbsent_iff hs (by decide)).mpr (.inr (.inr trivial))

/-- A put continues the versions of the expired key, and a transaction can delete it. -/
theorem overdue_acts : overdue.live (ascii "a") = none ∧ ¬ overdue.ActsAbsent putA ∧
    ¬ overdue.ActsAbsent (encodeTxn ⟨[], [⟨.delete, ascii "a", []⟩], []⟩) := by
  refine ⟨by decide +kernel, fun h ↦ ?_, fun h ↦ ?_⟩
  · exact absurd h.reply (by decide +kernel)
  · exact absurd h.reply (by decide +kernel)

end KVStore

end RaftConsensus.Kv
