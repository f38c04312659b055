import RaftConsensus.Kv.Order
import RaftConsensus.Kv.Sound

namespace RaftConsensus.Kv

open List Option AList

section Thins

/-- The keys in `gone` are left out, each of which had a pair with the property. -/
structure Thins (Good : KeyValue → Prop) (gone : Bytes → Bool) (d d' : KeyData) : Prop where
  kept : ∀ key, gone key = false → d'.lookup key = d.lookup key
  gone : ∀ key, gone key = true → d'.lookup key = none ∧ ∃ kv, d.lookup key = some kv ∧ Good kv

variable {Good : KeyValue → Prop} {gone : Bytes → Bool} {d d' : KeyData} {txnRev : ℤ}
  {ops : List TxnOp} {key : Bytes}

theorem Thins.insert (h : Thins Good gone d d') (hkey : gone key = false) (kv : KeyValue) :
    Thins Good gone (d.insert key kv) (d'.insert key kv) := by
  refine ⟨fun k hk ↦ ?_, fun k hk ↦ ?_⟩
  · by_cases heq : k = key
    · rw [heq, lookup_insert, lookup_insert]
    · rw [lookup_insert_ne heq, lookup_insert_ne heq]
      exact h.kept k hk
  · have hne : k ≠ key := by
      rintro rfl
      rw [hkey] at hk
      cases hk
    rw [lookup_insert_ne hne, lookup_insert_ne hne]
    exact h.gone k hk

theorem Thins.erase (h : Thins Good gone d d') (hkey : gone key = false) :
    Thins Good gone (d.erase key) (d'.erase key) := by
  refine ⟨fun k hk ↦ ?_, fun k hk ↦ ?_⟩
  · by_cases heq : k = key
    · rw [heq, lookup_erase, lookup_erase]
    · rw [lookup_erase_ne heq, lookup_erase_ne heq]
      exact h.kept k hk
  · have hne : k ≠ key := by
      rintro rfl
      rw [hkey] at hk
      cases hk
    rw [lookup_erase_ne hne, lookup_erase_ne hne]
    exact h.gone k hk

theorem Thins.kept_of_isNone (h : Thins Good gone d d')
    (heq : (d'.lookup key).isNone = (d.lookup key).isNone) : gone key = false := by
  by_contra hg
  obtain ⟨hnone, kv, hkv, -⟩ := h.gone key (Bool.eq_true_of_not_eq_false hg)
  rw [hnone, hkv] at heq
  cases heq

theorem Thins.isNone (h : Thins Good gone d d') (hnone : (d.lookup key).isNone = true) :
    (d'.lookup key).isNone = true := by
  cases hg : gone key with
  | false => rwa [h.kept key hg]
  | true =>
    rw [(h.gone key hg).1]
    rfl

theorem int64_add_one_ne {x : ℤ} (h : int64 x ≠ 0) : int64 (x + 1) ≠ 1 := by
  unfold int64 at h ⊢
  rw [Int.bmod_def] at h ⊢
  split_ifs at h ⊢ <;> omega

theorem Thins.kept_of_version (h : Thins (int64 ·.version ≠ 0) gone d d')
    (hv : Contents.nextVersion (d.lookup key) = Contents.nextVersion (d'.lookup key)) :
    gone key = false := by
  by_contra hg
  obtain ⟨hnone, kv, hkv, hne⟩ := h.gone key (Bool.eq_true_of_not_eq_false hg)
  rw [hnone, hkv] at hv
  exact int64_add_one_ne hne hv

theorem Thins.runTxnOps (h : Thins Good gone d d') (txnRev : ℤ)
    (hops : ∀ op ∈ ops, op.opType ≠ .other → gone op.key = false) :
    (Contents.runTxnOps txnRev d' ops).2 = (Contents.runTxnOps txnRev d ops).2 ∧
      Thins Good gone (Contents.runTxnOps txnRev d ops).1 (Contents.runTxnOps txnRev d' ops).1 := by
  induction ops generalizing d d' with
  | nil => exact ⟨rfl, h⟩
  | cons op ops ih =>
    have hrest : ∀ x ∈ ops, x.opType ≠ .other → gone x.key = false :=
      fun x hx ↦ hops x (mem_cons_of_mem op hx)
    unfold Contents.runTxnOps
    dsimp only
    cases hop : op.opType with
    | put =>
      have hkey := hops op mem_cons_self (by rw [hop]; exact TxnOpType.noConfusion)
      rw [h.kept op.key hkey]
      obtain ⟨hres, hdata⟩ := ih (h.insert hkey _) hrest
      exact ⟨congrArg (fun r : List TxnResult × List Event ↦ (_ :: r.1, _ :: r.2)) hres, hdata⟩
    | delete =>
      have hkey := hops op mem_cons_self (by rw [hop]; exact TxnOpType.noConfusion)
      rw [h.kept op.key hkey]
      obtain ⟨hres, hdata⟩ := ih (h.erase hkey) hrest
      exact ⟨congrArg (fun r : List TxnResult × List Event ↦ (_ :: r.1, _ :: r.2)) hres, hdata⟩
    | other => exact ih h hrest

theorem Thins.untouched (h : Thins (int64 ·.version ≠ 0) gone d d')
    (hres : (Contents.runTxnOps txnRev d' ops).2.1 = (Contents.runTxnOps txnRev d ops).2.1) :
    ∀ op ∈ ops, op.opType ≠ .other → gone op.key = false := by
  induction ops generalizing d d' with
  | nil => exact fun op hop ↦ absurd hop not_mem_nil
  | cons op ops ih =>
    unfold Contents.runTxnOps at hres
    dsimp only at hres
    cases hop : op.opType with
    | put =>
      rw [hop] at hres
      obtain ⟨hhead, htail⟩ := List.cons.inj hres
      have hkey := h.kept_of_version
        (congrArg KeyValue.version (some.inj (congrArg TxnResult.kv hhead))).symm
      rw [h.kept op.key hkey] at htail
      exact forall_mem_cons.mpr ⟨fun _ ↦ hkey, ih (h.insert hkey _) htail⟩
    | delete =>
      rw [hop] at hres
      obtain ⟨hhead, htail⟩ := List.cons.inj hres
      have hkey := h.kept_of_isNone (congrArg Option.isNone (congrArg TxnResult.kv hhead))
      exact forall_mem_cons.mpr ⟨fun _ ↦ hkey, ih (h.erase hkey) htail⟩
    | other =>
      rw [hop] at hres
      exact forall_mem_cons.mpr ⟨fun hne ↦ absurd hop hne, ih h hres⟩

end Thins

namespace Contents

variable {s t : Contents} {cmd : KvCommand}

theorem lookup_eq_live {key : Bytes} (h : (s.live key).isSome = true) :
    s.data.lookup key = s.live key := by
  obtain ⟨kv, hkv⟩ := isSome_iff_exists.mp h
  rw [hkv]
  exact (filter_eq_some_iff.mp hkv).1

theorem isSome_of_mem_rangeKeys {keyPrefix key : Bytes} (h : key ∈ s.rangeKeys keyPrefix) :
    (s.live key).isSome = true := by
  rw [rangeKeys_eq, (sortStrings_perm _).mem_iff, mem_filter] at h
  exact (Bool.and_eq_true_iff.mp h.2).2

/-- What commands look at is the same, but for the keys that are not live. -/
structure ReadsSame (s t : Contents) : Prop where
  revision : t.revision = s.revision
  applyTimeMs : t.applyTimeMs = s.applyTimeMs
  live : ∀ key, t.live key = s.live key

namespace ReadsSame

variable (h : ReadsSame s t)
include h

theorem revisionExhausted : t.revisionExhausted = s.revisionExhausted := by
  rw [Contents.revisionExhausted, Contents.revisionExhausted, h.revision]

theorem expiresAt (cmd : KvCommand) : t.expiresAt cmd = s.expiresAt cmd := by
  rw [Contents.expiresAt, Contents.expiresAt, h.applyTimeMs]

theorem incrSum (cmd : KvCommand) : t.incrSum cmd = s.incrSum cmd := by
  rw [Contents.incrSum, Contents.incrSum, h.revisionExhausted, h.live]

theorem evalCompare : t.evalCompare = s.evalCompare := by
  funext c
  rw [Contents.evalCompare, Contents.evalCompare, h.live]

theorem txnOps (req : TxnRequest) : t.txnOps req = s.txnOps req := by
  rw [Contents.txnOps, Contents.txnOps, h.evalCompare]

theorem rangeKeys (keyPrefix : Bytes) : t.rangeKeys keyPrefix = s.rangeKeys keyPrefix := by
  rw [rangeKeys_eq, rangeKeys_eq]
  refine sortStrings_eq_of_perm ((perm_ext_iff_of_nodup
    (t.data.nodupKeys.filter _) (s.data.nodupKeys.filter _)).mpr fun k ↦ ?_)
  rw [mem_filter, mem_filter, h.live]
  refine and_congr_left fun hk ↦ ?_
  have hlive := (Bool.and_eq_true_iff.mp hk).2
  exact ⟨fun _ ↦ mem_keys_of_live hlive, fun _ ↦ mem_keys_of_live (by rwa [h.live])⟩

theorem lookup {keyPrefix key : Bytes} (hkey : key ∈ s.rangeKeys keyPrefix) :
    t.data.lookup key = s.data.lookup key := by
  have hlive := isSome_of_mem_rangeKeys hkey
  rw [lookup_eq_live hlive, lookup_eq_live (by rwa [h.live]), h.live]

theorem rangeReply (keyPrefix : Bytes) : t.rangeReply keyPrefix = s.rangeReply keyPrefix := by
  have hget : (s.rangeKeys keyPrefix).filterMap (fun key ↦ t.data.lookup key) =
      (s.rangeKeys keyPrefix).filterMap fun key ↦ s.data.lookup key :=
    filterMap_congr fun key hkey ↦ h.lookup hkey
  unfold Contents.rangeReply
  dsimp only
  rw [h.rangeKeys, hget]

theorem listValues : t.listValues = s.listValues := by
  have hkeys := h.rangeKeys []
  change (t.rangeKeys []).filterMap _ = (s.rangeKeys []).filterMap _
  rw [hkeys]
  refine filterMap_congr fun key hkey ↦ ?_
  rw [h.lookup hkey]

end ReadsSame

/-- A relation under which commands read the same, and which the writes keep. -/
structure Writes (R : Contents → Contents → Prop) : Prop where
  reads {s t : Contents} : R s t → ReadsSame s t
  emitEvents {s t : Contents} (events : List Event) : R s t →
    R (s.emitEvents events) (t.emitEvents events)
  insert {s t : Contents} (key : Bytes) (kv : KeyValue) (revision : ℤ) : R s t →
    R { s with revision := revision, data := s.data.insert key kv }
      { t with revision := revision, data := t.data.insert key kv }
  erase {s t : Contents} (key : Bytes) (revision : ℤ) : R s t →
    R { s with revision := revision, data := s.data.erase key }
      { t with revision := revision, data := t.data.erase key }

namespace Writes

variable {R : Contents → Contents → Prop} (W : Writes R) (h : R s t)
include W h

theorem putEvent (key value : Bytes) (prev : Option KeyValue) (expiresAt : ℤ) :
    (t.putEvent key value prev expiresAt).2 = (s.putEvent key value prev expiresAt).2 ∧
      R (s.putEvent key value prev expiresAt).1 (t.putEvent key value prev expiresAt).1 := by
  simp only [Contents.putEvent, applyPutLocked, (W.reads h).revision, true_and]
  exact W.emitEvents _ (W.insert _ _ _ h)

theorem execute
    (htick : cmd.op = .tick → t.sweepExpiredLocked.2 = s.sweepExpiredLocked.2 ∧
      R s.sweepExpiredLocked.1 t.sweepExpiredLocked.1)
    (hput : s.revisionExhausted = false → cmd.op = .set ∨ cmd.op = .put →
      t.data.lookup cmd.key = s.data.lookup cmd.key)
    (htxn : ∀ req, cmd.op = .txn → cmd.txn = some req →
      (t.applyTxnLocked req).2 = (s.applyTxnLocked req).2 ∧
        R (s.applyTxnLocked req).1 (t.applyTxnLocked req).1) :
    (t.execute cmd).2 = (s.execute cmd).2 ∧ R (s.execute cmd).1 (t.execute cmd).1 := by
  have hr := W.reads h
  unfold Contents.execute
  cases hop : cmd.op with
  | tick =>
    obtain ⟨hn, hs⟩ := htick hop
    exact ⟨congrArg (fun n ↦ (Reply.ok (.count n), false)) hn, hs⟩
  | set =>
    dsimp only
    rw [hr.revisionExhausted]
    cases hs : s.revisionExhausted with
    | true => exact ⟨rfl, h⟩
    | false =>
      rw [hput hs (.inl hop)]
      exact ⟨rfl, (W.putEvent h _ _ _ _).2⟩
  | put =>
    dsimp only
    rw [hr.revisionExhausted, hr.expiresAt]
    cases hs : s.revisionExhausted with
    | true => exact ⟨rfl, h⟩
    | false =>
      rw [hput hs (.inr hop)]
      obtain ⟨hkv, hsame⟩ := W.putEvent h cmd.key cmd.value (s.data.lookup cmd.key)
        (s.expiresAt cmd)
      exact ⟨congrArg (fun kv ↦ (Reply.kv ⟨.keyValue kv, "", _⟩, true)) hkv, hsame⟩
  | get =>
    dsimp only
    rw [hr.live]
    cases s.live cmd.key <;> exact ⟨rfl, h⟩
  | getV2 =>
    dsimp only
    rw [hr.live]
    cases s.live cmd.key <;> exact ⟨rfl, h⟩
  | delete =>
    dsimp only
    rw [hr.live, hr.revisionExhausted, hr.revision]
    cases s.live cmd.key with
    | none => exact ⟨rfl, h⟩
    | some kv =>
      cases s.revisionExhausted with
      | true => exact ⟨rfl, h⟩
      | false => exact ⟨rfl, W.emitEvents _ (W.erase _ _ h)⟩
  | list => exact ⟨congrArg (fun values ↦ (Reply.ok (.values values), false)) hr.listValues, h⟩
  | range => exact ⟨congrArg (fun reply ↦ (reply, false)) (hr.rangeReply cmd.key), h⟩
  | incr =>
    dsimp only
    rw [hr.incrSum, hr.live]
    cases s.incrSum cmd with
    | error message => exact ⟨rfl, h⟩
    | ok sum =>
      obtain ⟨hkv, hsame⟩ := W.putEvent h cmd.key (formatInt sum) (s.live cmd.key) 0
      exact ⟨congrArg (fun kv ↦ (Reply.ok (.keyValue kv), true)) hkv, hsame⟩
  | txn =>
    dsimp only
    cases hreq : cmd.txn with
    | none => exact ⟨rfl, h⟩
    | some req =>
      obtain ⟨hresponse, hsame⟩ := htxn req hop hreq
      exact ⟨congrArg (fun response ↦ (Reply.txn response, true)) hresponse, hsame⟩
  | other name => exact ⟨rfl, h⟩

end Writes

/-- The two differ in keys only that are not live. -/
structure SameLive (s t : Contents) : Prop where
  rest : t = { s with data := t.data }
  live : ∀ key, t.live key = s.live key

theorem live_emitEvents (s : Contents) (events : List Event) (key : Bytes) :
    (s.emitEvents events).live key = s.live key := by
  unfold emitEvents
  dsimp only
  split_ifs <;> rfl

theorem emitEvents_data (s : Contents) (d : KeyData) (events : List Event) :
    ({ s with data := d } : Contents).emitEvents events =
    { s.emitEvents events with data := d } := by
  unfold emitEvents
  dsimp only
  split_ifs <;> rfl

theorem SameLive.reads (h : SameLive s t) : ReadsSame s t :=
  ⟨by rw [h.rest], by rw [h.rest], h.live⟩

theorem SameLive.update (h : SameLive s t) (key : Bytes) {d d' : KeyData} (revision : ℤ)
    (hkey : d'.lookup key = d.lookup key) (hd : ∀ k, k ≠ key → d.lookup k = s.data.lookup k)
    (hd' : ∀ k, k ≠ key → d'.lookup k = t.data.lookup k) :
    SameLive { s with revision := revision, data := d }
    { t with revision := revision, data := d' } := by
  refine ⟨by rw [h.rest], fun k ↦ ?_⟩
  have hlive : ({ t with revision := revision, data := d' } : Contents).isLive = s.isLive := by
    rw [h.rest]
    rfl
  change (d'.lookup k).filter _ = (d.lookup k).filter s.isLive
  rw [hlive]
  by_cases hk : k = key
  · rw [hk, hkey]
  · have hold := h.live k
    rw [hd k hk, hd' k hk]
    rw [h.rest] at hold
    exact hold

theorem SameLive.writes : Writes SameLive where
  reads := SameLive.reads
  emitEvents events h := by
    refine ⟨?_, fun key ↦ by rw [live_emitEvents, live_emitEvents, h.live]⟩
    rw [h.rest, emitEvents_data]
  insert key kv revision h := h.update key revision
    (by rw [lookup_insert, lookup_insert]) (fun k hk ↦ lookup_insert_ne hk)
    fun k hk ↦ lookup_insert_ne hk
  erase key revision h := h.update key revision
    (by rw [lookup_erase, lookup_erase]) (fun k hk ↦ lookup_erase_ne hk)
    fun k hk ↦ lookup_erase_ne hk

end Contents

end RaftConsensus.Kv
