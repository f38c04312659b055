import RaftConsensus.Etcd.Selection

namespace RaftConsensus

open List Option

namespace Kv.KVStore

variable {s : KVStore}

def liveKeys (s : KVStore) : List Bytes := s.data.keys.filter fun k ↦ (s.live k).isSome

theorem apply_anonymous (s : KVStore) {cmd : KvCommand} (hid : cmd.clientID = []) :
    s.apply cmd = ({ s.advance cmd with toContents := ((s.advance cmd).execute cmd).1 },
      ((s.advance cmd).execute cmd).2.1) := by
  have hc : (s.advance cmd).cached cmd = none := if_pos hid
  unfold apply
  dsimp only
  rw [hc]
  dsimp only
  rw [if_neg fun h ↦ h.2 hid]

theorem toContents_advance (h : s.Sound) {cmd : KvCommand} (ht : cmd.leaderTimestampMs = 0) :
    (s.advance cmd).toContents = s.toContents := by
  unfold advance
  dsimp only
  rw [ht, max_eq_left h.clock]

theorem reply_getV2 (h : s.Sound) (key : Bytes) : (s.apply (encodeCommand .getV2 key [])).2 =
    (s.live key).elim (.error "key not found") fun kv ↦ .ok (.keyValue kv) := by
  rw [apply_anonymous _ rfl, toContents_advance h rfl]
  dsimp only [encodeCommand, Contents.execute]
  cases s.live key <;> rfl

theorem mem_liveKeys {k : Bytes} : k ∈ s.liveKeys ↔ (s.live k).isSome = true :=
  ⟨fun h ↦ (mem_filter.mp h).2, fun h ↦ mem_filter.mpr ⟨Contents.mem_keys_of_live h, h⟩⟩

theorem range_eq (h : s.Sound) (hn : s.data.entries.length ≤ maxRangeResults) (keyPrefix : Bytes) :
    ∃ kvs, s.range keyPrefix = .ok kvs ∧
      kvs.map KeyValue.key = sortStrings (s.data.keys.filter keyPrefix.isPrefixOf) :=
  ⟨_, range_of_not_overflows (not_overflows_of_length (by omega)),
    map_key_scanned h.keyed keyPrefix⟩

theorem reply_range (h : s.Sound) (keyPrefix : Bytes) :
    (s.apply (encodeCommand .range keyPrefix [])).2 = s.rangeReply keyPrefix := by
  rw [apply_anonymous _ rfl, toContents_advance h rfl]
  rfl

theorem filter_scanned (h : s.Sound) {keyPrefix : Bytes} {p : KeyValue → Bool}
    (hp : ∀ kv, p kv = true → keyPrefix.isPrefixOf kv.key = true) :
    (s.scanned keyPrefix).filter p = (s.scanned []).filter p := by
  have hall : s.data.keys.filter (isPrefixOf []) = s.data.keys :=
    filter_eq_self.mpr fun _ _ ↦ rfl
  rw [scanned_eq h, scanned_eq h, hall, ← filter_sortStrings, filterMap_filter,
    filter_filterMap, filter_filterMap]
  refine filterMap_congr fun k _ ↦ ?_
  cases hk : keyPrefix.isPrefixOf k with
  | true => rfl
  | false =>
    cases hl : s.data.lookup k with
    | none => rfl
    | some kv =>
      have hno : p kv = false := by
        refine Bool.eq_false_iff.mpr fun hpk ↦ ?_
        rw [← h.keyed k kv hl, hp kv hpk] at hk
        cases hk
      rw [filter_some, hno]
      rfl

theorem filterMap_rangeKeys (h : s.Sound) :
    (s.rangeKeys []).filterMap (fun k ↦ s.data.lookup k) = (s.scanned []).filter s.isLive := by
  have hall : s.data.keys.filter (isPrefixOf []) = s.data.keys :=
    filter_eq_self.mpr fun _ _ ↦ rfl
  rw [Contents.rangeKeys_eq, scanned_eq h, hall, ← filter_sortStrings, filterMap_filter,
    filter_filterMap]
  refine filterMap_congr fun k _ ↦ ?_
  rw [Contents.isSome_live]
  cases s.data.lookup k with
  | none => simp
  | some kv => simp [filter_some]

theorem length_rangeKeys_nil (s : KVStore) : (s.rangeKeys []).length = s.liveKeys.length := by
  rw [Contents.rangeKeys_eq, (sortStrings_perm _).length_eq]
  exact congrArg _ (filter_congr fun _ _ ↦ Bool.true_and _)

theorem scanned_nil_perm (s : KVStore) : (s.scanned []).Perm (s.data.entries.map (·.2)) := by
  refine (perm_insertionSort _ _).trans (.of_eq (congrArg _ ?_))
  exact filter_eq_self.mpr fun _ _ ↦ rfl

theorem filter_key (hs : s.Sound) (key : Bytes) :
    (s.scanned []).filter (fun kv ↦ kv.key = key) = (s.data.lookup key).toList := by
  have hkvs := s.scanned_nil_perm
  generalize s.scanned [] = kvs at hkvs
  have hkey : ∀ e ∈ s.data.entries, e.2.key = e.1 := fun e he ↦
    hs.keyed e.1 e.2 (AList.mem_lookup_iff.mpr he)
  have hmem : ∀ kv, kv ∈ kvs.filter (fun kv ↦ kv.key = key) ↔ s.data.lookup key = some kv := by
    intro kv
    rw [mem_filter, hkvs.mem_iff, List.mem_map, decide_eq_true_eq]
    constructor
    · rintro ⟨⟨e, he, rfl⟩, hk⟩
      rw [← hk, hkey e he]
      exact AList.mem_lookup_iff.mpr he
    · intro hl
      exact ⟨⟨⟨key, kv⟩, AList.mem_lookup_iff.mp hl, rfl⟩, hs.keyed key kv hl⟩
  have hnodup : (kvs.filter fun kv ↦ kv.key = key).Nodup := by
    refine List.Nodup.filter _ (hkvs.nodup_iff.mpr (List.Nodup.of_map KeyValue.key ?_))
    rw [List.map_map, map_congr_left (g := fun e ↦ e.1) hkey]
    exact s.data.nodupKeys
  cases hl : s.data.lookup key with
  | none =>
    refine eq_nil_iff_forall_not_mem.mpr fun kv hkv ↦ ?_
    cases hl.symm.trans ((hmem kv).mp hkv)
  | some kv =>
    refine perm_singleton.mp ((perm_ext_iff_of_nodup hnodup (nodup_singleton kv)).mpr
      fun v ↦ ?_)
    rw [hmem, hl, mem_singleton, some_inj]
    exact eq_comm

end Kv.KVStore

namespace Etcd

open Kv

def selectedKeys (kv : KVStore) (key rangeEnd : Bytes) : List Bytes :=
  kv.liveKeys.filter (selects key rangeEnd)

def RangeExact (s : KVServer) (req : RangeRequest) : Prop :=
  ∃ resp, (s.range req).2 = .ok resp ∧
    (resp.kvs.map PbKeyValue.key).Perm (selectedKeys s.kv req.key req.rangeEnd)

structure RangeRequest.Plain (req : RangeRequest) : Prop where
  key : req.key ≠ []
  limit : req.limit = 0
  countOnly : req.countOnly = false
  minMod : req.minModRevision = 0
  maxMod : req.maxModRevision = 0
  minCreate : req.minCreateRevision = 0
  maxCreate : req.maxCreateRevision = 0

/-- When the response is exact. A local read may find no expired key and no key that only begins
like the given one; the keys that travel as JSON have to be text. -/
def RangeCondition (kv : KVStore) (req : RangeRequest) : Prop :=
  if req.serializable then ∀ k ∈ kv.data.keys, scans req.key req.rangeEnd k = true →
    (kv.live k).isSome = true ∧ selects req.key req.rangeEnd k = true
  else if req.rangeEnd = [] then (kv.live req.key).isSome = true → jsonText req.key = req.key
  else ∀ k, (kv.live k).isSome = true →
    (selects req.key req.rangeEnd k = true → jsonText k = k) ∧
      (scans req.key req.rangeEnd (jsonText k) = true → selects req.key req.rangeEnd k = true)

def RangeRequest.passes (req : RangeRequest) (kv : KeyValue) : Bool :=
  ¬(0 < req.minModRevision ∧ kv.modRevision < req.minModRevision) ∧
    ¬(0 < req.maxModRevision ∧ req.maxModRevision < kv.modRevision) ∧
    ¬(0 < req.minCreateRevision ∧ kv.createRevision < req.minCreateRevision) ∧
    ¬(0 < req.maxCreateRevision ∧ req.maxCreateRevision < kv.createRevision)

def RangeRequest.picks (req : RangeRequest) (kv : KeyValue) : Bool :=
  scans req.key req.rangeEnd kv.key && req.passes kv

section Modes

variable {s : KVServer} {req : RangeRequest}

variable (sort : Sorter)

def RangeRequest.sorted (req : RangeRequest) (kvs : List KeyValue) : List KeyValue :=
  sortKVs sort (kvs.filter req.picks) req.sortOrder req.sortTarget

theorem sortKVs_perm (kvs : List KeyValue) (order : SortOrder) (target : SortTarget) :
    (sortKVs sort kvs order target).Perm kvs := by
  unfold sortKVs
  split_ifs <;> exact sort.perm _ _

theorem sortKVs_toList (kv : Option KeyValue) (order : SortOrder) (target : SortTarget) :
    sortKVs sort kv.toList order target = kv.toList := by
  have hperm := sortKVs_perm sort kv.toList order target
  cases kv with
  | none => exact hperm.eq_nil
  | some kv => exact perm_singleton.mp hperm

theorem filterAndSortRange_eq (hkey : req.key ≠ []) (kvs : List KeyValue) :
    filterAndSortRange sort kvs req.key req.rangeEnd req = req.sorted sort kvs := by
  refine congrArg (sortKVs sort · req.sortOrder req.sortTarget) (filter_congr fun kv _ ↦ ?_)
  rw [RangeRequest.picks, RangeRequest.passes, ← inRange_eq hkey, Bool.decide_and]
  simp

theorem range_eq (hkey : req.key ≠ []) (hlimit : 0 ≤ req.limit) :
    s.range req = if req.serializable then (s, s.staleRange req.key req.rangeEnd req)
      else if req.rangeEnd = [] then s.linearizableGet req.key req
      else s.linearizableRange req.key req.rangeEnd req := by
  have hsingle : (!isRangeEndPrefix req.key req.rangeEnd && req.rangeEnd.isEmpty) =
      decide (req.rangeEnd = []) := by
    by_cases hend : req.rangeEnd = []
    · rw [hend]
      rfl
    · simp [hend]
  unfold KVServer.range
  rw [if_neg hkey, if_neg (not_lt.mpr hlimit)]
  dsimp only
  rw [hsingle]
  cases req.serializable with
  | true => rfl
  | false => by_cases hend : req.rangeEnd = [] <;> simp [hend]

theorem staleRange_eq (req : RangeRequest) (hs : s.kv.Sound) (hkey : req.key ≠ [])
    (hn : ¬ KVStore.Overflows (rangePrefix req.key req.rangeEnd) 0 s.kv.data.entries) :
    s.staleRange req.key req.rangeEnd req =
      .ok (s.rangeResponse (req.sorted s.sort (s.kv.scanned [])) req) := by
  unfold KVServer.staleRange
  rw [KVStore.range_of_not_overflows hn]
  dsimp only
  rw [filterAndSortRange_eq _ hkey, RangeRequest.sorted, KVStore.filter_scanned hs,
    RangeRequest.sorted]
  intro kv hkv
  rw [RangeRequest.picks, ← scans_and_isPrefixOf hkey, Bool.and_assoc] at hkv
  simp only [Bool.and_eq_true] at hkv
  exact hkv.2.1

theorem linearizableRange_eq (req : RangeRequest) (hs : s.kv.Sound) (hkey : req.key ≠ []) :
    ∃ t : KVServer, (s.linearizableRange req.key req.rangeEnd req).2 =
      if maxRangeResults < s.kv.liveKeys.length then
        .error ⟨.internal, "decode range result: " ++ errRangeLimit⟩
      else .ok (t.rangeResponse
        (req.sorted s.sort (((s.kv.scanned []).filter s.kv.isLive).map jsonKeyValue)) req) := by
  refine ⟨(s.apply (encodeCommand .range [] [])).1, ?_⟩
  unfold KVServer.linearizableRange KVServer.apply
  dsimp only
  rw [KVStore.reply_range hs, Contents.rangeReply, KVStore.length_rangeKeys_nil,
    KVStore.filterMap_rangeKeys hs]
  split_ifs
  · rfl
  · rw [← filterAndSortRange_eq _ hkey]
    rfl

theorem linearizableGet_eq (req : RangeRequest) (hs : s.kv.Sound) :
    ∃ t : KVServer, (s.linearizableGet req.key req).2 =
    .ok (t.rangeResponse ((s.kv.live req.key).toList.map jsonKeyValue) req) := by
  refine ⟨(s.apply (encodeCommand .getV2 req.key [])).1, ?_⟩
  unfold KVServer.linearizableGet KVServer.apply
  dsimp only
  rw [KVStore.reply_getV2 hs]
  cases s.kv.live req.key with
  | none =>
    have hdec : decodeKeyValueResult (.error "key not found") = .error "key not found" := rfl
    have hlimit : ¬(0 < req.limit ∧ req.limit < 0) := by omega
    dsimp only [Option.elim]
    rw [hdec]
    simp [KVServer.rangeResponse, hlimit]
  | some kv =>
    have hdec : decodeKeyValueResult (.ok (.keyValue kv)) = .ok (jsonKeyValue kv) := rfl
    have hlimit : ¬(0 < req.limit ∧ req.limit < 1) := by omega
    dsimp only [Option.elim]
    rw [hdec]
    simp only [KVServer.rangeResponse, toList_some, map_cons, map_nil,
      length_singleton, Nat.cast_one, if_neg hlimit, decide_eq_false hlimit]
    split_ifs <;> rfl

end Modes

section Range

variable {s : KVServer} {req : RangeRequest}

theorem RangeRequest.Plain.picks (h : req.Plain) (kv : KeyValue) :
    req.picks kv = scans req.key req.rangeEnd kv.key := by
  simp [RangeRequest.picks, RangeRequest.passes, h.minMod, h.maxMod, h.minCreate, h.maxCreate]

theorem RangeRequest.Plain.keys_rangeResponse (h : req.Plain) (s : KVServer) (kvs : List KeyValue) :
    (s.rangeResponse kvs req).kvs.map PbKeyValue.key = kvs.map KeyValue.key := by
  unfold KVServer.rangeResponse
  dsimp only
  rw [h.countOnly, if_neg Bool.false_ne_true, h.limit, if_neg fun hl ↦ lt_irrefl _ hl.1,
    List.map_map]
  refine map_congr_left fun kv _ ↦ ?_
  dsimp only [Function.comp]
  split_ifs <;> rfl

theorem RangeRequest.Plain.keys_sorted (h : req.Plain) (s : KVServer) (sort : Sorter)
    (kvs : List KeyValue) : ((s.rangeResponse (req.sorted sort kvs) req).kvs.map
      PbKeyValue.key).Perm
      ((kvs.map KeyValue.key).filter (scans req.key req.rangeEnd)) := by
  rw [h.keys_rangeResponse]
  refine ((sortKVs_perm _ _ _ _).map KeyValue.key).trans (List.Perm.of_eq ?_)
  rw [List.filter_map]
  exact congrArg _ (filter_congr fun kv _ ↦ h.picks kv)

theorem RangeRequest.Plain.staleRange (h : req.Plain) (hs : s.kv.Sound)
    (hn : s.kv.data.entries.length ≤ maxRangeResults) :
    ∃ resp, s.staleRange req.key req.rangeEnd req = .ok resp ∧ (resp.kvs.map PbKeyValue.key).Perm
      (s.kv.data.keys.filter (scans req.key req.rangeEnd)) := by
  refine ⟨_, staleRange_eq req hs h.key (KVStore.not_overflows_of_length (by omega)), ?_⟩
  refine (h.keys_sorted s _ _).trans ?_
  rw [KVStore.map_key_scanned hs.keyed]
  refine ((sortStrings_perm _).filter _).trans (List.Perm.of_eq ?_)
  rw [List.filter_filter]
  exact filter_congr fun k _ ↦ Bool.and_true _

theorem RangeRequest.Plain.linearizableRange (h : req.Plain) (hs : s.kv.Sound)
    (hn : s.kv.data.entries.length ≤ maxRangeResults) :
    ∃ resp, (s.linearizableRange req.key req.rangeEnd req).2 = .ok resp ∧
      (resp.kvs.map PbKeyValue.key).Perm
        ((s.kv.liveKeys.map jsonText).filter (scans req.key req.rangeEnd)) := by
  have hlen : s.kv.liveKeys.length ≤ maxRangeResults := by
    refine ((filter_sublist).length_le.trans ?_).trans hn
    exact (length_map _).le
  obtain ⟨t, ht⟩ := linearizableRange_eq req hs h.key
  rw [if_neg (not_lt.mpr hlen)] at ht
  refine ⟨_, ht, (h.keys_sorted t _ _).trans (List.Perm.filter _ ?_)⟩
  have hkeys : ((s.kv.scanned []).filter s.kv.isLive).map KeyValue.key = s.kv.rangeKeys [] := by
    rw [← KVStore.filterMap_rangeKeys hs]
    refine KVStore.map_key_filterMap hs.keyed fun k hk ↦ ?_
    rw [Contents.rangeKeys_eq] at hk
    exact mem_of_mem_filter ((sortStrings_perm _).mem_iff.mp hk)
  have hjson : (((s.kv.scanned []).filter s.kv.isLive).map jsonKeyValue).map KeyValue.key =
      (((s.kv.scanned []).filter s.kv.isLive).map KeyValue.key).map jsonText := by
    rw [List.map_map, List.map_map]
    rfl
  rw [hjson, hkeys, Contents.rangeKeys_eq]
  refine ((sortStrings_perm _).map jsonText).trans (.of_eq (congrArg _ ?_))
  exact filter_congr fun _ _ ↦ Bool.true_and _

theorem RangeRequest.Plain.linearizableGet (h : req.Plain) (hs : s.kv.Sound) :
    ∃ resp, (s.linearizableGet req.key req).2 = .ok resp ∧ resp.kvs.map PbKeyValue.key =
      if (s.kv.live req.key).isSome then [jsonText req.key] else [] := by
  obtain ⟨t, ht⟩ := linearizableGet_eq req hs
  refine ⟨_, ht, (h.keys_rangeResponse t _).trans ?_⟩
  cases hl : s.kv.live req.key with
  | none => rfl
  | some kv =>
    have hkey : kv.key = req.key := hs.keyed _ _ (filter_eq_some_iff.mp hl).1
    rw [← hkey]
    rfl

theorem selectedKeys_nil (kv : KVStore) (key : Bytes) :
    selectedKeys kv key [] = if (kv.live key).isSome then [key] else [] := by
  have hnodup : (selectedKeys kv key []).Nodup := (kv.data.keys_nodup.filter _).filter _
  have hmem : ∀ k, k ∈ selectedKeys kv key [] ↔ (kv.live key).isSome = true ∧ k = key := by
    intro k
    rw [selectedKeys, mem_filter, KVStore.mem_liveKeys]
    simp only [selects, if_pos, decide_eq_true_eq]
    exact ⟨fun h ↦ ⟨h.2 ▸ h.1, h.2⟩, fun h ↦ ⟨h.2 ▸ h.1, h.2⟩⟩
  split_ifs with hl
  · refine perm_singleton.mp ((perm_ext_iff_of_nodup hnodup (nodup_singleton key)).mpr
      fun k ↦ ?_)
    rw [hmem, mem_singleton]
    exact and_iff_right hl
  · exact eq_nil_iff_forall_not_mem.mpr fun k hk ↦ hl ((hmem k).mp hk).1

theorem rangeExact_of_perm {l : List Bytes} {resp : RangeResponse} (hr : (s.range req).2 = .ok resp)
    (hl : (resp.kvs.map PbKeyValue.key).Perm l) :
    RangeExact s req ↔ l.Perm (selectedKeys s.kv req.key req.rangeEnd) := by
  constructor
  · rintro ⟨resp', hr', hp⟩
    cases hr.symm.trans hr'
    exact hl.symm.trans hp
  · exact fun hp ↦ ⟨resp, hr, hl.trans hp⟩

theorem rangeExact_iff (h : req.Plain) (hs : s.kv.Sound)
    (hn : s.kv.data.entries.length ≤ maxRangeResults) :
    RangeExact s req ↔ RangeCondition s.kv req := by
  have hrange := range_eq (s := s) h.key h.limit.ge
  unfold RangeCondition
  split_ifs with hser hend
  · obtain ⟨resp, hresp, hperm⟩ := h.staleRange hs hn
    rw [if_pos hser] at hrange
    rw [rangeExact_of_perm (by rw [hrange]; exact hresp) hperm, selectedKeys, KVStore.liveKeys,
      List.filter_filter]
    have hiff := perm_filter_map_iff (A := s.kv.data.keys) (f := id)
      (S := fun k ↦ selects req.key req.rangeEnd k && (s.kv.live k).isSome)
      (C := scans req.key req.rangeEnd) (fun _ ↦ rfl) fun k hk ↦
        scans_of_selects h.key (Bool.and_eq_true_iff.mp hk).1
    rw [List.map_id] at hiff
    rw [hiff]
    refine forall₂_congr fun k _ ↦ ⟨fun hk hscan ↦ ?_, fun hk ↦ ⟨fun _ ↦ rfl, fun hscan ↦ ?_⟩⟩
    · exact (Bool.and_eq_true_iff.mp (hk.2 hscan)).symm
    · exact Bool.and_eq_true_iff.mpr (hk hscan).symm
  · obtain ⟨resp, hresp, hkeys⟩ := h.linearizableGet hs
    rw [if_neg hser, if_pos hend] at hrange
    rw [rangeExact_of_perm (by rw [hrange]; exact hresp) (.of_eq hkeys), hend, selectedKeys_nil]
    by_cases hl : (s.kv.live req.key).isSome = true
    · rw [if_pos hl, if_pos hl, perm_singleton, List.cons.injEq, and_iff_left rfl]
      exact ⟨fun hk _ ↦ hk, fun hk ↦ hk hl⟩
    · rw [if_neg hl, if_neg hl]
      exact ⟨fun _ hl' ↦ absurd hl' hl, fun _ ↦ .refl _⟩
  · obtain ⟨resp, hresp, hperm⟩ := h.linearizableRange hs hn
    rw [if_neg hser, if_neg hend] at hrange
    rw [rangeExact_of_perm (by rw [hrange]; exact hresp) hperm]
    refine (perm_filter_map_iff (f := jsonText) Utf8.sanitize_sanitize
      fun k hk ↦ scans_of_selects h.key hk).trans ?_
    exact forall_congr' fun k ↦ imp_congr KVStore.mem_liveKeys Iff.rfl

end Range

end Etcd

end RaftConsensus
