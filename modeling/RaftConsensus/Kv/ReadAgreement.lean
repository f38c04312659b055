import RaftConsensus.Etcd.Reads

namespace RaftConsensus.Kv.KVStore

open Etcd List Contents

variable {s : KVStore} {key keyPrefix : Bytes} {limit : ℤ}

def logGet (s : KVStore) (key : Bytes) : Except String KeyValue :=
  decodeKeyValueResult (s.apply (encodeCommand .getV2 key [])).2

def logRange (s : KVStore) (keyPrefix : Bytes) : Except String (List KeyValue) :=
  decodeKeyValuesResult (s.apply (encodeCommand .range keyPrefix [])).2

structure ReadsAgree (s : KVStore) (key keyPrefix : Bytes) (limit : ℤ) : Prop where
  get : s.get key = (s.logGet key).toOption
  range : ∀ data : KeyData, data.entries.Perm s.data.entries →
    (s.iterated data).range keyPrefix = s.logRange keyPrefix
  pages : ∃ fuel kvs, s.pages keyPrefix limit fuel [] = some kvs ∧
    kvs.map KeyValue.key = s.rangeKeys keyPrefix

/-- A pair that is not expired and that JSON leaves as it is. -/
def Plain (s : KVStore) (kv : KeyValue) : Prop := s.isLive kv = true ∧ jsonKeyValue kv = kv

instance (s : KVStore) (kv : KeyValue) : Decidable (s.Plain kv) :=
  inferInstanceAs (Decidable (_ ∧ _))

/-- When the local reads agree with the others: nothing they show has expired or is changed by JSON,
no foreign key comes after the last pair that is allowed, and the empty key is not live. -/
structure ReadsCondition (s : KVStore) (key keyPrefix : Bytes) : Prop where
  get : ∀ kv, s.data.lookup key = some kv → s.Plain kv
  range : maxRangeResults < (s.rangeKeys keyPrefix).length ∨
    (∀ k kv, s.data.lookup k = some kv → keyPrefix.isPrefixOf k = true → s.Plain kv) ∧
      (s.data.keys.countP keyPrefix.isPrefixOf < maxRangeResults ∨
        s.data.keys.length ≤ maxRangeResults)
  pages : ∀ k ∈ s.data.keys, keyPrefix.isPrefixOf k = true → ((s.live k).isSome = true ↔ k ≠ [])

theorem logGet_eq (h : s.Sound) (key : Bytes) : s.logGet key =
    (s.live key).elim (.error "key not found") fun kv ↦ .ok (jsonKeyValue kv) := by
  unfold logGet
  rw [reply_getV2 h]
  cases s.live key <;> rfl

theorem get_agrees_iff (h : s.Sound) : s.get key = (s.logGet key).toOption ↔
    ∀ kv, s.data.lookup key = some kv → s.Plain kv := by
  rw [logGet_eq h, get, live]
  cases hl : s.data.lookup key with
  | none => exact iff_of_true rfl nofun
  | some kv =>
    rw [Option.filter_some]
    by_cases hlive : s.isLive kv = true
    · rw [if_pos hlive]
      constructor
      · intro heq kv' hkv'
        cases hkv'
        exact ⟨hlive, (Option.some.inj heq).symm⟩
      · intro hplain
        exact congrArg some (hplain kv rfl).2.symm
    · rw [if_neg hlive]
      refine iff_of_false nofun fun hplain ↦ hlive (hplain kv rfl).1

theorem logRange_eq (h : s.Sound) (keyPrefix : Bytes) : s.logRange keyPrefix =
    if maxRangeResults < (s.rangeKeys keyPrefix).length then .error errRangeLimit
    else .ok (((s.rangeKeys keyPrefix).filterMap fun k ↦ s.data.lookup k).map jsonKeyValue) := by
  unfold logRange
  rw [reply_range h]
  unfold rangeReply
  dsimp only
  split_ifs <;> rfl

theorem scanned_iterated (h : s.Sound) {data : KeyData} (hd : data.entries.Perm s.data.entries) :
    (s.iterated data).scanned keyPrefix = s.scanned keyPrefix := by
  have hs : (s.iterated data).Sound :=
    ⟨fun k kv hkv ↦ h.keyed k kv (by rwa [← lookup_of_perm hd]), h.clock⟩
  have hkeys : data.keys.Perm s.data.keys := hd.map _
  rw [scanned_eq hs, scanned_eq h]
  change (sortStrings (data.keys.filter _)).filterMap _ = _
  rw [sortStrings_eq_of_perm (hkeys.filter _)]
  exact filterMap_congr fun k _ ↦ lookup_of_perm hd k

theorem countP_entries (data : KeyData) (keyPrefix : Bytes) :
    data.entries.countP (fun e ↦ keyPrefix.isPrefixOf e.1) =
    data.keys.countP keyPrefix.isPrefixOf := by
  have hmap : data.keys = data.entries.map (·.1) := rfl
  rw [hmap, countP_map]
  rfl

theorem length_rangeKeys (s : KVStore) (keyPrefix : Bytes) : (s.rangeKeys keyPrefix).length =
    s.data.keys.countP fun k ↦ keyPrefix.isPrefixOf k && (s.live k).isSome := by
  rw [rangeKeys_eq, (sortStrings_perm _).length_eq, countP_eq_length_filter]

theorem mem_of_mem_rangeKeys {k : Bytes} (h : k ∈ s.rangeKeys keyPrefix) : k ∈ s.data.keys := by
  rw [rangeKeys_eq] at h
  exact mem_of_mem_filter ((sortStrings_perm _).mem_iff.mp h)

theorem length_scanned (s : KVStore) (keyPrefix : Bytes) :
    (s.scanned keyPrefix).length = s.data.keys.countP keyPrefix.isPrefixOf := by
  rw [scanned, (perm_insertionSort _ _).length_eq, length_map, ← countP_eq_length_filter,
    countP_entries]

theorem length_rangeKeys_le (s : KVStore) (keyPrefix : Bytes) :
    (s.rangeKeys keyPrefix).length ≤ s.data.keys.countP keyPrefix.isPrefixOf := by
  rw [length_rangeKeys]
  exact countP_mono_left fun k _ hk ↦ (Bool.and_eq_true_iff.mp hk).1

theorem live_of_length_rangeKeys
    (h : s.data.keys.countP keyPrefix.isPrefixOf ≤ (s.rangeKeys keyPrefix).length) :
    ∀ k ∈ s.data.keys, keyPrefix.isPrefixOf k = true → (s.live k).isSome = true := by
  have hall : ((s.data.keys.filter keyPrefix.isPrefixOf).filter fun k ↦ (s.live k).isSome).length =
      (s.data.keys.filter keyPrefix.isPrefixOf).length := by
    refine le_antisymm (length_filter_le _ _) ?_
    rw [length_rangeKeys, countP_eq_length_filter, countP_eq_length_filter] at h
    refine h.trans_eq (congrArg length ?_)
    rw [filter_filter]
    exact filter_congr fun k _ ↦ Bool.and_comm _ _
  intro k hk hp
  exact length_filter_eq_length_iff.mp hall k (mem_filter.mpr ⟨hk, hp⟩)

theorem rangeKeys_of_live
    (h : ∀ k ∈ s.data.keys, keyPrefix.isPrefixOf k = true → (s.live k).isSome = true) :
    s.rangeKeys keyPrefix = sortStrings (s.data.keys.filter keyPrefix.isPrefixOf) := by
  rw [rangeKeys_eq]
  refine congrArg sortStrings (filter_congr fun k hk ↦ ?_)
  cases hp : keyPrefix.isPrefixOf k with
  | false => rfl
  | true => rw [h k hk hp, Bool.and_self]

theorem live_of_lookup {k : Bytes} (hk : k ∈ s.data.keys)
    (h : ∀ kv, s.data.lookup k = some kv → s.Plain kv) :
    (s.live k).isSome = true := by
  obtain ⟨kv, hkv⟩ := Option.isSome_iff_exists.mp (AList.lookup_isSome.mpr hk)
  rw [isSome_live, hkv]
  exact (h kv hkv).1

theorem exists_overflow (hfull : s.data.keys.countP keyPrefix.isPrefixOf = maxRangeResults)
    (hmore : maxRangeResults < s.data.keys.length) :
    ∃ data : KeyData, data.entries.Perm s.data.entries ∧ Overflows keyPrefix 0 data.entries := by
  have hperm := filter_append_perm (fun e ↦ keyPrefix.isPrefixOf e.1) s.data.entries
  refine ⟨⟨_, (perm_nodupKeys hperm).mpr s.data.nodupKeys⟩, hperm, ?_⟩
  rw [← countP_entries, countP_eq_length_filter] at hfull
  refine ⟨maxRangeResults, ?_, ?_⟩
  · rw [hperm.length_eq]
    exact hmore.trans_eq (length_map _)
  · dsimp only
    rw [take_left' hfull, Nat.zero_add, countP_filter]
    rw [← countP_eq_length_filter] at hfull
    refine hfull.symm.le.trans (countP_mono_left fun e _ he ↦ ?_)
    simpa using he

/-- The local scan never meets the limit, in whatever order it meets the keys. -/
theorem never_overflows_iff : (∀ data : KeyData, data.entries.Perm s.data.entries →
      ¬ Overflows keyPrefix 0 data.entries) ↔
    s.data.keys.countP keyPrefix.isPrefixOf < maxRangeResults ∨
      s.data.keys.length ≤ maxRangeResults := by
  constructor
  · intro hnone
    by_contra hfull
    rw [not_or, not_lt, not_le] at hfull
    rcases hfull.1.lt_or_eq with hlt | heq
    · refine hnone s.data (.refl _) (overflows_of_countP (Nat.zero_le _) ?_)
      rwa [countP_entries, Nat.zero_add]
    · obtain ⟨data, hd, hover⟩ := exists_overflow heq.symm hfull.2
      exact hnone data hd hover
  · rintro (hcount | hlen) data hd
    · refine not_overflows_of_countP ?_
      rwa [Nat.zero_add, hd.countP_eq, countP_entries]
    · refine not_overflows_of_length ?_
      rw [Nat.zero_add, hd.length_eq]
      exact (length_map _).symm.trans_le hlen

theorem always_overflows_iff : (∀ data : KeyData, data.entries.Perm s.data.entries →
      Overflows keyPrefix 0 data.entries) ↔
    maxRangeResults < s.data.keys.countP keyPrefix.isPrefixOf := by
  constructor
  · intro hall
    -- the keys with the prefix come last
    have hperm : (s.data.entries.filter (fun e ↦ !keyPrefix.isPrefixOf e.1) ++
        s.data.entries.filter fun e ↦ keyPrefix.isPrefixOf e.1).Perm s.data.entries :=
      perm_append_comm.trans (filter_append_perm _ _)
    obtain ⟨k, hk, hmax⟩ := hall ⟨_, (perm_nodupKeys hperm).mpr s.data.nodupKeys⟩ hperm
    rw [← countP_entries, countP_eq_length_filter]
    dsimp only at hk hmax
    rw [take_append, countP_append, Nat.zero_add, countP_eq_zero.mpr] at hmax
    · rw [length_append] at hk
      have hle := countP_le_length (p := fun e : Σ _ : Bytes, KeyValue ↦ keyPrefix.isPrefixOf e.1)
        (l := (s.data.entries.filter fun e ↦ keyPrefix.isPrefixOf e.1).take
          (k - (s.data.entries.filter fun e ↦ !keyPrefix.isPrefixOf e.1).length))
      rw [length_take] at hle
      have hpos : 0 < maxRangeResults := by decide
      omega
    · intro e he
      rw [Bool.not_eq_true, ← Bool.not_eq_true']
      exact (mem_filter.mp (mem_of_mem_take he)).2
  · intro hlt data hd
    refine overflows_of_countP (Nat.zero_le _) ?_
    rwa [Nat.zero_add, hd.countP_eq, countP_entries]

theorem range_agrees_iff (h : s.Sound) : (∀ data : KeyData, data.entries.Perm s.data.entries →
      (s.iterated data).range keyPrefix = s.logRange keyPrefix) ↔
    maxRangeResults < (s.rangeKeys keyPrefix).length ∨
      (∀ k kv, s.data.lookup k = some kv → keyPrefix.isPrefixOf k = true → s.Plain kv) ∧
        (s.data.keys.countP keyPrefix.isPrefixOf < maxRangeResults ∨
          s.data.keys.length ≤ maxRangeResults) := by
  constructor
  · intro ha
    refine or_iff_not_imp_left.mpr fun hlog ↦ ?_
    have hok := logRange_eq h keyPrefix
    rw [if_neg hlog] at hok
    have hnone : ∀ data : KeyData, data.entries.Perm s.data.entries →
        ¬ Overflows keyPrefix 0 data.entries := by
      intro data hd hover
      have herr := (range_of_overflows (s := s.iterated data) hover).symm.trans
        ((ha data hd).trans hok)
      cases herr
    have hroom := never_overflows_iff.mp hnone
    have hsame : s.scanned keyPrefix =
        ((s.rangeKeys keyPrefix).filterMap fun k ↦ s.data.lookup k).map jsonKeyValue := by
      have hrange := range_of_not_overflows (hnone s.data (.refl _))
      exact Except.ok.inj (hrange.symm.trans ((ha s.data (.refl _)).trans hok))
    have hlive : ∀ k ∈ s.data.keys, keyPrefix.isPrefixOf k = true → (s.live k).isSome = true := by
      refine live_of_length_rangeKeys (le_of_eq ?_)
      rw [← length_scanned, hsame, length_map, ← length_map KeyValue.key,
        map_key_filterMap h.keyed fun k hk ↦ mem_of_mem_rangeKeys hk]
    rw [rangeKeys_of_live hlive, ← scanned_eq h] at hsame
    refine ⟨fun k kv hkv hp ↦ ⟨?_, ?_⟩, hroom⟩
    · have hk := hlive k (AList.lookup_isSome.mp (by rw [hkv]; rfl)) hp
      rwa [isSome_live, hkv] at hk
    · have hfix := map_inj_left.mp ((map_id _).trans hsame)
      exact (hfix kv (mem_scanned.mpr ⟨k, hkv, hp⟩)).symm
  · rintro (hlog | ⟨hplain, hroom⟩) data hd
    · rw [logRange_eq h, if_pos hlog]
      refine range_of_overflows (always_overflows_iff.mpr ?_ data hd)
      exact hlog.trans_le (length_rangeKeys_le s keyPrefix)
    · have hlive : ∀ k ∈ s.data.keys, keyPrefix.isPrefixOf k = true → (s.live k).isSome = true :=
        fun k hk hp ↦ live_of_lookup hk fun kv hkv ↦ hplain k kv hkv hp
      have hle : (s.rangeKeys keyPrefix).length ≤ maxRangeResults := by
        have hcount := length_rangeKeys_le s keyPrefix
        have hlen : s.data.keys.countP keyPrefix.isPrefixOf ≤ s.data.keys.length := countP_le_length
        omega
      have hjson : (s.scanned keyPrefix).map jsonKeyValue = s.scanned keyPrefix := by
        refine (map_congr_left fun kv hkv ↦ ?_).trans (map_id _)
        obtain ⟨k, hl, hp⟩ := mem_scanned.mp hkv
        exact (hplain k kv hl hp).2
      rw [range_of_not_overflows (s := s.iterated data)
        (never_overflows_iff.mpr hroom data hd), scanned_iterated h hd, logRange_eq h,
        if_neg (not_lt.mpr hle), rangeKeys_of_live hlive, ← scanned_eq h, hjson]

theorem pages_agree_iff (h : s.Sound) : (∃ fuel kvs, s.pages keyPrefix limit fuel [] = some kvs ∧
      kvs.map KeyValue.key = s.rangeKeys keyPrefix) ↔
    ∀ k ∈ s.data.keys, keyPrefix.isPrefixOf k = true → ((s.live k).isSome = true ↔ k ≠ []) := by
  have hkeys : s.keysAfter keyPrefix [] = s.rangeKeys keyPrefix ↔
      ∀ k ∈ s.data.keys, keyPrefix.isPrefixOf k = true → ((s.live k).isSome = true ↔ k ≠ []) := by
    have hnil : ∀ k : Bytes, (!bytesLE k []) = true ↔ k ≠ [] := by
      intro k
      cases k <;> simp [bytesLE]
    rw [rangeKeys_eq]
    constructor
    · intro hsame k hk hp
      have hmem : k ∈ s.keysAfter keyPrefix [] ↔ k ∈ sortStrings
          (s.data.keys.filter fun k ↦ keyPrefix.isPrefixOf k && (s.live k).isSome) := by rw [hsame]
      rw [keysAfter, (sortStrings_perm _).mem_iff, (sortStrings_perm _).mem_iff, mem_filter,
        mem_filter, Bool.and_eq_true_iff, Bool.and_eq_true_iff, hnil, and_iff_right hk,
        and_iff_right hk, and_iff_right hp, and_iff_right hp] at hmem
      exact hmem.symm
    · intro hiff
      refine congrArg sortStrings (filter_congr fun k hk ↦ ?_)
      cases hp : keyPrefix.isPrefixOf k with
      | false => rfl
      | true =>
        rw [Bool.true_and, Bool.true_and, Bool.eq_iff_iff, hnil]
        exact (hiff k hk hp).symm
  rw [← hkeys]
  constructor
  · rintro ⟨fuel, kvs, hkvs, hsame⟩
    rw [← hsame, (pages_spec h.keyed fuel []).1 kvs hkvs]
  · intro hsame
    obtain ⟨kvs, hkvs⟩ : ∃ kvs, s.pages keyPrefix limit _ [] = some kvs :=
      Option.isSome_iff_exists.mp ((pages_spec h.keyed _ []).2 (Nat.lt_succ_self _))
    exact ⟨_, kvs, hkvs, ((pages_spec h.keyed _ []).1 kvs hkvs).trans hsame⟩

/-- The local reads agree with the reads through the log when and only when the condition holds. -/
theorem readsAgree_iff (h : s.Sound) (key keyPrefix : Bytes) (limit : ℤ) :
    s.ReadsAgree key keyPrefix limit ↔ s.ReadsCondition key keyPrefix :=
  ⟨fun ha ↦ ⟨(get_agrees_iff h).mp ha.get, (range_agrees_iff h).mp ha.range,
    (pages_agree_iff h).mp ha.pages⟩,
    fun hc ↦ ⟨(get_agrees_iff h).mpr hc.get, (range_agrees_iff h).mpr hc.range,
      (pages_agree_iff h).mpr hc.pages⟩⟩

def lapsed : KVStore :=
  (new.run [encodeCommandWithTTL .put (ascii "a") (ascii "1") [] 0 1000 1,
    encodeCommandWithTTL .set (ascii "b") (ascii "2") [] 0 6000 0]).1

theorem readsAgree_lapsed : lapsed.ReadsAgree (ascii "b") (ascii "b") 7 := by
  have hplain : ∀ e ∈ lapsed.data.entries, (ascii "b").isPrefixOf e.1 = true →
      lapsed.Plain e.2 := by
    decide +kernel
  have hlookup : ∀ k kv, lapsed.data.lookup k = some kv → (ascii "b").isPrefixOf k = true →
      lapsed.Plain kv := fun k kv hkv hp ↦ hplain ⟨k, kv⟩ (AList.mem_lookup_iff.mp hkv) hp
  exact (readsAgree_iff (sound_new.run _) _ _ _).mpr ⟨fun kv hkv ↦ hlookup _ kv hkv (by decide),
    .inr ⟨hlookup, .inr (by decide +kernel)⟩, by decide +kernel⟩

/-- The key has expired: the log does not show it, the local reads do. -/
theorem readsDisagree_lapsed : (lapsed.logGet (ascii "a")).toOption = none ∧
    (lapsed.get (ascii "a")).map KeyValue.value = some (ascii "1") ∧
    ¬ lapsed.ReadsAgree (ascii "a") [] 0 := by
  have hlog : (lapsed.logGet (ascii "a")).toOption = none := by decide +kernel
  have hlocal : (lapsed.get (ascii "a")).map KeyValue.value = some (ascii "1") := by decide +kernel
  refine ⟨hlog, hlocal, fun ha ↦ ?_⟩
  rw [ha.get, hlog] at hlocal
  cases hlocal

end RaftConsensus.Kv.KVStore
