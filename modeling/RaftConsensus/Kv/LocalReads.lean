import RaftConsensus.Kv.Order
import RaftConsensus.Kv.Sound

namespace RaftConsensus.Kv.KVStore

open List

variable {s : KVStore}

/-- The local read of one key; it does not look at the expiry. -/
def get (s : KVStore) (key : Bytes) : Option KeyValue := s.data.lookup key

def rangeStep (keyPrefix : Bytes) (result : List KeyValue) (e : (_ : Bytes) × KeyValue) :
    Except String (List KeyValue) :=
  if maxRangeResults ≤ result.length then .error errRangeLimit
  else .ok (if keyPrefix.isPrefixOf e.1 then result ++ [e.2] else result)

/-- The local read of all keys with a prefix; it does not look at their expiry. -/
def range (s : KVStore) (keyPrefix : Bytes) : Except String (List KeyValue) := do
  let result ← s.data.entries.foldlM (rangeStep keyPrefix) []
  return result.insertionSort fun a b ↦ bytesLE a.key b.key

def iterated (s : KVStore) (data : KeyData) : KVStore := { s with data := data }

def rangePage (s : KVStore) (keyPrefix startAfter : Bytes) (limit : ℤ) : List KeyValue × Bool :=
  let limit := if limit ≤ 0 ∨ maxRangeResults < limit then maxRangeResults else limit.toNat
  let keys := sortStrings
    (s.data.keys.filter fun key ↦ keyPrefix.isPrefixOf key && !bytesLE key startAfter)
  ((keys.take limit).filterMap fun key ↦ s.data.lookup key, limit < keys.length)

/-- The loop of a caller that passes on the last key of each page, one page after the other. Each
call has its number, since every call iterates over the map in an order of its own. -/
def pageLoop (call : ℕ → Bytes → List KeyValue × Bool) :
    ℕ → ℕ → Bytes → Option (List (List KeyValue))
  | 0, _, _ => none
  | fuel + 1, i, cursor =>
    let (kvs, more) := call i cursor
    if more then
      kvs.getLast?.bind fun last ↦ (pageLoop call fuel (i + 1) last.key).map (kvs :: ·)
    else some [kvs]

def pages (s : KVStore) (keyPrefix : Bytes) (limit : ℤ) (fuel : ℕ) (startAfter : Bytes) :
    Option (List KeyValue) :=
  (pageLoop (fun _ cursor ↦ s.rangePage keyPrefix cursor limit) fuel 0 startAfter).map flatten

section Range

variable {keyPrefix : Bytes} {n : ℕ} {entries : List (Σ _ : Bytes, KeyValue)}

/-- The scan meets the limit before its last entry, when `n` pairs were found before. -/
def Overflows (keyPrefix : Bytes) (n : ℕ) (entries : List (Σ _ : Bytes, KeyValue)) : Prop :=
  ∃ k < entries.length,
    maxRangeResults ≤ n + (entries.take k).countP fun e ↦ keyPrefix.isPrefixOf e.1

theorem overflows_cons {e : Σ _ : Bytes, KeyValue} : Overflows keyPrefix n (e :: entries) ↔
    maxRangeResults ≤ n ∨
      Overflows keyPrefix (n + if keyPrefix.isPrefixOf e.1 then 1 else 0) entries := by
  constructor
  · rintro ⟨k, hk, hmax⟩
    cases k with
    | zero => exact .inl hmax
    | succ k =>
      refine .inr ⟨k, Nat.lt_of_succ_lt_succ hk, ?_⟩
      rw [take_succ_cons, countP_cons] at hmax
      omega
  · rintro (hmax | ⟨k, hk, hmax⟩)
    · exact ⟨0, Nat.succ_pos _, hmax⟩
    · refine ⟨k + 1, Nat.succ_lt_succ hk, ?_⟩
      rw [take_succ_cons, countP_cons]
      omega

theorem not_overflows_of_length (h : n + entries.length ≤ maxRangeResults) :
    ¬ Overflows keyPrefix n entries := by
  rintro ⟨k, hk, hmax⟩
  have hcount : (entries.take k).countP (fun e ↦ keyPrefix.isPrefixOf e.1) ≤ k :=
    countP_le_length.trans (length_take_le _ _)
  omega

theorem not_overflows_of_countP
    (h : n + entries.countP (fun e ↦ keyPrefix.isPrefixOf e.1) < maxRangeResults) :
    ¬ Overflows keyPrefix n entries := by
  rintro ⟨k, -, hmax⟩
  have hcount : (entries.take k).countP (fun e ↦ keyPrefix.isPrefixOf e.1) ≤
      entries.countP fun e ↦ keyPrefix.isPrefixOf e.1 := (take_sublist k entries).countP_le
  omega

theorem overflows_of_countP (hn : n ≤ maxRangeResults)
    (h : maxRangeResults < n + entries.countP fun e ↦ keyPrefix.isPrefixOf e.1) :
    Overflows keyPrefix n entries := by
  induction entries generalizing n with
  | nil =>
    rw [countP_nil] at h
    omega
  | cons e entries ih =>
    rw [overflows_cons]
    by_cases hfull : maxRangeResults ≤ n
    · exact .inl hfull
    · refine .inr (ih ?_ ?_)
      · split_ifs <;> omega
      · rw [countP_cons] at h
        omega

variable {kv : KeyValue} {result : List KeyValue}

theorem foldlM_range (h : ¬ Overflows keyPrefix result.length entries) :
    entries.foldlM (rangeStep keyPrefix) result =
      .ok (result ++ (entries.filter fun e ↦ keyPrefix.isPrefixOf e.1).map (·.2)) := by
  induction entries generalizing result with
  | nil =>
    rw [foldlM_nil, filter_nil, map_nil, append_nil]
    rfl
  | cons e entries ih =>
    rw [overflows_cons, not_or] at h
    rw [foldlM_cons, rangeStep, if_neg h.1]
    cases hp : keyPrefix.isPrefixOf e.1 with
    | true =>
      rw [hp] at h
      refine (ih ?_).trans ?_
      · rw [if_pos rfl, length_append]
        exact h.2
      · simp [hp]
    | false =>
      rw [hp] at h
      refine (ih ?_).trans ?_
      · rw [if_neg Bool.false_ne_true]
        exact h.2
      · simp [hp]

theorem foldlM_range_error (h : Overflows keyPrefix result.length entries) :
    entries.foldlM (rangeStep keyPrefix) result = .error errRangeLimit := by
  induction entries generalizing result with
  | nil =>
    obtain ⟨k, hk, -⟩ := h
    exact absurd hk (Nat.not_lt_zero k)
  | cons e entries ih =>
    rw [foldlM_cons, rangeStep]
    by_cases hfull : maxRangeResults ≤ result.length
    · rw [if_pos hfull]
      rfl
    · rw [if_neg hfull]
      refine ih ?_
      have hrest := (overflows_cons.mp h).resolve_left hfull
      split_ifs at hrest ⊢
      · rw [length_append]
        exact hrest
      · exact hrest

def scanned (s : KVStore) (keyPrefix : Bytes) : List KeyValue :=
  ((s.data.entries.filter fun e ↦ keyPrefix.isPrefixOf e.1).map (·.2)).insertionSort
    fun a b ↦ bytesLE a.key b.key

theorem range_of_not_overflows (h : ¬ Overflows keyPrefix 0 s.data.entries) :
    s.range keyPrefix = .ok (s.scanned keyPrefix) := by
  unfold range
  rw [foldlM_range h]
  rfl

theorem range_of_overflows (h : Overflows keyPrefix 0 s.data.entries) : s.range keyPrefix =
    .error errRangeLimit := by
  unfold range
  rw [foldlM_range_error h]
  rfl

theorem map_key_scanned (h : Keyed s.data) (keyPrefix : Bytes) :
    (s.scanned keyPrefix).map KeyValue.key =
    sortStrings (s.data.keys.filter keyPrefix.isPrefixOf) := by
  unfold scanned
  rw [map_insertionSort _ (fun a b ↦ bytesLE a b = true)]
  · refine congrArg sortStrings ?_
    rw [map_map]
    have hkey : ∀ e ∈ s.data.entries, e.2.key = e.1 := fun e he ↦
      h e.1 e.2 (AList.mem_lookup_iff.mpr he)
    have hmap : s.data.keys = s.data.entries.map (·.1) := rfl
    rw [hmap, filter_map]
    exact map_congr_left fun e he ↦ hkey e (mem_of_mem_filter he)
  · exact fun a _ b _ ↦ Iff.rfl

theorem mem_scanned : kv ∈ s.scanned keyPrefix ↔
    ∃ key, s.data.lookup key = some kv ∧ keyPrefix.isPrefixOf key = true := by
  refine (perm_insertionSort _ _).mem_iff.trans (mem_map.trans ⟨?_, ?_⟩)
  · rintro ⟨e, he, rfl⟩
    exact ⟨e.1, AList.mem_lookup_iff.mpr (mem_of_mem_filter he), (mem_filter.mp he).2⟩
  · rintro ⟨key, hkv, hp⟩
    exact ⟨⟨key, kv⟩, mem_filter.mpr ⟨AList.mem_lookup_iff.mp hkv, hp⟩, rfl⟩

theorem lookup_of_mem_scanned (h : Keyed s.data) (hkv : kv ∈ s.scanned keyPrefix) :
    s.data.lookup kv.key = some kv := by
  obtain ⟨key, hl, -⟩ := mem_scanned.mp hkv
  rw [h key kv hl, hl]

theorem filterMap_lookup {kvs : List KeyValue}
    (h : ∀ kv ∈ kvs, s.data.lookup kv.key = some kv) :
    (kvs.map KeyValue.key).filterMap (fun key ↦ s.data.lookup key) = kvs := by
  induction kvs with
  | nil => rfl
  | cons kv kvs ih =>
    rw [map_cons, filterMap_cons, h kv mem_cons_self]
    exact congrArg (kv :: ·) (ih fun x hx ↦ h x (mem_cons_of_mem kv hx))

theorem scanned_eq (h : s.Sound) (keyPrefix : Bytes) : s.scanned keyPrefix =
    (sortStrings (s.data.keys.filter keyPrefix.isPrefixOf)).filterMap fun key ↦
    s.data.lookup key := by
  rw [← map_key_scanned h.keyed, filterMap_lookup fun kv hkv ↦ lookup_of_mem_scanned h.keyed hkv]

end Range

theorem lookup_of_perm {data data' : KeyData} (h : data.entries.Perm data'.entries) (k : Bytes) :
    data.lookup k = data'.lookup k := AList.perm_lookup h

section Pages

variable {keyPrefix startAfter : Bytes} {limit : ℤ}

def keysAfter (s : KVStore) (keyPrefix startAfter : Bytes) : List Bytes :=
  sortStrings (s.data.keys.filter fun key ↦ keyPrefix.isPrefixOf key && !bytesLE key startAfter)

def pageSize (limit : ℤ) : ℕ :=
  if limit ≤ 0 ∨ maxRangeResults < limit then maxRangeResults else limit.toNat

theorem pageSize_pos (limit : ℤ) : 0 < pageSize limit := by
  unfold pageSize
  split_ifs with h
  · decide
  · omega

theorem rangePage_eq : s.rangePage keyPrefix startAfter limit =
    (((s.keysAfter keyPrefix startAfter).take (pageSize limit)).filterMap fun key ↦
      s.data.lookup key, decide (pageSize limit < (s.keysAfter keyPrefix startAfter).length)) := rfl

theorem keysAfter_sorted (s : KVStore) (keyPrefix startAfter : Bytes) :
    (s.keysAfter keyPrefix startAfter).Pairwise fun a b ↦ bytesLE b a = false := by
  have hnodup : (s.keysAfter keyPrefix startAfter).Nodup :=
    (sortStrings_perm _).nodup_iff.mpr (s.data.keys_nodup.filter _)
  refine ((sortStrings_sorted _).and hnodup).imp fun {a b} hab ↦ ?_
  refine Bool.eq_false_iff.mpr fun hba ↦ hab.2 (bytesLE_antisymm hab.1 hba)

theorem mem_keysAfter {key : Bytes} (h : key ∈ s.keysAfter keyPrefix startAfter) :
    key ∈ s.data.keys ∧ bytesLE key startAfter = false := by
  have hmem := mem_filter.mp ((sortStrings_perm _).mem_iff.mp h)
  exact ⟨hmem.1, by simpa using (Bool.and_eq_true_iff.mp hmem.2).2⟩

theorem filter_keysAfter {last : Bytes} (h : bytesLE last startAfter = false) :
    (s.keysAfter keyPrefix startAfter).filter (fun key ↦ !bytesLE key last) =
      s.keysAfter keyPrefix last := by
  unfold keysAfter
  rw [filter_sortStrings, filter_filter]
  refine congrArg sortStrings (filter_congr fun key _ ↦ ?_)
  have hle : bytesLE startAfter last = true :=
    (bytesLE_total startAfter last).resolve_right (by simp [h])
  cases hkey : bytesLE key last with
  | true => simp
  | false =>
    have hafter : bytesLE key startAfter = false := by
      refine Bool.eq_false_iff.mpr fun hk ↦ ?_
      rw [bytesLE_trans hk hle] at hkey
      cases hkey
    simp [hafter]

theorem keysAfter_last {before after : List Bytes} {last : Bytes}
    (h : s.keysAfter keyPrefix startAfter = before ++ last :: after) :
    s.keysAfter keyPrefix last = after := by
  have hsorted := keysAfter_sorted s keyPrefix startAfter
  have hlast := (mem_keysAfter (h ▸ mem_append_right before mem_cons_self)).2
  rw [← filter_keysAfter hlast]
  rw [h] at hsorted ⊢
  obtain ⟨-, htail, hcross⟩ := pairwise_append.mp hsorted
  have hbefore : before.filter (fun key ↦ !bytesLE key last) = [] := by
    refine filter_eq_nil_iff.mpr fun key hkey ↦ ?_
    have hlt := hcross key hkey last mem_cons_self
    simp [(bytesLE_total key last).resolve_right (by simp [hlt])]
  have hafter : after.filter (fun key ↦ !bytesLE key last) = after := by
    refine filter_eq_self.mpr fun key hkey ↦ ?_
    simp [rel_of_pairwise_cons htail hkey]
  rw [filter_append, hbefore, filter_cons, if_neg (by simp [bytesLE_refl]), hafter]
  rfl

theorem map_key_filterMap {keys : List Bytes} (h : Keyed s.data)
    (hkeys : ∀ key ∈ keys, key ∈ s.data.keys) :
    (keys.filterMap fun key ↦ s.data.lookup key).map KeyValue.key = keys := by
  induction keys with
  | nil => rfl
  | cons key keys ih =>
    obtain ⟨kv, hkv⟩ : ∃ kv, s.data.lookup key = some kv :=
      Option.isSome_iff_exists.mp (AList.lookup_isSome.mpr (hkeys key mem_cons_self))
    rw [filterMap_cons, hkv]
    dsimp only
    rw [map_cons, h key kv hkv, ih fun k hk ↦ hkeys k (mem_cons_of_mem _ hk)]

theorem map_key_rangePage (h : Keyed s.data) :
    (s.rangePage keyPrefix startAfter limit).1.map KeyValue.key =
      (s.keysAfter keyPrefix startAfter).take (pageSize limit) := by
  rw [rangePage_eq]
  exact map_key_filterMap h fun key hkey ↦ (mem_keysAfter (mem_of_mem_take hkey)).1

theorem keysAfter_page (h : Keyed s.data)
    (hmore : pageSize limit < (s.keysAfter keyPrefix startAfter).length) :
    ∃ last, (s.rangePage keyPrefix startAfter limit).1.getLast? = some last ∧
      s.keysAfter keyPrefix last.key = (s.keysAfter keyPrefix startAfter).drop
      (pageSize limit) := by
  have hkeys : (s.rangePage keyPrefix startAfter limit).1.map KeyValue.key =
      (s.keysAfter keyPrefix startAfter).take (pageSize limit) := map_key_rangePage h
  have hne : (s.rangePage keyPrefix startAfter limit).1 ≠ [] := by
    intro hnil
    rw [hnil, map_nil] at hkeys
    have hlen := congrArg length hkeys
    rw [length_take, length_nil] at hlen
    have := pageSize_pos limit
    omega
  refine ⟨_, getLast?_eq_some_getLast hne, ?_⟩
  obtain ⟨before, hbefore⟩ : ∃ before, (s.keysAfter keyPrefix startAfter).take (pageSize limit) =
      before ++ [((s.rangePage keyPrefix startAfter limit).1.getLast hne).key] := by
    refine ⟨((s.rangePage keyPrefix startAfter limit).1.map KeyValue.key).dropLast, ?_⟩
    rw [← hkeys, ← getLast_map (f := KeyValue.key) (by simpa using hne)]
    exact (dropLast_append_getLast _).symm
  have hsplit := take_append_drop (pageSize limit) (s.keysAfter keyPrefix startAfter)
  rw [hbefore, append_assoc, singleton_append] at hsplit
  exact keysAfter_last hsplit.symm

theorem pageLoop_mono {call : ℕ → Bytes → List KeyValue × Bool} {fuel fuel' i : ℕ}
    {pages : List (List KeyValue)} (hle : fuel ≤ fuel')
    (h : pageLoop call fuel i startAfter = some pages) :
    pageLoop call fuel' i startAfter = some pages := by
  induction fuel generalizing fuel' i startAfter pages with
  | zero => cases h
  | succ fuel ih =>
    obtain ⟨fuel', rfl⟩ : ∃ k, fuel' = k + 1 := Nat.exists_eq_succ_of_ne_zero (by omega)
    unfold pageLoop at h ⊢
    dsimp only at h ⊢
    split_ifs at h ⊢
    · obtain ⟨last, hlast, h⟩ := Option.bind_eq_some_iff.mp h
      obtain ⟨rest, hrest, rfl⟩ := Option.map_eq_some_iff.mp h
      rw [hlast, Option.bind_some, ih (by omega) hrest]
      rfl
    · exact h

theorem rangePage_iterated {data : KeyData} (h : data.entries.Perm s.data.entries) :
    (s.iterated data).rangePage keyPrefix startAfter limit =
    s.rangePage keyPrefix startAfter limit := by
  have hkeys : (s.iterated data).keysAfter keyPrefix startAfter =
      s.keysAfter keyPrefix startAfter :=
    sortStrings_eq_of_perm ((h.map _).filter _)
  have hlookup : (fun key ↦ (s.iterated data).data.lookup key) = fun key ↦ s.data.lookup key :=
    funext (lookup_of_perm h)
  rw [rangePage_eq, rangePage_eq, hkeys, hlookup]

theorem pageLoop_spec {order : ℕ → KeyData} (h : Keyed s.data)
    (horder : ∀ i, (order i).entries.Perm s.data.entries)
    (limit : ℤ) {fuel : ℕ} (i : ℕ) (hfuel : (s.keysAfter keyPrefix startAfter).length < fuel) :
    ∃ pages, pageLoop (fun i cursor ↦ (s.iterated (order i)).rangePage keyPrefix cursor limit)
        fuel i startAfter = some pages ∧
      (∀ page ∈ pages, page.length ≤ pageSize limit) ∧
      pages.flatten = (s.keysAfter keyPrefix startAfter).filterMap fun key ↦ s.data.lookup key := by
  induction fuel generalizing i startAfter with
  | zero => exact absurd hfuel (Nat.not_lt_zero _)
  | succ fuel ih =>
    have hlen : (s.rangePage keyPrefix startAfter limit).1.length ≤ pageSize limit := by
      rw [← length_map (f := KeyValue.key), map_key_rangePage h]
      exact length_take_le _ _
    have hmore : (s.rangePage keyPrefix startAfter limit).2 =
        decide (pageSize limit < (s.keysAfter keyPrefix startAfter).length) := rfl
    have hkvs : (s.rangePage keyPrefix startAfter limit).1 =
        ((s.keysAfter keyPrefix startAfter).take (pageSize limit)).filterMap
          fun key ↦ s.data.lookup key := rfl
    unfold pageLoop
    dsimp only
    rw [rangePage_iterated (horder i), hmore]
    by_cases hlt : pageSize limit < (s.keysAfter keyPrefix startAfter).length
    · -- a full page: the next call starts after its last key
      obtain ⟨last, hlast, hdrop⟩ := keysAfter_page h hlt
      have hpos := pageSize_pos limit
      have hrest : (s.keysAfter keyPrefix last.key).length < fuel := by
        rw [hdrop, length_drop]
        omega
      obtain ⟨pages, hpages, hle, hflat⟩ := ih (i + 1) hrest
      refine ⟨(s.rangePage keyPrefix startAfter limit).1 :: pages, ?_, ?_, ?_⟩
      · rw [if_pos (decide_eq_true hlt), hlast, Option.bind_some, hpages]
        rfl
      · exact forall_mem_cons.mpr ⟨hlen, hle⟩
      · rw [flatten_cons, hflat, hdrop, hkvs, ← filterMap_append, take_append_drop]
    · refine ⟨[(s.rangePage keyPrefix startAfter limit).1], ?_, ?_, ?_⟩
      · rw [if_neg fun hd ↦ hlt (of_decide_eq_true hd)]
      · exact forall_mem_cons.mpr ⟨hlen, forall_mem_nil _⟩
      · rw [flatten_singleton, hkvs, take_of_length_le (not_lt.mp hlt)]

theorem pages_spec (h : Keyed s.data) (fuel : ℕ) (startAfter : Bytes) :
    (∀ kvs, s.pages keyPrefix limit fuel startAfter = some kvs →
      kvs.map KeyValue.key = s.keysAfter keyPrefix startAfter) ∧
    ((s.keysAfter keyPrefix startAfter).length < fuel →
      (s.pages keyPrefix limit fuel startAfter).isSome = true) := by
  have hspec {fuel : ℕ} (hfuel : (s.keysAfter keyPrefix startAfter).length < fuel) :=
    pageLoop_spec h (fun _ ↦ List.Perm.refl s.data.entries) limit 0 hfuel
  refine ⟨fun kvs hkvs ↦ ?_, fun hfuel ↦ ?_⟩
  · obtain ⟨pages, hpages, rfl⟩ := Option.map_eq_some_iff.mp hkvs
    obtain ⟨pages', hpages', -, hflat⟩ := hspec (Nat.lt_add_left fuel (Nat.lt_succ_self _))
    cases (pageLoop_mono (Nat.le_add_right _ _) hpages).symm.trans hpages'
    rw [hflat]
    exact map_key_filterMap h fun key hkey ↦ (mem_keysAfter hkey).1
  · obtain ⟨pages, hpages, -⟩ := hspec hfuel
    exact Option.isSome_map.trans (Option.isSome_iff_exists.mpr ⟨pages, hpages⟩)

end Pages

end RaftConsensus.Kv.KVStore
