import RaftConsensus.Kv.LocalReads

namespace RaftConsensus.Kv.KVStore

open List

variable {s : KVStore} {keyPrefix cursor : Bytes} {limit : ℤ}

theorem mem_keysAfter_iff {key : Bytes} : key ∈ s.keysAfter keyPrefix cursor ↔
    key ∈ s.data.keys ∧ keyPrefix.isPrefixOf key = true ∧ bytesLE key cursor = false := by
  unfold keysAfter
  rw [(sortStrings_perm _).mem_iff, mem_filter, Bool.and_eq_true, Bool.not_eq_true']

theorem bytesLE_nil (key : Bytes) : bytesLE key [] = false ↔ key ≠ [] := by
  cases key with
  | nil => exact iff_of_false nofun fun h ↦ h rfl
  | cons a key => exact iff_of_true rfl (cons_ne_nil a key)

/-- The pages of a store are its pairs with the prefix, in the order of their keys, each once. -/
theorem paging_complete (h : Keyed s.data) (keyPrefix : Bytes) (limit : ℤ) (order : ℕ → KeyData)
    (horder : ∀ i, (order i).entries.Perm s.data.entries) :
    ∃ n pages, (∀ fuel, n ≤ fuel →
        pageLoop (fun i cursor ↦ (s.iterated (order i)).rangePage keyPrefix cursor limit)
          fuel 0 [] =
          some pages) ∧
      (∀ page ∈ pages, page.length ≤ pageSize limit) ∧
      (pages.flatten.map KeyValue.key).Pairwise (fun a b ↦ bytesLE b a = false) ∧
      (∀ key, key ∈ pages.flatten.map KeyValue.key ↔
        key ∈ s.data.keys ∧ key ≠ [] ∧ keyPrefix.isPrefixOf key = true) ∧
      ∀ kv ∈ pages.flatten, s.data.lookup kv.key = some kv := by
  let keys := s.keysAfter keyPrefix []
  let kvs := keys.filterMap fun key ↦ s.data.lookup key
  have hkeys : kvs.map KeyValue.key = keys :=
    map_key_filterMap h fun key hkey ↦ (mem_keysAfter hkey).1
  obtain ⟨pages, hpages, hle, hflat⟩ := pageLoop_spec h horder limit 0
    (Nat.lt_succ_self (s.keysAfter keyPrefix []).length)
  refine ⟨keys.length + 1, pages, fun fuel hfuel ↦ ?_, hle, ?_, fun key ↦ ?_, fun kv hkv ↦ ?_⟩
  · exact pageLoop_mono hfuel hpages
  · rw [hflat, hkeys]
    exact keysAfter_sorted s keyPrefix []
  · rw [hflat, hkeys, mem_keysAfter_iff, bytesLE_nil]
    exact and_congr_right fun _ ↦ and_comm
  · rw [hflat] at hkv
    obtain ⟨key, -, hkv⟩ := mem_filterMap.mp hkv
    rw [h key kv hkv, hkv]

def threeKeys : KVStore := (new.run (["b", "", "ab"].map fun k ↦ encodeSet (ascii k) [])).1

/-- Two pages of one key; the empty key is on none. -/
theorem paging_threeKeys : ∃ n pages,
    (∀ fuel, n ≤ fuel → pageLoop (fun _ cursor ↦ (threeKeys.iterated threeKeys.data).rangePage []
      cursor 1) fuel 0 [] = some pages) ∧
    ∀ key, key ∈ pages.flatten.map KeyValue.key ↔
      key ∈ threeKeys.data.keys ∧ key ≠ [] ∧ isPrefixOf [] key = true := by
  obtain ⟨n, pages, hloop, -, -, hmem, -⟩ := paging_complete (sound_new.run _).keyed [] 1
    (fun _ ↦ threeKeys.data) fun _ ↦ List.Perm.refl _
  exact ⟨n, pages, hloop, hmem⟩

end RaftConsensus.Kv.KVStore
