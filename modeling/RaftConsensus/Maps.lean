import Mathlib.Data.List.AList

/-! Finite maps as sets of entries: what does not depend on the order of the entries. -/

namespace RaftConsensus.Maps

open List Option AList

variable {α : Type} [DecidableEq α]

section AgreeBy

variable {β γ δ : Type} {f : β → γ} {m m' : AList (fun _ : α ↦ β)}

def AgreeBy (f : β → γ) (m m' : AList (fun _ : α ↦ β)) : Prop :=
  ∀ key, (m.lookup key).map f = (m'.lookup key).map f

theorem AgreeBy.lookup_eq (h : AgreeBy id m m') (key : α) : m.lookup key = m'.lookup key := by
  have hkey := h key
  rwa [Option.map_id, id, id] at hkey

theorem AgreeBy.comp (h : AgreeBy f m m') (g : γ → δ) : AgreeBy (fun b ↦ g (f b)) m m' := by
  intro key
  have hkey := congrArg (Option.map g) (h key)
  rwa [Option.map_map, Option.map_map] at hkey

theorem AgreeBy.insert (h : AgreeBy f m m') (key : α) {b b' : β} (hb : f b = f b') :
    AgreeBy f (m.insert key b) (m'.insert key b') := by
  intro k
  by_cases hk : k = key
  · subst hk
    rw [lookup_insert, lookup_insert, map_some, map_some, hb]
  · rw [lookup_insert_ne hk, lookup_insert_ne hk]
    exact h k

theorem AgreeBy.erase (h : AgreeBy f m m') (key : α) : AgreeBy f (m.erase key) (m'.erase key) := by
  intro k
  by_cases hk : k = key
  · subst hk
    rw [lookup_erase, lookup_erase]
  · rw [lookup_erase_ne hk, lookup_erase_ne hk]
    exact h k

theorem AgreeBy.entries_perm (h : AgreeBy id m m') : m.entries.Perm m'.entries := by
  refine lookup_ext m.nodupKeys m'.nodupKeys fun key b ↦ ?_
  have hkey : m.entries.dlookup key = m'.entries.dlookup key := h.lookup_eq key
  rw [hkey]

theorem AgreeBy.length_eq (h : AgreeBy f m m') : m.entries.length = m'.entries.length := by
  have hkeys : m.keys.Perm m'.keys := by
    refine (perm_ext_iff_of_nodup m.keys_nodup m'.keys_nodup).mpr fun key ↦ ?_
    rw [← AList.mem_keys, ← AList.mem_keys, ← lookup_isSome, ← lookup_isSome]
    have hkey := congrArg isSome (h key)
    rw [isSome_map, isSome_map] at hkey
    rw [hkey]
  simpa [AList.keys, List.keys] using hkeys.length_eq

end AgreeBy

section Gather

variable {β γ : α → Type}

theorem lookup_foldl_insert (f : ∀ key, β key → γ key) {l : List (Sigma β)} (hl : l.NodupKeys)
    (m : AList γ) (key : α) : (l.foldl (fun m e ↦ m.insert e.1 (f e.1 e.2)) m).lookup key =
      ((l.dlookup key).map (f key)).or (m.lookup key) := by
  induction l generalizing m with
  | nil => rfl
  | cons e l ih =>
    obtain ⟨hnot, hnodup⟩ := nodupKeys_cons.mp hl
    rw [foldl_cons, ih hnodup]
    by_cases hk : key = e.1
    · subst hk
      rw [dlookup_eq_none.mpr hnot, lookup_insert, dlookup_cons_eq]
      rfl
    · rw [lookup_insert_ne hk, dlookup_cons_ne _ _ hk]

end Gather

section Keys

variable {β : Type}

theorem lookup_foldl_insert_keys (f : α → β) (l : List α) (m : AList (fun _ : α ↦ β)) (key : α) :
    (l.foldl (fun m k ↦ m.insert k (f k)) m).lookup key =
      if key ∈ l then some (f key) else m.lookup key := by
  induction l generalizing m with
  | nil => rw [if_neg not_mem_nil, foldl_nil]
  | cons k l ih =>
    rw [foldl_cons, ih]
    by_cases hl : key ∈ l
    · rw [if_pos hl, if_pos (mem_cons_of_mem k hl)]
    · by_cases hk : key = k
      · rw [if_neg hl, hk, lookup_insert, if_pos mem_cons_self]
      · rw [if_neg hl, lookup_insert_ne hk, if_neg (not_mem_cons_of_ne_of_not_mem hk hl)]

theorem lookup_foldl_erase_keys (l : List α) (m : AList (fun _ : α ↦ β)) (key : α) :
    (l.foldl (fun m k ↦ m.erase k) m).lookup key = if key ∈ l then none else m.lookup key := by
  induction l generalizing m with
  | nil => rw [if_neg not_mem_nil, foldl_nil]
  | cons k l ih =>
    rw [foldl_cons, ih]
    by_cases hl : key ∈ l
    · rw [if_pos hl, if_pos (mem_cons_of_mem k hl)]
    · by_cases hk : key = k
      · rw [if_neg hl, hk, lookup_erase, if_pos mem_cons_self]
      · rw [if_neg hl, lookup_erase_ne hk, if_neg (not_mem_cons_of_ne_of_not_mem hk hl)]

end Keys

end RaftConsensus.Maps
