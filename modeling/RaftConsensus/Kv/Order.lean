import RaftConsensus.Kv.Store

namespace RaftConsensus.Kv

section BytesLE

variable {s t u : Bytes}

theorem bytesLE_cons (a b : UInt8) (s t : Bytes) :
    bytesLE (a :: s) (b :: t) = true ↔ a.toNat < b.toNat ∨ a = b ∧ bytesLE s t = true := by
  simp [bytesLE, UInt8.lt_iff_toNat_lt]

theorem bytesLE_refl (s : Bytes) : bytesLE s s = true := by
  induction s with
  | nil => rfl
  | cons a s ih => exact (bytesLE_cons a a s s).mpr (.inr ⟨rfl, ih⟩)

theorem bytesLE_trans (h : bytesLE s t = true) (h' : bytesLE t u = true) : bytesLE s u = true := by
  induction s generalizing t u with
  | nil => rfl
  | cons a s ih =>
    cases t with
    | nil => cases h
    | cons b t =>
      cases u with
      | nil => cases h'
      | cons c u =>
        rw [bytesLE_cons] at h h' ⊢
        rcases h with h | ⟨rfl, h⟩
        · rcases h' with h' | ⟨rfl, -⟩
          · exact .inl (h.trans h')
          · exact .inl h
        · rcases h' with h' | ⟨rfl, h'⟩
          · exact .inl h'
          · exact .inr ⟨rfl, ih h h'⟩

theorem bytesLE_antisymm (h : bytesLE s t = true) (h' : bytesLE t s = true) : s = t := by
  induction s generalizing t with
  | nil =>
    cases t with
    | nil => rfl
    | cons b t => cases h'
  | cons a s ih =>
    cases t with
    | nil => cases h
    | cons b t =>
      rw [bytesLE_cons] at h h'
      rcases h with h | ⟨rfl, h⟩
      · rcases h' with h' | ⟨rfl, -⟩
        · exact absurd (h.trans h') (lt_irrefl _)
        · exact absurd h (lt_irrefl _)
      · rw [ih h ((h'.resolve_left (lt_irrefl _)).2)]

theorem bytesLE_total (s t : Bytes) : bytesLE s t = true ∨ bytesLE t s = true := by
  induction s generalizing t with
  | nil => exact .inl rfl
  | cons a s ih =>
    cases t with
    | nil => exact .inr rfl
    | cons b t =>
      rw [bytesLE_cons, bytesLE_cons]
      rcases lt_trichotomy a.toNat b.toNat with h | h | h
      · exact .inl (.inl h)
      · cases UInt8.toNat_inj.mp h
        exact (ih t).imp (fun h ↦ .inr ⟨rfl, h⟩) (fun h ↦ .inr ⟨rfl, h⟩)
      · exact .inr (.inl h)

instance : Std.Total (fun s t : Bytes ↦ bytesLE s t = true) := ⟨bytesLE_total⟩

instance : IsTrans Bytes (fun s t ↦ bytesLE s t = true) := ⟨fun _ _ _ ↦ bytesLE_trans⟩

instance : Std.Antisymm (fun s t : Bytes ↦ bytesLE s t = true) := ⟨fun _ _ ↦ bytesLE_antisymm⟩

end BytesLE

section Sorting

variable {l l' : List Bytes}

theorem sortStrings_perm (l : List Bytes) : (sortStrings l).Perm l := List.perm_insertionSort _ l

theorem sortStrings_sorted (l : List Bytes) :
    (sortStrings l).Pairwise (fun s t ↦ bytesLE s t = true) :=
  List.pairwise_insertionSort _ l

theorem sortStrings_eq_of_perm (h : l.Perm l') : sortStrings l = sortStrings l' :=
  ((sortStrings_perm l).trans (h.trans (sortStrings_perm l').symm)).eq_of_pairwise'
    (sortStrings_sorted l) (sortStrings_sorted l')

theorem filter_sortStrings (p : Bytes → Bool) (l : List Bytes) :
    (sortStrings l).filter p = sortStrings (l.filter p) :=
  (((sortStrings_perm l).filter p).trans (sortStrings_perm _).symm).eq_of_pairwise'
    ((sortStrings_sorted l).filter p) (sortStrings_sorted _)

end Sorting

theorem keys_filter_entries (data : KeyData) (p : Bytes → KeyValue → Bool) :
    (data.entries.filter fun e ↦ p e.1 e.2).map (·.1) =
      data.keys.filter fun k ↦ (data.lookup k).any (p k) := by
  have hmap : data.keys = data.entries.map (·.1) := rfl
  rw [hmap, List.filter_map]
  refine congrArg _ (List.filter_congr fun e he ↦ ?_)
  have hl : data.lookup e.1 = some e.2 := AList.mem_lookup_iff.mpr he
  simp [hl]

namespace Contents

theorem isSome_live (s : Contents) (k : Bytes) :
    (s.live k).isSome = (s.data.lookup k).any s.isLive := Option.isSome_filter

theorem mem_keys_of_live {s : Contents} {k : Bytes} (h : (s.live k).isSome = true) :
    k ∈ s.data.keys := by
  rw [isSome_live] at h
  obtain ⟨kv, hkv, -⟩ := (Option.any_eq_true _ _).mp h
  refine AList.lookup_isSome.mp ?_
  rw [hkv]
  rfl

theorem rangeKeys_eq (s : Contents) (keyPrefix : Bytes) : s.rangeKeys keyPrefix =
    sortStrings (s.data.keys.filter fun k ↦ keyPrefix.isPrefixOf k && (s.live k).isSome) := by
  unfold rangeKeys
  rw [keys_filter_entries _ fun k kv ↦ keyPrefix.isPrefixOf k && s.isLive kv]
  refine congrArg sortStrings (List.filter_congr fun k _ ↦ ?_)
  rw [isSome_live]
  cases s.data.lookup k <;> simp

end Contents

end RaftConsensus.Kv
