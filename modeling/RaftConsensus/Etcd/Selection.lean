import RaftConsensus.Etcd.Server

namespace RaftConsensus.Etcd

open Kv List

/-- The documented rule for the keys of a request. -/
def selects (key rangeEnd k : Bytes) : Bool :=
  if rangeEnd = [] then k = key
  else if rangeEnd = [0] then bytesLE key k
  else bytesLE key k && !bytesLE rangeEnd k

/-- The rule that the reads follow: an end that is the key with a zero byte stands for a prefix. -/
def scans (key rangeEnd k : Bytes) : Bool :=
  if rangeEnd = key ++ [0] then key.isPrefixOf k else selects key rangeEnd k

section Rules

variable {key rangeEnd k : Bytes}

theorem eq_append_zero_iff : (rangeEnd.length = key.length + 1 ∧ rangeEnd.take key.length = key ∧
    rangeEnd.getLast? = some 0) ↔ rangeEnd = key ++ [0] := by
  constructor
  · rintro ⟨hlen, htake, hlast⟩
    obtain ⟨b, hb⟩ : ∃ b, rangeEnd.drop key.length = [b] := by
      refine length_eq_one_iff.mp ?_
      rw [length_drop]
      omega
    have heq : rangeEnd = key ++ [b] := by
      rw [← take_append_drop key.length rangeEnd, htake, hb]
    rw [heq, getLast?_append_of_ne_nil _ (cons_ne_nil _ _)] at hlast
    cases hlast
    exact heq
  · rintro rfl
    simp

theorem isPrefixOf_iff_take : key.isPrefixOf rangeEnd = true ↔ rangeEnd.take key.length = key := by
  rw [List.isPrefixOf_iff_prefix]
  constructor
  · rintro ⟨t, rfl⟩
    exact take_left
  · intro h
    rw [← h]
    exact take_prefix _ _

theorem append_zero_ne (hkey : key ≠ []) : key ++ [0] ≠ [0] := by
  intro h
  exact hkey (append_left_eq_self.mp h)

theorem inRange_eq (hkey : key ≠ []) : inRange k key rangeEnd = scans key rangeEnd k := by
  have hne := append_zero_ne hkey
  unfold inRange scans selects
  simp only [eq_append_zero_iff]
  by_cases hend : rangeEnd = key ++ [0]
  · subst hend
    rw [if_neg (by simp), if_neg hne, if_pos rfl, if_pos rfl]
  · rw [if_neg hend, if_neg hend]

theorem isRangeEndPrefix_eq : isRangeEndPrefix key rangeEnd = true ↔
    rangeEnd = [0] ∨ rangeEnd = key ++ [0] := by
  unfold isRangeEndPrefix
  simp only [isPrefixOf_iff_take, eq_append_zero_iff]
  by_cases hnil : rangeEnd = []
  · subst hnil
    simp
  · by_cases hzero : rangeEnd = [0]
    · subst hzero
      simp
    · simp [hnil, hzero]

theorem rangePrefix_eq (hkey : key ≠ []) :
    rangePrefix key rangeEnd = if rangeEnd = key ++ [0] then key else [] := by
  unfold rangePrefix
  simp only [isPrefixOf_iff_take, eq_append_zero_iff]
  rw [if_neg fun h ↦ hkey h.2]

theorem scans_and_isPrefixOf (hkey : key ≠ []) :
    (scans key rangeEnd k && (rangePrefix key rangeEnd).isPrefixOf k) = scans key rangeEnd k := by
  rw [rangePrefix_eq hkey]
  unfold scans
  split_ifs
  · exact Bool.and_self _
  · exact Bool.and_true _

theorem bytesLE_append_zero (key k : Bytes) :
    (bytesLE key k && !bytesLE (key ++ [0]) k) = true ↔ k = key := by
  induction key generalizing k with
  | nil =>
    cases k with
    | nil => simp [bytesLE]
    | cons c t =>
      have hle : bytesLE [0] (c :: t) = true := by
        rw [bytesLE_cons]
        by_cases hc : c = 0
        · exact .inr ⟨hc.symm, rfl⟩
        · refine .inl (Nat.pos_of_ne_zero fun h ↦ hc ?_)
          exact UInt8.toNat_inj.mp h
      simp [bytesLE, hle]
  | cons a s ih =>
    cases k with
    | nil => simp [bytesLE]
    | cons c t =>
      have h₁ := bytesLE_cons a c s t
      have h₂ := bytesLE_cons a c (s ++ [0]) t
      have ht := ih t
      rw [Bool.and_eq_true, Bool.not_eq_true', ← Bool.not_eq_true] at ht ⊢
      rw [cons_append, h₁, h₂, List.cons.injEq]
      constructor
      · rintro ⟨hle, hnot⟩
        rw [not_or] at hnot
        obtain ⟨rfl, hle'⟩ := hle.resolve_left hnot.1
        exact ⟨rfl, ht.mp ⟨hle', fun h ↦ hnot.2 ⟨rfl, h⟩⟩⟩
      · rintro ⟨rfl, hk⟩
        obtain ⟨hle, hnot⟩ := ht.mpr hk
        refine ⟨.inr ⟨rfl, hle⟩, ?_⟩
        rintro (h | ⟨-, h⟩)
        · exact lt_irrefl _ h
        · exact hnot h

theorem scans_of_selects (hkey : key ≠ []) (h : selects key rangeEnd k = true) :
    scans key rangeEnd k = true := by
  unfold scans
  split_ifs with hend
  · subst hend
    unfold selects at h
    rw [if_neg (by simp), if_neg (append_zero_ne hkey)] at h
    rw [(bytesLE_append_zero key k).mp h]
    exact isPrefixOf_iff_prefix.mpr prefix_rfl
  · exact h

end Rules

section Lists

variable {α : Type}

theorem perm_filter_map_iff {A : List α} {f : α → α} {S C : α → Bool} (hf : ∀ a, f (f a) = f a)
    (hSC : ∀ a, S a = true → C a = true) : ((A.map f).filter C).Perm (A.filter S) ↔
      ∀ a ∈ A, (S a = true → f a = a) ∧ (C (f a) = true → S a = true) := by
  have hcomp : (A.map f).filter C = (A.filter fun a ↦ C (f a)).map f := filter_map
  constructor
  · intro h
    have hfix : ∀ a ∈ A, S a = true → f a = a := by
      intro a ha hS
      obtain ⟨b, -, rfl⟩ := mem_map.mp
        (mem_filter.mp (h.mem_iff.mpr (mem_filter.mpr ⟨ha, hS⟩))).1
      exact hf b
    have hsub : A.filter S = (A.filter fun a ↦ C (f a)).filter S := by
      rw [filter_filter]
      refine filter_congr fun a ha ↦ ?_
      cases hS : S a with
      | false => rfl
      | true => rw [hfix a ha hS, hSC a hS, Bool.and_self]
    have heq : A.filter S = A.filter fun a ↦ C (f a) := by
      refine List.Sublist.eq_of_length (hsub ▸ filter_sublist) ?_
      rw [← h.length_eq, hcomp, length_map]
    refine fun a ha ↦ ⟨hfix a ha, fun hC ↦ ?_⟩
    have hmem : a ∈ A.filter S := heq ▸ mem_filter.mpr ⟨ha, hC⟩
    exact (mem_filter.mp hmem).2
  · intro h
    have heq : (A.filter fun a ↦ C (f a)) = A.filter S := by
      refine filter_congr fun a ha ↦ Bool.eq_iff_iff.mpr ⟨(h a ha).2, fun hS ↦ ?_⟩
      rw [(h a ha).1 hS]
      exact hSC a hS
    rw [hcomp, heq, map_congr_left (g := id), map_id]
    exact fun a ha ↦ (h a (mem_filter.mp ha).1).1 (mem_filter.mp ha).2

def distinct [DecidableEq α] (l : List α) : List α :=
  l.foldl (fun seen a ↦ if a ∈ seen then seen else seen ++ [a]) []

theorem distinct_concat [DecidableEq α] (l : List α) (a : α) :
    distinct (l ++ [a]) = if a ∈ distinct l then distinct l else distinct l ++ [a] := by
  rw [distinct, foldl_append]
  rfl

theorem distinct_spec [DecidableEq α] (l : List α) :
    (distinct l).Nodup ∧ ∀ a, a ∈ distinct l ↔ a ∈ l := by
  induction l using reverseRecOn with
  | nil => exact ⟨.nil, fun _ ↦ .rfl⟩
  | append_singleton l b ih =>
    obtain ⟨hnodup, hmem⟩ := ih
    rw [distinct_concat]
    split_ifs with hb
    · refine ⟨hnodup, fun a ↦ ?_⟩
      rw [hmem, mem_append, mem_singleton]
      exact ⟨.inl, fun h ↦ h.elim id fun h ↦ h ▸ (hmem b).mp hb⟩
    · refine ⟨?_, fun a ↦ ?_⟩
      · refine nodup_append.mpr ⟨hnodup, nodup_singleton b, fun a ha c hc hac ↦ ?_⟩
        exact hb (mem_singleton.mp hc ▸ hac ▸ ha)
      · rw [mem_append, mem_append, hmem]

end Lists

end RaftConsensus.Etcd
