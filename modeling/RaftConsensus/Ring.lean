import Mathlib.Data.List.Basic
import Mathlib.Order.Nat

namespace RaftConsensus

open List Function

/-- A ring buffer of `n` places. `pos` is written next, and the last `len` places that were written
are valid. -/
structure Ring (α : Type) (n : ℕ) where
  buffer : ℕ → α
  pos : ℕ
  len : ℕ
  pos_lt : pos < n
  len_le : len ≤ n

namespace Ring

variable {α : Type} {n : ℕ} (r : Ring α n) {a : α} {i x : ℕ}

def empty [Inhabited α] (n : ℕ) (hn : 0 < n) : Ring α n :=
  ⟨fun _ ↦ default, 0, 0, hn, Nat.zero_le n⟩

def push (a : α) : Ring α n where
  buffer := Function.update r.buffer r.pos a
  pos := (r.pos + 1) % n
  len := if r.len < n then r.len + 1 else r.len
  pos_lt := Nat.mod_lt _ (Nat.zero_lt_of_lt r.pos_lt)
  len_le := by
    have := r.len_le
    split_ifs <;> omega

/-- The place of the `i`th valid element, the oldest one first. -/
def place (i : ℕ) : ℕ := ((r.pos + n - r.len) % n + i) % n

def toList : List α := (List.range r.len).map fun i ↦ r.buffer (r.place i)

@[simp] theorem length_toList : r.toList.length = r.len := by simp [toList]

theorem mod_of_lt_two_mul (h : x < 2 * n) : x % n = if x < n then x else x - n := by
  split_ifs with hx
  · exact Nat.mod_eq_of_lt hx
  · rw [Nat.mod_eq_sub_mod (by omega), Nat.mod_eq_of_lt (by omega)]

variable {r}

theorem place_eq (hi : i < r.len) :
    r.place i = if r.pos + n - r.len + i < n then r.pos + n - r.len + i else r.pos + i - r.len := by
  have hpos := r.pos_lt
  have hlen := r.len_le
  rw [place, Nat.mod_add_mod, mod_of_lt_two_mul (by omega)]
  split_ifs <;> omega

theorem pos_push : (r.push a).pos = if r.pos + 1 < n then r.pos + 1 else 0 := by
  have hpos := r.pos_lt
  change (r.pos + 1) % n = _
  rw [mod_of_lt_two_mul (by omega)]
  split_ifs <;> omega

theorem place_push_last (hi : i + 1 = (r.push a).len) : (r.push a).place i = r.pos := by
  have hpos := r.pos_lt
  have hlen := r.len_le
  have hle := (r.push a).len_le
  rw [place_eq (by omega), pos_push]
  split_ifs <;> omega

theorem place_push (hi : i + 1 < (r.push a).len) : (r.push a).place i =
    r.place (i + (r.len + 1 - (r.push a).len)) ∧ (r.push a).place i ≠ r.pos := by
  have hpos := r.pos_lt
  have hlen := r.len_le
  have hpush : (r.push a).len = if r.len < n then r.len + 1 else r.len := rfl
  rw [place_eq (by omega), place_eq (by split_ifs at hpush <;> omega), pos_push]
  split_ifs at hpush ⊢ <;> omega

theorem toList_push : (r.push a).toList = (r.toList ++ [a]).drop (r.len + 1 - n) := by
  have hlen := r.len_le
  have hpush : (r.push a).len = if r.len < n then r.len + 1 else r.len := rfl
  refine ext_getElem ?_ fun i h₁ h₂ ↦ ?_
  · rw [length_toList, length_drop, length_append, length_toList, length_singleton, hpush]
    split_ifs <;> omega
  · rw [length_toList] at h₁
    have hshift : r.len + 1 - (r.push a).len = r.len + 1 - n := by
      rw [hpush]
      split_ifs <;> omega
    have hval : (r.push a).toList[i] = update r.buffer r.pos a ((r.push a).place i) := by
      simp [toList]
      rfl
    rw [hval, getElem_drop]
    rcases Nat.lt_or_ge (i + 1) (r.push a).len with hi | hi
    · obtain ⟨hplace, hne⟩ := place_push hi
      have hold : r.len + 1 - n + i < r.toList.length := by
        rw [length_toList]
        split_ifs at hpush <;> omega
      rw [update_of_ne hne, hplace, hshift, getElem_append_left hold]
      simp [toList, Nat.add_comm]
    · rw [place_push_last (by omega), update_self, getElem_append_right]
      · simp
      · rw [length_toList]
        omega

theorem toList_foldl_push (l : List α) : (l.foldl push r).toList =
    (r.toList ++ l).drop (r.len + l.length - n) := by
  induction l generalizing r with
  | nil =>
    have := r.len_le
    simp [Nat.sub_eq_zero_of_le this]
  | cons a l ih =>
    have hlen := r.len_le
    have hpush : (r.push a).len = if r.len < n then r.len + 1 else r.len := rfl
    have hle : r.len + 1 - n ≤ (r.toList ++ [a]).length := by
      rw [length_append, length_toList, length_singleton]
      omega
    rw [foldl_cons, ih, toList_push, ← drop_append_of_le_length hle, drop_drop,
      append_assoc, hpush, length_cons]
    congr 1
    split_ifs <;> omega

theorem toList_foldl_push_of_le {l : List α} (h : l.length ≤ n) :
    ∃ k, (l.foldl push r).toList = r.toList.drop k ++ l := by
  have hlen := r.len_le
  refine ⟨r.len + l.length - n, ?_⟩
  rw [toList_foldl_push, drop_append_of_le_length]
  rw [length_toList]
  omega

end Ring

end RaftConsensus
