import Mathlib.Data.List.Basic
import Mathlib.Order.Nat

/-! Byte strings that are not UTF-8, and what an encoder makes of them that writes the replacement
character for every byte it cannot read. -/

namespace RaftConsensus.Utf8

open List

/-- The number of bytes that a first byte announces, zero when it cannot be one. -/
def size (a : UInt8) : ℕ :=
  if a < 0x80 then 1
  else if a < 0xC2 then 0
  else if a < 0xE0 then 2
  else if a < 0xF0 then 3
  else if a < 0xF5 then 4
  else 0

def isContinuation (b : UInt8) : Bool := 0x80 ≤ b ∧ b ≤ 0xBF

/-- Some first bytes narrow the second one, against overlong forms, surrogates and numbers that are
too large. -/
def narrows (a b : UInt8) : Bool :=
  if a = 0xE0 then 0xA0 ≤ b
  else if a = 0xED then b ≤ 0x9F
  else if a = 0xF0 then 0x90 ≤ b
  else if a = 0xF4 then b ≤ 0x8F
  else true

/-- The bytes after a first byte complete its character. -/
def completes (a : UInt8) (s : List UInt8) : Bool :=
  size a ≤ s.length + 1 ∧ (s.take (size a - 1)).all isContinuation ∧
    (s.take (size a - 1)).head?.all (narrows a)

def width : List UInt8 → ℕ
  | [] => 0
  | a :: s => if completes a s then size a else 0

/-- Copies `n` bytes and goes on from there character by character. -/
def sanitizeFrom : ℕ → List UInt8 → List UInt8
  | _, [] => []
  | n + 1, b :: s => b :: sanitizeFrom n s
  | 0, b :: s =>
    match width (b :: s) with
    | 0 => 0xEF :: 0xBF :: 0xBD :: sanitizeFrom 0 s
    | n + 1 => b :: sanitizeFrom n s

/-- Every byte that begins no character becomes the replacement character. -/
def sanitize (s : List UInt8) : List UInt8 := sanitizeFrom 0 s

example : sanitize [0x61, 0xC3, 0xA4, 0xFF, 0x62] =
    [0x61, 0xC3, 0xA4, 0xEF, 0xBF, 0xBD, 0x62] := by decide

variable {n : ℕ} {a : UInt8} {s t : List UInt8}

theorem sanitizeFrom_eq (h : n ≤ s.length) :
    sanitizeFrom n s = s.take n ++ sanitize (s.drop n) := by
  induction n generalizing s with
  | zero => rfl
  | succ n ih =>
    cases s with
    | nil => cases h
    | cons b s => exact congrArg (b :: ·) (ih (Nat.le_of_succ_le_succ h))

theorem width_cons (h : width (a :: s) = n + 1) : completes a s = true ∧ size a = n + 1 := by
  change (if completes a s = true then size a else 0) = n + 1 at h
  split_ifs at h with hc
  exact ⟨hc, h⟩

theorem completes_length (hc : completes a s = true) (h : size a = n + 1) : n ≤ s.length := by
  have := (of_decide_eq_true hc).1
  omega

theorem completes_append (hc : completes a s = true) (h : size a = n + 1) (t : List UInt8) :
    completes a (s.take n ++ t) = true := by
  have hlen := completes_length hc h
  have htake : (s.take n ++ t).take n = s.take n := by
    rw [take_append_of_le_length (by rw [length_take]; omega), take_take,
      Nat.min_self]
  obtain ⟨-, hcont, hnarrow⟩ := of_decide_eq_true hc
  refine decide_eq_true ⟨?_, ?_, ?_⟩
  · rw [h, length_append, length_take]
    omega
  · rw [h] at hcont ⊢
    rw [Nat.add_sub_cancel, htake]
    exact hcont
  · rw [h] at hnarrow ⊢
    rw [Nat.add_sub_cancel, htake]
    exact hnarrow

theorem sanitize_cons (hc : completes a s = true) (h : size a = n + 1) :
    sanitize (a :: s) = a :: (s.take n ++ sanitize (s.drop n)) := by
  have hw : width (a :: s) = n + 1 := by rw [width, if_pos hc, h]
  rw [sanitize, sanitizeFrom, hw]
  exact congrArg (a :: ·) (sanitizeFrom_eq (completes_length hc h))

theorem sanitize_cons_bad (h : width (a :: s) = 0) :
    sanitize (a :: s) = 0xEF :: 0xBF :: 0xBD :: sanitize s := by
  rw [sanitize, sanitizeFrom, h]
  rfl

theorem sanitize_replacement (s : List UInt8) :
    sanitize (0xEF :: 0xBF :: 0xBD :: s) = 0xEF :: 0xBF :: 0xBD :: sanitize s := by
  have hc : completes 0xEF (0xBF :: 0xBD :: s) = true := by
    refine decide_eq_true ⟨?_, ?_, ?_⟩
    · simp [size]
    · rfl
    · rfl
  exact sanitize_cons (n := 2) hc rfl

@[simp] theorem sanitize_sanitize (s : List UInt8) : sanitize (sanitize s) = sanitize s := by
  induction hn : s.length using Nat.strong_induction_on generalizing s with
  | _ m ih =>
    cases s with
    | nil => rfl
    | cons a s =>
      have hm : m = s.length + 1 := hn.symm
      cases hw : width (a :: s) with
      | zero =>
        rw [sanitize_cons_bad hw, sanitize_replacement, ih s.length (by omega) s rfl]
      | succ n =>
        obtain ⟨hc, h⟩ := width_cons hw
        have hlen := completes_length hc h
        rw [sanitize_cons hc h, sanitize_cons (completes_append hc h _) h,
          take_append_of_le_length (by rw [length_take]; omega), take_take,
          Nat.min_self, drop_append_of_le_length (by rw [length_take]; omega),
          drop_take, Nat.sub_self, take_zero, nil_append,
          ih (s.drop n).length (by rw [length_drop]; omega) (s.drop n) rfl]

/-- The bytes of a text. -/
def encode (s : String) : List UInt8 := s.toList.flatMap String.utf8EncodeChar

end RaftConsensus.Utf8
