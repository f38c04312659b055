import Mathlib.Algebra.Ring.Int.Defs
import Mathlib.Algebra.Ring.Nat
import Mathlib.Data.List.Basic

/-! Decoders of bytes, with the variable-length encoding of integers. To take more of a slice than
there is left is an index out of range, and so is a slice that is too long to be made. -/

namespace RaftConsensus

inductive Fault
  | corrupt
  | outOfRange
deriving DecidableEq

abbrev Decoder := StateT (List UInt8) (Except Fault)

namespace Decoder

variable {α β : Type} {p : Decoder α} {f : α → Decoder β} {bs cs rest : List UInt8} {a : α} {b : β}
  {i n v : ℕ}

/-- Whatever follows them, the decoder takes exactly these bytes and returns `a`. -/
def Reads (p : Decoder α) (bs : List UInt8) (a : α) : Prop := ∀ rest, p (bs ++ rest) = .ok (a, rest)

def InRange (p : Decoder α) : Prop := ∀ bs, p bs ≠ .error .outOfRange

theorem reads_pure (a : α) : Reads (pure a : Decoder α) [] a := fun _ ↦ rfl

theorem bind_eq (h : p bs = .ok (a, rest)) : (p >>= f) bs = f a rest := by
  change (p bs).bind (fun x ↦ f x.1 x.2) = _
  rw [h]
  rfl

theorem Reads.bind (hp : Reads p bs a) (hf : Reads (f a) cs b) : Reads (p >>= f) (bs ++ cs) b := by
  intro rest
  rw [List.append_assoc, bind_eq (hp _)]
  exact hf rest

theorem Reads.bind_pure (hp : Reads p bs a) (g : α → β) :
    Reads (p >>= fun x ↦ pure (g x)) bs (g a) := by
  intro rest
  rw [bind_eq (hp rest)]
  rfl

theorem inRange_pure (a : α) : InRange (pure a : Decoder α) := by
  intro _ h
  cases h

theorem InRange.bind (hp : InRange p) (hf : ∀ a, InRange (f a)) : InRange (p >>= f) := by
  intro bs hbs
  cases h : p bs with
  | error e =>
    change (p bs).bind (fun x ↦ f x.1 x.2) = _ at hbs
    rw [h] at hbs
    cases hbs
    exact hp bs h
  | ok x =>
    rw [bind_eq h] at hbs
    exact hf x.1 x.2 hbs

theorem InRange.ite {c : Prop} [Decidable c] {q : Decoder α} (hp : InRange p) (hq : InRange q) :
    InRange (if c then p else q) := by
  split
  · exact hp
  · exact hq

def list (p : Decoder α) : ℕ → Decoder (List α)
  | 0 => pure []
  | n + 1 => do
    let a ← p
    let l ← list p n
    pure (a :: l)

theorem reads_list {write : α → List UInt8} {l : List α} (h : ∀ a ∈ l, Reads p (write a) a) :
    Reads (list p l.length) (l.flatMap write) l := by
  induction l with
  | nil => exact reads_pure []
  | cons a l ih =>
    obtain ⟨ha, hl⟩ := List.forall_mem_cons.mp h
    exact ha.bind ((ih hl).bind_pure _)

theorem InRange.list (hp : InRange p) (n : ℕ) : InRange (list p n) := by
  induction n with
  | zero => exact inRange_pure []
  | succ n ih => exact hp.bind fun _ ↦ ih.bind fun _ ↦ inRange_pure _

def times (step : β → Decoder β) : ℕ → β → Decoder β
  | 0, b => pure b
  | n + 1, b => step b >>= times step n

theorem reads_times {step : β → Decoder β} {write : α → List UInt8} {next : β → α → β}
    {l : List α} (h : ∀ a ∈ l, ∀ b, Reads (step b) (write a) (next b a)) (b : β) :
    Reads (times step l.length b) (l.flatMap write) (l.foldl next b) := by
  induction l generalizing b with
  | nil => exact reads_pure b
  | cons a l ih =>
    have hl := ih fun a' ha' ↦ h a' (List.mem_cons_of_mem _ ha')
    exact (h a List.mem_cons_self b).bind (hl (next b a))

def corrupt : Decoder α := fun _ ↦ .error .corrupt

theorem inRange_corrupt : InRange (corrupt : Decoder α) := fun _ h ↦ by cases h

def slice (n : ℕ) : Decoder (List UInt8) := fun bs ↦
  if n ≤ bs.length then .ok (bs.take n, bs.drop n) else .error .outOfRange

/-- The next `n` bytes, if they are there. -/
def field (n : ℕ) : Decoder (List UInt8) := fun bs ↦
  if bs.length < n then .error .corrupt else slice n bs

theorem inRange_field (n : ℕ) : InRange (field n) := by
  intro bs
  unfold field slice
  split_ifs
  · exact fun h ↦ by cases h
  · exact fun h ↦ by cases h
  · omega

theorem reads_field (bs : List UInt8) : Reads (field bs.length) bs bs := by
  intro rest
  rw [field, if_neg (by simp), slice, if_pos (by simp), List.take_left, List.drop_left]

def decodeByte : Decoder UInt8
  | [] => .error .corrupt
  | b :: bs => .ok (b, bs)

theorem inRange_byte : InRange decodeByte := by
  intro bs h
  cases bs <;> cases h

theorem reads_byte (b : UInt8) : Reads decodeByte [b] b := fun _ ↦ rfl

def putUvarint (n : ℕ) : List UInt8 :=
  if n < 128 then [UInt8.ofNat n] else UInt8.ofNat (n % 128 + 128) :: putUvarint (n / 128)

/-- `binary.Uvarint` from the byte of number `i` on: the value and the number of bytes, `none` when
there are too few of them or the value is too large. -/
def uvarint (i : ℕ) : List UInt8 → Option (ℕ × ℕ)
  | [] => none
  | b :: bs =>
    if i = 10 then none
    else if b.toNat < 128 then if i = 9 ∧ 1 < b.toNat then none else some (b.toNat, 1)
    else (uvarint (i + 1) bs).map fun p ↦ (b.toNat - 128 + 128 * p.1, p.2 + 1)

def decodeUvarint : Decoder UInt64 := fun bs ↦
  match uvarint 0 bs with
  | none => .error .corrupt
  | some (v, n) => (slice n bs).map fun p ↦ (UInt64.ofNat v, p.2)

theorem uvarint_le (h : uvarint i bs = some (v, n)) : n ≤ bs.length := by
  induction bs generalizing i v n with
  | nil => cases h
  | cons b bs ih =>
    unfold uvarint at h
    split_ifs at h
    · cases h
      exact Nat.succ_le_succ (Nat.zero_le _)
    · obtain ⟨⟨v', n'⟩, hr, heq⟩ := Option.map_eq_some_iff.mp h
      cases heq
      exact Nat.succ_le_succ (ih hr)

theorem uvarint_put (hi : i ≤ 9) (h : n * 128 ^ i < 2 ^ 64) (rest : List UInt8) :
    uvarint i (putUvarint n ++ rest) = some (n, (putUvarint n).length) := by
  induction n using Nat.strongRecOn generalizing i with
  | ind n ih =>
    have hlast : i = 9 → n < 2 := by
      rintro rfl
      omega
    rw [putUvarint]
    split_ifs with hn
    · have hbyte : (UInt8.ofNat n).toNat = n := by
        rw [UInt8.toNat_ofNat']
        omega
      rw [List.singleton_append, uvarint, if_neg (by omega), hbyte, if_pos hn, if_neg (by omega)]
      rfl
    · have hbyte : (UInt8.ofNat (n % 128 + 128)).toNat = n % 128 + 128 := by
        rw [UInt8.toNat_ofNat']
        omega
      have hnext : n / 128 * 128 ^ (i + 1) < 2 ^ 64 := by
        rw [Nat.pow_succ, Nat.mul_comm (128 ^ i), ← Nat.mul_assoc]
        exact Nat.lt_of_le_of_lt (Nat.mul_le_mul_right _ (Nat.div_mul_le_self n 128)) h
      rw [List.cons_append, uvarint, if_neg (by omega), hbyte, if_neg (by omega),
        ih (n / 128) (by omega) (by omega) hnext, Option.map_some, Nat.add_sub_cancel]
      dsimp only
      rw [Nat.mod_add_div]
      rfl

theorem reads_uvarint (v : UInt64) : Reads decodeUvarint (putUvarint v.toNat) v := by
  intro rest
  have hput := uvarint_put (Nat.zero_le 9) (by simpa using v.toNat_lt) rest
  rw [decodeUvarint, hput]
  dsimp only
  rw [slice, if_pos (by simp), List.drop_left, Except.map, UInt64.ofNat_toNat]

theorem inRange_uvarint : InRange decodeUvarint := by
  intro bs
  unfold decodeUvarint
  cases h : uvarint 0 bs with
  | none => exact fun h ↦ by cases h
  | some p =>
    dsimp only
    rw [slice, if_pos (uvarint_le h)]
    exact fun h ↦ by cases h

def zigzag (x : ℤ) : ℕ := if x < 0 then (-(2 * x) - 1).toNat else (2 * x).toNat

def unzigzag (n : ℕ) : ℤ := if n % 2 = 0 then (n / 2 : ℕ) else -((n / 2 : ℕ) : ℤ) - 1

theorem unzigzag_zigzag (x : ℤ) : unzigzag (zigzag x) = x := by
  unfold unzigzag zigzag
  split_ifs <;> omega

def putVarint (x : ℤ) : List UInt8 := putUvarint (zigzag x)

def decodeVarint : Decoder Int64 :=
  decodeUvarint >>= fun n ↦ pure (Int64.ofInt (unzigzag n.toNat))

theorem reads_varint (x : Int64) : Reads decodeVarint (putVarint x.toInt) x := by
  have hz : zigzag x.toInt < 2 ^ 64 := by
    have := x.le_toInt
    have := x.toInt_lt
    unfold zigzag
    split_ifs <;> omega
  have hread := reads_uvarint (UInt64.ofNat (zigzag x.toInt))
  rw [UInt64.toNat_ofNat_of_lt' hz] at hread
  have hvarint := hread.bind_pure fun n ↦ Int64.ofInt (unzigzag n.toNat)
  rwa [UInt64.toNat_ofNat_of_lt' hz, unzigzag_zigzag, Int64.ofInt_toInt] at hvarint

theorem inRange_varint : InRange decodeVarint := inRange_uvarint.bind fun _ ↦ inRange_pure _

def putStr (s : List UInt8) : List UInt8 := putUvarint s.length ++ s

section Stream

def readUvarint : Decoder ℕ := decodeUvarint >>= fun n ↦ pure n.toNat

def readVarint : Decoder ℤ := decodeVarint >>= fun x ↦ pure x.toInt

theorem reads_readUvarint (h : n < 2 ^ 64) : Reads readUvarint (putUvarint n) n := by
  have hread := (reads_uvarint (UInt64.ofNat n)).bind_pure UInt64.toNat
  rwa [UInt64.toNat_ofNat_of_lt' h] at hread

theorem reads_readVarint {x : ℤ} (hlow : -2 ^ 63 ≤ x) (hhigh : x < 2 ^ 63) :
    Reads readVarint (putVarint x) x := by
  have hread := (reads_varint (Int64.ofInt x)).bind_pure Int64.toInt
  rwa [Int64.toInt_ofInt_of_le hlow hhigh] at hread

/-- The longest slice that can be made. -/
def maxAlloc : ℕ := 2 ^ 48

/-- A slice for `n` bytes is made and then filled from the stream. -/
def readFull (n : ℕ) : Decoder (List UInt8) := fun bs ↦
  if maxAlloc < n then .error .outOfRange else field n bs

def readStr : Decoder (List UInt8) := readUvarint >>= readFull

theorem reads_readStr (h : bs.length ≤ maxAlloc) : Reads readStr (putStr bs) bs := by
  refine (reads_readUvarint (Nat.lt_of_le_of_lt h (by decide))).bind fun rest ↦ ?_
  rw [readFull, if_neg (Nat.not_lt.mpr h)]
  exact reads_field bs rest

end Stream

end Decoder

end RaftConsensus
