import Mathlib.Data.Nat.Digits.Defs

/-! Byte encodings of numbers, and the IEEE checksum. -/

namespace RaftConsensus.Encoding

variable {n w : ℕ}

def bigEndian : ℕ → ℕ → List UInt8
  | 0, _ => []
  | w + 1, n => UInt8.ofNat (n / 256 ^ w) :: bigEndian w n

def ofBigEndian (bs : List UInt8) : ℕ := bs.foldl (fun n b ↦ n * 256 + b.toNat) 0

@[simp] theorem length_bigEndian (w n : ℕ) : (bigEndian w n).length = w := by
  induction w with
  | zero => rfl
  | succ w ih => rw [bigEndian, List.length_cons, ih]

@[simp] theorem take_bigEndian {k : ℕ} (h : w ≤ k) : (bigEndian w n).take k = bigEndian w n :=
  List.take_of_length_le (by rwa [length_bigEndian])

@[simp] theorem drop_bigEndian {k : ℕ} (h : w ≤ k) : (bigEndian w n).drop k = [] :=
  List.drop_of_length_le (by rwa [length_bigEndian])

theorem foldl_bigEndian (w n a : ℕ) :
    (bigEndian w n).foldl (fun n b ↦ n * 256 + b.toNat) a = a * 256 ^ w + n % 256 ^ w := by
  induction w generalizing a with
  | zero => simp [bigEndian, Nat.mod_one]
  | succ w ih =>
    have hbyte : (UInt8.ofNat (n / 256 ^ w)).toNat = n / 256 ^ w % 256 := UInt8.toNat_ofNat'
    rw [bigEndian, List.foldl_cons, ih, hbyte, pow_succ, Nat.mod_mul]
    ring

theorem ofBigEndian_bigEndian (w n : ℕ) : ofBigEndian (bigEndian w n) = n % 256 ^ w := by
  rw [ofBigEndian, foldl_bigEndian, Nat.zero_mul, Nat.zero_add]

theorem ofBigEndian_of_lt (h : n < 256 ^ w) : ofBigEndian (bigEndian w n) = n := by
  rw [ofBigEndian_bigEndian, Nat.mod_eq_of_lt h]

def crcBit (c : UInt32) : UInt32 :=
  if c &&& 1 = 1 then (c >>> 1) ^^^ 0xEDB88320 else c >>> 1

def crcByte (c : UInt32) (b : UInt8) : UInt32 := crcBit^[8] (c ^^^ b.toUInt32)

def checksumIEEE (bs : List UInt8) : UInt32 := ~~~bs.foldl crcByte (~~~0)

example : checksumIEEE ("123456789".toList.map fun c ↦ UInt8.ofNat c.toNat) = 0xCBF43926 := by
  decide +kernel

end RaftConsensus.Encoding
