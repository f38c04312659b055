import RaftConsensus.Encoding
import RaftConsensus.Wal.Basic

namespace RaftConsensus

open Encoding List

structure LogRecord where
  term : UInt64
  index : UInt64
  data : Bytes
  recordTy : UInt8
deriving DecidableEq

namespace LogRecord

variable {r : LogRecord} {rest tail : Bytes}

/-- What the checksum covers. The length field has 32 bits. -/
def body (r : LogRecord) : Bytes :=
  bigEndian 4 (r.data.length + 9) ++ [r.recordTy] ++ bigEndian 8 r.term.toNat ++
    bigEndian 8 r.index.toNat ++ r.data

def encodeRecord (r : LogRecord) : Bytes := bigEndian 4 (checksumIEEE r.body).toNat ++ r.body

/-- The record that `rest` begins with, if it has a header, the length and the checksum
are right. -/
def decodeRecord (rest : Bytes) : Option LogRecord :=
  if rest.length < recordHeaderSize then none
  else
    let length := ofBigEndian ((rest.drop 4).take 4)
    if length < 9 then none
    else if rest.length - recordHeaderSize < length - 9 then none
    else
      let data := (rest.drop recordHeaderSize).take (length - 9)
      if (checksumIEEE ((rest.take recordHeaderSize).drop 4 ++ data)).toNat =
          ofBigEndian (rest.take 4) then
        some
          { term := UInt64.ofNat (ofBigEndian ((rest.drop 9).take 8))
            index := UInt64.ofNat (ofBigEndian ((rest.drop 17).take 8))
            data := data
            recordTy := (rest.drop 8).headD 0 }
      else none

def Fits (r : LogRecord) : Prop := r.data.length + 9 < 2 ^ 32

instance (r : LogRecord) : Decidable r.Fits := inferInstanceAs (Decidable (_ < _))

@[simp] theorem length_body (r : LogRecord) : r.body.length = 21 + r.data.length := by
  simp [body]
  omega

@[simp] theorem length_encodeRecord (r : LogRecord) :
    r.encodeRecord.length = recordHeaderSize + r.data.length := by
  simp [encodeRecord, recordHeaderSize]
  omega

theorem encodeRecord_append (r : LogRecord) (tail : Bytes) : r.encodeRecord ++ tail =
    bigEndian 4 (checksumIEEE r.body).toNat ++ (bigEndian 4 (r.data.length + 9) ++
      ([r.recordTy] ++ (bigEndian 8 r.term.toNat ++ (bigEndian 8 r.index.toNat ++
        (r.data ++ tail))))) := by
  simp only [encodeRecord, body, append_assoc]

theorem header_encodeRecord (r : LogRecord) (tail : Bytes) :
    ofBigEndian ((r.encodeRecord ++ tail).take 4) = (checksumIEEE r.body).toNat ∧
      ofBigEndian (((r.encodeRecord ++ tail).drop 4).take 4) = (r.data.length + 9) % 2 ^ 32 ∧
      ((r.encodeRecord ++ tail).drop 8).headD 0 = r.recordTy ∧
      ofBigEndian (((r.encodeRecord ++ tail).drop 9).take 8) = r.term.toNat ∧
      ofBigEndian (((r.encodeRecord ++ tail).drop 17).take 8) = r.index.toNat := by
  have hcrc : (checksumIEEE r.body).toNat < 256 ^ 4 := UInt32.toNat_lt _
  have hterm : r.term.toNat < 256 ^ 8 := UInt64.toNat_lt _
  have hindex : r.index.toNat < 256 ^ 8 := UInt64.toNat_lt _
  rw [encodeRecord_append]
  refine ⟨?_, ?_, ?_, ?_, ?_⟩
  · simp [ofBigEndian_of_lt hcrc]
  · simp [ofBigEndian_bigEndian]
  · simp [drop_append]
  · simp [drop_append, ofBigEndian_of_lt hterm]
  · simp [drop_append, ofBigEndian_of_lt hindex]

theorem drop_encodeRecord (r : LogRecord) (tail : Bytes) :
    (r.encodeRecord ++ tail).drop recordHeaderSize = r.data ++ tail := by
  rw [encodeRecord_append]
  simp [recordHeaderSize, drop_append]

theorem take_encodeRecord (r : LogRecord) (tail : Bytes) :
    ((r.encodeRecord ++ tail).take recordHeaderSize).drop 4 ++ r.data = r.body := by
  rw [encodeRecord_append]
  simp [recordHeaderSize, take_append, body]

theorem decodeRecord_encodeRecord (h : r.Fits) (tail : Bytes) :
    decodeRecord (r.encodeRecord ++ tail) = some r := by
  obtain ⟨hcrc, hlength, hty, hterm, hindex⟩ := r.header_encodeRecord tail
  have hdata : (r.data ++ tail).take r.data.length = r.data := take_left
  rw [Nat.mod_eq_of_lt h] at hlength
  unfold decodeRecord
  dsimp only
  rw [hlength, hcrc, hterm, hindex, hty, drop_encodeRecord, Nat.add_sub_cancel, hdata,
    take_encodeRecord, length_append, length_encodeRecord, if_neg (by omega),
    if_neg (by omega), if_neg (by omega), if_pos rfl, UInt64.ofNat_toNat, UInt64.ofNat_toNat]

theorem decodeRecord_ne (h : ¬ r.Fits) (tail : Bytes) :
    decodeRecord (r.encodeRecord ++ tail) ≠ some r := by
  intro hd
  have hlength := (r.header_encodeRecord tail).2.1
  unfold decodeRecord at hd
  dsimp only at hd
  rw [hlength] at hd
  split_ifs at hd
  have hdata := congrArg (fun x ↦ x.data.length) (Option.some.inj hd)
  dsimp only at hdata
  rw [length_take] at hdata
  have hmod := Nat.mod_lt (r.data.length + 9) (show 0 < 2 ^ 32 by decide)
  unfold Fits at h
  omega

theorem decodeRecord_torn (h : r.Fits) {k : ℕ} (hk : k < r.encodeRecord.length) :
    decodeRecord (r.encodeRecord.take k) = none := by
  rw [length_encodeRecord] at hk
  have hlen : (r.encodeRecord.take k).length = k := by simp; omega
  unfold decodeRecord
  by_cases hh : k < recordHeaderSize
  · rw [hlen, if_pos hh]
  · have hsame : ((r.encodeRecord.take k).drop 4).take 4 =
        ((r.encodeRecord ++ []).drop 4).take 4 := by
      rw [append_nil, drop_take, take_take, min_eq_left]
      unfold recordHeaderSize at hh
      omega
    have hlength := (r.header_encodeRecord []).2.1
    rw [Nat.mod_eq_of_lt h] at hlength
    rw [hlen, if_neg hh, hsame, hlength]
    dsimp only
    rw [if_neg (by omega), if_pos (by omega)]

theorem length_of_decodeRecord (h : decodeRecord rest = some r) :
    recordHeaderSize + r.data.length ≤ rest.length := by
  unfold decodeRecord at h
  dsimp only at h
  split_ifs at h
  cases h
  dsimp only
  rw [length_take, length_drop]
  omega

end LogRecord

end RaftConsensus
