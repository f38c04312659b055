import RaftConsensus.Wal.OpenFiles

namespace RaftConsensus

open Encoding LogRecord FileWal OpenWal List

inductive ReadError
  | eof
  | corruptLog
deriving DecidableEq

/-- The record at the position of the reader, and the position behind it. -/
def nextRecord (content : Bytes) (pos : ℕ) : Except ReadError (LogRecord × ℕ) :=
  let header := (content.drop pos).take recordHeaderSize
  -- `io.ReadFull` reports a header that is cut short like the end of the file
  if header.length < recordHeaderSize then .error .eof
  else
    let length := ofBigEndian ((header.drop 4).take 4)
    if length < 9 then .error .corruptLog
    else
      let dataLen := length - 9
      let remaining := content.length - (pos + recordHeaderSize)
      if remaining < dataLen then .error .corruptLog
      else
        let data := (content.drop (pos + recordHeaderSize)).take dataLen
        if (checksumIEEE (header.drop 4 ++ data)).toNat = ofBigEndian (header.take 4) then
          .ok
            ({ term := UInt64.ofNat (ofBigEndian ((header.drop 9).take 8))
               index := UInt64.ofNat (ofBigEndian ((header.drop 17).take 8))
               data := data
               recordTy := (header.drop 8).headD 0 }, pos + recordHeaderSize + dataLen)
        else .error .corruptLog

/-- The records from `pos` on and the error that ends them, `none` when the fuel does
not suffice. -/
def scan (content : Bytes) : ℕ → ℕ → Option (List LogRecord × ReadError)
  | 0, _ => none
  | fuel + 1, pos =>
    match nextRecord content pos with
    | .error err => some ([], err)
    | .ok (r, pos) => (scan content fuel pos).map fun p ↦ (r :: p.1, p.2)

variable {content : Bytes} {pos offset : ℕ} {r : LogRecord} {records : List LogRecord}

theorem nextRecord_eq (content : Bytes) (pos : ℕ) : (nextRecord content pos).toOption =
    (decodeRecord (content.drop pos)).map fun r ↦ (r, pos + recordHeaderSize + r.data.length) := by
  have htake (k n : ℕ) (hk : k + n ≤ recordHeaderSize) :
      (((content.drop pos).take recordHeaderSize).drop k).take n =
        ((content.drop pos).drop k).take n := by
    rw [drop_take, take_take, min_eq_left (by omega)]
  have hty : (((content.drop pos).take recordHeaderSize).drop 8).headD 0 =
      ((content.drop pos).drop 8).headD 0 := by
    simp [drop_take, recordHeaderSize, head?_take]
  have hlen : min recordHeaderSize (content.length - pos) < recordHeaderSize ↔
      content.length - pos < recordHeaderSize := by omega
  have hcrc : ((content.drop pos).take recordHeaderSize).take 4 = (content.drop pos).take 4 := by
    rw [take_take]
    rfl
  unfold nextRecord decodeRecord
  simp only [length_take, length_drop, htake 4 4 (by decide), htake 9 8 (by decide),
    htake 17 8 (by decide), hty, hcrc, hlen, Nat.sub_sub, drop_drop]
  split_ifs with hshort hlow hlong hsum <;> try rfl
  rw [Except.toOption, Option.map_some, length_take, length_drop, min_eq_left (by omega)]

theorem readRecordAtBounded_eq (content : Bytes) (offset : ℕ) :
    readRecordAtBounded content offset content.length = decodeRecord (content.drop offset) := by
  unfold readRecordAtBounded
  dsimp only
  split_ifs with hbound
  · unfold recordHeaderSize at hbound
    unfold decodeRecord recordHeaderSize
    dsimp only
    rw [length_drop]
    split_ifs <;> first | rfl | omega
  · rfl

theorem nextRecord_encodeAll (h : r.Fits) (before tail : Bytes) :
    nextRecord (before ++ (r.encodeRecord ++ tail)) before.length =
      .ok (r, (before ++ r.encodeRecord).length) := by
  have hnext := nextRecord_eq (before ++ (r.encodeRecord ++ tail)) before.length
  rw [drop_left, decodeRecord_encodeRecord h] at hnext
  cases hr : nextRecord (before ++ (r.encodeRecord ++ tail)) before.length with
  | error err =>
    rw [hr] at hnext
    cases hnext
  | ok p =>
    rw [hr] at hnext
    cases hnext
    rw [length_append, length_encodeRecord, ← Nat.add_assoc]

theorem scan_encodeAll (hfits : ∀ r ∈ records, r.Fits) (before : Bytes) {fuel : ℕ}
    (hfuel : records.length < fuel) :
    scan (before ++ encodeAll records) fuel before.length = some (records, .eof) := by
  -- what was read before stays in front of the rest
  induction records generalizing before fuel with
  | nil =>
    obtain ⟨fuel, rfl⟩ := Nat.exists_eq_succ_of_ne_zero (Nat.ne_of_gt hfuel)
    have hend : nextRecord (before ++ []) before.length = .error .eof := by
      rw [nextRecord, if_pos (by simp [recordHeaderSize])]
    rw [scan, show encodeAll [] = [] from rfl, hend]
  | cons r records ih =>
    obtain ⟨fuel, rfl⟩ := Nat.exists_eq_succ_of_ne_zero (Nat.ne_of_gt (Nat.zero_lt_of_lt hfuel))
    obtain ⟨hr, hrest⟩ := forall_mem_cons.mp hfits
    have hih := ih hrest (before ++ r.encodeRecord) (Nat.lt_of_succ_lt_succ hfuel)
    rw [append_assoc] at hih
    rw [scan, encodeAll_cons, nextRecord_encodeAll hr]
    dsimp only
    rw [hih]
    rfl

/-- A record that is read on from a position is the one that is read at that offset, and records
that were written one behind the other are read back. -/
theorem decoders_agree (content : Bytes) (offset : ℕ) (records : List LogRecord)
    (hfits : ∀ r ∈ records, r.data.length < 2 ^ 32 - 9) :
    (nextRecord content offset).toOption.map Prod.fst =
        readRecordAtBounded content offset content.length ∧
      scan (encodeAll records) ((encodeAll records).length + 1) 0 = some (records, .eof) := by
  constructor
  · rw [nextRecord_eq, readRecordAtBounded_eq, Option.map_map]
    exact Option.map_id'
  · refine scan_encodeAll (fun r hr ↦ ?_) [] (Nat.lt_succ_of_le (length_le_encodeAll records))
    have := hfits r hr
    unfold Fits
    omega

def twoRecords : List LogRecord := [⟨1, 1, [0x61, 0x62], 0⟩, ⟨2, 2, [0x63], 1⟩]

/-- The first record has lost a byte of its data. -/
def damaged : Bytes := (encodeAll twoRecords).eraseIdx 25

theorem decoders_agree_twoRecords :
    readRecordAtBounded damaged 0 damaged.length = none ∧
      (nextRecord damaged 0).toOption.map Prod.fst = readRecordAtBounded damaged 0 damaged.length ∧
      scan (encodeAll twoRecords) ((encodeAll twoRecords).length + 1) 0 =
        some (twoRecords, .eof) :=
  ⟨by decide +kernel, decoders_agree damaged 0 twoRecords (by decide)⟩

end RaftConsensus
