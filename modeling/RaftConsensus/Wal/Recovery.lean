import RaftConsensus.Wal.Codec
import RaftConsensus.Wal.Invariant

namespace RaftConsensus

open LogRecord List AList

structure SegmentFile where
  baseIndex : ℕ
  content : Bytes
deriving DecidableEq

inductive WalError
  | notFound
  | corruptLog
  | midSegmentCorruption
deriving DecidableEq

abbrev FileIndex := AList (fun _ : ℕ ↦ Wal.IndexEntry)

structure FileWal where
  segments : List SegmentFile
  index : FileIndex
  lastIndex : ℕ
deriving DecidableEq

namespace FileWal

section Read

variable (w : FileWal)

def maxUint64 : ℕ := 2 ^ 64 - 1

/-- The base of the next segment, or the largest number for the last one; both are excluded. -/
def upperBoundForSegment (base : ℕ) : ℕ :=
  ((w.segments.map SegmentFile.baseIndex).filter (base < ·)).foldl min maxUint64

def get (idx : ℕ) : Except WalError LogRecord :=
  if idx = 0 ∨ w.lastIndex < idx then .error .notFound
  else
    match w.index.lookup idx with
    | none => .error .notFound
    | some ie =>
      match w.segments.find? (·.baseIndex = ie.baseIndex) with
      | none => .error .notFound
      | some seg =>
        if idx < seg.baseIndex ∨ w.upperBoundForSegment seg.baseIndex ≤ idx then .error .notFound
        else
          match decodeRecord (seg.content.drop ie.offset) with
          | none => .error .corruptLog
          | some r => .ok r

end Read

def probeForwardHasValidRecord (content : Bytes) (failOffset : ℕ) : Bool :=
  (List.range content.length).any fun pos ↦
    failOffset < pos && pos + recordHeaderSize ≤ content.length &&
      (decodeRecord (content.drop pos)).isSome

/-- Reads the records of a file from `offset` on, and gives the index and what is left of the
file. A header that is cut short is taken for the end of the file and stays there. -/
def rebuildIndex (base : ℕ) (isLast : Bool) (content : Bytes) :
    ℕ → ℕ → FileIndex → Except WalError (FileIndex × Bytes)
  | 0, _, m => .ok (m, content)
  | fuel + 1, offset, m =>
    if (content.drop offset).length < recordHeaderSize then .ok (m, content)
    else
      match decodeRecord (content.drop offset) with
      | some r =>
        rebuildIndex base isLast content fuel (offset + recordHeaderSize + r.data.length)
          (m.insert r.index.toNat ⟨base, offset⟩)
      | none =>
        if isLast then
          if probeForwardHasValidRecord content offset then .error .midSegmentCorruption
          else .ok (m, content.take offset)
        else .error .corruptLog

def rebuildAll : List SegmentFile → FileIndex → Except WalError (FileIndex × List SegmentFile)
  | [], m => .ok (m, [])
  | seg :: rest, m =>
    match rebuildIndex seg.baseIndex (rest = []) seg.content (seg.content.length + 1) 0 m with
    | .error e => .error e
    | .ok (m, content) =>
      match rebuildAll rest m with
      | .error e => .error e
      | .ok (m, segments) => .ok (m, { seg with content := content } :: segments)

def newWAL (files : List SegmentFile) : Except WalError FileWal :=
  if files = [] then .ok ⟨[⟨0, []⟩], ∅, 0⟩
  else
    match rebuildAll (files.insertionSort fun a b ↦ a.baseIndex ≤ b.baseIndex) ∅ with
    | .error e => .error e
    | .ok (index, segments) =>
      let w : FileWal := ⟨segments, index, index.keys.foldl max 0⟩
      if w.lastIndex = 0 then .ok w
      else
        match w.get w.lastIndex with
        | .error e => .error e
        | .ok _ => .ok w

section Scan

variable {base : ℕ} {isLast : Bool} {records rs : List LogRecord} {r : LogRecord} {m : FileIndex}
  {offset i : ℕ} {tail : Bytes}

def encodeAll (records : List LogRecord) : Bytes := records.flatMap encodeRecord

@[simp] theorem encodeAll_cons (r : LogRecord) (rs : List LogRecord) :
    encodeAll (r :: rs) = r.encodeRecord ++ encodeAll rs := flatMap_cons

@[simp] theorem encodeAll_append (rs rs' : List LogRecord) :
    encodeAll (rs ++ rs') = encodeAll rs ++ encodeAll rs' := flatMap_append

theorem length_le_encodeAll (rs : List LogRecord) : rs.length ≤ (encodeAll rs).length := by
  induction rs with
  | nil => exact le_rfl
  | cons r rs ih =>
    rw [encodeAll_cons, length_append, length_cons, length_encodeRecord, recordHeaderSize]
    omega

def addRecords (base : ℕ) : ℕ → List LogRecord → FileIndex → FileIndex
  | _, [], m => m
  | offset, r :: rs, m =>
    addRecords base (offset + r.encodeRecord.length) rs (m.insert r.index.toNat ⟨base, offset⟩)

theorem addRecords_append : addRecords base offset (records ++ rs) m =
    addRecords base (offset + (encodeAll records).length) rs
    (addRecords base offset records m) := by
  induction records generalizing offset m with
  | nil => rfl
  | cons r records ih =>
    rw [cons_append, addRecords, ih, addRecords, encodeAll_cons, length_append,
      Nat.add_assoc]

theorem lookup_addRecords_of_notMem (h : ∀ r ∈ rs, r.index.toNat ≠ i) :
    (addRecords base offset rs m).lookup i = m.lookup i := by
  induction rs generalizing offset m with
  | nil => rfl
  | cons r rs ih =>
    rw [addRecords, ih fun x hx ↦ h x (mem_cons_of_mem r hx)]
    exact lookup_insert_ne (h r mem_cons_self).symm

theorem lookup_addRecords (h : ∀ x ∈ rs, x.index ≠ r.index) :
    (addRecords base offset (records ++ r :: rs) m).lookup r.index.toNat =
      some ⟨base, offset + (encodeAll records).length⟩ := by
  rw [addRecords_append, addRecords, lookup_addRecords_of_notMem, lookup_insert]
  intro x hx heq
  exact h x hx (UInt64.toNat_inj.mp heq)

theorem mem_addRecords :
    i ∈ addRecords base offset rs m ↔ i ∈ m ∨ ∃ r ∈ rs, r.index.toNat = i := by
  induction rs generalizing offset m with
  | nil => simp [addRecords]
  | cons r rs ih =>
    rw [addRecords, ih, mem_insert]
    simp only [mem_cons, exists_eq_or_imp]
    rw [or_assoc, or_left_comm, eq_comm (a := i)]

theorem rebuildIndex_records (base : ℕ) (isLast : Bool) (m : FileIndex)
    (hfit : ∀ r ∈ records, r.Fits) (before tail : Bytes) (fuel : ℕ) :
    rebuildIndex base isLast (before ++ (encodeAll records ++ tail)) (records.length + fuel)
        before.length m =
      rebuildIndex base isLast (before ++ (encodeAll records ++ tail)) fuel
        (before.length + (encodeAll records).length) (addRecords base before.length records m) := by
  induction records generalizing before m with
  | nil => rw [length_nil, Nat.zero_add]; rfl
  | cons r rs ih =>
    have hdrop : (before ++ (encodeAll (r :: rs) ++ tail)).drop before.length =
        r.encodeRecord ++ (encodeAll rs ++ tail) := by
      rw [drop_left, encodeAll_cons, append_assoc]
    have hcontent : before ++ (encodeAll (r :: rs) ++ tail) =
        (before ++ r.encodeRecord) ++ (encodeAll rs ++ tail) := by
      rw [encodeAll_cons, append_assoc, append_assoc]
    have hrest := ih (m.insert r.index.toNat ⟨base, before.length⟩)
      (fun x hx ↦ hfit x (mem_cons_of_mem r hx)) (before ++ r.encodeRecord)
    rw [length_cons, Nat.add_right_comm, rebuildIndex, hdrop,
      decodeRecord_encodeRecord (hfit r mem_cons_self), if_neg]
    · dsimp only
      rw [hcontent]
      rw [length_append, length_encodeRecord] at hrest
      rw [Nat.add_assoc, hrest, addRecords, encodeAll_cons, length_append, length_encodeRecord]
      simp only [Nat.add_assoc]
    · rw [length_append, length_encodeRecord]
      omega

def NoRecordInside (tail : Bytes) : Prop := ∀ pos, 0 < pos → decodeRecord (tail.drop pos) = none

theorem probeForward_eq_false_iff (before tail : Bytes) :
    probeForwardHasValidRecord (before ++ tail) before.length = false ↔ NoRecordInside tail := by
  simp only [probeForwardHasValidRecord, any_eq_false, mem_range, Bool.and_eq_true,
    decide_eq_true_eq, not_and, Bool.not_eq_true, Option.isSome_eq_false_iff,
    Option.isNone_iff_eq_none]
  constructor
  · intro h pos hpos
    have hdrop : (before ++ tail).drop (before.length + pos) = tail.drop pos := by
      rw [drop_append, drop_of_length_le (by omega), Nat.add_sub_cancel_left,
        nil_append]
    rw [← hdrop]
    by_contra hsome
    obtain ⟨r, hr⟩ := Option.ne_none_iff_exists'.mp hsome
    have hlen := length_of_decodeRecord hr
    rw [length_drop] at hlen
    unfold recordHeaderSize at *
    exact hsome (h _ (by omega) ⟨by omega, by omega⟩)
  · intro h pos _ hpos
    rw [drop_append, drop_of_length_le (by omega), nil_append]
    exact h _ (by omega)

/-- What the scan of the last file makes of the beginning of a record at its end. -/
theorem rebuildIndex_torn (hfit : r.Fits) {k : ℕ} (hk : k < r.encodeRecord.length) (before : Bytes)
    (fuel : ℕ) : rebuildIndex base true (before ++ r.encodeRecord.take k)
    (fuel + 1) before.length m =
      if k < recordHeaderSize then .ok (m, before ++ r.encodeRecord.take k)
      else if probeForwardHasValidRecord (before ++ r.encodeRecord.take k) before.length then
        .error .midSegmentCorruption
      else .ok (m, before) := by
  have hlen : (r.encodeRecord.take k).length = k := by rw [length_take]; omega
  rw [rebuildIndex, drop_left, hlen, decodeRecord_torn hfit hk]
  simp only [if_true, take_left]

end Scan

section Torn

variable {base k : ℕ} {records : List LogRecord} {last : LogRecord}

def lastOf (records : List LogRecord) (i : ℕ) : Option LogRecord :=
  records.reverse.find? (·.index.toNat = i)

theorem lastOf_eq_none {i : ℕ} : lastOf records i = none ↔ ∀ r ∈ records, r.index.toNat ≠ i := by
  simp [lastOf]

theorem lastOf_eq_some {i : ℕ} {r : LogRecord} (h : lastOf records i = some r) :
    r.index.toNat = i ∧ ∃ l l', records = l ++ r :: l' ∧ ∀ x ∈ l', x.index ≠ r.index := by
  obtain ⟨hr, l, l', hrev, hne⟩ := find?_eq_some_iff_append.mp h
  have hi : r.index.toNat = i := by simpa using hr
  refine ⟨hi, l'.reverse, l.reverse, ?_, fun x hx heq ↦ ?_⟩
  · rw [← reverse_reverse records, hrev]
    simp
  · have := hne x (mem_reverse.mp hx)
    rw [heq, hi] at this
    simp at this

def ofFile (base : ℕ) (records : List LogRecord) (tail : Bytes) : FileWal :=
  let index := addRecords base 0 records ∅
  ⟨[⟨base, encodeAll records ++ tail⟩], index, index.keys.foldl max 0⟩

theorem get_ofFile (hfit : ∀ r ∈ records, r.Fits) (hbase : ∀ r ∈ records, base ≤ r.index.toNat)
    (tail : Bytes) (i : ℕ) : ((ofFile base records tail).get i).toOption =
      if i = 0 ∨ i = maxUint64 then none else lastOf records i := by
  have hbound : (ofFile base records tail).upperBoundForSegment base = maxUint64 := by
    simp [upperBoundForSegment, ofFile]
  have hlt (r : LogRecord) : r.index.toNat ≤ maxUint64 := Nat.le_pred_of_lt r.index.toNat_lt
  unfold get
  cases hl : lastOf records i with
  | none =>
    have hnone : (ofFile base records tail).index.lookup i = none := by
      change (addRecords base 0 records ∅).lookup i = none
      rw [lookup_addRecords_of_notMem (lastOf_eq_none.mp hl), lookup_empty]
    rw [hnone, ite_self, ite_self]
    rfl
  | some r =>
    obtain ⟨rfl, l, l', rfl, hne⟩ := lastOf_eq_some hl
    have hmem : r ∈ l ++ r :: l' := mem_append_right l mem_cons_self
    have hlook : (ofFile base (l ++ r :: l') tail).index.lookup r.index.toNat =
        some ⟨base, 0 + (encodeAll l).length⟩ := lookup_addRecords hne
    have hlast : r.index.toNat ≤ (ofFile base (l ++ r :: l') tail).lastIndex :=
      le_foldl_max.2 _ (mem_keys.mp (mem_addRecords.mpr (.inr ⟨r, hmem, rfl⟩)))
    have hread : decodeRecord ((encodeAll (l ++ r :: l') ++ tail).drop (0 + (encodeAll l).length)) =
        some r := by
      rw [encodeAll_append, encodeAll_cons, append_assoc, Nat.zero_add, drop_left,
        append_assoc, decodeRecord_encodeRecord (hfit r hmem)]
    by_cases h0 : r.index.toNat = 0
    · rw [if_pos (.inl h0), if_pos (.inl h0)]
      rfl
    · rw [if_neg (by omega), hlook]
      have hfind : (ofFile base (l ++ r :: l') tail).segments.find? (·.baseIndex = base) =
          some ⟨base, encodeAll (l ++ r :: l') ++ tail⟩ := by
        simp [ofFile]
      dsimp only
      rw [hfind]
      dsimp only
      rw [hbound, hread]
      have hb := hbase r hmem
      by_cases hmax : r.index.toNat = maxUint64
      · rw [if_pos (.inr hmax.ge), if_pos (.inr hmax)]
        rfl
      · have := hlt r
        rw [if_neg (by omega), if_neg (by omega)]
        rfl

theorem newWAL_of_rebuildAll {seg : SegmentFile} {tail : Bytes}
    (h : rebuildAll [seg] ∅ = .ok (addRecords base 0 records ∅,
      [⟨base, encodeAll records ++ tail⟩])) :
    newWAL [seg] =
      if (ofFile base records tail).lastIndex = 0 then .ok (ofFile base records tail)
      else ((ofFile base records tail).get (ofFile base records tail).lastIndex).map
        fun _ ↦ ofFile base records tail := by
  unfold newWAL
  rw [if_neg (by simp), insertionSort_cons, insertionSort_nil, orderedInsert_nil, h]
  dsimp only
  change (if (ofFile base records tail).lastIndex = 0 then Except.ok (ofFile base records tail)
    else _) = _
  refine if_congr Iff.rfl rfl ?_
  change (match (ofFile base records tail).get (ofFile base records tail).lastIndex with
    | .error e => Except.error e
    | .ok _ => .ok (ofFile base records tail)) = _
  cases (ofFile base records tail).get (ofFile base records tail).lastIndex <;> rfl

theorem rebuildAll_torn (base : ℕ) (hfit : ∀ r ∈ records, r.Fits) (hlast : last.Fits)
    (hk : k < last.encodeRecord.length) :
    rebuildAll [⟨base, encodeAll records ++ last.encodeRecord.take k⟩] ∅ =
      if k < recordHeaderSize then
        .ok (addRecords base 0 records ∅, [⟨base, encodeAll records ++ last.encodeRecord.take k⟩])
      else if probeForwardHasValidRecord (encodeAll records ++ last.encodeRecord.take k)
          (encodeAll records).length then .error .midSegmentCorruption
      else .ok (addRecords base 0 records ∅, [⟨base, encodeAll records⟩]) := by
  have hle := length_le_encodeAll records
  obtain ⟨n, hn⟩ : ∃ n, (encodeAll records ++ last.encodeRecord.take k).length + 1 =
      records.length + (n + 1) := by
    refine ⟨(encodeAll records ++ last.encodeRecord.take k).length - records.length, ?_⟩
    rw [length_append]
    omega
  have hscan := rebuildIndex_records base true ∅ hfit [] (last.encodeRecord.take k) (n + 1)
  rw [nil_append, length_nil, Nat.zero_add, rebuildIndex_torn hlast hk] at hscan
  unfold rebuildAll
  rw [hn, decide_eq_true rfl, hscan]
  split_ifs <;> rfl

theorem newWAL_ok_iff {seg : SegmentFile} (tail : Bytes) (hfit : ∀ r ∈ records, r.Fits)
    (hbase : ∀ r ∈ records, base ≤ r.index.toNat)
    (h : rebuildAll [seg] ∅ = .ok (addRecords base 0 records ∅,
      [⟨base, encodeAll records ++ tail⟩])) :
    (∃ w, newWAL [seg] = .ok w ∧ ∀ i, (w.get i).toOption = lastOf records i) ↔
      ∀ r ∈ records, r.index.toNat ≠ 0 ∧ r.index.toNat ≠ maxUint64 := by
  have hget := get_ofFile hfit hbase tail
  have hsome (r : LogRecord) (hr : r ∈ records) : lastOf records r.index.toNat ≠ none :=
    fun hnone ↦ lastOf_eq_none.mp hnone r hr rfl
  rw [newWAL_of_rebuildAll h]
  generalize hw : ofFile base records tail = w at hget ⊢
  constructor
  · rintro ⟨w', hw', hall⟩ r hr
    have heq : w = w' := by
      split_ifs at hw'
      · exact Except.ok.inj hw'
      · cases hg : w.get w.lastIndex with
        | error e =>
          rw [hg] at hw'
          cases hw'
        | ok x =>
          rw [hg] at hw'
          exact Except.ok.inj hw'
    subst heq
    rw [← not_or]
    intro hi
    have hnone := hget r.index.toNat
    rw [hall, if_pos hi] at hnone
    exact hsome r hr hnone
  · intro hr
    have hserved (i : ℕ) : (w.get i).toOption = lastOf records i := by
      rw [hget]
      split_ifs with hi
      · refine (lastOf_eq_none.mpr fun r hm heq ↦ ?_).symm
        obtain ⟨h0, h1⟩ := hr r hm
        omega
      · rfl
    by_cases h0 : w.lastIndex = 0
    · exact ⟨w, if_pos h0, hserved⟩
    · rw [if_neg h0]
      have hmem : w.lastIndex ∈ addRecords base 0 records ∅ := by
        subst hw
        exact foldl_max_mem.resolve_left h0
      obtain ⟨r, hrm, hri⟩ := (mem_addRecords.mp hmem).resolve_left (notMem_empty _)
      cases hg : w.get w.lastIndex with
      | error e =>
        have hnone := hserved w.lastIndex
        rw [hg, ← hri] at hnone
        exact absurd hnone.symm (hsome r hrm)
      | ok x => exact ⟨w, rfl, hserved⟩

/-- A file with a torn record at its end opens with exactly the complete records, unless the torn
record has more than a header left and a record begins inside of it. -/
theorem newWAL_torn_iff (hfit : ∀ r ∈ records, r.Fits) (hlast : last.Fits)
    (hbase : ∀ r ∈ records, base ≤ r.index.toNat) (hk : k < last.encodeRecord.length) :
    (∃ w, newWAL [⟨base, encodeAll records ++ last.encodeRecord.take k⟩] = .ok w ∧
        ∀ i, (w.get i).toOption = lastOf records i) ↔
      (∀ r ∈ records, r.index.toNat ≠ 0 ∧ r.index.toNat ≠ maxUint64) ∧
        (k < recordHeaderSize ∨ NoRecordInside (last.encodeRecord.take k)) := by
  have hopen := rebuildAll_torn base hfit hlast hk
  by_cases hh : k < recordHeaderSize
  · rw [if_pos hh] at hopen
    rw [newWAL_ok_iff _ hfit hbase hopen]
    simp [hh]
  · rw [if_neg hh] at hopen
    have hprobe := probeForward_eq_false_iff (encodeAll records) (last.encodeRecord.take k)
    cases hp : probeForwardHasValidRecord (encodeAll records ++ last.encodeRecord.take k)
      (encodeAll records).length with
    | false =>
      rw [hp, if_neg Bool.false_ne_true] at hopen
      rw [newWAL_ok_iff [] hfit hbase (by rwa [append_nil])]
      simp [hprobe.mp hp]
    | true =>
      rw [hp, if_pos rfl] at hopen
      have hinside : ¬NoRecordInside (last.encodeRecord.take k) := by
        rw [← hprobe, hp]
        exact Bool.noConfusion
      have herror : newWAL [⟨base, encodeAll records ++ last.encodeRecord.take k⟩] =
          .error .midSegmentCorruption := by
        unfold newWAL
        rw [if_neg (by simp), insertionSort_cons, insertionSort_nil,
          orderedInsert_nil, hopen]
      rw [herror]
      simp [hh, hinside]

def firstRecord : LogRecord := ⟨1, 1, [97], 0⟩

def secondRecord : LogRecord := ⟨1, 2, [98], 0⟩

theorem newWAL_torn_secondRecord :
    (∀ r ∈ [firstRecord], r.Fits) ∧ secondRecord.Fits ∧ (∀ r ∈ [firstRecord], 0 ≤ r.index.toNat) ∧
      10 < secondRecord.encodeRecord.length ∧
      ∃ w, newWAL [⟨0, encodeAll [firstRecord] ++ secondRecord.encodeRecord.take 10⟩] = .ok w ∧
        ∀ i, (w.get i).toOption = lastOf [firstRecord] i := by
  refine ⟨by decide, by decide, by decide, by decide, ?_⟩
  exact (newWAL_torn_iff (by decide) (by decide) (by decide) (by decide)).mpr
    ⟨by decide, .inl (by decide)⟩

def nestingRecord : LogRecord := ⟨1, 2, firstRecord.encodeRecord ++ [0], 0⟩

/-- The last byte of a record is missing, and the log does not open. -/
theorem newWAL_torn_nestingRecord : nestingRecord.encodeRecord.length = 52 ∧
    newWAL [⟨0, encodeAll [firstRecord] ++ nestingRecord.encodeRecord.take 51⟩] =
      .error .midSegmentCorruption := by
  decide +kernel

end Torn

end FileWal

end RaftConsensus
