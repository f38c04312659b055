import RaftConsensus.Decoder
import RaftConsensus.Maps
import RaftConsensus.Kv.Sound

namespace RaftConsensus.Kv

open Maps Decoder

abbrev DedupTable := AList (fun _ : Bytes ↦ DedupEntry)

structure KvSnapshot where
  revision : ℤ
  index : ℕ
  applyTimeMs : ℤ
  data : KeyData
  dedup : DedupTable

/-- The JSON encodings that snapshots rest on. A dedup entry keeps marshalled bytes, for which
`unmarshal` names a reply; replies of the same bytes need not be equal. The last two are the older
formats of snapshots. -/
structure Json where
  marshal : Reply → Bytes
  unmarshal : Bytes → Reply
  marshal_unmarshal : ∀ reply, marshal (unmarshal (marshal reply)) = marshal reply
  envelope : Bytes → Option KvSnapshot
  legacy : Bytes → Option (List (Bytes × Bytes))

section Stream

variable (json : Json)

def snapStreamMagic : UInt8 := 0x02

def putKey (e : Σ _ : Bytes, KeyValue) : Bytes :=
  [putStr e.1, putStr e.2.value, putVarint e.2.createRevision, putVarint e.2.modRevision,
    putVarint e.2.version, putVarint e.2.expiresAtMs].flatten

def putDedup (e : Σ _ : Bytes, DedupEntry) : Bytes :=
  [putStr e.1, putUvarint e.2.seqNum, putStr (json.marshal e.2.result),
    putUvarint e.2.order].flatten

/-- The maps come as the lists in which they are iterated over. -/
def writeSnapshotStream (revision : ℤ) (index : ℕ) (applyTimeMs : ℤ)
    (data : List (Σ _ : Bytes, KeyValue)) (dedup : List (Σ _ : Bytes, DedupEntry)) : Bytes :=
  snapStreamMagic :: [putUvarint 2, putVarint revision, putUvarint index, putVarint applyTimeMs,
    putUvarint data.length, data.flatMap putKey, putUvarint dedup.length,
    dedup.flatMap (putDedup json)].flatten

/-- Version 1 has no clock and no expiry. -/
def readSince2 (version : ℕ) : Decoder ℤ := if 2 ≤ version then readVarint else pure 0

def readKey (format : ℕ) (data : KeyData) : Decoder KeyData := do
  let key ← Decoder.readStr
  let value ← Decoder.readStr
  let createRevision ← readVarint
  let modRevision ← readVarint
  let version ← readVarint
  let expiresAtMs ← readSince2 format
  return data.insert key ⟨key, value, createRevision, modRevision, version, expiresAtMs⟩

def readDedup (dedup : DedupTable) : Decoder DedupTable := do
  let clientID ← Decoder.readStr
  let seqNum ← readUvarint
  let result ← Decoder.readStr
  let order ← readUvarint
  return dedup.insert clientID ⟨seqNum, json.unmarshal result, order⟩

def readSnapshotStream : Decoder KvSnapshot := do
  let version ← readUvarint
  let revision ← readVarint
  let index ← readUvarint
  let applyTimeMs ← readSince2 version
  let n ← readUvarint
  let data ← times (readKey version) n ∅
  let dn ← readUvarint
  let dedup ← times (readDedup json) dn ∅
  return ⟨revision, index, applyTimeMs, data, dedup⟩

end Stream

section Restore

variable (json : Json)

def IsInt64 (x : ℤ) : Prop := -2 ^ 63 ≤ x ∧ x < 2 ^ 63

instance : DecidablePred IsInt64 := fun _ ↦ inferInstanceAs (Decidable (_ ∧ _))

def KeyValue.Fits (kv : KeyValue) : Prop :=
  kv.value.length ≤ maxAlloc ∧ IsInt64 kv.createRevision ∧ IsInt64 kv.modRevision ∧
    IsInt64 kv.version ∧ IsInt64 kv.expiresAtMs

instance : DecidablePred KeyValue.Fits := fun _ ↦ inferInstanceAs (Decidable (_ ∧ _))

def DedupEntry.Fits (e : DedupEntry) : Prop :=
  e.seqNum < 2 ^ 64 ∧ (json.marshal e.result).length ≤ maxAlloc ∧ e.order < 2 ^ 64

instance : DecidablePred (DedupEntry.Fits json) := fun _ ↦ inferInstanceAs (Decidable (_ ∧ _))

/-- What the types of the code hold: integers of 64 bits, and strings in memory. -/
structure KvSnapshot.Fits (snap : KvSnapshot) : Prop where
  revision : IsInt64 snap.revision
  index : snap.index < 2 ^ 64
  applyTimeMs : IsInt64 snap.applyTimeMs
  size : snap.data.entries.length < 2 ^ 64
  data : ∀ e ∈ snap.data.entries, e.1.length ≤ maxAlloc ∧ e.2.Fits
  dedupSize : snap.dedup.entries.length < 2 ^ 64
  dedup : ∀ e ∈ snap.dedup.entries, e.1.length ≤ maxAlloc ∧ e.2.Fits json

def KvSnapshot.Streams (snap : KvSnapshot) (bytes : Bytes) : Prop :=
  snap.Fits json ∧ ∃ data dedup, data.Perm snap.data.entries ∧ dedup.Perm snap.dedup.entries ∧
    bytes = writeSnapshotStream json snap.revision snap.index snap.applyTimeMs data dedup

namespace KVStore

variable (s : KVStore)

def snapshot : KvSnapshot := ⟨s.revision, s.index, s.applyTimeMs, s.data, s.dedupTable⟩

/-- The watch history and the buffered events are gone also when `Restore` returns an error, or
panics on a length that is too large. The legacy format keeps the apply index and the clock. -/
def restore (bytes : Bytes) : KVStore × Except Fault Unit :=
  let install (snap : KvSnapshot) : KVStore :=
    s.restoreWith snap.data snap.revision snap.index snap.applyTimeMs snap.dedup
  let failed := s.restoreWith s.data s.revision s.index s.applyTimeMs s.dedupTable
  if bytes.head? = some snapStreamMagic then
    match readSnapshotStream json bytes.tail with
    | .error fault => (failed, .error fault)
    | .ok (snap, _) => (install snap, .ok ())
  else
    match json.envelope bytes with
    | some snap => (install snap, .ok ())
    | none =>
      match json.legacy bytes with
      | none => (failed, .error .corrupt)
      | some pairs =>
        let data : KeyData := pairs.foldl (fun data p ↦ data.insert p.1 ⟨p.1, p.2, 0, 0, 0, 0⟩) ∅
        (s.restoreWith data 0 s.index s.applyTimeMs ∅, .ok ())

end KVStore

end Restore

theorem reads_since2 {x : ℤ} (h : IsInt64 x) : Reads (readSince2 2) (putVarint x) x :=
  reads_readVarint h.1 h.2

theorem reads_key {e : Σ _ : Bytes, KeyValue} (he : e.2.key = e.1)
    (h : e.1.length ≤ maxAlloc ∧ e.2.Fits) (data : KeyData) :
    Reads (readKey 2 data) (putKey e) (data.insert e.1 e.2) := by
  obtain ⟨key, kv⟩ := e
  obtain rfl : kv.key = key := he
  obtain ⟨hkey, hvalue, hcreate, hmod, hversion, hexpires⟩ := h
  refine (Decoder.reads_readStr hkey).bind ((Decoder.reads_readStr hvalue).bind
    ((reads_readVarint hcreate.1 hcreate.2).bind ((reads_readVarint hmod.1 hmod.2).bind
      ((reads_readVarint hversion.1 hversion.2).bind ((reads_since2 hexpires).bind ?_)))))
  exact reads_pure _

def Json.reread (json : Json) (e : DedupEntry) : DedupEntry :=
  { e with result := json.unmarshal (json.marshal e.result) }

theorem reads_dedup {json : Json} {e : Σ _ : Bytes, DedupEntry}
    (h : e.1.length ≤ maxAlloc ∧ e.2.Fits json) (dedup : DedupTable) :
    Reads (readDedup json dedup) (putDedup json e)
      (dedup.insert e.1 (json.reread e.2)) := by
  obtain ⟨hid, hseq, hresult, horder⟩ := h
  refine (Decoder.reads_readStr hid).bind ((reads_readUvarint hseq).bind
    ((Decoder.reads_readStr hresult).bind ((reads_readUvarint horder).bind ?_)))
  exact reads_pure _

theorem reads_stream {json : Json} {snap : KvSnapshot} (h : snap.Fits json)
    {data : List (Σ _ : Bytes, KeyValue)} {dedup : List (Σ _ : Bytes, DedupEntry)}
    (hdata : data.Perm snap.data.entries) (hdedup : dedup.Perm snap.dedup.entries)
    (hkeyed : ∀ e ∈ data, e.2.key = e.1) :
    Reads (readSnapshotStream json)
      (writeSnapshotStream json snap.revision snap.index snap.applyTimeMs data dedup).tail
      ⟨snap.revision, snap.index, snap.applyTimeMs, data.foldl (fun m e ↦ m.insert e.1 e.2) ∅,
        dedup.foldl (fun m e ↦ m.insert e.1 (json.reread e.2)) ∅⟩ := by
  have hkeys := reads_times
    (fun e he ↦ reads_key (hkeyed e he) (h.data e (hdata.mem_iff.mp he))) ∅
  have htable := reads_times (fun e he ↦ reads_dedup (h.dedup e (hdedup.mem_iff.mp he))) ∅
  have hsize := hdata.length_eq.trans_lt h.size
  have hsize' := hdedup.length_eq.trans_lt h.dedupSize
  refine (reads_readUvarint (n := 2) (by decide)).bind
    ((reads_readVarint h.revision.1 h.revision.2).bind ((reads_readUvarint h.index).bind
      ((reads_since2 h.applyTimeMs).bind ((reads_readUvarint hsize).bind (hkeys.bind
        ((reads_readUvarint hsize').bind (htable.bind ?_)))))))
  exact reads_pure _

namespace KVStore

variable {json : Json} {s : KVStore}

theorem restore_of_read {bytes rest : Bytes} {snap : KvSnapshot}
    (hhead : bytes.head? = some snapStreamMagic)
    (hread : readSnapshotStream json bytes.tail = .ok (snap, rest)) :
    s.restore json bytes =
      (s.restoreWith snap.data snap.revision snap.index snap.applyTimeMs snap.dedup, .ok ()) := by
  unfold KVStore.restore
  rw [if_pos hhead, hread]

/-- A stream of a snapshot installs what the snapshot was taken of, in whichever order its maps
were written. -/
theorem restore_stream (hs : Keyed s.data) (other : KVStore) {bytes : Bytes}
    (h : s.snapshot.Streams json bytes) :
    ∃ data dedup, other.restore json bytes =
        (other.restoreWith data s.revision s.index s.applyTimeMs dedup, .ok ()) ∧
      (∀ key, data.lookup key = s.data.lookup key) ∧
      ∀ id, dedup.lookup id = (s.dedupTable.lookup id).map json.reread := by
  obtain ⟨hfits, data, dedup, hdata, hdedup, rfl⟩ := h
  have hnodup := (List.perm_nodupKeys hdata).mpr s.data.nodupKeys
  have hnodup' := (List.perm_nodupKeys hdedup).mpr s.dedupTable.nodupKeys
  have hkeyed : ∀ e ∈ data, e.2.key = e.1 := fun e he ↦
    hs e.1 e.2 (AList.mem_lookup_iff.mpr (hdata.mem_iff.mp he))
  have hread := reads_stream hfits hdata hdedup hkeyed []
  rw [List.append_nil] at hread
  refine ⟨data.foldl (fun m e ↦ m.insert e.1 e.2) ∅,
    dedup.foldl (fun m e ↦ m.insert e.1 (json.reread e.2)) ∅, restore_of_read rfl hread,
    fun key ↦ ?_, fun id ↦ ?_⟩
  · rw [lookup_foldl_insert (fun _ kv ↦ kv) hnodup, List.perm_dlookup key hnodup hdata,
      AList.lookup_empty, Option.or_none]
    exact Option.map_id'
  · rw [lookup_foldl_insert (fun _ e ↦ json.reread e) hnodup', List.perm_dlookup id hnodup' hdedup,
      AList.lookup_empty, Option.or_none]
    rfl

end KVStore

end RaftConsensus.Kv
