import RaftConsensus.Decoder
import RaftConsensus.Encoding
import RaftConsensus.Store

namespace RaftConsensus.Transport

open Decoder Encoding

structure Entry where
  term : UInt64
  index : UInt64
  type : UInt8
  data : Bytes

/-- The messages of the binary protocol. -/
inductive Message
  | appendEntriesReq (term : UInt64) (leaderID : Bytes) (prevLogIndex prevLogTerm : UInt64)
      (entries : List Entry) (leaderCommit : UInt64)
  | appendEntriesResp (term : UInt64) (success : Bool) (index conflictTerm : UInt64)
  | requestVoteReq (term : UInt64) (candidateID : Bytes) (lastLogIndex lastLogTerm : UInt64)
      (preVote leaderTransfer : Bool)
  | requestVoteResp (term : UInt64) (voteGranted : Bool) (reason : Bytes)
  | installSnapshotReq (term : UInt64) (leaderID : Bytes)
  (lastIncludedIndex lastIncludedTerm : UInt64)
      (offset : UInt64) (data : Bytes) (done : Bool)
  | installSnapshotResp (term : UInt64)
  | timeoutNowReq (serverID : Bytes)
  | timeoutNowResp

def appendUvarint (v : UInt64) : Bytes := putUvarint v.toNat

def appendBool (b : Bool) : Bytes := [if b then 1 else 0]

def appendBytes (b : Bytes) : Bytes := putStr b

def marshalEntry (e : Entry) : Bytes :=
  appendUvarint e.term ++ (appendUvarint e.index ++ ([e.type] ++ appendBytes e.data))

namespace Message

def tag : Message → UInt8
  | appendEntriesReq .. => 1
  | appendEntriesResp .. => 2
  | requestVoteReq .. => 3
  | requestVoteResp .. => 4
  | installSnapshotReq .. => 5
  | installSnapshotResp .. => 6
  | timeoutNowReq .. => 7
  | timeoutNowResp => 8

def marshal : Message → Bytes
  | appendEntriesReq term leaderID prevLogIndex prevLogTerm entries leaderCommit =>
    appendUvarint term ++ (appendBytes leaderID ++ (appendUvarint prevLogIndex ++
      (appendUvarint prevLogTerm ++ (appendUvarint leaderCommit ++
        (putUvarint entries.length ++ entries.flatMap marshalEntry)))))
  | appendEntriesResp term success index conflictTerm =>
    appendUvarint term ++ (appendBool success ++
      (appendUvarint index ++ appendUvarint conflictTerm))
  | requestVoteReq term candidateID lastLogIndex lastLogTerm preVote leaderTransfer =>
    appendUvarint term ++ (appendBytes candidateID ++ (appendUvarint lastLogIndex ++
      (appendUvarint lastLogTerm ++ (appendBool preVote ++ appendBool leaderTransfer))))
  | requestVoteResp term voteGranted reason =>
    appendUvarint term ++ (appendBool voteGranted ++ appendBytes reason)
  | installSnapshotReq term leaderID lastIncludedIndex lastIncludedTerm offset data done =>
    appendUvarint term ++ (appendBytes leaderID ++ (appendUvarint lastIncludedIndex ++
      (appendUvarint lastIncludedTerm ++ (appendUvarint offset ++ (appendBytes data ++
        appendBool done)))))
  | installSnapshotResp term => appendUvarint term
  | timeoutNowReq serverID => appendBytes serverID
  | timeoutNowResp => []

end Message

def decodeBool : Decoder Bool := do
  let b ← decodeByte
  pure (b ≠ 0)

/-- `decodeString` and `decodeBytes`. -/
def decodeBytes : Decoder Bytes := do
  let length ← decodeUvarint
  if 2 ^ 30 < length.toNat then corrupt else field length.toNat

def decodeEntry : Decoder Entry := do
  let term ← decodeUvarint
  let index ← decodeUvarint
  let type ← decodeByte
  let data ← decodeBytes
  pure ⟨term, index, type, data⟩

def unmarshalAppendEntriesReq : Decoder Message := do
  let term ← decodeUvarint
  let leaderID ← decodeBytes
  let prevLogIndex ← decodeUvarint
  let prevLogTerm ← decodeUvarint
  let leaderCommit ← decodeUvarint
  let nEntries ← decodeUvarint
  if 10000 < nEntries.toNat then corrupt
  else do
    let entries ← list decodeEntry nEntries.toNat
    pure (.appendEntriesReq term leaderID prevLogIndex prevLogTerm entries leaderCommit)

def unmarshalAppendEntriesResp : Decoder Message := do
  let term ← decodeUvarint
  let success ← decodeBool
  let index ← decodeUvarint
  let conflictTerm ← decodeUvarint
  pure (.appendEntriesResp term success index conflictTerm)

def unmarshalRequestVoteReq : Decoder Message := do
  let term ← decodeUvarint
  let candidateID ← decodeBytes
  let lastLogIndex ← decodeUvarint
  let lastLogTerm ← decodeUvarint
  let preVote ← decodeBool
  let leaderTransfer ← decodeBool
  pure (.requestVoteReq term candidateID lastLogIndex lastLogTerm preVote leaderTransfer)

def unmarshalRequestVoteResp : Decoder Message := do
  let term ← decodeUvarint
  let voteGranted ← decodeBool
  let reason ← decodeBytes
  pure (.requestVoteResp term voteGranted reason)

def unmarshalInstallSnapshotReq : Decoder Message := do
  let term ← decodeUvarint
  let leaderID ← decodeBytes
  let lastIncludedIndex ← decodeUvarint
  let lastIncludedTerm ← decodeUvarint
  let offset ← decodeUvarint
  let data ← decodeBytes
  let done ← decodeBool
  pure (.installSnapshotReq term leaderID lastIncludedIndex lastIncludedTerm offset data done)

def unmarshalInstallSnapshotResp : Decoder Message := do
  let term ← decodeUvarint
  pure (.installSnapshotResp term)

def unmarshalTimeoutNowReq : Decoder Message := do
  let serverID ← decodeBytes
  pure (.timeoutNowReq serverID)

/-- The function for a tag; what it leaves of the payload is not looked at. -/
def unmarshal (tag : UInt8) : Decoder Message :=
  match tag with
  | 1 => unmarshalAppendEntriesReq
  | 2 => unmarshalAppendEntriesResp
  | 3 => unmarshalRequestVoteReq
  | 4 => unmarshalRequestVoteResp
  | 5 => unmarshalInstallSnapshotReq
  | 6 => unmarshalInstallSnapshotResp
  | 7 => unmarshalTimeoutNowReq
  | 8 => pure .timeoutNowResp
  | _ => corrupt

/-- At most 10000 entries, and fields of at most 1 GiB. -/
def Message.Sized : Message → Prop
  | appendEntriesReq _ leaderID _ _ entries _ => leaderID.length ≤ 2 ^ 30 ∧ entries.length ≤ 10000 ∧
      ∀ e ∈ entries, e.data.length ≤ 2 ^ 30
  | requestVoteReq _ candidateID .. => candidateID.length ≤ 2 ^ 30
  | requestVoteResp _ _ reason => reason.length ≤ 2 ^ 30
  | installSnapshotReq _ leaderID _ _ _ data _ => leaderID.length ≤ 2 ^ 30 ∧ data.length ≤ 2 ^ 30
  | timeoutNowReq serverID => serverID.length ≤ 2 ^ 30
  | _ => True

variable {m : Message} {s : Bytes} {n : ℕ} {entries : List Entry}

theorem reads_count (h : n < 2 ^ 64) : Reads decodeUvarint (putUvarint n) (UInt64.ofNat n) := by
  have hread := reads_uvarint (UInt64.ofNat n)
  rwa [UInt64.toNat_ofNat_of_lt' h] at hread

theorem reads_bool (b : Bool) : Reads decodeBool (appendBool b) b := by
  cases b <;> exact fun _ ↦ rfl

theorem reads_bytes (h : s.length ≤ 2 ^ 30) : Reads decodeBytes (appendBytes s) s := by
  have hn : (UInt64.ofNat s.length).toNat = s.length :=
    UInt64.toNat_ofNat_of_lt' (h.trans_lt (by decide))
  refine (reads_count (h.trans_lt (by decide))).bind ?_
  rw [hn, if_neg (not_lt.mpr h)]
  exact reads_field s

theorem reads_entry {e : Entry} (h : e.data.length ≤ 2 ^ 30) :
    Reads decodeEntry (marshalEntry e) e :=
  (reads_uvarint e.term).bind ((reads_uvarint e.index).bind ((reads_byte e.type).bind
    ((reads_bytes h).bind_pure _)))

theorem reads_appendEntriesReq {term prevLogIndex prevLogTerm leaderCommit : UInt64}
    {leaderID : Bytes} (h : (Message.appendEntriesReq term leaderID prevLogIndex prevLogTerm entries
      leaderCommit).Sized) :
    Reads unmarshalAppendEntriesReq
      (Message.appendEntriesReq term leaderID prevLogIndex prevLogTerm entries leaderCommit).marshal
      (.appendEntriesReq term leaderID prevLogIndex prevLogTerm entries leaderCommit) := by
  obtain ⟨hid, hcount, hdata⟩ := h
  have hn : (UInt64.ofNat entries.length).toNat = entries.length :=
    UInt64.toNat_ofNat_of_lt' (hcount.trans_lt (by decide))
  refine (reads_uvarint term).bind ((reads_bytes hid).bind ((reads_uvarint prevLogIndex).bind
    ((reads_uvarint prevLogTerm).bind ((reads_uvarint leaderCommit).bind
      ((reads_count (hcount.trans_lt (by decide))).bind ?_)))))
  rw [hn, if_neg (not_lt.mpr hcount)]
  exact (reads_list fun e he ↦ reads_entry (hdata e he)).bind_pure _

theorem reads_unmarshal (h : m.Sized) : Reads (unmarshal m.tag) m.marshal m := by
  cases m with
  | appendEntriesReq term leaderID prevLogIndex prevLogTerm entries leaderCommit =>
    exact reads_appendEntriesReq h
  | appendEntriesResp term success index conflictTerm =>
    change Reads unmarshalAppendEntriesResp _ _
    exact (reads_uvarint term).bind ((reads_bool success).bind ((reads_uvarint index).bind
      ((reads_uvarint conflictTerm).bind_pure _)))
  | requestVoteReq term candidateID lastLogIndex lastLogTerm preVote leaderTransfer =>
    change Reads unmarshalRequestVoteReq _ _
    exact (reads_uvarint term).bind ((reads_bytes h).bind ((reads_uvarint lastLogIndex).bind
      ((reads_uvarint lastLogTerm).bind ((reads_bool preVote).bind
        ((reads_bool leaderTransfer).bind_pure _)))))
  | requestVoteResp term voteGranted reason =>
    change Reads unmarshalRequestVoteResp _ _
    exact (reads_uvarint term).bind ((reads_bool voteGranted).bind ((reads_bytes h).bind_pure _))
  | installSnapshotReq term leaderID lastIncludedIndex lastIncludedTerm offset data done =>
    change Reads unmarshalInstallSnapshotReq _ _
    exact (reads_uvarint term).bind ((reads_bytes h.1).bind ((reads_uvarint lastIncludedIndex).bind
      ((reads_uvarint lastIncludedTerm).bind ((reads_uvarint offset).bind ((reads_bytes h.2).bind
        ((reads_bool done).bind_pure _))))))
  | installSnapshotResp term => exact (reads_uvarint term).bind_pure _
  | timeoutNowReq serverID => exact (reads_bytes h).bind_pure _
  | timeoutNowResp => exact reads_pure _

theorem inRange_unmarshal (tag : UInt8) : InRange (unmarshal tag) := by
  have hv := inRange_uvarint
  have hbool : InRange decodeBool := inRange_byte.bind fun _ ↦ inRange_pure _
  have hbytes : InRange decodeBytes := hv.bind fun _ ↦ inRange_corrupt.ite (inRange_field _)
  have hentry : InRange decodeEntry := hv.bind fun _ ↦ hv.bind fun _ ↦ inRange_byte.bind fun _ ↦
    hbytes.bind fun _ ↦ inRange_pure _
  unfold unmarshal
  split
  · exact hv.bind fun _ ↦ hbytes.bind fun _ ↦ hv.bind fun _ ↦ hv.bind fun _ ↦ hv.bind fun _ ↦
      hv.bind fun _ ↦ inRange_corrupt.ite ((hentry.list _).bind fun _ ↦ inRange_pure _)
  · exact hv.bind fun _ ↦ hbool.bind fun _ ↦ hv.bind fun _ ↦ hv.bind fun _ ↦ inRange_pure _
  · exact hv.bind fun _ ↦ hbytes.bind fun _ ↦ hv.bind fun _ ↦ hv.bind fun _ ↦ hbool.bind fun _ ↦
      hbool.bind fun _ ↦ inRange_pure _
  · exact hv.bind fun _ ↦ hbool.bind fun _ ↦ hbytes.bind fun _ ↦ inRange_pure _
  · exact hv.bind fun _ ↦ hbytes.bind fun _ ↦ hv.bind fun _ ↦ hv.bind fun _ ↦ hv.bind fun _ ↦
      hbytes.bind fun _ ↦ hbool.bind fun _ ↦ inRange_pure _
  · exact hv.bind fun _ ↦ inRange_pure _
  · exact hbytes.bind fun _ ↦ inRange_pure _
  · exact inRange_pure _
  · exact inRange_corrupt

def binaryMagic : Bytes := [0x52, 0x46, 2, 0]

def maxMessageBytes : ℕ := 16 * 2 ^ 20

def writeBinaryFrame (frame : UInt8 × Bytes) : Bytes :=
  binaryMagic ++ [frame.1] ++ bigEndian 4 frame.2.length ++ frame.2

def readBinaryFrame : Decoder (UInt8 × Bytes) := do
  let hdr ← field 9
  if hdr.take 4 ≠ binaryMagic then corrupt
  else if maxMessageBytes < ofBigEndian (hdr.drop 5) then corrupt
  else do
    let payload ← field (ofBigEndian (hdr.drop 5))
    pure ((hdr.drop 4).headD 0, payload)

theorem reads_frame {frame : UInt8 × Bytes} (h : frame.2.length ≤ maxMessageBytes) :
    Reads readBinaryFrame (writeBinaryFrame frame) frame := by
  have hlen : ofBigEndian (bigEndian 4 frame.2.length) = frame.2.length :=
    ofBigEndian_of_lt (h.trans_lt (by decide))
  refine (reads_field (binaryMagic ++ [frame.1] ++ bigEndian 4 frame.2.length)).bind ?_
  change Reads (if binaryMagic ≠ binaryMagic then _ else
    if maxMessageBytes < ofBigEndian (bigEndian 4 frame.2.length) then _ else _) _ _
  rw [if_neg (not_not.mpr rfl), hlen, if_neg (not_lt.mpr h)]
  change Reads (field (ofBigEndian (bigEndian 4 frame.2.length)) >>= _) _ _
  rw [hlen]
  exact (reads_field frame.2).bind_pure _

/-- A message comes back from its encoding, frames come back in the order in which they were
written, and any payload is a message or an error. -/
theorem binary_codec (m : Message) (hm : m.Sized) (frames : List (UInt8 × Bytes))
    (hframes : ∀ frame ∈ frames, frame.2.length ≤ 16 * 2 ^ 20) (rest : Bytes) (tag : UInt8)
    (data : Bytes) :
    unmarshal m.tag m.marshal = .ok (m, []) ∧
      list readBinaryFrame frames.length (frames.flatMap writeBinaryFrame ++ rest) =
        .ok (frames, rest) ∧
      unmarshal tag data ≠ .error .outOfRange := by
  refine ⟨?_, reads_list (fun frame hf ↦ reads_frame (hframes frame hf)) rest,
    inRange_unmarshal tag data⟩
  have hread := reads_unmarshal hm []
  rwa [List.append_nil] at hread

def twoEntriesReq : Message :=
  .appendEntriesReq 3 [0x41] 4 2 [⟨3, 5, 0, [0x61, 0x62]⟩, ⟨3, 6, 1, [0x63]⟩] 4

def twoFrames : List (UInt8 × Bytes) := [(1, twoEntriesReq.marshal), (6, [3])]

theorem binary_codec_twoFrames :
    unmarshal 1 twoEntriesReq.marshal = .ok (twoEntriesReq, []) ∧
      list readBinaryFrame 2 (twoFrames.flatMap writeBinaryFrame ++ [0xFF]) =
        .ok (twoFrames, [0xFF]) :=
  let ⟨hback, hframes, _⟩ := binary_codec twoEntriesReq (by simp [twoEntriesReq, Message.Sized])
    twoFrames (by decide +kernel) [0xFF] 0 []
  ⟨hback, hframes⟩

end RaftConsensus.Transport
