import RaftConsensus.Decoder
import RaftConsensus.Kv.Store

namespace RaftConsensus.Kv

open Decoder

/-- A command without a transaction, as it is encoded. -/
structure PlainCommand where
  op : Bytes
  key : Bytes
  value : Bytes
  clientID : Bytes
  seqNum : UInt64
  leaderTimestampMs : Int64
  ttlSeconds : Int64
deriving DecidableEq

def cmdBinaryMagic : UInt8 := 1

/-- Present only if one of the two is not zero. -/
def PlainCommand.extension (cmd : PlainCommand) : Bytes :=
  if cmd.leaderTimestampMs ≠ 0 ∨ cmd.ttlSeconds ≠ 0 then
    putVarint cmd.leaderTimestampMs.toInt ++ putUvarint cmd.ttlSeconds.toUInt64.toNat
  else []

def encodeKVCommand (cmd : PlainCommand) : Bytes :=
  cmdBinaryMagic :: (putStr cmd.op ++
    (putStr cmd.key ++ (putStr cmd.value ++
    (putStr cmd.clientID ++ (putUvarint cmd.seqNum.toNat ++ cmd.extension)))))

def readStr : Decoder Bytes := do
  let n ← decodeUvarint
  field n.toNat

def readTTL : Decoder (Int64 × Int64) := do
  let lts ← decodeVarint
  let ttl ← decodeUvarint
  pure (lts, ttl.toInt64)

def readExtension : Decoder (Int64 × Int64) := fun b ↦
  if 0 < b.length then readTTL b else .ok ((0, 0), b)

def readCommand : Decoder PlainCommand := do
  let op ← readStr
  let key ← readStr
  let value ← readStr
  let clientID ← readStr
  let seqNum ← decodeUvarint
  let (leaderTimestampMs, ttlSeconds) ← readExtension
  pure ⟨op, key, value, clientID, seqNum, leaderTimestampMs, ttlSeconds⟩

/-- A command that does not begin with the magic byte is JSON, which `unmarshal` reads. -/
def decodeKVCommand {γ : Type} (unmarshal : Bytes → Except Fault γ) :
    Bytes → Except Fault (PlainCommand ⊕ γ)
  | [] => .error .corrupt
  | b :: data =>
    if b ≠ cmdBinaryMagic then (unmarshal (b :: data)).map .inr
    else (readCommand data).map fun p ↦ .inl p.1

/-- The lengths of Go strings. -/
def PlainCommand.Sized (cmd : PlainCommand) : Prop :=
  ∀ s ∈ [cmd.op, cmd.key, cmd.value, cmd.clientID], s.length < 2 ^ 63

instance (cmd : PlainCommand) : Decidable cmd.Sized := inferInstanceAs (Decidable (∀ _ ∈ _, _))

variable {cmd : PlainCommand} {s : Bytes} {γ : Type} (unmarshal : Bytes → Except Fault γ)

theorem reads_readStr (h : s.length < 2 ^ 63) : Reads readStr (putStr s) s := by
  have hn : (UInt64.ofNat s.length).toNat = s.length :=
    UInt64.toNat_ofNat_of_lt' (h.trans (by decide))
  have hread := reads_uvarint (UInt64.ofNat s.length)
  rw [hn] at hread
  refine hread.bind ?_
  rw [hn]
  exact reads_field s

theorem readExtension_extension (cmd : PlainCommand) :
    readExtension cmd.extension = .ok ((cmd.leaderTimestampMs, cmd.ttlSeconds), []) := by
  unfold PlainCommand.extension
  split_ifs with hext
  · have hpos : 0 < (putVarint cmd.leaderTimestampMs.toInt ++
        putUvarint cmd.ttlSeconds.toUInt64.toNat).length := by
      rw [putVarint, putUvarint]
      split_ifs <;> simp
    have httl := reads_uvarint cmd.ttlSeconds.toUInt64 []
    rw [List.append_nil] at httl
    rw [readExtension, if_pos hpos, readTTL, bind_eq (reads_varint _ _), bind_eq httl]
    rw [Int64.toInt64_toUInt64]
    rfl
  · simp only [not_or, ne_eq, not_not] at hext
    rw [hext.1, hext.2]
    rfl

theorem decode_encodeKVCommand (h : cmd.Sized) :
    decodeKVCommand unmarshal (encodeKVCommand cmd) = .ok (.inl cmd) := by
  obtain ⟨hop, hkey, hvalue, hclient⟩ : cmd.op.length < 2 ^ 63 ∧ cmd.key.length < 2 ^ 63 ∧
      cmd.value.length < 2 ^ 63 ∧ cmd.clientID.length < 2 ^ 63 := by
    simpa [PlainCommand.Sized] using h
  rw [encodeKVCommand, decodeKVCommand, if_neg (not_not.mpr rfl), readCommand,
    bind_eq (reads_readStr hop _), bind_eq (reads_readStr hkey _), bind_eq (reads_readStr hvalue _),
    bind_eq (reads_readStr hclient _), bind_eq (reads_uvarint _ _),
    bind_eq (readExtension_extension cmd)]
  rfl

theorem inRange_readCommand : InRange readCommand := by
  have hstr : InRange readStr := inRange_uvarint.bind fun n ↦ inRange_field n.toNat
  have hext : InRange readExtension := by
    intro b
    unfold readExtension
    split
    · exact (inRange_varint.bind fun _ ↦ inRange_uvarint.bind fun _ ↦ inRange_pure _) b
    · exact inRange_pure _ b
  exact hstr.bind fun _ ↦ hstr.bind fun _ ↦ hstr.bind fun _ ↦ hstr.bind fun _ ↦
    inRange_uvarint.bind fun _ ↦ hext.bind fun _ ↦ inRange_pure _

/-- A command comes back from its encoding, which it shares with no other, and any bytes after the
magic byte are a command or an error. -/
theorem command_codec (cmd : PlainCommand) (h : cmd.Sized) (data : Bytes) :
    decodeKVCommand unmarshal (encodeKVCommand cmd) = .ok (.inl cmd) ∧
      (∀ cmd', cmd'.Sized → encodeKVCommand cmd' = encodeKVCommand cmd → cmd' = cmd) ∧
      decodeKVCommand unmarshal (cmdBinaryMagic :: data) ≠ .error .outOfRange := by
  refine ⟨decode_encodeKVCommand unmarshal h, fun cmd' h' heq ↦ ?_, fun hbad ↦ ?_⟩
  · have hdecode := decode_encodeKVCommand unmarshal h'
    rw [heq, decode_encodeKVCommand unmarshal h] at hdecode
    exact (Sum.inl.inj (Except.ok.inj hdecode)).symm
  · rw [decodeKVCommand, if_neg (not_not.mpr rfl)] at hbad
    cases hr : readCommand data with
    | error e =>
      rw [hr] at hbad
      cases hbad
      exact inRange_readCommand data hr
    | ok p =>
      rw [hr] at hbad
      cases hbad

def putWithTTL : PlainCommand :=
  ⟨ascii "put", ascii "k", ascii "value", ascii "client", 7, 1700000000000, -1⟩

theorem command_codec_putWithTTL :
    decodeKVCommand (fun _ ↦ (.error .corrupt : Except Fault Unit)) (encodeKVCommand putWithTTL) =
        .ok (.inl putWithTTL) ∧
      decodeKVCommand (fun _ ↦ (.error .corrupt : Except Fault Unit))
        (cmdBinaryMagic :: (encodeKVCommand putWithTTL).take 9) ≠ .error .outOfRange :=
  let ⟨hback, _, hcut⟩ := command_codec _ putWithTTL (by decide)
    ((encodeKVCommand putWithTTL).take 9)
  ⟨hback, hcut⟩

/-- The operation that the switch of `Apply` takes a name for. -/
def Op.ofName (name : Bytes) : Op :=
  if name = ascii "tick" then .tick
  else if name = ascii "set" then .set
  else if name = ascii "get" then .get
  else if name = ascii "delete" then .delete
  else if name = ascii "list" then .list
  else if name = ascii "put" then .put
  else if name = ascii "get_v2" then .getV2
  else if name = ascii "range" then .range
  else if name = ascii "incr" then .incr
  else if name = ascii "txn" then .txn
  else .other name

def PlainCommand.toCommand (cmd : PlainCommand) : KvCommand where
  op := .ofName cmd.op
  key := cmd.key
  value := cmd.value
  txn := none
  clientID := cmd.clientID
  seqNum := cmd.seqNum.toNat
  leaderTimestampMs := cmd.leaderTimestampMs.toInt
  ttlSeconds := cmd.ttlSeconds.toInt
  returnPrevKV := false

/-- `Apply` on the bytes of an entry. One that cannot be read leaves the store as it is. -/
def KVStore.applyEntry (unmarshal : Bytes → Except Fault KvCommand) (s : KVStore) (entry : Bytes) :
    KVStore × Except Fault Reply :=
  match decodeKVCommand unmarshal entry with
  | .error fault => (s, .error fault)
  | .ok cmd => (s.apply (cmd.elim PlainCommand.toCommand id)).map id .ok

/-- What was encoded is what is applied. -/
theorem applyEntry_encodeKVCommand (unmarshal : Bytes → Except Fault KvCommand) (s : KVStore)
    (h : cmd.Sized) : s.applyEntry unmarshal (encodeKVCommand cmd) =
      (s.apply cmd.toCommand).map id .ok := by
  rw [KVStore.applyEntry, decode_encodeKVCommand unmarshal h]
  rfl

end RaftConsensus.Kv
