import Mathlib.Data.List.TakeWhile
import RaftConsensus.Store
import RaftConsensus.Utf8

/-! Configuration entries at the level of bytes. A server ID or address is a Go string, which may
hold any bytes; the calls that change the membership look at none of them. -/

namespace RaftConsensus

namespace Raw

open List

structure Server where
  id : Bytes
  address : Bytes
  learner : Bool
deriving DecidableEq

abbrev Configuration := List Server

namespace Configuration

def addServer (c : Configuration) (id addr : Bytes) (learner : Bool) : Configuration :=
  c ++ [⟨id, addr, learner⟩]

def removeServer (c : Configuration) (id : Bytes) : Configuration := c.eraseP (·.id = id)

def promote (id : Bytes) : Configuration → Configuration
  | [] => []
  | s :: rest => if s.id = id then { s with learner := false } :: rest else s :: promote id rest

end Configuration

structure ConfigurationChange where
  changeType : UInt8
  serverID : Bytes
  serverAddr : Bytes
deriving DecidableEq

def encodeConfigurationChange (c : ConfigurationChange) : Bytes :=
  c.changeType :: (c.serverID ++ 0 :: c.serverAddr)

def decodeConfigurationChange : Bytes → ConfigurationChange
  | changeType :: b :: rest => ⟨changeType, (b :: rest).takeWhile (· ≠ 0),
      ((b :: rest).dropWhile (· ≠ 0)).drop 1⟩
  | _ => ⟨0, [], []⟩

/-- The data of an entry. The JSON text of a joint one is kept as the configuration that reading it
gives. -/
inductive EntryData
  | single (data : Bytes)
  | joint (text : Configuration)
  | commitJoint
deriving DecidableEq

-- encoding/json writes the replacement character for what is not UTF-8
def jsonServer (s : Server) : Server :=
  { s with id := Utf8.sanitize s.id, address := Utf8.sanitize s.address }

def encodeJointConfigChange (newConfig : Configuration) : EntryData :=
  .joint (newConfig.map jsonServer)

def decodeJointConfigChange : EntryData → Option Configuration
  | .joint text => some text
  | _ => none

structure Electorate where
  configuration : Configuration
  jointConfig : Option (Configuration × Configuration)
deriving DecidableEq

def ConfigurationChange.applyTo (change : ConfigurationChange) (c : Configuration) :
    Configuration :=
  if change.changeType = 0 then c.addServer change.serverID change.serverAddr false
  else if change.changeType = 1 then c.removeServer change.serverID
  else if change.changeType = 2 then c.addServer change.serverID change.serverAddr true
  else if change.changeType = 3 then c.promote change.serverID
  else c

def Electorate.applyConfigurationEntry (e : Electorate) : EntryData → Electorate
  | .single data => { e with
      configuration := (decodeConfigurationChange data).applyTo e.configuration }
  | .joint text => { e with jointConfig := some (e.configuration, text) }
  | .commitJoint =>
    match e.jointConfig with
    | none => e
    | some (_, newConfig) => ⟨newConfig, none⟩

inductive Call
  | addServer (target addr : Bytes)
  | replaceServer (oldID newID newAddr : Bytes)
  | addLearner (target addr : Bytes)
  | promoteLearner (target : Bytes)

namespace Call

def change (c : Configuration) : Call → ConfigurationChange ⊕ Configuration
  | addServer target addr => .inr (c.addServer target addr false)
  | replaceServer oldID newID newAddr => .inr ((c.removeServer oldID).addServer newID newAddr false)
  | addLearner target addr => .inl ⟨2, target, addr⟩
  | promoteLearner target => .inl ⟨3, target, []⟩

def requested (c : Configuration) (m : Call) : Configuration :=
  match m.change c with
  | .inl change => change.applyTo c
  | .inr newConfig => newConfig

def entry (c : Configuration) (m : Call) : EntryData :=
  match m.change c with
  | .inl change => .single (encodeConfigurationChange change)
  | .inr newConfig => encodeJointConfigChange newConfig

def applied (c : Configuration) (m : Call) : Electorate :=
  (Electorate.applyConfigurationEntry ⟨c, none⟩ (m.entry c)).applyConfigurationEntry .commitJoint

/-- What comes back from the log is the change, and applying it has the effect of the call. -/
def Survives (c : Configuration) (m : Call) : Prop :=
  (match m.change c with
    | .inl change => decodeConfigurationChange (encodeConfigurationChange change) = change
    | .inr newConfig =>
      decodeJointConfigChange (encodeJointConfigChange newConfig) = some newConfig) ∧
  m.applied c = ⟨m.requested c, none⟩

def Readable (s : Server) : Prop := Utf8.sanitize s.id = s.id ∧ Utf8.sanitize s.address = s.address

/-- A learner has no zero byte in its ID; the servers of a joint entry, those included that were
members before, have IDs and addresses in UTF-8. -/
def Clean (c : Configuration) : Call → Prop
  | addServer target addr => (∀ s ∈ c, Readable s) ∧ Readable ⟨target, addr, false⟩
  | replaceServer oldID newID newAddr =>
    (∀ s ∈ c.removeServer oldID, Readable s) ∧ Readable ⟨newID, newAddr, false⟩
  | addLearner target _ => 0 ∉ target
  | promoteLearner target => 0 ∉ target

end Call

variable {c : Configuration} {change : ConfigurationChange}

theorem decode_encode_iff :
    decodeConfigurationChange (encodeConfigurationChange change) = change ↔
    0 ∉ change.serverID := by
  obtain ⟨t, id, addr⟩ := change
  have hdecode : decodeConfigurationChange (encodeConfigurationChange ⟨t, id, addr⟩) =
      ⟨t, (id ++ 0 :: addr).takeWhile (· ≠ 0), ((id ++ 0 :: addr).dropWhile (· ≠ 0)).drop 1⟩ := by
    unfold encodeConfigurationChange
    cases id <;> rfl
  rw [hdecode]
  constructor
  · intro h hzero
    have hid : (id ++ 0 :: addr).takeWhile (· ≠ 0) = id := congrArg ConfigurationChange.serverID h
    have := mem_takeWhile_imp (hid.symm ▸ hzero : 0 ∈ (id ++ 0 :: addr).takeWhile (· ≠ 0))
    simp at this
  · intro hzero
    have hall : ∀ b ∈ id, decide (b ≠ 0) = true :=
      fun b hb ↦ decide_eq_true fun h0 ↦ hzero (h0 ▸ hb)
    rw [takeWhile_append_of_pos hall, dropWhile_append_of_pos hall]
    simp

theorem decode_encode_joint_iff {newConfig : Configuration} :
    decodeJointConfigChange (encodeJointConfigChange newConfig) = some newConfig ↔
      ∀ s ∈ newConfig, Call.Readable s := by
  rw [encodeJointConfigChange, decodeJointConfigChange, Option.some.injEq]
  nth_rewrite 2 [← map_id newConfig]
  rw [map_inj_left]
  refine forall₂_congr fun s _ ↦ ?_
  obtain ⟨id, address, learner⟩ := s
  simp [jsonServer, Call.Readable]

namespace Call

variable {m : Call}

theorem applied_of_single (hm : m.change c = .inl change) (hid : 0 ∉ change.serverID) :
    m.applied c = ⟨m.requested c, none⟩ := by
  simp only [applied, entry, requested, hm, Electorate.applyConfigurationEntry,
    decode_encode_iff.mpr hid]

theorem applied_of_joint {newConfig : Configuration} (hm : m.change c = .inr newConfig)
    (hread : ∀ s ∈ newConfig, Readable s) : m.applied c = ⟨m.requested c, none⟩ := by
  have hmap := Option.some.inj (decode_encode_joint_iff.mpr hread)
  simp only [applied, entry, requested, hm, Electorate.applyConfigurationEntry,
    encodeJointConfigChange, hmap]

theorem survives_of_single (hm : m.change c = .inl change) :
    m.Survives c ↔ 0 ∉ change.serverID := by
  rw [Survives, hm, and_iff_left_of_imp fun h ↦ applied_of_single hm (decode_encode_iff.mp h)]
  exact decode_encode_iff

theorem survives_of_joint {newConfig : Configuration} (hm : m.change c = .inr newConfig) :
    m.Survives c ↔ ∀ s ∈ newConfig, Readable s := by
  rw [Survives, hm, and_iff_left_of_imp fun h ↦ applied_of_joint hm (decode_encode_joint_iff.mp h)]
  exact decode_encode_joint_iff

/-- The entry of a membership change carries it through the log just when no zero byte ends the ID
early and the text of a joint entry can hold all that it is to hold. -/
theorem change_survives_iff (c : Configuration) (m : Call) : m.Survives c ↔ m.Clean c := by
  cases m with
  | addServer target addr =>
    rw [survives_of_joint rfl, Configuration.addServer, forall_mem_append,
      forall_mem_singleton]
    rfl
  | replaceServer oldID newID newAddr =>
    rw [survives_of_joint rfl, Configuration.addServer, forall_mem_append,
      forall_mem_singleton]
    rfl
  | addLearner target addr =>
    rw [survives_of_single rfl]
    rfl
  | promoteLearner target =>
    rw [survives_of_single rfl]
    rfl

/-- A zero byte moves the rest of an ID into the address; a byte that is not UTF-8 is replaced, also
in the ID of a member that the call does not name. -/
theorem change_damaged :
    (addLearner [0x61, 0, 0x62] [0x63]).applied [] = ⟨[⟨[0x61], [0x62, 0, 0x63], true⟩], none⟩ ∧
    (addLearner [0x61, 0, 0x62] [0x63]).requested [] = [⟨[0x61, 0, 0x62], [0x63], true⟩] ∧
    (addServer [0x61] []).applied [⟨[0xFF], [], true⟩] =
      ⟨[⟨[0xEF, 0xBF, 0xBD], [], true⟩, ⟨[0x61], [], false⟩], none⟩ ∧
    (addServer [0x61] []).requested [⟨[0xFF], [], true⟩] =
      [⟨[0xFF], [], true⟩, ⟨[0x61], [], false⟩] := by
  decide

end Call

end Raw

end RaftConsensus
