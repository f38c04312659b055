import RaftConsensus.Configuration
import Mathlib.Algebra.Ring.Int.Defs
import Mathlib.Algebra.Ring.Nat

namespace RaftConsensus

open List

abbrev Bytes := List UInt8

/-- The single-step change types. The joint and commit-joint types have payloads of
their own below. -/
inductive ConfigurationChangeType
  | addNode | removeNode | addLearner | promoteLearner | auto
deriving DecidableEq

structure ConfigurationChange where
  changeType : ConfigurationChangeType
  serverID : ServerID
  serverAddr : ServerAddress
deriving DecidableEq

/-- The data of a configuration entry. The type byte is the constructor; the JSON text
of a joint entry is kept as the configuration it stands for. -/
inductive ConfigurationData
  | single (changeType : ConfigurationChangeType) (rest : String)
  | joint (newConfig : Configuration)
  | commitJoint
deriving DecidableEq

def encodeConfigurationChange (c : ConfigurationChange) : ConfigurationData :=
  .single c.changeType (c.serverID ++ "\x00" ++ c.serverAddr)

/-- The server ID ends at the first zero byte, wherever that byte comes from. -/
def decodeConfigurationChange (changeType : ConfigurationChangeType) (rest : String) :
    ConfigurationChange :=
  if rest = "" then ⟨.addNode, "", ""⟩ else
  ⟨changeType, String.ofList (rest.toList.takeWhile (· ≠ '\x00')),
    String.ofList ((rest.toList.dropWhile (· ≠ '\x00')).drop 1)⟩

inductive Payload
  | normal (data : Bytes)
  | configuration (data : ConfigurationData)
deriving DecidableEq

structure LogEntry where
  term : ℕ
  index : ℕ
  payload : Payload
deriving DecidableEq

/-- Bytes of one character in a JSON string as `encoding/json` writes it. -/
def jsonCharSize (c : Char) : ℕ :=
  if c = '"' ∨ c = '\\' ∨ c = '\n' ∨ c = '\r' ∨ c = '\t' ∨ c.toNat = 8 ∨ c.toNat = 12 then 2
  else if c.toNat < 32 ∨ c = '<' ∨ c = '>' ∨ c = '&' ∨ c.toNat = 0x2028 ∨ c.toNat = 0x2029 then 6
  else c.utf8Size

def jsonStringSize (s : String) : ℕ := (s.toList.map jsonCharSize).sum + 2

def Server.jsonSize (s : Server) : ℕ :=
  6 + jsonStringSize s.id + 11 + jsonStringSize s.address + 11 + (if s.learner then 4 else 5) + 1

def Configuration.jsonSize (c : Configuration) : ℕ :=
  14 + (c.servers.map Server.jsonSize).sum + (c.servers.length - 1)

def LogEntry.size (e : LogEntry) : ℕ :=
  match e.payload with
  | .normal data => data.length
  | .configuration (.single _ rest) => 1 + rest.utf8ByteSize
  | .configuration (.joint newConfig) => 1 + newConfig.jsonSize
  | .configuration .commitJoint => 1

/-- A log store that behaves as a map from indices to entries. -/
structure LogStore where
  entries : List LogEntry
deriving DecidableEq

namespace LogStore

def get (s : LogStore) (idx : ℕ) : Option LogEntry :=
  if idx = 0 then none else s.entries.find? (fun e ↦ e.index = idx)

def append (s : LogStore) (e : LogEntry) : LogStore :=
  ⟨s.entries.filter (fun x ↦ x.index ≠ e.index) ++ [e]⟩

def firstIndex (s : LogStore) : ℕ :=
  match s.entries with
  | [] => 0
  | e :: rest => rest.foldl (fun m x ↦ min m x.index) e.index

def lastIndex (s : LogStore) : ℕ := s.entries.foldl (fun m x ↦ max m x.index) 0

def deleteRange (s : LogStore) (lo hi : ℕ) : LogStore :=
  ⟨s.entries.filter (fun e ↦ ¬(lo ≤ e.index ∧ e.index ≤ hi))⟩

def compact (s : LogStore) (index : ℕ) : LogStore :=
  if index = 0 ∨ index < s.firstIndex then s else s.deleteRange s.firstIndex index

section Lemmas

variable {s : LogStore} {i : ℕ} {e : LogEntry}

theorem get_index (h : s.get i = some e) : e.index = i := by
  unfold get at h
  split at h
  · cases h
  · simpa using find?_some h

theorem get_pos (h : s.get i = some e) : 0 < i := by
  rcases Nat.eq_zero_or_pos i with rfl | hi
  · simp [get] at h
  · exact hi

theorem get_mem (h : s.get i = some e) : e ∈ s.entries := by
  unfold get at h
  split at h
  · cases h
  · exact mem_of_find?_eq_some h

theorem get_append (s : LogStore) (e : LogEntry) (i : ℕ) (hi : 0 < i) :
    (s.append e).get i = if i = e.index then some e else s.get i := by
  unfold get append
  rw [if_neg hi.ne', if_neg hi.ne', find?_append]
  split
  · subst i
    rw [find?_eq_none.mpr]
    · simp
    · intro x hx
      simpa using (mem_filter.mp hx).2
  · rename_i hne
    rw [find?_filter]
    have : ([e].find? fun x ↦ x.index = i) = none := by simpa using Ne.symm hne
    rw [this, Option.or_none]
    congr 1
    funext x
    by_cases hx : x.index = i
    · simp [hx, hne]
    · simp [hx]

theorem get_deleteRange (s : LogStore) (lo hi i : ℕ) :
    (s.deleteRange lo hi).get i = if lo ≤ i ∧ i ≤ hi then none else s.get i := by
  unfold get deleteRange
  split
  · simp
  · rw [find?_filter]
    split
    · rename_i h
      rw [find?_eq_none]
      intro x _
      simp only [decide_eq_true_eq, not_and]
      rintro hx rfl
      exact hx h.1 h.2
    · rename_i h
      congr 1
      funext x
      by_cases hx : x.index = i
      · simp [hx, h]
      · simp [hx]

theorem get_append_cases {x : LogEntry} (h : (s.append x).get i = some e) :
    s.get i = some e ∨ e = x := by
  rw [get_append _ _ _ (get_pos h)] at h
  split at h
  · exact .inr (Option.some.inj h).symm
  · exact .inl h

theorem get_of_deleteRange {lo hi : ℕ} (h : (s.deleteRange lo hi).get i = some e) :
    s.get i = some e := by
  rw [get_deleteRange] at h
  split at h
  · cases h
  · exact h

theorem foldl_max_spec (l : List LogEntry) (m : ℕ) :
    m ≤ l.foldl (fun m x ↦ max m x.index) m ∧
      (∀ e ∈ l, e.index ≤ l.foldl (fun m x ↦ max m x.index) m) ∧
      (l.foldl (fun m x ↦ max m x.index) m = m ∨
        ∃ e ∈ l, e.index = l.foldl (fun m x ↦ max m x.index) m) := by
  induction l generalizing m with
  | nil => simp
  | cons x l ih =>
    obtain ⟨hm, hall, hex⟩ := ih (max m x.index)
    rw [foldl_cons]
    refine ⟨by omega, ?_, ?_⟩
    · intro e he
      rcases mem_cons.mp he with rfl | he
      · omega
      · exact hall e he
    · rcases hex with hex | ⟨e, he, hx⟩
      · rcases le_total x.index m with h | h
        · exact .inl (by omega)
        · exact .inr ⟨x, mem_cons_self, by omega⟩
      · exact .inr ⟨e, mem_cons_of_mem x he, hx⟩

theorem le_lastIndex (h : s.get i = some e) : i ≤ s.lastIndex := by
  rw [← get_index h]
  exact (foldl_max_spec s.entries 0).2.1 e (get_mem h)

theorem get_lastIndex (h : 0 < s.lastIndex) : ∃ e, s.get s.lastIndex = some e := by
  rcases (foldl_max_spec s.entries 0).2.2 with h0 | ⟨e, he, hx⟩
  · exact absurd h0 h.ne'
  · rw [get, if_neg h.ne', ← Option.isSome_iff_exists, find?_isSome]
    exact ⟨e, he, decide_eq_true hx⟩

theorem firstIndex_le (h : s.get i = some e) : s.firstIndex ≤ i := by
  have hmin (l : List LogEntry) (m : ℕ) : l.foldl (fun m x ↦ min m x.index) m ≤ m ∧
      ∀ e ∈ l, l.foldl (fun m x ↦ min m x.index) m ≤ e.index := by
    induction l generalizing m with
    | nil => simp
    | cons x l ih =>
      obtain ⟨hm, hall⟩ := ih (min m x.index)
      rw [foldl_cons]
      refine ⟨by omega, fun e he ↦ ?_⟩
      rcases mem_cons.mp he with rfl | he
      · omega
      · exact hall e he
  have he := get_mem h
  rw [← get_index h]
  unfold firstIndex
  split
  · rename_i hn
    rw [hn] at he
    cases he
  · rename_i x rest hc
    rw [hc] at he
    rcases mem_cons.mp he with rfl | he
    · exact (hmin rest _).1
    · exact (hmin rest _).2 e he

theorem get_discarded (s : LogStore) (i : ℕ) :
    (if 0 < s.lastIndex ∧ s.firstIndex ≤ s.lastIndex then s.deleteRange s.firstIndex s.lastIndex
      else s).get i = none := by
  cases hget : s.get i with
  | none =>
    split
    · rw [get_deleteRange, hget, ite_self]
    · exact hget
  | some e =>
    have hfirst := firstIndex_le hget
    have hlast := le_lastIndex hget
    have hpos := get_pos hget
    rw [if_pos ⟨by omega, by omega⟩, get_deleteRange, if_pos ⟨hfirst, hlast⟩]

end Lemmas

end LogStore

/-- The keys of the stable store, `none` while a key was never set. -/
structure StableStore where
  term : Option ℕ
  votedFor : Option ServerID
  commitIndex : Option ℕ
deriving DecidableEq

structure Snapshot where
  index : ℕ
  term : ℕ
  configuration : Configuration
  data : Bytes
deriving DecidableEq

/-- The snapshots whose sink was closed, in the order in which the store lists them. -/
structure SnapshotStore where
  snapshots : List Snapshot
deriving DecidableEq

namespace SnapshotStore

def create (s : SnapshotStore) (snap : Snapshot) : SnapshotStore := ⟨snap :: s.snapshots⟩

def latest (s : SnapshotStore) : Option Snapshot :=
  match s.snapshots with
  | [] => none
  | m :: rest => some (rest.foldl (fun l x ↦ if l.index < x.index then x else l) m)

end SnapshotStore

structure Disk where
  log : LogStore
  stable : StableStore
  snapshot : SnapshotStore
deriving DecidableEq

def Disk.empty : Disk := ⟨⟨[]⟩, ⟨none, none, none⟩, ⟨[]⟩⟩

inductive ApplyResult
  | ok (result : Bytes)
  | error
  | panicked
deriving DecidableEq

/-- The state machine a node drives. `snapshot` and `restore` are `none` on an error. -/
structure FSM (σ : Type) where
  init : σ
  apply : σ → Bytes → σ × ApplyResult
  snapshot : σ → Option Bytes
  restore : Bytes → Option σ

end RaftConsensus
