import Mathlib.Data.List.AList
import Mathlib.Data.Finset.Card

namespace RaftConsensus

abbrev ServerID := String
abbrev ServerAddress := String

structure Server where
  id : ServerID
  address : ServerAddress
  learner : Bool
deriving DecidableEq

structure Configuration where
  servers : List Server
deriving DecidableEq

namespace Configuration

def getServer (c : Configuration) (id : ServerID) : Option Server :=
  c.servers.find? (fun s ↦ s.id = id)

def contains (c : Configuration) (id : ServerID) : Bool := (c.getServer id).isSome

def isVoter (c : Configuration) (id : ServerID) : Bool :=
  match c.getServer id with
  | some s => !s.learner
  | none => false

def voteCount (c : Configuration) : ℕ := c.servers.countP (fun s ↦ !s.learner)

def quorumSize (c : Configuration) : ℕ := c.voteCount / 2 + 1

def addServer (c : Configuration) (id : ServerID) (addr : ServerAddress) (learner : Bool) :
    Configuration := ⟨c.servers ++ [⟨id, addr, learner⟩]⟩

/-- Only the first server with the given ID is removed. -/
def removeServer (c : Configuration) (id : ServerID) : Configuration :=
  ⟨c.servers.eraseP (fun s ↦ s.id = id)⟩

def promote (c : Configuration) (id : ServerID) : Configuration := ⟨go c.servers⟩
where
  go : List Server → List Server
    | [] => []
    | s :: rest => if s.id = id then { s with learner := false } :: rest else s :: go rest

end Configuration

structure JointConfiguration where
  oldConfig : Configuration
  newConfig : Configuration
deriving DecidableEq

def JointConfiguration.allServers (j : JointConfiguration) : List Server :=
  (j.oldConfig.servers ++ j.newConfig.servers).foldl
    (fun seen s ↦ if s.id ∈ seen.map Server.id then seen else seen ++ [s]) []

/-- What an election or a commit is counted against: the active configuration, and
both configurations of a membership change under way. -/
structure Electorate where
  configuration : Configuration
  jointConfig : Option JointConfiguration
deriving DecidableEq

namespace Electorate

def allServers (e : Electorate) : List Server :=
  match e.jointConfig with
  | some j => j.allServers
  | none => e.configuration.servers

end Electorate

abbrev VoteMap := AList (fun _ : ServerID ↦ Bool)

def countVoters (votes : VoteMap) (cfg : Configuration) : ℕ :=
  votes.entries.countP (fun e ↦ e.2 && cfg.isVoter e.1)

def Electorate.hasVoteQuorum (e : Electorate) (votes : VoteMap) : Bool :=
  match e.jointConfig with
  | some j => j.oldConfig.quorumSize ≤ countVoters votes j.oldConfig &&
      j.newConfig.quorumSize ≤ countVoters votes j.newConfig
  | none => e.configuration.quorumSize ≤ countVoters votes e.configuration

end RaftConsensus
