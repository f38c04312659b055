import RaftConsensus.Quorums
import RaftConsensus.Conditions

namespace RaftConsensus

open List

variable {σ : Type}

namespace Configuration

/-- Distinct IDs, a voter, and a vote count that counts voters. -/
structure WellFormed (c : Configuration) : Prop where
  ids : (c.servers.map Server.id).Nodup
  voter : ∃ id, c.isVoter id = true
  counted : c.voters.card = c.voteCount

variable {c : Configuration} {id : ServerID}

theorem contains_iff : c.contains id = true ↔ id ∈ c.servers.map Server.id := by
  simp [contains, getServer, find?_isSome]

theorem card_voters (h : (c.servers.map Server.id).Nodup) : c.voters.card = c.voteCount := by
  obtain ⟨servers⟩ := c
  have hsub : ((servers.filter (fun s ↦ !s.learner)).map Server.id).toFinset ⊆
      voters ⟨servers⟩ := by
    intro id hid
    obtain ⟨s, hs, rfl⟩ := mem_map.mp (mem_toFinset.mp hid)
    obtain ⟨hmem, hl⟩ := mem_filter.mp hs
    rw [mem_voters, isVoter, getServer]
    -- the IDs are distinct, so looking up the ID of `s` finds `s`
    cases hf : servers.find? (fun x ↦ x.id = s.id) with
    | none => exact absurd (find?_eq_none.mp hf s hmem) (by simp)
    | some x =>
      have hx : x.id = s.id := by simpa using find?_some hf
      rw [inj_on_of_nodup_map h (mem_of_find?_eq_some hf) hmem hx]
      exact hl
  have hnodup : ((servers.filter (fun s ↦ !s.learner)).map Server.id).Nodup :=
    h.sublist (filter_sublist.map _)
  apply le_antisymm (card_voters_le _)
  calc voteCount ⟨servers⟩
      = ((servers.filter (fun s ↦ !s.learner)).map Server.id).toFinset.card := by
        rw [toFinset_card_of_nodup hnodup, length_map, voteCount,
          countP_eq_length_filter]
    _ ≤ _ := Finset.card_le_card hsub

theorem wellFormed_iff : c.WellFormed ↔
    (c.servers.map Server.id).Nodup ∧ c.servers.any (fun s ↦ !s.learner) = true := by
  have hcount : c.servers.any (fun s ↦ !s.learner) = true ↔ 0 < c.voteCount := by
    rw [voteCount, countP_pos_iff, any_eq_true]
  rw [hcount]
  constructor
  · rintro ⟨hids, ⟨id, hid⟩, hcard⟩
    refine ⟨hids, ?_⟩
    rw [← hcard, Finset.card_pos]
    exact ⟨id, c.mem_voters.mpr hid⟩
  · rintro ⟨hids, hpos⟩
    rw [← card_voters hids, Finset.card_pos] at hpos
    obtain ⟨id, hid⟩ := hpos
    exact ⟨hids, ⟨id, c.mem_voters.mp hid⟩, card_voters hids⟩

instance : DecidablePred WellFormed := fun _ ↦ decidable_of_iff _ wellFormed_iff.symm

theorem addServer_ids (addr : ServerAddress) (learner : Bool) :
    ((c.addServer id addr learner).servers.map Server.id).Nodup ↔
      (c.servers.map Server.id).Nodup ∧ c.contains id = false := by
  rw [← Bool.not_eq_true, contains_iff, addServer, map_append, map_singleton,
    ← concat_eq_append, nodup_concat, and_comm]

theorem removeServer_servers (h : (c.servers.map Server.id).Nodup) :
    (c.removeServer id).servers = c.servers.filter (fun s ↦ s.id ≠ id) := by
  obtain ⟨servers⟩ := c
  show servers.eraseP _ = _
  induction servers with
  | nil => rfl
  | cons s servers ih =>
    simp only [map_cons, nodup_cons] at h
    by_cases hs : s.id = id
    · subst hs
      have hrest : servers.filter (fun x ↦ x.id ≠ s.id) = servers := by
        refine filter_eq_self.mpr fun x hx ↦ decide_eq_true fun heq ↦ h.1 ?_
        exact heq ▸ mem_map_of_mem hx
      rw [eraseP_cons_of_pos (by simp), filter_cons_of_neg (by simp), hrest]
    · simp [hs, ih h.2]

theorem removeServer_ids (h : (c.servers.map Server.id).Nodup) :
    ((c.removeServer id).servers.map Server.id).Nodup :=
  h.sublist (eraseP_sublist.map _)

theorem promote_ids : (c.promote id).servers.map Server.id = c.servers.map Server.id := by
  obtain ⟨servers⟩ := c
  show (promote.go id servers).map Server.id = _
  induction servers with
  | nil => rfl
  | cons s servers ih =>
    rw [promote.go]
    split
    · rfl
    · rw [map_cons, ih, map_cons]

theorem any_promote (h : c.servers.any (fun s ↦ !s.learner) = true) :
    (c.promote id).servers.any (fun s ↦ !s.learner) = true := by
  obtain ⟨servers⟩ := c
  show (promote.go id servers).any _ = true
  induction servers with
  | nil => exact h
  | cons s servers ih =>
    rw [promote.go]
    split
    · rfl
    · rw [any_cons, Bool.or_eq_true] at h ⊢
      exact h.imp_right ih

end Configuration

def Configuration.spares (c : Configuration) (id : ServerID) : Bool :=
  c.servers.any (fun s ↦ !s.learner && s.id ≠ id)

def Electorate.WellFormed (e : Electorate) : Prop :=
  e.configuration.WellFormed ∧
    ∀ j ∈ e.jointConfig, j.oldConfig.WellFormed ∧ j.newConfig.WellFormed

def ServerID.logged (id : ServerID) : ServerID := String.ofList (id.toList.takeWhile (· ≠ '\x00'))

theorem decode_encode (c : ConfigurationChange) : ∃ addr,
    decodeConfigurationChange c.changeType (c.serverID ++ "\x00" ++ c.serverAddr) =
      ⟨c.changeType, ServerID.logged c.serverID, addr⟩ := by
  have hzero : "\x00".toList = ['\x00'] := rfl
  have hne : c.serverID ++ "\x00" ++ c.serverAddr ≠ "" := by
    intro h
    have := congrArg String.toList h
    simp [String.toList_append, hzero] at this
  rw [decodeConfigurationChange, if_neg hne]
  refine ⟨_, congrArg (ConfigurationChange.mk c.changeType · _) ?_⟩
  rw [ServerID.logged, String.toList_append, String.toList_append, hzero, append_assoc,
    takeWhile_append]
  split
  · rename_i hlen
    simp only [singleton_append, takeWhile_cons]
    rw [if_neg (by decide), append_nil, (List.takeWhile_prefix _).eq_of_length hlen]
  · rfl

inductive MembershipCall
  | addServer (target : ServerID) (addr : ServerAddress)
  | removeServer (target : ServerID)
  | replaceServer (oldID newID : ServerID) (newAddr : ServerAddress)
  | addLearner (target : ServerID) (addr : ServerAddress)
  | promoteLearner (target : ServerID)
deriving DecidableEq

namespace MembershipCall

def data (c : Configuration) : MembershipCall → ConfigurationData
  | addServer target addr => .joint (c.addServer target addr false)
  | removeServer target => .joint (c.removeServer target)
  | replaceServer oldID newID newAddr =>
    .joint ((c.removeServer oldID).addServer newID newAddr false)
  | addLearner target addr => encodeConfigurationChange ⟨.addLearner, target, addr⟩
  | promoteLearner target => encodeConfigurationChange ⟨.promoteLearner, target, ""⟩

/-- An added server is new, and a removed one is not the last voter. -/
def Sound (c : Configuration) : MembershipCall → Prop
  | addServer target _ => c.contains target = false
  | removeServer target => c.spares target = true
  | replaceServer oldID newID _ => c.contains newID = true → newID = oldID
  | addLearner target _ => c.contains (ServerID.logged target) = false
  | promoteLearner _ => True

instance (c : Configuration) (m : MembershipCall) : Decidable (m.Sound c) := by
  cases m <;> unfold Sound <;> infer_instance

end MembershipCall

def Raft.call (r : Raft σ) : MembershipCall → Raft σ × Option RaftError
  | .addServer target addr => r.addServer target addr
  | .removeServer target => r.removeServer target
  | .replaceServer oldID newID newAddr => r.replaceServer oldID newID newAddr
  | .addLearner target addr => r.addLearner target addr
  | .promoteLearner target => r.promoteLearner target

section Calls

variable {r : Raft σ} {m : MembershipCall}

theorem Raft.changeConfiguration_ok {data : ConfigurationData}
    (h : (r.changeConfiguration data).2 = none) :
    r.jointConfig = none ∧ (r.changeConfiguration data).1 = r.appendConfiguration data := by
  unfold changeConfiguration at h ⊢
  split at h
  · cases h
  · rename_i hp
    rw [if_neg hp]
    rw [configChangePending, Bool.or_eq_true, not_or, Option.isSome_iff_ne_none, not_not] at hp
    exact ⟨hp.1, rfl⟩

theorem Raft.call_ok (h : (r.call m).2 = none) : r.state = .leader ∧ r.jointConfig = none ∧
    (r.call m).1 = r.appendConfiguration (m.data r.configuration) := by
  cases m with
  | addServer target addr =>
    simp only [call, addServer] at h ⊢
    split at h
    · cases h
    · rw [if_neg ‹_›]
      exact ⟨not_not.mp ‹_›, changeConfiguration_ok h⟩
  | removeServer target =>
    simp only [call, removeServer] at h ⊢
    split at h
    · cases h
    · split at h
      · cases h
      · rw [if_neg ‹_›, if_neg ‹_›]
        exact ⟨not_not.mp ‹_›, changeConfiguration_ok h⟩
  | replaceServer oldID newID newAddr =>
    simp only [call, replaceServer] at h ⊢
    split at h
    · cases h
    · rw [if_neg ‹_›]
      exact ⟨not_not.mp ‹_›, changeConfiguration_ok h⟩
  | addLearner target addr =>
    simp only [call, addLearner] at h ⊢
    split at h
    · cases h
    · rw [if_neg ‹_›]
      exact ⟨not_not.mp ‹_›, changeConfiguration_ok h⟩
  | promoteLearner target =>
    simp only [call, promoteLearner] at h ⊢
    generalize (if r.config.trailingLogs = 0 then 1000 else r.config.trailingLogs) = trailingLogs
      at h ⊢
    split at h
    · cases h
    · rename_i hs
      rw [if_neg hs]
      refine ⟨not_not.mp hs, ?_⟩
      split at h
      · cases h
      · split at h
        · cases h
        · rename_i hm
          simp only [if_neg hm]
          exact changeConfiguration_ok h

theorem Raft.call_logged (h : (r.call m).2 = none) : (r.call m).1.log.get (r.lastIndex + 1) =
    some ⟨r.term, r.lastIndex + 1, .configuration (m.data r.configuration)⟩ := by
  rw [(call_ok h).2.2, appendConfiguration_eq]
  show (r.log.append _).get _ = _
  rw [LogStore.get_append _ _ _ (Nat.succ_pos _), if_pos rfl]

theorem MembershipCall.apply_wellFormed_iff {c : Configuration} (h : c.WellFormed) :
    (Electorate.apply ⟨c, none⟩ (m.data c)).WellFormed ↔ m.Sound c := by
  have hjoint (new : Configuration) :
      (Electorate.apply ⟨c, none⟩ (.joint new)).WellFormed ↔ new.WellFormed := by
    simp [Electorate.apply, Electorate.WellFormed, h]
  have hsingle (t : ConfigurationChangeType) (rest : String) :
      (Electorate.apply ⟨c, none⟩ (.single t rest)).WellFormed ↔
        ((decodeConfigurationChange t rest).applyTo c).WellFormed := by
    simp [Electorate.apply, Electorate.WellFormed]
  obtain ⟨hids, hany⟩ := Configuration.wellFormed_iff.mp h
  cases m with
  | addServer target addr =>
    rw [data, hjoint, Configuration.wellFormed_iff, Configuration.addServer_ids, Sound]
    simp [Configuration.addServer, hids]
  | removeServer target =>
    rw [data, hjoint, Configuration.wellFormed_iff, Sound,
      and_iff_right (Configuration.removeServer_ids hids),
      Configuration.removeServer_servers hids, Configuration.spares, any_filter]
    simp [and_comm]
  | replaceServer oldID newID newAddr =>
    rw [data, hjoint, Configuration.wellFormed_iff, Configuration.addServer_ids, Sound,
      and_iff_right (Configuration.removeServer_ids hids), ← Bool.not_eq_true,
      Configuration.contains_iff, Configuration.contains_iff,
      Configuration.removeServer_servers hids]
    simp only [Configuration.addServer, any_append, any_cons, Bool.not_false,
      Bool.true_or, Bool.or_true, and_true, mem_map, mem_filter, decide_eq_true_eq]
    grind
  | addLearner target addr =>
    obtain ⟨addr', hd⟩ := decode_encode ⟨.addLearner, target, addr⟩
    rw [data, encodeConfigurationChange, hsingle, hd, ConfigurationChange.applyTo,
      Configuration.wellFormed_iff, Configuration.addServer_ids, Sound]
    simp only [Configuration.addServer, any_append, hany, Bool.true_or, and_true]
    exact and_iff_right hids
  | promoteLearner target =>
    obtain ⟨addr', hd⟩ := decode_encode ⟨.promoteLearner, target, ""⟩
    rw [data, encodeConfigurationChange, hsingle, hd, ConfigurationChange.applyTo,
      Configuration.wellFormed_iff, Configuration.promote_ids, Sound]
    exact iff_true_intro ⟨hids, Configuration.any_promote hany⟩

end Calls

end RaftConsensus
