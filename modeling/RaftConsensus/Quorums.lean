import RaftConsensus.Replication

namespace RaftConsensus

open List

namespace Configuration

variable (c : Configuration)

def voters : Finset ServerID := (c.servers.map Server.id).toFinset.filter (c.isVoter ·)

def Majority (S : ServerID → Prop) : Prop :=
  ∃ A : Finset ServerID, A ⊆ c.voters ∧ (∀ id ∈ A, S id) ∧ c.voteCount < 2 * A.card

theorem mem_voters {id : ServerID} : id ∈ c.voters ↔ c.isVoter id = true := by
  unfold voters
  rw [Finset.mem_filter, and_iff_right_iff_imp]
  intro h
  unfold isVoter at h
  split at h
  · rename_i s hs
    rw [mem_toFinset, mem_map]
    exact ⟨s, mem_of_find?_eq_some hs, by simpa using find?_some hs⟩
  · cases h

theorem card_voters_le : c.voters.card ≤ c.voteCount := by
  have hsub : c.voters ⊆ ((c.servers.filter (fun s ↦ !s.learner)).map Server.id).toFinset := by
    intro id hid
    rw [mem_voters] at hid
    unfold isVoter at hid
    split at hid
    · rename_i s hs
      rw [mem_toFinset, mem_map]
      refine ⟨s, mem_filter.mpr ⟨mem_of_find?_eq_some hs, hid⟩, ?_⟩
      simpa using find?_some hs
    · cases hid
  calc c.voters.card ≤ _ := Finset.card_le_card hsub
    _ ≤ _ := toFinset_card_le _
    _ = c.voteCount := by rw [length_map, voteCount, countP_eq_length_filter]

variable {c} {S S' : ServerID → Prop}

theorem Majority.mono (h : c.Majority S) (hS : ∀ id, S id → S' id) : c.Majority S' := by
  obtain ⟨A, hA, hall, hcard⟩ := h
  exact ⟨A, hA, fun id hid ↦ hS id (hall id hid), hcard⟩

theorem Majority.of_card {A : Finset ServerID} (hA : A ⊆ c.voters) (hS : ∀ id ∈ A, S id)
    (h : c.quorumSize ≤ A.card) : c.Majority S := by
  refine ⟨A, hA, hS, ?_⟩
  unfold quorumSize at h
  omega

theorem Majority.exists_voter (h : c.Majority S) : ∃ id, c.isVoter id = true ∧ S id := by
  obtain ⟨A, hA, hS, hcard⟩ := h
  obtain ⟨id, hid⟩ : A.Nonempty := Finset.card_pos.mp (by omega)
  exact ⟨id, c.mem_voters.mp (hA hid), hS id hid⟩

theorem Majority.inter (h : c.Majority S) (h' : c.Majority S') : ∃ id, S id ∧ S' id := by
  obtain ⟨A, hA, hS, hcard⟩ := h
  obtain ⟨B, hB, hS', hcard'⟩ := h'
  have hlt : c.voters.card < A.card + B.card := by
    have := c.card_voters_le
    omega
  obtain ⟨id, hid⟩ := Finset.inter_nonempty_of_card_lt_card_add_card hA hB hlt
  rw [Finset.mem_inter] at hid
  exact ⟨id, hS id hid.1, hS' id hid.2⟩

end Configuration

theorem countP_entries_le {α : Type} [DecidableEq α] {β : α → Type} (m : AList β)
    {p : Sigma β → Bool} (A : Finset α) (h : ∀ x ∈ m.entries, p x = true → x.1 ∈ A) :
    m.entries.countP p ≤ A.card := by
  have hnodup : ((m.entries.filter p).map Sigma.fst).Nodup :=
    List.NodupKeys.sublist filter_sublist m.nodupKeys
  have hsub : ((m.entries.filter p).map Sigma.fst).toFinset ⊆ A := by
    intro a ha
    rw [mem_toFinset, mem_map] at ha
    obtain ⟨x, hx, rfl⟩ := ha
    exact h x (mem_filter.mp hx).1 (mem_filter.mp hx).2
  calc m.entries.countP p = ((m.entries.filter p).map Sigma.fst).length := by
        rw [countP_eq_length_filter, length_map]
    _ = ((m.entries.filter p).map Sigma.fst).toFinset.card :=
        (toFinset_card_of_nodup hnodup).symm
    _ ≤ A.card := Finset.card_le_card hsub

section Votes

variable {votes : VoteMap} {cfg : Configuration}

def granted (votes : VoteMap) : Finset ServerID :=
  votes.keys.toFinset.filter (fun id ↦ votes.lookup id = some true)

theorem mem_granted {id : ServerID} : id ∈ granted votes ↔ votes.lookup id = some true := by
  unfold granted
  rw [Finset.mem_filter, mem_toFinset, and_iff_right_iff_imp]
  intro h
  exact AList.mem_keys.mp (AList.lookup_isSome.mp (by rw [h]; rfl))

theorem countVoters_le : countVoters votes cfg ≤ (granted votes ∩ cfg.voters).card := by
  refine countP_entries_le _ _ fun x hx hp ↦ ?_
  rw [Bool.and_eq_true] at hp
  rw [Finset.mem_inter, mem_granted, Configuration.mem_voters]
  refine ⟨?_, hp.2⟩
  rw [← hp.1]
  exact AList.mem_lookup_iff.mpr hx

theorem majority_of_countVoters (h : cfg.quorumSize ≤ countVoters votes cfg) :
    cfg.Majority (fun id ↦ votes.lookup id = some true) := by
  refine .of_card Finset.inter_subset_right (fun id hid ↦ ?_) (h.trans countVoters_le)
  exact mem_granted.mp (Finset.mem_inter.mp hid).1

end Votes

section Count

variable {β : Type} {m : AList (fun _ : ServerID ↦ β)} {p : β → Bool} {localID : ServerID}
  {cfg : Configuration}

/-- The node itself, and those whose entry in the map passes the test. -/
def CountedBy (localID : ServerID) (m : AList (fun _ : ServerID ↦ β)) (p : β → Bool)
    (id : ServerID) : Prop :=
  id = localID ∨ ∃ x, m.lookup id = some x ∧ p x = true

theorem majority_of_count {counts : ServerID → Bool}
    (hc : ∀ id, counts id = true → cfg.isVoter id = true) (hself : localID ∉ m)
    (h : cfg.quorumSize ≤ (if counts localID then 1 else 0) +
      m.entries.countP (fun x ↦ p x.2 && counts x.1)) : cfg.Majority (CountedBy localID m p) := by
  classical
  have hle : m.entries.countP (fun x ↦ p x.2 && counts x.1) ≤
      (cfg.voters.filter fun id ↦ id ≠ localID ∧ CountedBy localID m p id).card := by
    refine countP_entries_le _ _ fun x hx hp ↦ ?_
    rw [Bool.and_eq_true] at hp
    have hlook : m.lookup x.1 = some x.2 := AList.mem_lookup_iff.mpr hx
    rw [Finset.mem_filter, Configuration.mem_voters]
    refine ⟨hc _ hp.2, ?_, .inr ⟨x.2, hlook, hp.1⟩⟩
    rintro heq
    exact hself (heq ▸ AList.lookup_isSome.mp (by rw [hlook]; rfl))
  by_cases hl : counts localID = true
  · rw [if_pos hl] at h
    refine .of_card (A := insert localID
      (cfg.voters.filter fun id ↦ id ≠ localID ∧ CountedBy localID m p id)) ?_ ?_ ?_
    · intro id hid
      rcases Finset.mem_insert.mp hid with rfl | hid
      · exact cfg.mem_voters.mpr (hc _ hl)
      · exact (Finset.mem_filter.mp hid).1
    · intro id hid
      rcases Finset.mem_insert.mp hid with rfl | hid
      · exact .inl rfl
      · exact (Finset.mem_filter.mp hid).2.2
    · rw [Finset.card_insert_of_notMem (by simp)]
      omega
  · rw [if_neg hl] at h
    refine .of_card (A := cfg.voters.filter fun id ↦ id ≠ localID ∧ CountedBy localID m p id)
      (Finset.filter_subset _ _) (fun id hid ↦ (Finset.mem_filter.mp hid).2.2) ?_
    omega

def HeldBy (localID : ServerID) (matchIndex : AList (fun _ : ServerID ↦ ℕ)) (k : ℕ) :
    ServerID → Prop := CountedBy localID matchIndex (k ≤ ·)

theorem majority_self (hv : cfg.isVoter localID = true) (hq : cfg.quorumSize = 1) :
    cfg.Majority (· = localID) :=
  .of_card (A := {localID}) (by simpa [Configuration.mem_voters] using hv) (by simp) (by simp [hq])

end Count

namespace Electorate

variable {e e' : Electorate} {S S' : ServerID → Prop}

/-- A majority of the voters of the configuration in force: of the active one or, during a
membership change, of both the old and the new one. -/
def VoteQuorum (e : Electorate) (S : ServerID → Prop) : Prop :=
  match e.jointConfig with
  | some j => j.oldConfig.Majority S ∧ j.newConfig.Majority S
  | none => e.configuration.Majority S

theorem voteQuorum_of_hasVoteQuorum {votes : VoteMap} (h : e.hasVoteQuorum votes = true) :
    e.VoteQuorum (fun id ↦ votes.lookup id = some true) := by
  cases hj : e.jointConfig with
  | some j =>
    simp only [hasVoteQuorum, VoteQuorum, hj, Bool.and_eq_true, decide_eq_true_eq] at h ⊢
    exact ⟨majority_of_countVoters h.1, majority_of_countVoters h.2⟩
  | none =>
    simp only [hasVoteQuorum, VoteQuorum, hj, decide_eq_true_eq] at h ⊢
    exact majority_of_countVoters h

theorem VoteQuorum.mono (h : e.VoteQuorum S) (hS : ∀ id, S id → S' id) : e.VoteQuorum S' := by
  cases hj : e.jointConfig with
  | some j =>
    simp only [VoteQuorum, hj] at h ⊢
    exact ⟨h.1.mono hS, h.2.mono hS⟩
  | none =>
    simp only [VoteQuorum, hj] at h ⊢
    exact h.mono hS

def Meets (e e' : Electorate) : Prop :=
  ∀ S S' : ServerID → Prop, e.VoteQuorum S → e'.VoteQuorum S' → ∃ id, S id ∧ S' id

theorem meets_self (e : Electorate) : e.Meets e := by
  intro S S' h h'
  cases hj : e.jointConfig with
  | some j =>
    simp only [VoteQuorum, hj] at h h'
    exact h.1.inter h'.1
  | none =>
    simp only [VoteQuorum, hj] at h h'
    exact h.inter h'

end Electorate

end RaftConsensus
