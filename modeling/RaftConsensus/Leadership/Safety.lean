import RaftConsensus.Fixed
import RaftConsensus.Leadership.Membership

namespace RaftConsensus

variable {σ : Type} {cl : Cluster} {F : FSM σ} {w : World σ} {n m : ServerID} {term : ℕ}
  {C : Configuration} {a : Action} {R : Rules}

theorem fixedConfiguration_reach (hC : cl.Fixed C)
    (h : World.Reach cl F (fun w a ↦ w.within fixedRules a = true) w) :
    (fixedConfiguration C).Holds w.view := by
  have hkept : (fixedConfiguration C).Kept cl fixedRules .free 0 :=
    fixedConfiguration_kept hC ⟨rfl, rfl⟩
  exact hkept.reach (fun w a ↦ World.permits_free) fixedConfiguration_init h

theorem hasVoteQuorum_self (hv : C.isVoter n = true) (hq : C.quorumSize = 1) :
    (⟨C, none⟩ : Electorate).hasVoteQuorum ((∅ : VoteMap).insert n true) = true := by
  have hone : countVoters ((∅ : VoteMap).insert n true) C = 1 := by
    rw [countVoters, AList.entries_insert_of_notMem (AList.notMem_empty n)]
    simp [hv]
  simp only [Electorate.hasVoteQuorum, hone, hq, le_refl, decide_true]

def electedBy (C : Configuration) : Licence := withElectorates fun _ ↦ {⟨C, none⟩}

theorem electedBy_meets (C : Configuration) (_ : ℕ) (e e' : Electorate)
    (he : e ∈ ({⟨C, none⟩} : Set Electorate)) (he' : e' ∈ ({⟨C, none⟩} : Set Electorate)) :
    e.Meets e' := by
  cases he
  cases he'
  exact Electorate.meets_self _

theorem FixedNode.covers {r : Raft σ} {t : Trigger} {inp : Input} (h : FixedNode C n r.core)
    (hs : ∀ req, inp = .request req → r.started = true) :
    (electedBy C).Covers (r.mayLead t inp = true) inp r.core := by
  have hst (hm : r.mayLead t inp = true) : r.started = true := by
    by_contra hns
    have hns' : r.started = false := by simpa using hns
    have hsd : r.state = .shutdown := (h.idle hns').1
    cases t with
    | op m op => cases op <;> simp [Raft.mayLead, Raft.Op.mayLead, hsd] at hm
    | _ =>
      cases inp with
      | op k => cases hm
      | request req => exact hns (hs req rfl)
      | reply id req resp stamp => cases req <;> simp [Raft.mayLead, Request.mayLead, hsd] at hm
  have he (hm : r.mayLead t inp = true) : r.core.electorate = ⟨C, none⟩ :=
    congrArg₂ Electorate.mk (h.active (hst hm)) h.joint
  refine ⟨fun hm now hq ↦ ⟨?_, he hm⟩, fun hm id _ _ hq ↦ ⟨hq, he hm⟩, fun _ _ _ _ ↦ trivial,
    fun _ _ _ _ _ _ _ ↦ trivial⟩
  have hC : r.core.configuration = C := h.active (hst hm)
  show r.core.electorate.hasVoteQuorum ((∅ : VoteMap).insert r.core.localID true) = true
  rw [he hm, h.localID]
  exact hasVoteQuorum_self h.voter (hC ▸ hq)

theorem permits_electedBy (h : w.within fixedRules a = true)
    (hw : (fixedConfiguration C).Holds w.view) : w.Permits fixedRules (electedBy C) a := by
  refine World.permits_of (World.admits_of_within h) fun r t inp ht _ hs ↦ ?_
  obtain ⟨n, calls, hh⟩ := World.hosts_of_takes ht
  have hn : FixedNode C n r.core := hw.up (show w.view.sites n = .up r.core calls by
    simp only [World.view, hh, World.site])
  exact hn.covers fun req hi ↦ (hs req hi).resolve_right (by simp [fixedRules])

/-- In a cluster whose voters all start from one configuration, no term has two leaders:
whatever is lost, delayed, duplicated or reordered, and wherever nodes crash and restart, as
long as no object handles a request before it was started. -/
theorem becomeLeader_unique (hC : cl.Fixed C)
    (h : World.Reach cl F (fun w a ↦ w.within fixedRules a = true) w)
    (hn : (n, term) ∈ w.leaders) (hm : (m, term) ∈ w.leaders) : n = m := by
  have hkept : (ballots (electedBy C)).Kept cl fixedRules (electedBy C) 0 :=
    ballots_kept (electedBy_meets C) ⟨rfl, rfl, rfl⟩
  have hr := World.Steps.and_invariant (fun w ↦ fixedConfiguration_reach hC) h
  have hv := hkept.reach (fun w a hc ↦ permits_electedBy hc.1 hc.2) ballots_init hr
  exact hv.all.led_unique (electedBy_meets C) (World.mem_leaders.mp hn) (World.mem_leaders.mp hm)

theorem threeVoters_fixed : threeVoters.Fixed abc := by
  have hcfg (n : ServerID) (cfg : Config) (h : threeVoters.config n = some cfg) :
      (n = "A" ∨ n = "B" ∨ n = "C") ∧ cfg.initialConfiguration = abc := by
    have hmem := List.mem_of_find?_eq_some h
    have hid : cfg.localID = n := threeVoters.localID_eq n cfg h
    simp only [List.mem_cons, List.not_mem_nil, or_false] at hmem
    rcases hmem with rfl | rfl | rfl
    · exact ⟨.inl hid.symm, rfl⟩
    · exact ⟨.inr (.inl hid.symm), rfl⟩
    · exact ⟨.inr (.inr hid.symm), rfl⟩
  refine ⟨fun n cfg h ↦ (hcfg n cfg h).2, fun n cfg h ↦ ?_⟩
  rcases (hcfg n cfg h).1 with rfl | rfl | rfl <;> decide

theorem becomeLeader_unique_electA : ∃ w : World (List Bytes),
    World.Reach threeVoters .keeping (fun w a ↦ w.within fixedRules a = true) w ∧
    ("A", 1) ∈ w.leaders ∧ ∀ m, (m, 1) ∈ w.leaders → "A" = m := by
  obtain ⟨w, hr, hA⟩ := World.exists_checked threeVoters .keeping (·.within fixedRules) electA
    (fun w ↦ ("A", 1) ∈ w.leaders) (by decide +kernel)
  exact ⟨w, hr, hA, fun m hm ↦ becomeLeader_unique threeVoters_fixed hr hA hm⟩

section Early

open Action (boot timeout)

/-- B votes for A, restarts, and answers C before `Start` has loaded that vote. -/
def voteForgotten : List Action :=
  boot "A" ++ boot "B" ++ boot "C" ++ timeout "A" 3 ++ timeout "C" 3 ++
    [.deliver 0, .reply 0, .crash "B", .create "B", .deliver 3, .reply 1]

theorem becomeLeader_twice_before_start : ∃ w : World (List Bytes), threeVoters.Fixed abc ∧
    World.Reach threeVoters .keeping
    (fun w a ↦ w.within { fixedRules with early := true } a = true) w ∧ ("A", 1) ∈ w.leaders ∧
    ("C", 1) ∈ w.leaders := by
  obtain ⟨w, hw, hled⟩ := World.exists_checked threeVoters .keeping
    (·.within { fixedRules with early := true }) voteForgotten
    (fun w ↦ ("A", 1) ∈ w.leaders ∧ ("C", 1) ∈ w.leaders) (by decide +kernel)
  exact ⟨w, threeVoters_fixed, hw, hled⟩

end Early

end RaftConsensus
