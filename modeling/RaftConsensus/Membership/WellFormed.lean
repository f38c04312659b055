import RaftConsensus.Membership.Changes
import RaftConsensus.Membership.Encoding

namespace RaftConsensus

variable {σ : Type}

/-- The electorate that changes are accepted against, and the accepted ones that still have
to be applied. -/
structure Roster where
  electorate : Electorate
  waiting : List ConfigurationData

namespace Roster

/-- A change is accepted by some node with that electorate, or the oldest one that waits is
applied on such a node. A leader logs the exit of a joint change when it applies it. -/
inductive Step (σ : Type) (P : Roster → MembershipCall → Prop) : Roster → Roster → Prop
  | accept {x : Roster} {r : Raft σ} {m : MembershipCall} {d : ConfigurationData}
      (hr : r.electorate = x.electorate) (hok : (r.call m).2 = none)
      (hd : (r.call m).1.log.get (r.lastIndex + 1) =
        some ⟨r.term, r.lastIndex + 1, .configuration d⟩) (hP : P x m) :
      Step σ P x ⟨x.electorate, x.waiting ++ [d]⟩
  | apply {e : Electorate} {r : Raft σ} {d : ConfigurationData} {rest : List ConfigurationData}
      {rnd : ℕ} (hr : r.electorate = e) :
      Step σ P ⟨e, d :: rest⟩ ⟨(r.applyConfigurationEntry d rnd).1.electorate,
        rest ++ if (r.applyConfigurationEntry d rnd).2 then [.commitJoint] else []⟩

def start (c : Configuration) : Roster := ⟨⟨c, none⟩, []⟩

def Fits (x : Roster) (m : MembershipCall) : Prop :=
  x.waiting = [] ∧ m.Sound x.electorate.configuration

def Ready (x : Roster) : Prop :=
  x.electorate.WellFormed ∧
    (x.waiting = [] ∨ ∃ d, x.waiting = [d] ∧ (x.electorate.apply d).WellFormed)

theorem Ready.step {x y : Roster} (h : Step σ Fits x y) (hx : x.Ready) : y.Ready := by
  cases h with
  | @accept _ r m d hr hok hd hP =>
    refine ⟨hx.1, .inr ⟨d, ?_, ?_⟩⟩
    · rw [hP.1, List.nil_append]
    · rw [Raft.call_logged hok] at hd
      obtain ⟨-, hj, -⟩ := Raft.call_ok hok
      have he : x.electorate = ⟨r.configuration, none⟩ := by rw [← hr, Raft.electorate, hj]
      have hwf := hx.1.1
      have hsound := hP.2
      rw [he] at hwf hsound
      cases hd
      show (x.electorate.apply _).WellFormed
      rw [he]
      exact (MembershipCall.apply_wellFormed_iff hwf).mpr hsound
  | @apply e r d rest rnd hr =>
    obtain ⟨hwf, hnil | ⟨d', hd', happ⟩⟩ := hx
    · cases hnil
    · cases hd'
      rw [← hr, ← Raft.electorate_applyConfigurationEntry r _ rnd] at happ
      refine ⟨happ, ?_⟩
      show [] ++ _ = [] ∨ _
      split
      · refine .inr ⟨.commitJoint, rfl, ?_⟩
        show (Electorate.apply (r.applyConfigurationEntry d rnd).1.electorate _).WellFormed
        rw [Electorate.apply]
        split
        · exact happ
        · rename_i j hj
          exact ⟨(happ.2 j hj).2, by simp⟩
      · exact .inl rfl

section Alone

open Action (boot timeout turns)

end Alone

end Roster

end RaftConsensus
