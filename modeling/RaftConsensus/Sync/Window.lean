import RaftConsensus.Single.Steps

namespace RaftConsensus

namespace Raft

variable {σ : Type} {r r' r'' : Raft σ} {id : ServerID} {slots : List ℕ}

def InFlight (r : Raft σ) (id : ServerID) (slots : List ℕ) : Prop :=
  ∀ w ∈ r.inflightWindows.lookup id, 0 < w.cap ∧ w.slots = slots

theorem InFlight.windowFull (h : r.InFlight id []) : r.windowFull id = false := by
  unfold Raft.windowFull
  cases hw : r.inflightWindows.lookup id with
  | none => rfl
  | some w =>
    obtain ⟨hcap, hslots⟩ := h w hw
    have hfull : w.full = false := by
      simp only [InflightWindow.full, hslots, List.length_nil, decide_eq_false_iff_not]
      omega
    simp [hfull, InflightWindow.count, hslots]

theorem InFlight.addToWindow {req : AppendEntriesRequest} {last : LogEntry}
    (h : r.InFlight id slots) (hl : req.entries.getLast? = some last) :
    (r.addToWindow id req).InFlight id (slots ++ [last.index]) := by
  unfold Raft.addToWindow
  rw [hl]
  cases hw : r.inflightWindows.lookup id with
  | none =>
    intro w hw'
    rw [hw] at hw'
    cases hw'
  | some w =>
    intro w' hw'
    obtain ⟨hcap, hslots⟩ := h w hw
    rw [AList.lookup_insert] at hw'
    cases hw'
    refine ⟨hcap, ?_⟩
    change w.slots ++ [last.index] = slots ++ [last.index]
    rw [hslots]

theorem InFlight.resetWindow (h : r.InFlight id slots) : (r.resetWindow id).InFlight id [] := by
  intro w hw
  cases hx : r.inflightWindows.lookup id with
  | none =>
    simp only [Raft.resetWindow, hx] at hw
    cases hw
  | some x =>
    simp only [Raft.resetWindow, hx, AList.lookup_insert] at hw
    cases hw
    exact ⟨(h x hx).1, rfl⟩

theorem InFlight.recordMatch {i : ℕ} (h : r.InFlight id slots) (hs : slots = [] ∨ slots = [i]) :
    (r.recordMatch id i).InFlight id [] := by
  intro w hw
  have hm : ((r.raiseMatch id i).matchIndex.lookup id).getD 0 =
      max i ((r.matchIndex.lookup id).getD 0) := by
    unfold raiseMatch
    rw [AList.lookup_insert]
    rfl
  unfold Raft.recordMatch at hw
  dsimp only at hw
  rw [hm] at hw
  cases hx : r.inflightWindows.lookup id with
  | none =>
    rw [show (r.raiseMatch id i).inflightWindows.lookup id = none from hx] at hw
    cases hw.symm.trans hx
  | some x =>
    rw [show (r.raiseMatch id i).inflightWindows.lookup id = some x from hx] at hw
    dsimp only at hw
    rw [AList.lookup_insert] at hw
    cases hw
    obtain ⟨hcap, hslots⟩ := h x hx
    refine ⟨hcap, ?_⟩
    change x.slots.dropWhile (· ≤ max i _) = []
    rw [hslots]
    rcases hs with rfl | rfl
    · rfl
    · simp

end Raft

end RaftConsensus
