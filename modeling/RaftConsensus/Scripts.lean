import Mathlib.Logic.Relation

/-! Scripts: lists of commands that a partial step function follows. -/

namespace RaftConsensus.Script

variable {S A : Type} {step : S → A → Option S} {p : S → A → Bool} {s s' : S} {a : A}

def run (step : S → A → Option S) (s : S) : List A → Option S
  | [] => some s
  | a :: rest => (step s a).bind fun s ↦ run step s rest

/-- The steps that pass a check. -/
def guarded (p : S → A → Bool) (step : S → A → Option S) (s : S) (a : A) : Option S :=
  if p s a then step s a else none

theorem of_guarded (h : guarded p step s a = some s') : p s a = true ∧ step s a = some s' :=
  Option.ite_none_right_eq_some.mp h

/-- What each command of a script keeps, the script keeps. -/
theorem invariant_on {I : S → Prop} {script : List A}
    (hI : ∀ a ∈ script, ∀ s s', step s a = some s' → I s → I s')
    (h : run step s script = some s') (hs : I s) : I s' := by
  induction script generalizing s with
  | nil =>
    cases h
    exact hs
  | cons a rest ih =>
    obtain ⟨s₁, h₁, h⟩ := Option.bind_eq_some_iff.mp h
    exact ih (fun a ha ↦ hI a (.tail _ ha)) h (hI a (.head _) s s₁ h₁ hs)

theorem invariant {I : S → Prop} {script : List A}
    (hI : ∀ s a s', step s a = some s' → I s → I s')
    (h : run step s script = some s') : I s → I s' :=
  invariant_on (fun a _ s s' ↦ hI s a s') h

theorem reflTransGen {R : S → S → Prop} {script : List A}
    (hR : ∀ s a s', step s a = some s' → R s s') (h : run step s script = some s') :
    Relation.ReflTransGen R s s' :=
  invariant (fun s₁ a s₂ h₂ (h₁ : Relation.ReflTransGen R s s₁) ↦ h₁.tail (hR s₁ a s₂ h₂)) h .refl

end RaftConsensus.Script
