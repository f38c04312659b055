import Mathlib.Data.List.Infix
import Mathlib.Data.Set.Basic

/-!
A ledger: nodes vote for one leader per term, the leader of a term extends one list, the
others copy it, and a prefix that a quorum has confirmed is committed. Nothing is forgotten,
so the state also keeps every vote, every bid and every leader's list.
-/

namespace Ledger

variable {N E : Type}

structure State (N E : Type) where
  term : N → ℕ
  vote : N → ℕ → Option N
  bid : N → ℕ → Option (List E)
  log : N → List E
  leader : ℕ → Option N
  base : ℕ → List E
  full : ℕ → List E
  acked : N → ℕ → ℕ
  committed : ℕ → ℕ

namespace State

def init : State N E where
  term _ := 0
  vote _ _ := none
  bid _ _ := none
  log _ := []
  leader _ := none
  base _ := []
  full _ := []
  acked _ _ := 0
  committed _ := 0

variable [DecidableEq N] (s : State N E)

def adopt (v : N) (t : ℕ) : State N E := { s with term := Function.update s.term v t }

def setVote (v : N) (t : ℕ) (c : N) : State N E :=
  { s with vote := Function.update s.vote v (Function.update (s.vote v) t (some c)) }

def setBid (v : N) (t : ℕ) : State N E :=
  { s with bid := Function.update s.bid v (Function.update (s.bid v) t (some (s.log v))) }

def campaign (v : N) : State N E :=
  ((s.adopt v (s.term v + 1)).setVote v (s.term v + 1) v).setBid v (s.term v + 1)

def elect (c : N) : State N E :=
  { s with
    leader := Function.update s.leader (s.term c) (some c)
    base := Function.update s.base (s.term c) (s.log c)
    full := Function.update s.full (s.term c) (s.log c) }

def propose (c : N) (e : E) : State N E :=
  { s with
    full := Function.update s.full (s.term c) (s.full (s.term c) ++ [e])
    log := Function.update s.log c (s.log c ++ [e]) }

def setLog (v : N) (l : List E) : State N E := { s with log := Function.update s.log v l }

def ack (v : N) (k : ℕ) : State N E :=
  { s with
    acked := Function.update s.acked v
      (Function.update (s.acked v) (s.term v) (max k (s.acked v (s.term v)))) }

def commit (t k : ℕ) : State N E :=
  { s with committed := Function.update s.committed t (max k (s.committed t)) }

end State

section

variable (termOf : E → ℕ)

def lastTerm (l : List E) : ℕ := (l.getLast?.map termOf).getD 0

def UpToDate (l l' : List E) : Prop :=
  lastTerm termOf l' < lastTerm termOf l ∨
    lastTerm termOf l' = lastTerm termOf l ∧ l'.length ≤ l.length

end

def Intersecting (quorum : Set (Set N)) : Prop :=
  ∀ A ∈ quorum, ∀ B ∈ quorum, (A ∩ B).Nonempty

/-- A node other than the leader of its term drops the rest of its log only from an entry on
that conflicts with the leader's list, and copies only what continues a prefix of that list. -/
inductive Step [DecidableEq N] (termOf : E → ℕ) (quorum : Set (Set N)) (s : State N E) :
    State N E → Prop
  | adopt (v : N) (t : ℕ) (h : s.term v < t) : Step termOf quorum s (s.adopt v t)
  | campaign (v : N) : Step termOf quorum s (s.campaign v)
  | grant (v c : N) (l : List E) (hb : s.bid c (s.term v) = some l)
      (hv : ∀ d, s.vote v (s.term v) = some d → d = c) (hu : UpToDate termOf l (s.log v)) :
      Step termOf quorum s (s.setVote v (s.term v) c)
  | elect (c : N) (B : Set N) (hB : B ∈ quorum) (hv : ∀ v ∈ B, s.vote v (s.term c) = some c)
      (hn : s.leader (s.term c) = none) : Step termOf quorum s (s.elect c)
  | propose (c : N) (e : E) (hl : s.leader (s.term c) = some c) (he : termOf e = s.term c) :
      Step termOf quorum s (s.propose c e)
  | cut (v c : N) (j : ℕ) (e e' : E) (hl : s.leader (s.term v) = some c) (hc : c ≠ v)
      (he : (s.log v)[j]? = some e) (he' : (s.full (s.term v))[j]? = some e')
      (hne : termOf e ≠ termOf e') : Step termOf quorum s (s.setLog v ((s.log v).take j))
  | copy (v c : N) (e : E) (hl : s.leader (s.term v) = some c) (hc : c ≠ v)
      (hp : s.log v ++ [e] <+: s.full (s.term v)) :
      Step termOf quorum s (s.setLog v (s.log v ++ [e]))
  | ack (v c : N) (k : ℕ) (hl : s.leader (s.term v) = some c)
      (hk : k ≤ (s.full (s.term v)).length) (hp : (s.full (s.term v)).take k <+: s.log v) :
      Step termOf quorum s (s.ack v k)
  | commit (c : N) (k : ℕ) (A : Set N) (hA : A ∈ quorum) (hl : s.leader (s.term c) = some c)
      (hk : (s.base (s.term c)).length < k) (hk' : k ≤ (s.full (s.term c)).length)
      (ha : ∀ v ∈ A, k ≤ s.acked v (s.term c)) : Step termOf quorum s (s.commit (s.term c) k)

def Steps [DecidableEq N] (termOf : E → ℕ) (quorum : Set (Set N)) :
    State N E → State N E → Prop := Relation.ReflTransGen (Step termOf quorum)

section Updates

variable [DecidableEq N] (s : State N E) {β : Type}

theorem update₂_apply (f : N → ℕ → β) (v w : N) (t t' : ℕ) (x : β) :
    Function.update f v (Function.update (f v) t x) w t' =
      if w = v ∧ t' = t then x else f w t' := by
  by_cases hw : w = v
  · subst w
    by_cases ht : t' = t <;> simp [ht]
  · simp [hw]

theorem update₂_eq_some {f : N → ℕ → Option β} {v w : N} {t t' : ℕ} {x y : β}
    (h : Function.update f v (Function.update (f v) t (some x)) w t' = some y) :
    w = v ∧ t' = t ∧ y = x ∨ f w t' = some y := by
  rw [update₂_apply] at h
  split at h
  · rename_i hwt
    exact .inl ⟨hwt.1, hwt.2, (Option.some.inj h).symm⟩
  · exact .inr h

theorem update₂_keeps {f : N → ℕ → Option β} {v w : N} {t t' : ℕ} {x y : β}
    (hv : ∀ z, f v t = some z → z = x) (hw : f w t' = some y) :
    Function.update f v (Function.update (f v) t (some x)) w t' = some y := by
  rw [update₂_apply]
  split
  · rename_i hwt
    obtain ⟨rfl, rfl⟩ := hwt
    rw [hv y hw]
  · exact hw

theorem vote_setVote (v w : N) (t t' : ℕ) (c : N) :
    (s.setVote v t c).vote w t' = if w = v ∧ t' = t then some c else s.vote w t' :=
  update₂_apply ..

theorem vote_campaign (v w : N) (t : ℕ) :
    (s.campaign v).vote w t = if w = v ∧ t = s.term v + 1 then some v else s.vote w t :=
  update₂_apply ..

theorem bid_campaign (v w : N) (t : ℕ) :
    (s.campaign v).bid w t = if w = v ∧ t = s.term v + 1 then some (s.log v) else s.bid w t :=
  update₂_apply ..

theorem acked_ack (v w : N) (k t : ℕ) :
    (s.ack v k).acked w t =
      if w = v ∧ t = s.term v then max k (s.acked v (s.term v)) else s.acked w t :=
  update₂_apply ..

end Updates

end Ledger
