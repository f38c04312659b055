import RaftConsensus.Ledger.Kept

namespace Ledger

open List Function

variable {N E : Type} {termOf : E → ℕ} {quorum : Set (Set N)} {s s' : State N E}

structure Sound (termOf : E → ℕ) (quorum : Set (Set N)) (s : State N E) : Prop where
  lists : Lists termOf quorum s
  kept : Kept quorum s

namespace Sound

theorem init : Sound termOf quorum (State.init : State N E) := ⟨Lists.init, Kept.init⟩

theorem step [DecidableEq N] (h : Sound termOf quorum s) (hq : Intersecting quorum)
    (hs : Step termOf quorum s s') : Sound termOf quorum s' :=
  ⟨h.lists.step hs, h.kept.step h.lists hq hs⟩

theorem steps [DecidableEq N] (h : Sound termOf quorum s) (hq : Intersecting quorum)
    (hs : Steps termOf quorum s s') : Sound termOf quorum s' := by
  induction hs with
  | refl => exact h
  | tail _ hs ih => exact ih.step hq hs

theorem grows [DecidableEq N] (h : Sound termOf quorum s) (hq : Intersecting quorum)
    (hs : Steps termOf quorum s s') : Grows s s' := by
  induction hs with
  | refl => exact Grows.refl s
  | tail hs' hs ih => exact ih.trans (hs.grows (h.steps hq hs').lists)

variable {e : E}

theorem log_matching (h : Sound termOf quorum s) {u v : N} {i : ℕ} {e' : E}
    (he : (s.log u)[i]? = some e) (he' : (s.log v)[i]? = some e') (ht : termOf e = termOf e') :
    (s.log u).take (i + 1) = (s.log v).take (i + 1) :=
  (h.lists.log_match u).agree (h.lists.log_match v) he he' ht

/-- The leader of a later term starts with everything committed before. The voter that had
also confirmed the entries cannot have lost them to a leader in between, by induction. -/
theorem leader_complete (h : Sound termOf quorum s) (hq : Intersecting quorum) {t t' k : ℕ}
    (ht : t < t') (hl : s.leader t' ≠ none) (hk : k ≤ s.committed t) :
    (s.full t).take k <+: s.base t' := by
  refine (take_prefix_take_left hk).trans ?_
  induction t' using Nat.strong_induction_on with
  | _ t' ih =>
    rcases h.kept.committed_acked t with h0 | ⟨hb, A, hA, ha⟩
    · rw [h0]
      exact nil_prefix
    · obtain ⟨c, hc⟩ := Option.ne_none_iff_exists'.mp hl
      obtain ⟨B, hB, hkept⟩ := h.kept.acked_base hc
      obtain ⟨v, hvA, hvB⟩ := hq A hA B hB
      rcases (hkept v hvB).2 t _ ht hb (ha v hvA) with hp | ⟨u, htu, hut, hled, hn⟩
      · exact hp
      · exact absurd (ih u hut htu hled) hn

/-- A node with the votes of a quorum takes over the term and adds an entry to its log. It may
have led the term before. -/
theorem take_over [DecidableEq N] (h : Sound termOf quorum s) (hq : Intersecting quorum) {n : N}
    {B : Set N} (hB : B ∈ quorum) (hv : ∀ v ∈ B, s.vote v (s.term n) = some n)
    (he : termOf e = s.term n) : ∃ s', Steps termOf quorum s s' ∧ s'.term = s.term ∧
      s'.log = update s.log n (s.log n ++ [e]) ∧ s'.vote = s.vote ∧ s'.bid = s.bid ∧
      s'.leader (s.term n) = some n ∧ s'.base (s.term n) <+: s.log n := by
  cases hl : s.leader (s.term n) with
  | none =>
    have hel : Step termOf quorum s (s.elect n) := .elect n B hB hv hl
    have hlead : (s.elect n).leader (s.term n) = some n := update_self ..
    refine ⟨(s.elect n).propose n e, .tail (.single hel)
      (.propose n e hlead he), rfl, rfl, rfl, rfl, hlead, ?_⟩
    rw [show ((s.elect n).propose n e).base (s.term n) = s.log n from update_self ..]
  | some c =>
    obtain rfl : n = c := h.lists.leader_unique hq hl hB hv
    refine ⟨s.propose n e, .single (.propose n e hl he), rfl, rfl, rfl, rfl, hl, ?_⟩
    rw [h.lists.led_log hl rfl]
    exact h.lists.base_full _

end Sound

def Committed (s : State N E) (t k : ℕ) (l : List E) : Prop :=
  ∃ t' ≤ t, k ≤ s.committed t' ∧ (s.full t').take k <+: l

namespace Committed

theorem zero (t : ℕ) (l : List E) : Committed s t 0 l := ⟨t, le_rfl, Nat.zero_le _, nil_prefix⟩

variable {k t u : ℕ} {l m : List E} {v : N}

theorem length_le (hs : Sound termOf quorum s) (h : Committed s t k l) :
    k ≤ l.length := by
  obtain ⟨t', -, hk, hp⟩ := h
  have := hs.kept.committed_le t'
  have := hp.length_le
  rw [length_take] at this
  omega

theorem mono (hs : Sound termOf quorum s) (hg : Grows s s')
    (h : Committed s t k l) (ht : t ≤ u) (hl : l <+: m) : Committed s' u k m := by
  obtain ⟨t', ht', hk, hp⟩ := h
  refine ⟨t', ht'.trans ht, hk.trans (hg.committed_le t'), ?_⟩
  rw [hg.take_full (hk.trans (hs.kept.committed_le t'))]
  exact hp.trans hl

theorem of_le {k' : ℕ} (h : Committed s t k l) (hk : k' ≤ k) :
    Committed s t k' l := by
  obtain ⟨t', ht', hk', hp⟩ := h
  exact ⟨t', ht', hk.trans hk', (take_prefix_take_left hk).trans hp⟩

theorem congr (h : Committed s t k l)
    (hm : l.take k <+: m) : Committed s t k m := by
  obtain ⟨t', ht', hk, hp⟩ := h
  refine ⟨t', ht', hk, ?_⟩
  refine (prefix_take_iff.mpr ⟨hp, ?_⟩).trans hm
  exact length_take_le _ _

theorem take_full (hs : Sound termOf quorum s) {t' : ℕ}
    (hk : k ≤ s.committed t') (hp : (s.full t').take k <+: l) :
    l.take k = (s.full t').take k := by
  have hlen : ((s.full t').take k).length = k := by
    have := hs.kept.committed_le t'
    rw [length_take]
    omega
  rw [prefix_iff_eq_take.mp hp, hlen]

theorem base (hs : Sound termOf quorum s) (hq : Intersecting quorum)
    (h : Committed s t k l) (ht : t < u) (hu : s.leader u ≠ none) : l.take k <+: s.base u := by
  obtain ⟨t', ht', hk, hp⟩ := h
  rw [take_full hs hk hp]
  exact hs.leader_complete hq (ht'.trans_lt ht) hu hk

theorem agree (hs : Sound termOf quorum s) (hq : Intersecting quorum)
    (h : Committed s t k l) (h' : Committed s u k m) : l.take k = m.take k := by
  obtain ⟨t', -, hk, hp⟩ := h
  obtain ⟨u', -, hk', hp'⟩ := h'
  rw [take_full hs hk hp, take_full hs hk' hp']
  -- the later of the two terms has the earlier one's prefix in its base
  have key {a b : ℕ} (hab : a < b) (ha : k ≤ s.committed a) (hb : k ≤ s.committed b) :
      (s.full a).take k = (s.full b).take k := by
    rcases Nat.eq_zero_or_pos k with rfl | hpos
    · simp
    · have hled : s.leader b ≠ none := by
        intro hn
        have := hs.kept.committed_le b
        rw [hs.lists.unled hn, length_nil] at this
        omega
      have hbase := (hs.leader_complete hq hab hled ha).trans (hs.lists.base_full b)
      exact (take_full hs ha hbase).symm
  rcases lt_trichotomy t' u' with hlt | rfl | hlt
  · exact key hlt hk hk'
  · rfl
  · exact (key hlt hk' hk).symm

/-- No step drops a committed entry from a log. -/
theorem log_step [DecidableEq N] (hs : Sound termOf quorum s)
    (hq : Intersecting quorum) (hst : Step termOf quorum s s')
    (h : Committed s (s.term v) k (s.log v)) : Committed s' (s'.term v) k (s'.log v) := by
  have hg := hst.grows hs.lists
  have keep (hl : s.log v <+: s'.log v) : Committed s' (s'.term v) k (s'.log v) :=
    h.mono hs hg (hg.term_le v) hl
  cases hst with
  | cut w c j e e' hled hc he he' hne =>
    by_cases hv : v = w
    · subst v
      refine (h.congr (m := (s.log w).take j) ?_).mono hs hg le_rfl (by simp [State.setLog])
      refine take_prefix_take_left ?_
      by_contra hlt
      -- the conflicting entry would be committed, so the leader would have it
      have hp : (s.log w).take k <+: s.full (s.term w) := by
        obtain ⟨t', ht', hk, hp⟩ := h
        rcases ht'.lt_or_eq with hlt' | rfl
        · exact (base hs hq ⟨t', le_rfl, hk, hp⟩ hlt' (by rw [hled]; simp)).trans
            (hs.lists.base_full _)
        · rw [take_full hs hk hp]
          exact take_prefix _ _
      have hx : ((s.log w).take k)[j]? = some e := by
        rw [getElem?_take_of_lt (by omega), he]
      have := (getElem?_of_isPrefix hp hx).symm.trans he'
      exact hne (congrArg termOf (Option.some.inj this))
    · exact keep (by simp [State.setLog, hv])
  | propose c e hled he => exact keep (prefix_update (prefix_append ..) v)
  | copy w c e hled hc hp => exact keep (prefix_update (prefix_append ..) v)
  | _ => exact keep prefix_rfl

theorem log_steps [DecidableEq N] (hs : Sound termOf quorum s)
    (hq : Intersecting quorum) (hst : Steps termOf quorum s s')
    (h : Committed s (s.term v) k (s.log v)) : Committed s' (s'.term v) k (s'.log v) := by
  induction hst with
  | refl => exact h
  | tail hst' hst ih => exact ih.log_step (hs.steps hq hst') hq hst

theorem getElem?_steps [DecidableEq N] {i : ℕ} (hs : Sound termOf quorum s)
    (hq : Intersecting quorum) (hst : Steps termOf quorum s s')
    (h : Committed s (s.term v) k (s.log v)) (hi : i < k) : (s'.log v)[i]? = (s.log v)[i]? := by
  have hold : Committed s' (s.term v) k (s.log v) :=
    h.mono hs (hs.grows hq hst) le_rfl prefix_rfl
  have heq := (h.log_steps hs hq hst).agree (hs.steps hq hst) hq hold
  rw [← getElem?_take_of_lt hi, heq, getElem?_take_of_lt hi]

end Committed

end Ledger
