import RaftConsensus.Ledger.State

namespace Ledger

open List Function

variable {N E : Type} {termOf : E → ℕ} {quorum : Set (Set N)} {s s' : State N E}

/-- Up to each of its entries, the list agrees with the leader's list of that entry's term. -/
def Matching (termOf : E → ℕ) (s : State N E) (l : List E) : Prop :=
  ∀ i e, l[i]? = some e → l.take (i + 1) <+: s.full (termOf e)

variable {l' : List E} {α : Type}

theorem take_prefix_of_le {l l' : List α} {k : ℕ} (h : l <+: l') (hk : k ≤ l.length) :
    l.take k = l'.take k := by
  rw [prefix_iff_eq_take.mp h, take_take, min_eq_left hk]

theorem getElem?_of_isPrefix {l l' : List α} {i : ℕ} {a : α} (h : l <+: l')
    (hi : l[i]? = some a) : l'[i]? = some a := by
  obtain ⟨r, rfl⟩ := h
  obtain ⟨hlt, -⟩ := List.getElem?_eq_some_iff.mp hi
  rw [getElem?_append_left hlt, hi]

theorem Matching.of_isPrefix {l : List E} (h : Matching termOf s l') (hp : l <+: l') :
    Matching termOf s l := by
  intro i e hi
  obtain ⟨hlt, -⟩ := List.getElem?_eq_some_iff.mp hi
  rw [take_prefix_of_le hp (by omega)]
  exact h i e (getElem?_of_isPrefix hp hi)

theorem Matching.mono {l : List E} (h : Matching termOf s l)
    (hf : ∀ t, s.full t <+: s'.full t) : Matching termOf s' l :=
  fun i e hi ↦ (h i e hi).trans (hf _)

theorem Matching.concat {l : List E} {e : E} (h : Matching termOf s l)
    (he : l ++ [e] <+: s.full (termOf e)) : Matching termOf s (l ++ [e]) := by
  intro i x hi
  rcases lt_or_ge i l.length with hlt | hge
  · rw [getElem?_append_left hlt] at hi
    rw [take_append_of_le_length (by omega)]
    exact h i x hi
  · obtain ⟨hlen, -⟩ := List.getElem?_eq_some_iff.mp hi
    rw [length_append, length_singleton] at hlen
    obtain rfl : i = l.length := by omega
    rw [getElem?_concat_length, Option.some.injEq] at hi
    subst x
    exact (List.take_prefix _ _).trans he

/-- Lists that have an entry of the same term at the same place agree up to there. -/
theorem Matching.agree {l : List E} {i : ℕ} {e e' : E} (h : Matching termOf s l)
    (h' : Matching termOf s l') (he : l[i]? = some e) (he' : l'[i]? = some e')
    (ht : termOf e = termOf e') : l.take (i + 1) = l'.take (i + 1) := by
  have hl := h i e he
  have hl' := h' i e' he'
  rw [ht] at hl
  obtain ⟨hlt, -⟩ := List.getElem?_eq_some_iff.mp he
  obtain ⟨hlt', -⟩ := List.getElem?_eq_some_iff.mp he'
  have hlen : (l.take (i + 1)).length = (l'.take (i + 1)).length := by
    simp only [length_take]
    omega
  exact (prefix_of_prefix_length_le hl hl' hlen.le).eq_of_length hlen

theorem Matching.prefix_full {l : List E} (h : Matching termOf s l) (hl : l ≠ []) :
    l <+: s.full (lastTerm termOf l) := by
  have hlen : 0 < l.length := length_pos_iff.mpr hl
  obtain ⟨e, he⟩ : ∃ e, l.getLast? = some e := ⟨l.getLast hl, getLast?_eq_some_getLast hl⟩
  have hi : l[l.length - 1]? = some e := by rw [← getLast?_eq_getElem?, he]
  have := h _ _ hi
  rw [take_of_length_le (by omega)] at this
  simpa [lastTerm, he] using this

structure Lists (termOf : E → ℕ) (quorum : Set (Set N)) (s : State N E) : Prop where
  vote_le : ∀ {v t c}, s.vote v t = some c → t ≤ s.term v
  vote_bid : ∀ {v t c}, s.vote v t = some c → ∃ l, s.bid c t = some l
  bid_vote : ∀ {c t l}, s.bid c t = some l → s.vote c t = some c
  bid_lt : ∀ {c t l}, s.bid c t = some l → ∀ e ∈ l, termOf e < t
  bid_match : ∀ {c t l}, s.bid c t = some l → Matching termOf s l
  bid_log : ∀ {c t l}, s.bid c t = some l → s.term c = t →
    (∀ d, s.leader t = some d → d = c) → l <+: s.log c
  led_votes : ∀ {t c}, s.leader t = some c → ∃ B ∈ quorum, ∀ v ∈ B, s.vote v t = some c
  led_le : ∀ {t c}, s.leader t = some c → t ≤ s.term c
  led_log : ∀ {t c}, s.leader t = some c → s.term c = t → s.log c = s.full t
  unled : ∀ {t}, s.leader t = none → s.full t = []
  base_full : ∀ t, s.base t <+: s.full t
  base_lt : ∀ {t}, ∀ e ∈ s.base t, termOf e < t
  full_eq : ∀ {t}, ∀ e ∈ (s.full t).drop (s.base t).length, termOf e = t
  full_match : ∀ t, Matching termOf s (s.full t)
  log_le : ∀ {v}, ∀ e ∈ s.log v, termOf e ≤ s.term v
  log_match : ∀ v, Matching termOf s (s.log v)

namespace Lists

theorem init : Lists termOf quorum (State.init : State N E) := by
  constructor <;> simp [State.init, Matching]

section Facts

variable (h : Lists termOf quorum s)
include h

variable {c v : N} {e : E} {t : ℕ}

theorem full_le (he : e ∈ s.full t) : termOf e ≤ t := by
  rw [← take_append_drop (s.base t).length (s.full t), mem_append] at he
  rcases he with he | he
  · rw [← prefix_iff_eq_take.mp (h.base_full t)] at he
    exact (h.base_lt e he).le
  · exact (h.full_eq e he).le

theorem full_term_iff {i : ℕ} (he : (s.full t)[i]? = some e) :
    termOf e = t ↔ (s.base t).length ≤ i := by
  constructor
  · intro ht
    by_contra hlt
    have hb : (s.base t)[i]? = some e := by
      rw [prefix_iff_eq_take.mp (h.base_full t), getElem?_take_of_lt (by omega), he]
    exact absurd ht (h.base_lt e (mem_of_getElem? hb)).ne
  · intro hi
    refine h.full_eq e (mem_of_getElem? (i := i - (s.base t).length) ?_)
    rw [getElem?_drop, Nat.add_sub_cancel' hi, he]

theorem led_of_mem {l : List E} (hl : Matching termOf s l) (he : e ∈ l) :
    s.leader (termOf e) ≠ none := by
  intro hn
  obtain ⟨i, hlt, rfl⟩ := getElem_of_mem he
  have hp := hl i _ (getElem?_eq_getElem hlt)
  rw [h.unled hn, prefix_nil, take_eq_nil_iff] at hp
  rcases hp with hp | rfl
  · omega
  · simp at hlt

theorem log_lt (hn : s.leader (s.term c) = none) : ∀ e ∈ s.log c, termOf e < s.term c := by
  intro e he
  refine (h.log_le e he).lt_of_ne fun ht ↦ h.led_of_mem (h.log_match c) he ?_
  rw [ht, hn]

theorem leader_unique (hq : Intersecting quorum) {d : N} (hc : s.leader t = some c)
    {B : Set N} (hB : B ∈ quorum) (hd : ∀ v ∈ B, s.vote v t = some d) : d = c := by
  obtain ⟨A, hA, hv⟩ := h.led_votes hc
  obtain ⟨v, hvA, hvB⟩ := hq A hA B hB
  have := (hv v hvA).symm.trans (hd v hvB)
  exact (Option.some.inj this).symm

theorem vote_none (ht : s.term v < t) : s.vote v t = none := by
  cases hv : s.vote v t with
  | none => rfl
  | some c =>
    have := h.vote_le hv
    omega

end Facts

end Lists

structure Grows (s s' : State N E) : Prop where
  term_le : ∀ v, s.term v ≤ s'.term v
  full_grows : ∀ t, s.full t <+: s'.full t
  leader_eq : ∀ {t c}, s.leader t = some c → s'.leader t = some c
  base_eq : ∀ {t}, s.leader t ≠ none → s'.base t = s.base t
  vote_eq : ∀ {v t c}, s.vote v t = some c → s'.vote v t = some c
  bid_eq : ∀ {c t l}, s.bid c t = some l → s'.bid c t = some l
  acked_le : ∀ v t, s.acked v t ≤ s'.acked v t
  committed_le : ∀ t, s.committed t ≤ s'.committed t

namespace Grows

theorem refl (s : State N E) : Grows s s where
  term_le _ := le_rfl
  full_grows _ := prefix_rfl
  leader_eq := id
  base_eq _ := rfl
  vote_eq := id
  bid_eq := id
  acked_le _ _ := le_rfl
  committed_le _ := le_rfl

theorem trans {s'' : State N E} (h : Grows s s') (h' : Grows s' s'') : Grows s s'' where
  term_le v := (h.term_le v).trans (h'.term_le v)
  full_grows t := (h.full_grows t).trans (h'.full_grows t)
  leader_eq hl := h'.leader_eq (h.leader_eq hl)
  base_eq {t} hl := by
    obtain ⟨c, hc⟩ := Option.ne_none_iff_exists'.mp hl
    rw [h'.base_eq (by rw [h.leader_eq hc]; simp), h.base_eq hl]
  vote_eq hv := h'.vote_eq (h.vote_eq hv)
  bid_eq hb := h'.bid_eq (h.bid_eq hb)
  acked_le v t := (h.acked_le v t).trans (h'.acked_le v t)
  committed_le t := (h.committed_le t).trans (h'.committed_le t)

theorem led {t : ℕ} (h : Grows s s') (hl : s.leader t ≠ none) : s'.leader t ≠ none := by
  obtain ⟨c, hc⟩ := Option.ne_none_iff_exists'.mp hl
  rw [h.leader_eq hc]
  simp

theorem term_eq {t : ℕ} {c : N} (h : Grows s s') (ht : t ≤ s.term c) (hc : s'.term c = t) :
    s.term c = t :=
  ((h.term_le c).trans_eq hc).antisymm ht

theorem take_full {t k : ℕ} (h : Grows s s') (hk : k ≤ (s.full t).length) :
    (s'.full t).take k = (s.full t).take k :=
  (take_prefix_of_le (h.full_grows t) hk).symm

end Grows

theorem prefix_update {ι α : Type} [DecidableEq ι] {f : ι → List α} {v : ι} {l : List α}
    (h : f v <+: l) (w : ι) : f w <+: update f v l w := by
  by_cases hw : w = v
  · subst w
    rw [update_self]
    exact h
  · rw [update_of_ne hw]

theorem Step.grows [DecidableEq N] (h : Lists termOf quorum s) (hs : Step termOf quorum s s') :
    Grows s s' := by
  cases hs with
  | adopt v t ht => exact { Grows.refl s with term_le := le_update_self_iff.mpr ht.le }
  | campaign v =>
    have hlt := Nat.lt_succ_self (s.term v)
    refine { Grows.refl s with
      term_le := le_update_self_iff.mpr hlt.le
      vote_eq := update₂_keeps fun d hd ↦ ?_
      bid_eq := update₂_keeps fun l hl ↦ ?_ }
    · exact absurd (h.vote_le hd) hlt.not_ge
    · exact absurd (h.vote_le (h.bid_vote hl)) hlt.not_ge
  | grant v c l hb hv hu => exact { Grows.refl s with vote_eq := update₂_keeps hv }
  | elect c B hB hv hn =>
    refine { Grows.refl s with
      full_grows := prefix_update ?_, leader_eq := fun {t d} hd ↦ ?_, base_eq := fun {t} hl ↦ ?_ }
    · rw [h.unled hn]
      exact nil_prefix
    · refine (update_of_ne ?_ ..).trans hd
      rintro rfl
      rw [hn] at hd
      cases hd
    · refine update_of_ne ?_ ..
      rintro rfl
      exact hl hn
  | propose c e hl he => exact { Grows.refl s with full_grows := prefix_update (prefix_append ..) }
  | cut v c j e e' hl hc he he' hne => exact { Grows.refl s with }
  | copy v c e hl hc hp => exact { Grows.refl s with }
  | ack v c k hl hk hp =>
    have hle : s.acked ≤ (s.ack v k).acked :=
      le_update_self_iff.mpr (le_update_self_iff.mpr (le_max_right ..))
    exact { Grows.refl s with acked_le := hle }
  | commit c k A hA hl hk hk' ha =>
    exact { Grows.refl s with committed_le := le_update_self_iff.mpr (le_max_right ..) }

namespace Lists

section Preservation

variable [DecidableEq N] (h : Lists termOf quorum s)
include h

variable {c v : N} {l : List E} {t : ℕ}

theorem adopt (hg : Grows s (s.adopt v t)) : Lists termOf quorum (s.adopt v t) :=
  { h with
    vote_le := fun hv ↦ (h.vote_le hv).trans (hg.term_le _)
    bid_log := fun hb hc hd ↦ h.bid_log hb (hg.term_eq (h.vote_le (h.bid_vote hb)) hc) hd
    led_le := fun hl ↦ (h.led_le hl).trans (hg.term_le _)
    led_log := fun hl hc ↦ h.led_log hl (hg.term_eq (h.led_le hl) hc)
    log_le := fun e he ↦ (h.log_le e he).trans (hg.term_le _) }

theorem setVote (hg : Grows s (s.setVote v t c)) (ht : t ≤ s.term v) (hb : s.bid c t = some l) :
    Lists termOf quorum (s.setVote v t c) := by
  refine { h with
    vote_le := fun hw ↦ ?_, vote_bid := fun hw ↦ ?_
    bid_vote := fun hd ↦ hg.vote_eq (h.bid_vote hd), led_votes := fun hl ↦ ?_ }
  · rcases update₂_eq_some hw with ⟨rfl, rfl, -⟩ | hw
    · exact ht
    · exact h.vote_le hw
  · rcases update₂_eq_some hw with ⟨-, rfl, rfl⟩ | hw
    · exact ⟨l, hb⟩
    · exact h.vote_bid hw
  · obtain ⟨B, hB, hv⟩ := h.led_votes hl
    exact ⟨B, hB, fun w hw ↦ hg.vote_eq (hv w hw)⟩

theorem campaign (hg : Grows s (s.campaign v)) : Lists termOf quorum (s.campaign v) := by
  refine { h with
    vote_le := fun hw ↦ ?_, vote_bid := fun hw ↦ ?_, bid_vote := fun hb ↦ ?_
    bid_lt := fun hb e he ↦ ?_, bid_match := fun hb ↦ ?_, bid_log := fun hb hd hl ↦ ?_
    led_votes := fun hl ↦ ?_
    led_le := fun hl ↦ (h.led_le hl).trans (hg.term_le _)
    led_log := fun hl hc ↦ h.led_log hl (hg.term_eq (h.led_le hl) hc)
    log_le := fun e he ↦ (h.log_le e he).trans (hg.term_le _) }
  · rcases update₂_eq_some hw with ⟨rfl, rfl, -⟩ | hw
    · simp [State.campaign, State.setBid, State.setVote, State.adopt]
    · exact (h.vote_le hw).trans (hg.term_le _)
  · rcases update₂_eq_some hw with ⟨-, rfl, rfl⟩ | hw
    · exact ⟨_, (bid_campaign ..).trans (if_pos ⟨rfl, rfl⟩)⟩
    · obtain ⟨l, hl⟩ := h.vote_bid hw
      exact ⟨l, hg.bid_eq hl⟩
  · rcases update₂_eq_some hb with ⟨rfl, rfl, -⟩ | hb
    · exact (vote_campaign ..).trans (if_pos ⟨rfl, rfl⟩)
    · exact hg.vote_eq (h.bid_vote hb)
  · rcases update₂_eq_some hb with ⟨-, rfl, rfl⟩ | hb
    · exact Nat.lt_succ_of_le (h.log_le e he)
    · exact h.bid_lt hb e he
  · rcases update₂_eq_some hb with ⟨-, -, rfl⟩ | hb
    · exact h.log_match v
    · exact h.bid_match hb
  · rcases update₂_eq_some hb with ⟨rfl, -, rfl⟩ | hb
    · exact prefix_rfl
    · exact h.bid_log hb (hg.term_eq (h.vote_le (h.bid_vote hb)) hd) hl
  · obtain ⟨B, hB, hv⟩ := h.led_votes hl
    exact ⟨B, hB, fun w hw ↦ hg.vote_eq (hv w hw)⟩

omit [DecidableEq N] in
theorem elect {B : Set N} (hg : Grows s (s.elect c)) (hB : B ∈ quorum)
    (hv : ∀ v ∈ B, s.vote v (s.term c) = some c) (hn : s.leader (s.term c) = none) :
    Lists termOf quorum (s.elect c) := by
  have hled {t d} (hd : (s.elect c).leader t = some d) :
      t = s.term c ∧ d = c ∨ t ≠ s.term c ∧ s.leader t = some d := by
    by_cases ht : t = s.term c
    · subst t
      exact .inl ⟨rfl, Option.some.inj (hd.symm.trans (update_self ..))⟩
    · exact .inr ⟨ht, (update_of_ne ht ..).symm.trans hd⟩
  have hlist (t) : (s.elect c).base t <+: (s.elect c).full t ∧
      (∀ e ∈ (s.elect c).base t, termOf e < t) ∧
      (∀ e ∈ ((s.elect c).full t).drop ((s.elect c).base t).length, termOf e = t) ∧
      Matching termOf s ((s.elect c).full t) := by
    by_cases ht : t = s.term c
    · subst t
      simp only [State.elect, update_self]
      exact ⟨prefix_rfl, h.log_lt hn, by simp, h.log_match c⟩
    · simp only [State.elect, update_of_ne ht]
      exact ⟨h.base_full t, h.base_lt, h.full_eq, h.full_match t⟩
  refine { h with
    bid_match := fun hb ↦ (h.bid_match hb).mono hg.full_grows
    bid_log := fun hb hd hl ↦ h.bid_log hb hd fun d' hd' ↦ hl d' (hg.leader_eq hd')
    led_votes := fun hd ↦ ?_, led_le := fun hd ↦ ?_, led_log := fun hd hdt ↦ ?_, unled :=
    fun {t} hl ↦ ?_
    base_full := fun t ↦ (hlist t).1
    base_lt := (hlist _).2.1
    full_eq := (hlist _).2.2.1
    full_match := fun t ↦ (hlist t).2.2.2.mono hg.full_grows
    log_match := fun v ↦ (h.log_match v).mono hg.full_grows }
  · rcases hled hd with ⟨rfl, rfl⟩ | ⟨-, hd⟩
    · exact ⟨B, hB, hv⟩
    · exact h.led_votes hd
  · rcases hled hd with ⟨rfl, rfl⟩ | ⟨-, hd⟩
    · exact le_rfl
    · exact h.led_le hd
  · rcases hled hd with ⟨rfl, rfl⟩ | ⟨ht, hd⟩
    · simp [State.elect]
    · exact (h.led_log hd hdt).trans (update_of_ne ht ..).symm
  · have ht : t ≠ s.term c := by
      rintro rfl
      simp [State.elect] at hl
    exact (update_of_ne ht ..).trans (h.unled ((update_of_ne ht ..).symm.trans hl))

theorem propose {e : E} (hg : Grows s (s.propose c e)) (hl : s.leader (s.term c) = some c)
    (he : termOf e = s.term c) : Lists termOf quorum (s.propose c e) := by
  have hself : (s.propose c e).full (s.term c) = s.full (s.term c) ++ [e] := update_self ..
  have hlog : s.log c = s.full (s.term c) := h.led_log hl rfl
  have hmatch : Matching termOf (s.propose c e) (s.full (s.term c) ++ [e]) := by
    refine ((h.full_match _).mono hg.full_grows).concat ?_
    rw [he, hself]
  refine { h with
    bid_match := fun hb ↦ (h.bid_match hb).mono hg.full_grows
    bid_log := fun hb hd hl ↦ (h.bid_log hb hd hl).trans (prefix_update (prefix_append ..) _)
    led_log := fun {t d} hd hdt ↦ ?_, unled := fun {t} ht ↦ ?_
    base_full := fun t ↦ (h.base_full t).trans (hg.full_grows t)
    full_eq := fun {t} x hx ↦ ?_, full_match := fun t ↦ ?_, log_le := fun {v} x hx ↦ ?_
    log_match := fun v ↦ ?_ }
  · by_cases hdc : d = c
    · subst d
      obtain rfl : s.term c = t := hdt
      simp [State.propose, hlog]
    · have ht : t ≠ s.term c := by
        rintro rfl
        exact hdc (Option.some.inj (hd.symm.trans hl))
      simp only [State.propose, update_of_ne hdc, update_of_ne ht]
      exact h.led_log hd hdt
  · have htc : t ≠ s.term c := by
      rintro rfl
      cases hl.symm.trans ht
    exact (update_of_ne htc ..).trans (h.unled ht)
  · by_cases ht : t = s.term c
    · subst t
      rw [hself, show (s.propose c e).base = s.base from rfl,
        drop_append_of_le_length (h.base_full _).length_le, mem_append, mem_singleton] at hx
      rcases hx with hx | rfl
      · exact h.full_eq x hx
      · exact he
    · simp only [State.propose, update_of_ne ht] at hx
      exact h.full_eq x hx
  · by_cases ht : t = s.term c
    · rw [ht, hself]
      exact hmatch
    · simpa only [State.propose, update_of_ne ht] using (h.full_match t).mono hg.full_grows
  · by_cases hv : v = c
    · subst v
      simp only [State.propose, update_self, mem_append, mem_singleton] at hx
      rcases hx with hx | rfl
      · exact h.log_le x hx
      · exact he.le
    · simp only [State.propose, update_of_ne hv] at hx
      exact h.log_le x hx
  · by_cases hv : v = c
    · subst v
      simpa only [State.propose, update_self, hlog] using hmatch
    · simpa only [State.propose, update_of_ne hv] using (h.log_match v).mono hg.full_grows

theorem setLog (hl : s.leader (s.term v) = some c) (hc : c ≠ v)
    (hle : ∀ e ∈ l, termOf e ≤ s.term v) (hm : Matching termOf s l) :
    Lists termOf quorum (s.setLog v l) := by
  refine { h with bid_log := ?_, led_log := ?_, log_le := ?_, log_match := ?_ }
  · intro d t l' hb hd hl'
    by_cases hdv : d = v
    · subst d
      obtain rfl : s.term v = t := hd
      exact absurd (hl' c hl) hc
    · simpa only [State.setLog, update_of_ne hdv] using h.bid_log hb hd hl'
  · intro t d hd hdt
    by_cases hdv : d = v
    · subst d
      obtain rfl : s.term v = t := hdt
      exact absurd (Option.some.inj (hl.symm.trans hd)) hc
    · simpa only [State.setLog, update_of_ne hdv] using h.led_log hd hdt
  · intro w e he
    by_cases hw : w = v
    · subst w
      simp only [State.setLog, update_self] at he
      exact hle e he
    · simp only [State.setLog, update_of_ne hw] at he
      exact h.log_le e he
  · intro w
    by_cases hw : w = v
    · subst w
      simp only [State.setLog, update_self]
      exact hm
    · simp only [State.setLog, update_of_ne hw]
      exact h.log_match w

theorem step (hs : Step termOf quorum s s') : Lists termOf quorum s' := by
  have hg := hs.grows h
  cases hs with
  | adopt v t ht => exact h.adopt hg
  | campaign v => exact h.campaign hg
  | grant v c l hb hv hu => exact h.setVote hg le_rfl hb
  | elect c B hB hv hn => exact h.elect hg hB hv hn
  | propose c e hl he => exact h.propose hg hl he
  | cut v c j e e' hl hc he he' hne =>
    exact h.setLog hl hc (fun x hx ↦ h.log_le x (mem_of_mem_take hx))
      ((h.log_match v).of_isPrefix (List.take_prefix j _))
  | copy v c e hl hc hp =>
    exact h.setLog hl hc (fun x hx ↦ h.full_le (hp.subset hx)) ((h.full_match _).of_isPrefix hp)
  | ack v c k hl hk hp => exact { h with }
  | commit c k A hA hl hk hk' ha => exact { h with }

end Preservation

end Lists

end Ledger
