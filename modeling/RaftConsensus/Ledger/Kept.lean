import RaftConsensus.Ledger.Lists

namespace Ledger

open List Function

variable {N E : Type} {termOf : E → ℕ} {quorum : Set (Set N)} {s s' : State N E}

/-- The first `k` entries of the list of term `t` are in `l`, or some leader of a later term
below `u` started without them. -/
def Held (s : State N E) (t k : ℕ) (l : List E) (u : ℕ) : Prop :=
  (s.full t).take k <+: l ∨
    ∃ t', t < t' ∧ t' < u ∧ s.leader t' ≠ none ∧ ¬ (s.full t).take k <+: s.base t'

theorem Held.mono {t k u u' : ℕ} {l l' : List E} (h : Held s t k l u) (hg : Grows s s')
    (hk : k ≤ (s.full t).length) (hl : l <+: l') (hu : u ≤ u') : Held s' t k l' u' := by
  unfold Held
  rw [hg.take_full hk]
  rcases h with h | ⟨t', ht, htu, hled, hn⟩
  · exact .inl (h.trans hl)
  · refine .inr ⟨t', ht, htu.trans_le hu, hg.led hled, ?_⟩
    rwa [hg.base_eq hled]

/-- What a node has confirmed stays in its log, and what a voter had confirmed before is in
the log of the candidate, as long as every leader in between started with it. -/
structure Kept (quorum : Set (Set N)) (s : State N E) : Prop where
  acked_le : ∀ v t, s.acked v t ≤ (s.full t).length
  acked_term : ∀ {v t}, s.term v < t → s.acked v t = 0
  acked_log : ∀ {v t k}, k ≤ s.acked v t → Held s t k (s.log v) (s.term v + 1)
  acked_bid : ∀ {v t t' k c l}, s.vote v t' = some c → s.bid c t' = some l → t < t' →
    (s.base t).length < k → k ≤ s.acked v t → Held s t k l (t' + 1)
  acked_base : ∀ {t' c}, s.leader t' = some c → ∃ B ∈ quorum, ∀ v ∈ B, t' ≤ s.term v ∧
    ∀ t k, t < t' → (s.base t).length < k → k ≤ s.acked v t → Held s t k (s.base t') t'
  committed_le : ∀ t, s.committed t ≤ (s.full t).length
  committed_acked : ∀ t, s.committed t = 0 ∨ (s.base t).length < s.committed t ∧
    ∃ A ∈ quorum, ∀ v ∈ A, s.committed t ≤ s.acked v t

/-- The candidate whose log is up to date with a log that holds the first `k` entries of
term `t` holds them too, unless the leader of its last term started without them. -/
theorem Held.of_upToDate {t t' k : ℕ} {l l' : List E} (h : Lists termOf quorum s)
    (hk : (s.base t).length < k) (hkf : k ≤ (s.full t).length)
    (hp : (s.full t).take k <+: l') (hm' : Matching termOf s l') (hm : Matching termOf s l)
    (hlt : ∀ e ∈ l, termOf e < t') (hu : UpToDate termOf l l') : Held s t k l t' := by
  have hlen : k ≤ l'.length := by simpa [hkf] using hp.length_le
  have hne' : l' ≠ [] := length_pos_iff.mp (by omega)
  have hle : t ≤ lastTerm termOf l' := by
    have hi : (s.full t)[k - 1]? = some (s.full t)[k - 1] := getElem?_eq_getElem _
    have ht := (h.full_term_iff hi).mpr (by omega)
    have hi' : ((s.full t).take k)[k - 1]? = some (s.full t)[k - 1] := by
      rw [getElem?_take_of_lt (by omega), hi]
    have hmem := getElem?_of_isPrefix (hm'.prefix_full hne') (getElem?_of_isPrefix hp hi')
    rw [← ht]
    exact h.full_le (mem_of_getElem? hmem)
  rcases hu with hu | ⟨hu, hll⟩
  · have hne : l ≠ [] := by
      rintro rfl
      simp [lastTerm] at hu
    have hfull := hm.prefix_full hne
    obtain ⟨e, he⟩ : ∃ e, l.getLast? = some e := ⟨_, getLast?_eq_some_getLast hne⟩
    have hterm : lastTerm termOf l = termOf e := by simp [lastTerm, he]
    have hlast : l[l.length - 1]? = some e := by rw [← getLast?_eq_getElem?, he]
    have hmem : e ∈ l := mem_of_getElem? hlast
    have hbase : s.base (lastTerm termOf l) <+: l := by
      have := (h.full_term_iff (getElem?_of_isPrefix hfull hlast)).mp hterm.symm
      have hpos : 0 < l.length := length_pos_iff.mpr hne
      exact prefix_of_prefix_length_le (h.base_full _) hfull (by omega)
    by_cases hb : (s.full t).take k <+: s.base (lastTerm termOf l)
    · exact .inl (hb.trans hbase)
    · refine .inr ⟨_, by omega, ?_, ?_, hb⟩
      · rw [hterm]
        exact hlt e hmem
      · rw [hterm]
        exact h.led_of_mem hm hmem
  · have hne : l ≠ [] := length_pos_iff.mp (by omega)
    have hp' := hm'.prefix_full hne'
    rw [hu] at hp'
    exact .inl (hp.trans (prefix_of_prefix_length_le hp' (hm.prefix_full hne) hll))

namespace Kept

theorem init : Kept quorum (State.init : State N E) := by
  constructor <;> simp [State.init, Held]

theorem acked_unled (h : Kept quorum s) (hl : Lists termOf quorum s) {t : ℕ}
    (hn : s.leader t = none) (v : N) : s.acked v t = 0 := by
  have := h.acked_le v t
  rw [hl.unled hn, length_nil] at this
  omega

theorem of_grows (h : Kept quorum s) (hl : Lists termOf quorum s) (hg : Grows s s')
    (hlog : ∀ v, s.log v <+: s'.log v) (hacked : s'.acked = s.acked)
    (hcommitted : s'.committed = s.committed)
    (hbid : ∀ {v t t' k c l}, s'.vote v t' = some c → s'.bid c t' = some l → t < t' →
      (s.base t).length < k → k ≤ s.acked v t → Held s t k l (t' + 1))
    (hled : ∀ {t' c}, s'.leader t' = some c → ∃ B ∈ quorum, ∀ v ∈ B, t' ≤ s.term v ∧
      ∀ t k, t < t' → (s.base t).length < k → k ≤ s.acked v t → Held s t k (s'.base t') t') :
    Kept quorum s' := by
  have hbase {v t k} (hk : (s'.base t).length < k) (hk' : k ≤ s.acked v t) :
      (s.base t).length < k := by
    rwa [← hg.base_eq fun hn ↦ by have := h.acked_unled hl hn v; omega]
  refine ⟨fun v t ↦ ?_, fun {v t} ht ↦ ?_, fun {v t k} hk ↦ ?_,
    fun {v t t' k c l} hv hb ht hk hk' ↦ ?_,
    fun {t' c} hc ↦ ?_, fun t ↦ ?_, fun t ↦ ?_⟩
  · rw [hacked]
    exact (h.acked_le v t).trans (hg.full_grows t).length_le
  · rw [hacked]
    exact h.acked_term ((hg.term_le v).trans_lt ht)
  · rw [hacked] at hk
    have hle := hg.term_le v
    exact (h.acked_log hk).mono hg (hk.trans (h.acked_le v t)) (hlog v) (by omega)
  · rw [hacked] at hk'
    exact (hbid hv hb ht (hbase hk hk') hk').mono hg (hk'.trans (h.acked_le v t)) prefix_rfl le_rfl
  · obtain ⟨B, hB, hkept⟩ := hled hc
    refine ⟨B, hB, fun v hv ↦ ⟨(hkept v hv).1.trans (hg.term_le v), fun t k ht hk hk' ↦ ?_⟩⟩
    rw [hacked] at hk'
    exact ((hkept v hv).2 t k ht (hbase hk hk') hk').mono hg (hk'.trans (h.acked_le v t)) prefix_rfl
      le_rfl
  · rw [hcommitted]
    exact (h.committed_le t).trans (hg.full_grows t).length_le
  · rw [hacked, hcommitted]
    refine (h.committed_acked t).imp_right fun ⟨hb, hA⟩ ↦ ⟨?_, hA⟩
    rwa [hg.base_eq fun hn ↦ ?_]
    have := h.committed_le t
    rw [hl.unled hn, length_nil] at this
    omega

section Preservation

variable [DecidableEq N] (hl : Lists termOf quorum s) (h : Kept quorum s)
include hl h

theorem campaign {v : N} (hg : Grows s (s.campaign v)) : Kept quorum (s.campaign v) := by
  refine h.of_grows hl hg (fun _ ↦ prefix_rfl) rfl rfl (fun {w t t' k c l} hv hb ht hk hk' ↦ ?_)
    h.acked_base
  have hnew {l} (hb : s.bid v (s.term v + 1) = some l) : False :=
    absurd (hl.vote_le (hl.bid_vote hb)) (Nat.not_succ_le_self _)
  rcases update₂_eq_some hv with ⟨rfl, rfl, rfl⟩ | hv
  · rcases update₂_eq_some hb with ⟨-, -, rfl⟩ | hb
    · exact (h.acked_log hk').mono (.refl s) (hk'.trans (h.acked_le _ t)) prefix_rfl (by omega)
    · exact (hnew hb).elim
  · rcases update₂_eq_some hb with ⟨rfl, rfl, -⟩ | hb
    · obtain ⟨l, hb⟩ := hl.vote_bid hv
      exact (hnew hb).elim
    · exact h.acked_bid hv hb ht hk hk'

theorem grant {v c : N} {l : List E} (hg : Grows s (s.setVote v (s.term v) c))
    (hb : s.bid c (s.term v) = some l) (hu : UpToDate termOf l (s.log v)) :
    Kept quorum (s.setVote v (s.term v) c) := by
  refine h.of_grows hl hg (fun _ ↦ prefix_rfl) rfl rfl (fun {w t t' k d l'} hw hb' ht hk hk' ↦ ?_)
    h.acked_base
  have hle := hk'.trans (h.acked_le w t)
  rcases update₂_eq_some hw with ⟨rfl, rfl, rfl⟩ | hw
  · obtain rfl := Option.some.inj (hb.symm.trans hb')
    rcases h.acked_log hk' with hp | hp
    · exact (Held.of_upToDate hl hk hle hp (hl.log_match w) (hl.bid_match hb) (hl.bid_lt hb)
        hu).mono (.refl s) hle prefix_rfl (Nat.le_succ _)
    · exact .inr hp
  · exact h.acked_bid hw hb' ht hk hk'

omit [DecidableEq N] in
theorem elect [DecidableEq N] {c : N} {B : Set N} (hg : Grows s (s.elect c)) (hB : B ∈ quorum)
    (hv : ∀ v ∈ B, s.vote v (s.term c) = some c) (hn : s.leader (s.term c) = none)
    (hbid : ∃ l, s.bid c (s.term c) = some l) : Kept quorum (s.elect c) := by
  refine h.of_grows hl hg (fun _ ↦ prefix_rfl) rfl rfl h.acked_bid fun {t' d} hd ↦ ?_
  by_cases ht' : t' = s.term c
  · subst t'
    refine ⟨B, hB, fun v hvB ↦ ⟨hl.vote_le (hv v hvB), fun t k ht hk hk' ↦ ?_⟩⟩
    obtain ⟨l, hb⟩ := hbid
    have hlog : l <+: (s.elect c).base (s.term c) := by
      simp only [State.elect, update_self]
      refine hl.bid_log hb rfl fun d' hd' ↦ ?_
      rw [hn] at hd'
      cases hd'
    rcases h.acked_bid (hv v hvB) hb ht hk hk' with hp | ⟨u, htu, hu, hled, hnp⟩
    · exact .inl (hp.trans hlog)
    · have hne : u ≠ s.term c := by
        rintro rfl
        exact hled hn
      exact .inr ⟨u, htu, by omega, hled, hnp⟩
  · have hd : s.leader t' = some d := (update_of_ne ht' ..).symm.trans hd
    rw [show (s.elect c).base t' = s.base t' from update_of_ne ht' ..]
    exact h.acked_base hd

/-- Only what conflicts with the list of the current leader is dropped. -/
theorem cut {v c : N} {j : ℕ} {e e' : E} (hled : s.leader (s.term v) = some c)
    (he : (s.log v)[j]? = some e) (he' : (s.full (s.term v))[j]? = some e')
    (hne : termOf e ≠ termOf e') : Kept quorum (s.setLog v ((s.log v).take j)) := by
  refine { h with acked_log := fun {w t k} hk ↦ ?_ }
  by_cases hw : w = v
  · subst w
    rw [show (s.setLog v ((s.log v).take j)).log v = (s.log v).take j by simp [State.setLog]]
    have hkf : k ≤ (s.full t).length := hk.trans (h.acked_le v t)
    rcases h.acked_log hk with hp | hp
    · rcases le_or_gt k j with hkj | hkj
      · exact .inl (prefix_take_iff.mpr ⟨hp, by simp [State.setLog]; omega⟩)
      · have hx : ((s.full t).take k)[j]? = some e := by
          have hlt : j < ((s.full t).take k).length := by simp; omega
          rw [← he, getElem?_eq_getElem hlt]
          exact (getElem?_of_isPrefix hp (getElem?_eq_getElem hlt)).symm
        have hconflict : ¬ (s.full t).take k <+: s.full (s.term v) := by
          intro hpf
          have := (getElem?_of_isPrefix hpf hx).symm.trans he'
          exact hne (congrArg termOf (Option.some.inj this))
        rcases lt_trichotomy t (s.term v) with ht | rfl | ht
        · refine .inr ⟨s.term v, ht, Nat.lt_succ_self _, ?_, fun hb ↦ hconflict ?_⟩
          · exact (by rw [hled]; simp : s.leader (s.term v) ≠ none)
          · exact hb.trans (hl.base_full _)
        · exact absurd (List.take_prefix _ _) hconflict
        · have : k ≤ s.acked v t := hk
          rw [h.acked_term ht] at this
          omega
    · exact .inr hp
  · rw [show (s.setLog v ((s.log v).take j)).log w = s.log w by simp [State.setLog, hw]]
    exact h.acked_log hk

theorem ack {v : N} {k : ℕ} (hg : Grows s (s.ack v k)) (hk : k ≤ (s.full (s.term v)).length)
    (hp : (s.full (s.term v)).take k <+: s.log v) : Kept quorum (s.ack v k) := by
  -- only the confirmations of the node's own term change
  have hother {w t} (ht : t ≠ s.term w) : (s.ack v k).acked w t = s.acked w t := by
    rw [acked_ack, if_neg]
    rintro ⟨rfl, rfl⟩
    exact ht rfl
  constructor
  · intro w t
    rw [acked_ack]
    split
    · rename_i hwt
      rw [hwt.2]
      exact max_le hk (h.acked_le v (s.term v))
    · exact h.acked_le w t
  · intro w t ht
    rw [hother (by exact ht.ne')]
    exact h.acked_term ht
  · intro w t k' hk'
    rw [acked_ack] at hk'
    split at hk'
    · rename_i hwt
      obtain ⟨rfl, rfl⟩ := hwt
      rcases (by omega : k' ≤ k ∨ k' ≤ s.acked w (s.term w)) with hle | hle
      · exact .inl ((take_prefix_take_left hle).trans hp)
      · exact h.acked_log hle
    · exact h.acked_log hk'
  · intro w t t' k' d l hv hb ht hk' hka
    rw [hother (ht.trans_le (hl.vote_le hv)).ne] at hka
    exact h.acked_bid hv hb ht hk' hka
  · intro t' d hd
    obtain ⟨B, hB, hkept⟩ := h.acked_base hd
    refine ⟨B, hB, fun w hw ↦ ⟨(hkept w hw).1, fun t k' ht hk' hka ↦ ?_⟩⟩
    rw [hother (ht.trans_le (hkept w hw).1).ne] at hka
    exact (hkept w hw).2 t k' ht hk' hka
  · exact h.committed_le
  · intro t
    rcases h.committed_acked t with h0 | ⟨hb, A, hA, ha⟩
    · exact .inl h0
    · exact .inr ⟨hb, A, hA, fun w hw ↦ (ha w hw).trans (hg.acked_le w t)⟩

omit [DecidableEq N] hl in
theorem commit {t k : ℕ} {A : Set N} (hA : A ∈ quorum) (hk : (s.base t).length < k)
    (hk' : k ≤ (s.full t).length) (ha : ∀ v ∈ A, k ≤ s.acked v t) : Kept quorum (s.commit t k) := by
  refine { h with committed_le := fun t' ↦ ?_, committed_acked := fun t' ↦ ?_ }
  · by_cases ht : t' = t
    · subst t'
      simpa [State.commit] using ⟨hk', h.committed_le t⟩
    · simpa only [State.commit, update_of_ne ht] using h.committed_le t'
  · by_cases ht : t' = t
    · subst t'
      simp only [State.commit, update_self]
      rcases le_total k (s.committed t) with hle | hle
      · rw [max_eq_right hle]
        exact h.committed_acked t
      · rw [max_eq_left hle]
        exact .inr ⟨hk, A, hA, ha⟩
    · simpa only [State.commit, update_of_ne ht] using h.committed_acked t'

theorem step (hq : Intersecting quorum) (hs : Step termOf quorum s s') : Kept quorum s' := by
  have hg := Step.grows hl hs
  cases hs with
  | adopt v t ht => exact h.of_grows hl hg (fun _ ↦ prefix_rfl) rfl rfl h.acked_bid h.acked_base
  | campaign v => exact h.campaign hl hg
  | grant v c l hb hv hu => exact h.grant hl hg hb hu
  | elect c B hB hv hn =>
    obtain ⟨v, hvB, -⟩ := hq B hB B hB
    exact h.elect hl hg hB hv hn (hl.vote_bid (hv v hvB))
  | propose c e hled he =>
    exact h.of_grows hl hg (prefix_update (prefix_append ..)) rfl rfl h.acked_bid h.acked_base
  | cut v c j e e' hled hc he he' hne => exact h.cut hl hled he he' hne
  | copy v c e hled hc hp =>
    exact h.of_grows hl hg (prefix_update (prefix_append ..)) rfl rfl h.acked_bid h.acked_base
  | ack v c k hled hk hp => exact h.ack hl hg hk hp
  | commit c k A hA hled hk hk' ha => exact h.commit hA hk hk' ha

end Preservation

end Kept

end Ledger
