import RaftConsensus.Maps
import RaftConsensus.Wal.Basic

namespace RaftConsensus

open List Option

section Lists

variable {l : List ℕ} {m i : ℕ}

theorem le_foldl_max : m ≤ l.foldl max m ∧ ∀ i ∈ l, i ≤ l.foldl max m := by
  induction l generalizing m with
  | nil => exact ⟨le_rfl, nofun⟩
  | cons x l ih =>
    obtain ⟨hm, hall⟩ := ih (m := max m x)
    refine ⟨(le_max_left m x).trans hm, fun i hi ↦ ?_⟩
    rcases mem_cons.mp hi with rfl | hi
    · exact (le_max_right m i).trans hm
    · exact hall i hi

theorem foldl_max_mem : l.foldl max m = m ∨ l.foldl max m ∈ l := by
  induction l generalizing m with
  | nil => exact .inl rfl
  | cons x l ih =>
    rcases ih (m := max m x) with h | h
    · rw [foldl_cons, h]
      rcases le_total m x with hmx | hmx
      · exact .inr (by rw [max_eq_right hmx]; exact mem_cons_self)
      · exact .inl (max_eq_left hmx)
    · exact .inr (mem_cons_of_mem x h)

variable {α : Type} {base : α → ℕ} {xs : List α} {x y cur cut : α}

theorem eq_of_ascending (h : xs.Pairwise (base · < base ·)) (hx : x ∈ xs) (hy : y ∈ xs)
    (hb : base x = base y) : x = y := by
  have hnodup : (xs.map base).Nodup := pairwise_map.mpr (h.imp fun hlt ↦ hlt.ne)
  exact inj_on_of_nodup_map hnodup hx hy hb

theorem find?_of_ascending (h : xs.Pairwise (base · < base ·)) (hx : x ∈ xs) :
    xs.find? (base · = base x) = some x := by
  cases hf : xs.find? (base · = base x) with
  | none => simpa using find?_eq_none.mp hf x hx
  | some y =>
    have hb : base y = base x := by simpa using find?_some hf
    rw [eq_of_ascending h (mem_of_find?_eq_some hf) hx hb]

theorem lt_last_of_ascending (h : xs.Pairwise (base · < base ·)) (hcur : xs.getLast? = some cur)
    (hx : x ∈ xs.dropLast) : base x < base cur := by
  rw [(dropLast_append_getLast? cur hcur).symm] at h
  exact (pairwise_append.mp h).2.2 x hx cur (mem_singleton_self cur)

theorem ascending_replace (h : xs.Pairwise (base · < base ·)) (hcur : xs.getLast? = some cur)
    (hb : base cut = base cur) : (xs.dropLast ++ [cut]).Pairwise (base · < base ·) := by
  have hold := h.sublist (dropLast_sublist xs)
  refine pairwise_append.mpr ⟨hold, pairwise_singleton _ _, fun a ha b hmem ↦ ?_⟩
  rw [mem_singleton.mp hmem, hb]
  exact lt_last_of_ascending h hcur ha

end Lists

def Wal.Segment.Before (a b : Wal.Segment) : Prop :=
  a.baseIndex < b.baseIndex ∧ ∀ e ∈ a.records, e.index < b.baseIndex

namespace Wal

variable {w w' : Wal} {log : List LogEntry} {s i : ℕ} {e : LogEntry} {seg : Segment}

/-- The files hold entries of `log` only, in order, and the index finds every entry above `s`. -/
structure Holds (w : Wal) (log : List LogEntry) (s : ℕ) : Prop where
  nonempty : w.segments ≠ []
  before : w.segments.Pairwise Segment.Before
  base_le : ∀ seg ∈ w.segments, seg.baseIndex ≤ log.length + 1
  record : ∀ seg ∈ w.segments, ∀ e ∈ seg.records,
    seg.baseIndex ≤ e.index ∧ 0 < e.index ∧ log[e.index - 1]? = some e
  order : ∀ seg ∈ w.segments, seg.records.Pairwise (·.index < ·.index)
  found : ∀ i ie, w.index.lookup i = some ie → ∃ seg ∈ w.segments, seg.baseIndex = ie.baseIndex ∧
    ∃ e, seg.records[ie.offset]? = some e ∧ e.index = i
  live : ∀ i, s < i → i ≤ log.length → i ∈ w.index
  last : w.lastIndex = w.index.keys.foldl max 0

namespace Holds

theorem le_last (h : Holds w log s) (hi : i ∈ w.index) : i ≤ w.lastIndex := by
  rw [h.last]
  exact le_foldl_max.2 i hi

theorem last_mem (h : Holds w log s) (h0 : w.lastIndex ≠ 0) : w.lastIndex ∈ w.index := by
  rw [h.last] at h0 ⊢
  exact foldl_max_mem.resolve_left h0

theorem before_or (h : Holds w log s) {a b : Segment} (ha : a ∈ w.segments) (hb : b ∈ w.segments) :
    Segment.Before a b ∨ a = b ∨ Segment.Before b a := by
  obtain ⟨m, hm, rfl⟩ := getElem_of_mem ha
  obtain ⟨n, hn, rfl⟩ := getElem_of_mem hb
  rcases lt_trichotomy m n with hlt | rfl | hlt
  · exact .inl (pairwise_iff_getElem.mp h.before m n hm hn hlt)
  · exact .inr (.inl rfl)
  · exact .inr (.inr (pairwise_iff_getElem.mp h.before n m hn hm hlt))

theorem find_segment (h : Holds w log s) (hseg : seg ∈ w.segments) :
    w.segments.find? (·.baseIndex = seg.baseIndex) = some seg :=
  find?_of_ascending (h.before.imp And.left) hseg

theorem lt_upperBound (h : Holds w log s) (hseg : seg ∈ w.segments) (he : e ∈ seg.records) :
    (w.upperBound seg.baseIndex).any (· ≤ e.index) = false := by
  cases hb : w.upperBound seg.baseIndex with
  | none => rfl
  | some b =>
    have hmem := min?_mem hb
    obtain ⟨hbase, hlt⟩ := mem_filter.mp hmem
    obtain ⟨x, hx, rfl⟩ := mem_map.mp hbase
    have hlt : seg.baseIndex < x.baseIndex := of_decide_eq_true hlt
    rcases h.before_or hseg hx with hbx | rfl | hbx
    · simpa using hbx.2 e he
    · omega
    · have := hbx.1
      omega

theorem get_of_lookup (h : Holds w log s) {ie : IndexEntry} (hi : w.index.lookup i = some ie) :
    ∃ e, w.get i = some e ∧ e.index = i ∧ 0 < i ∧ log[i - 1]? = some e := by
  obtain ⟨seg, hseg, hb, e, he, rfl⟩ := h.found i ie hi
  have hmem := mem_of_getElem? he
  obtain ⟨hle, hpos, hlog⟩ := h.record seg hseg e hmem
  refine ⟨e, ?_, rfl, hpos, hlog⟩
  have hlast := h.le_last (AList.lookup_isSome.mp (by rw [hi]; rfl))
  rw [get, if_neg (by omega), hi, bind_some, ← hb, h.find_segment hseg, bind_some, if_neg]
  · exact he
  · rw [h.lt_upperBound hseg hmem]
    simp only [Bool.false_eq_true, or_false]
    omega

theorem get_of_mem (h : Holds w log s) (hi : i ∈ w.index) :
    ∃ e, w.get i = some e ∧ e.index = i ∧ 0 < i ∧ log[i - 1]? = some e := by
  obtain ⟨ie, hie⟩ := isSome_iff_exists.mp (AList.lookup_isSome.mpr hi)
  exact h.get_of_lookup hie

theorem mem_of_get (hg : w.get i = some e) : i ∈ w.index := by
  unfold get at hg
  split at hg
  · cases hg
  · obtain ⟨ie, hie, -⟩ := bind_eq_some_iff.mp hg
    exact AList.lookup_isSome.mp (by rw [hie]; rfl)

theorem get_spec (h : Holds w log s) (hg : w.get i = some e) :
    e.index = i ∧ 0 < i ∧ log[i - 1]? = some e := by
  obtain ⟨x, hx, hspec⟩ := h.get_of_mem (mem_of_get hg)
  rw [hg] at hx
  cases hx
  exact hspec

theorem get_eq (h : Holds w log s) (hi : s < i) : w.get i = log[i - 1]? := by
  by_cases hle : i ≤ log.length
  · obtain ⟨e, he, -, -, hlog⟩ := h.get_of_mem (h.live i hi hle)
    rw [he, hlog]
  · rw [getElem?_eq_none (by omega), eq_none_iff_forall_ne_some]
    intro e he
    obtain ⟨-, hpos, hlog⟩ := h.get_spec he
    have := (List.getElem?_eq_some_iff.mp hlog).1
    omega

theorem index_le (h : Holds w log s) (hseg : seg ∈ w.segments) (he : e ∈ seg.records) :
    e.index ≤ log.length := by
  obtain ⟨-, hpos, hlog⟩ := h.record seg hseg e he
  have := (List.getElem?_eq_some_iff.mp hlog).1
  omega

theorem firstIndex_le (h : Holds w log s) (hi : i ∈ w.index) : w.firstIndex ≤ i := by
  obtain ⟨ie, hie⟩ := isSome_iff_exists.mp (AList.lookup_isSome.mpr hi)
  obtain ⟨seg, hseg, -, e, he, rfl⟩ := h.found i ie hie
  have hle := (h.record seg hseg e (mem_of_getElem? he)).1
  have hb := h.before
  unfold firstIndex
  split
  · rename_i hn
    exact absurd hn h.nonempty
  · rename_i x rest hx
    rw [hx] at hseg hb
    rcases mem_cons.mp hseg with rfl | hseg
    · exact hle
    · exact ((pairwise_cons.mp hb).1 seg hseg).1.le.trans hle

theorem firstIndex_base_le (h : Holds w log s) : w.firstIndex ≤ log.length + 1 := by
  unfold firstIndex
  split
  · exact Nat.zero_le _
  · rename_i x rest hx
    exact h.base_le x (by rw [hx]; exact mem_cons_self)

theorem empty : Holds .empty [] 0 where
  nonempty := nofun
  before := pairwise_singleton _ _
  base_le seg hseg := by
    cases mem_singleton.mp hseg
    exact Nat.zero_le _
  record seg hseg := by
    cases mem_singleton.mp hseg
    nofun
  order seg hseg := by
    cases mem_singleton.mp hseg
    exact .nil
  found := nofun
  live i hi hle := absurd hi (by simp only [length_nil] at hle; omega)
  last := rfl

end Holds

end Wal

end RaftConsensus
