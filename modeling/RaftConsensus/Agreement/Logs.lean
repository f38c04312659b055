import RaftConsensus.Store
import RaftConsensus.Ledger.Safety

namespace RaftConsensus

open List

/-- The store holds the list and nothing else, its entry `i` at index `i + 1`. -/
def LogStore.Holds (s : LogStore) (l : List LogEntry) : Prop := ∀ i, s.get (i + 1) = l[i]?

namespace LogStore.Holds

variable {s : LogStore} {l l' : List LogEntry} {i : ℕ} {e : LogEntry}

theorem empty : (⟨[]⟩ : LogStore).Holds [] := fun i ↦ by simp [get]

theorem getElem? (h : s.Holds l) (hi : s.get i = some e) : l[i - 1]? = some e := by
  have hpos := get_pos hi
  rw [← h (i - 1), Nat.sub_add_cancel hpos, hi]

theorem get (h : s.Holds l) (hpos : 0 < i) (hi : l[i - 1]? = some e) : s.get i = some e := by
  rw [← h (i - 1), Nat.sub_add_cancel hpos] at hi
  exact hi

theorem append (h : s.Holds l) (he : e.index = l.length + 1) : (s.append e).Holds (l ++ [e]) := by
  intro i
  rw [get_append _ _ (i + 1) (Nat.succ_pos i), he, h i]
  by_cases hi : i = l.length
  · subst i
    simp
  · rw [if_neg (by omega)]
    rcases lt_or_gt_of_ne hi with hlt | hgt
    · rw [getElem?_append_left hlt]
    · rw [getElem?_eq_none hgt.le, getElem?_eq_none ?_]
      simpa using Nat.succ_le_of_lt hgt

theorem truncate (h : s.Holds l) (j : ℕ) :
    (s.deleteRange (j + 1) (l.length + 1)).Holds (l.take j) := by
  intro i
  rw [get_deleteRange, h i, getElem?_take]
  by_cases hi : i < j
  · rw [if_neg (by omega), if_pos hi]
  · rw [if_neg hi]
    split
    · rfl
    · exact getElem?_eq_none (by omega)

theorem lastIndex (h : s.Holds l) : s.lastIndex = l.length := by
  refine le_antisymm ?_ ?_
  · rcases Nat.eq_zero_or_pos s.lastIndex with h0 | hpos
    · omega
    · obtain ⟨e, he⟩ := get_lastIndex hpos
      have := (List.getElem?_eq_some_iff.mp (h.getElem? he)).1
      omega
  · rcases Nat.eq_zero_or_pos l.length with h0 | hpos
    · omega
    · have hlast : l[l.length - 1]? = some l[l.length - 1] := getElem?_eq_getElem _
      exact le_lastIndex (h.get hpos hlast)

end LogStore.Holds

section LastTerm

variable {l : List LogEntry}

theorem lastTerm_concat (e : LogEntry) : Ledger.lastTerm LogEntry.term (l ++ [e]) = e.term := by
  simp [Ledger.lastTerm]

theorem lastTerm_getElem {e : LogEntry} (h : l[l.length - 1]? = some e) :
    Ledger.lastTerm LogEntry.term l = e.term := by
  rw [Ledger.lastTerm, getLast?_eq_getElem?, h]
  rfl

end LastTerm

end RaftConsensus
