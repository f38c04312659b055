import Mathlib.Data.Nat.ModEq
import RaftConsensus.Node

namespace RaftConsensus

open List

namespace InflightWindow

inductive Op
  | add (lastIdx : ℕ)
  | ack (matchIdx : ℕ)
  | reset

/-- The sender adds only to a window that is not full. -/
def step (q : InflightWindow) : Op → InflightWindow
  | .add lastIdx => if q.full then q else q.add lastIdx
  | .ack matchIdx => q.ack matchIdx
  | .reset => q.reset

end InflightWindow

structure InflightRing where
  buf : List ℕ
  head : ℕ
  tail : ℕ
  size : ℕ
  cap : ℕ

namespace InflightRing

open InflightWindow (Op)

variable {w : InflightRing} {m k : ℕ}

def newInflightWindow (cap : ℤ) : InflightRing :=
  let cap := if cap ≤ 0 then 1 else cap.toNat
  ⟨List.replicate cap 0, 0, 0, 0, cap⟩

def full (w : InflightRing) : Bool := w.size = w.cap

def count (w : InflightRing) : ℕ := w.size

/-- `none` is a panic: of `add` itself, or of an index outside the buffer. -/
def add (w : InflightRing) (lastIdx : ℕ) : Option InflightRing :=
  if w.full then none
  else if w.head < w.buf.length then
    some { w with
      buf := w.buf.set w.head lastIdx, head := (w.head + 1) % w.cap, size := w.size + 1 }
  else none

def ackLoop (matchIdx : ℕ) : ℕ → InflightRing → Option InflightRing
  | 0, w => some w
  | n + 1, w => do
    let idx ← w.buf[w.tail]?
    if idx ≤ matchIdx then
      ackLoop matchIdx n { w with tail := (w.tail + 1) % w.cap, size := w.size - 1 }
    else some w

-- an iteration takes one from the size, so the loop ends after as many
def ack (w : InflightRing) (matchIdx : ℕ) : Option InflightRing := ackLoop matchIdx w.size w

def reset (w : InflightRing) : InflightRing := { w with head := 0, tail := 0, size := 0 }

def step (w : InflightRing) : Op → Option InflightRing
  | .add lastIdx => if w.full then some w else w.add lastIdx
  | .ack matchIdx => w.ack matchIdx
  | .reset => some w.reset

def contents (w : InflightRing) : List ℕ :=
  (List.range w.size).map fun k ↦ w.buf[(w.tail + k) % w.cap]?.getD 0

def window (w : InflightRing) : InflightWindow := ⟨w.contents, w.cap⟩

/-- The comment in the source has `size = (head - tail + cap) % cap`, which is `0` for a full
window. -/
structure Valid (w : InflightRing) : Prop where
  cap_pos : 0 < w.cap
  length_buf : w.buf.length = w.cap
  size_le : w.size ≤ w.cap
  tail_lt : w.tail < w.cap
  head_eq : w.head = (w.tail + w.size) % w.cap

@[simp] theorem length_contents : w.contents.length = w.size := by simp [contents]

theorem full_eq : w.full = w.window.full := by simp [full, window, InflightWindow.full]

theorem valid_new (cap : ℤ) : (newInflightWindow cap).Valid ∧
    (newInflightWindow cap).window = .new cap.toNat := by
  have hcap : (newInflightWindow cap).cap = if cap.toNat = 0 then 1 else cap.toNat := by
    simp [newInflightWindow, Int.toNat_eq_zero]
  have hpos : 0 < (newInflightWindow cap).cap := by
    rw [hcap]
    split_ifs <;> omega
  refine ⟨⟨hpos, by simp [newInflightWindow], Nat.zero_le _, hpos, (Nat.zero_mod _).symm⟩, ?_⟩
  rw [window, hcap]
  rfl

namespace Valid

theorem add (h : w.Valid) (hfull : w.full = false) (lastIdx : ℕ) :
    ∃ w', w.add lastIdx = some w' ∧ w'.Valid ∧ w'.window = w.window.add lastIdx := by
  have hlt : w.size < w.cap := h.size_le.lt_of_ne (of_decide_eq_false hfull)
  have hhead : w.head < w.buf.length := by
    rw [h.head_eq, h.length_buf]
    exact Nat.mod_lt _ h.cap_pos
  refine ⟨_, by rw [InflightRing.add, hfull, if_neg (by simp), if_pos hhead], ?_, ?_⟩
  · refine ⟨h.cap_pos, by simpa using h.length_buf, hlt, h.tail_lt, ?_⟩
    change (w.head + 1) % w.cap = (w.tail + (w.size + 1)) % w.cap
    rw [h.head_eq, Nat.mod_add_mod, Nat.add_assoc]
  · refine congrArg (InflightWindow.mk · w.cap) ?_
    change (range (w.size + 1)).map _ = w.contents ++ [lastIdx]
    rw [range_succ, map_append, map_singleton]
    congr 1
    · refine map_congr_left fun k hk ↦ ?_
      have hne : w.head ≠ (w.tail + k) % w.cap := by
        intro heq
        have hmod : w.size ≡ k [MOD w.cap] :=
          Nat.ModEq.add_left_cancel' w.tail (h.head_eq.symm.trans heq)
        have hk := mem_range.mp hk
        have := hmod.eq_of_lt_of_lt hlt (hk.trans hlt)
        omega
      change (w.buf.set w.head lastIdx)[_]?.getD 0 = _
      rw [getElem?_set_ne hne]
    · change [(w.buf.set w.head lastIdx)[_]?.getD 0] = _
      rw [← h.head_eq, getElem?_set_self hhead]
      rfl

theorem ackLoop (h : w.Valid) : ∃ w', InflightRing.ackLoop m w.size w = some w' ∧ w'.Valid ∧
    w'.window = w.window.ack m := by
  induction hn : w.size generalizing w with
  | zero =>
    refine ⟨w, rfl, h, ?_⟩
    simp [window, contents, hn, InflightWindow.ack]
  | succ n ih =>
    have htail : w.tail < w.buf.length := h.length_buf ▸ h.tail_lt
    let w₁ : InflightRing := { w with tail := (w.tail + 1) % w.cap, size := w.size - 1 }
    have hsize : w₁.size = n := by
      change w.size - 1 = n
      omega
    have hcontents : w.contents = w.buf[w.tail] :: w₁.contents := by
      unfold contents
      rw [hn, hsize, range_succ_eq_map, map_cons, map_map]
      refine congrArg₂ _ ?_ (map_congr_left fun k _ ↦ ?_)
      · rw [Nat.add_zero, Nat.mod_eq_of_lt h.tail_lt, getElem?_eq_getElem htail]
        rfl
      · change _ = w.buf[((w.tail + 1) % w.cap + k) % w.cap]?.getD 0
        rw [Nat.mod_add_mod, Nat.add_assoc, Nat.add_comm 1 k]
        rfl
    have hvalid : w₁.Valid := by
      refine ⟨h.cap_pos, h.length_buf, (Nat.sub_le _ 1).trans h.size_le, Nat.mod_lt _ h.cap_pos, ?_⟩
      change w.head = ((w.tail + 1) % w.cap + w₁.size) % w.cap
      rw [h.head_eq, Nat.mod_add_mod, hn, hsize, Nat.add_assoc, Nat.add_comm 1 n]
    simp only [InflightRing.ackLoop, getElem?_eq_getElem htail, Option.bind_eq_bind,
      Option.bind_some, window, hcontents, InflightWindow.ack, dropWhile_cons, decide_eq_true_eq]
    by_cases hle : w.buf[w.tail] ≤ m
    · obtain ⟨w', hw', hv, hwin⟩ := ih hvalid hsize
      rw [if_pos hle, if_pos hle]
      exact ⟨w', hw', hv, hwin⟩
    · rw [if_neg hle, if_neg hle]
      exact ⟨w, rfl, h, by rw [hcontents]⟩

end Valid

theorem Valid.step (h : w.Valid) (op : Op) :
    ∃ w', w.step op = some w' ∧ w'.Valid ∧ w'.window = w.window.step op := by
  cases op with
  | add lastIdx =>
    unfold InflightRing.step InflightWindow.step
    dsimp only
    rw [← full_eq]
    cases hfull : w.full with
    | true => exact ⟨w, rfl, h, rfl⟩
    | false => exact h.add hfull lastIdx
  | ack matchIdx => exact h.ackLoop
  | reset => exact ⟨w.reset, rfl, ⟨h.cap_pos, h.length_buf, Nat.zero_le _, h.cap_pos,
      (Nat.zero_mod _).symm⟩, rfl⟩

theorem Valid.steps (h : w.Valid) (ops : List Op) : ∃ w', ops.foldlM InflightRing.step w = some w' ∧
    w'.Valid ∧ w'.window = ops.foldl InflightWindow.step w.window := by
  induction ops generalizing w with
  | nil => exact ⟨w, rfl, h, rfl⟩
  | cons op ops ih =>
    obtain ⟨w₁, hw₁, hv₁, hwin₁⟩ := h.step op
    obtain ⟨w', hw', hv, hwin⟩ := ih hv₁
    refine ⟨w', ?_, hv, ?_⟩
    · rw [foldlM_cons, hw₁]
      exact hw'
    · rw [foldl_cons, ← hwin₁, hwin]

/-- The ring buffer is a bounded queue: whatever is added to it while it is not full, acknowledged
and reset, it never panics and stores what the queue holds. -/
theorem ring_refines_queue (cap : ℤ) (ops : List Op) :
    ∃ w, ops.foldlM InflightRing.step (newInflightWindow cap) = some w ∧
      w.window = ops.foldl InflightWindow.step (.new cap.toNat) ∧
      w.count = w.contents.length ∧ w.contents.length ≤ w.cap ∧
      (w.full = true ↔ w.contents.length = w.cap) := by
  obtain ⟨hvalid, hnew⟩ := valid_new cap
  obtain ⟨w, hw, hv, hwin⟩ := hvalid.steps ops
  refine ⟨w, hw, hnew ▸ hwin, length_contents.symm, length_contents.trans_le hv.size_le, ?_⟩
  rw [length_contents]
  exact decide_eq_true_iff

end InflightRing

end RaftConsensus
