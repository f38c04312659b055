import Mathlib.Data.List.Basic
import Mathlib.Order.Nat

namespace RaftConsensus.GroupCommit

open List Function

/-- A record with the call that wrote it, the number of the segment file and the time. -/
structure Written where
  thread : ℕ
  segment : ℕ
  time : ℕ
deriving DecidableEq

structure Synced where
  segment : ℕ
  began : ℕ
deriving DecidableEq

/-- Where a call of `Append` is. `left` counts the records that are not written yet. -/
inductive PC
  | start (left : ℕ)
  | appending (left : ℕ)
  | rotating (left : ℕ)
  | rotateSync (left began : ℕ)
  | creating (left : ℕ)
  | groupSync (seq : ℕ)
  | waiting (seq : ℕ)
  | fsyncCurrent (seq target : ℕ)
  | opened (seq target segment : ℕ)
  | fsyncing (seq target segment began : ℕ)
  | finishing (seq target : ℕ) (ok : Bool)
  | returned (ok : Bool)
deriving DecidableEq

/-- `seqOf`, `clock`, `written` and `synced` record the history. A segment is locked while its
number is in `locked`. -/
structure State where
  pc : ℕ → PC
  mu : Option ℕ
  current : ℕ
  locked : List ℕ
  writeSeq : ℕ
  syncedSeq : ℕ
  syncing : Bool
  seqOf : ℕ → Option ℕ
  clock : ℕ
  written : List Written
  synced : List Synced

/-- What the system answers to the next call: whether it succeeds, and whether the segment has
reached its size. -/
structure Outcome where
  ok : Bool
  full : Bool

namespace State

variable (s : State)

def goto (t : ℕ) (pc : PC) : State := { s with pc := Function.update s.pc t pc }

def fail (t : ℕ) : State := { s.goto t (.returned false) with mu := none }

def broadcast : State :=
  { s with
    pc := fun t ↦ match s.pc t with
      | .waiting seq => .groupSync seq
      | pc => pc }

/-- The next step of the call `t`; `none` when it is blocked. -/
def step (t : ℕ) (o : Outcome) : Option State :=
  match s.pc t with
  | .start left =>
    if left = 0 then some (s.goto t (.returned true))
    else if s.mu = none then some { s.goto t (.appending left) with mu := some t }
    else none
  | .appending 0 =>
    some { s.goto t (.groupSync (s.writeSeq + 1)) with
      mu := none
      writeSeq := s.writeSeq + 1
      seqOf := Function.update s.seqOf t (some (s.writeSeq + 1)) }
  | .appending (left + 1) =>
    if s.current ∈ s.locked then none
    else if o.ok then
      some { s.goto t (if o.full then .rotating left else .appending left) with
        locked := if o.full then s.current :: s.locked else s.locked
        clock := s.clock + 1
        written := ⟨t, s.current, s.clock⟩ :: s.written }
    else some (s.fail t)
  | .rotating left => some { s.goto t (.rotateSync left s.clock) with clock := s.clock + 1 }
  | .rotateSync left began =>
    if o.ok then
      some { s.goto t (.creating left) with synced := ⟨s.current, began⟩ :: s.synced }
    else some { s.fail t with locked := s.locked.erase s.current }
  | .creating left =>
    if o.ok then
      some { s.goto t (.appending left) with
        current := s.current + 1
        locked := s.locked.erase s.current }
    else some { s.fail t with locked := s.locked.erase s.current }
  | .groupSync seq =>
    if seq ≤ s.syncedSeq then some (s.goto t (.returned true))
    else if s.syncing then some (s.goto t (.waiting seq))
    else some { s.goto t (.fsyncCurrent seq s.writeSeq) with syncing := true }
  | .waiting _ => none
  | .fsyncCurrent seq target =>
    if !o.ok then some (s.goto t (.finishing seq target false))
    else if s.mu = none then some (s.goto t (.opened seq target s.current))
    else none
  | .opened seq target segment =>
    if segment ∈ s.locked then none
    else
      some { s.goto t (.fsyncing seq target segment s.clock) with
        locked := segment :: s.locked
        clock := s.clock + 1 }
  | .fsyncing seq target segment began =>
    some { s.goto t (.finishing seq target o.ok) with
      locked := s.locked.erase segment
      synced := if o.ok then ⟨segment, began⟩ :: s.synced else s.synced }
  | .finishing _ target ok =>
    some { (s.goto t (.returned ok)).broadcast with
      syncedSeq := if ok ∧ s.syncedSeq < target then target else s.syncedSeq
      syncing := false }
  | .returned _ => none

end State

section Run

variable (batch : ℕ → ℕ)

def init : State :=
  { pc := fun t ↦ .start (batch t)
    mu := none
    current := 0
    locked := []
    writeSeq := 0
    syncedSeq := 0
    syncing := false
    seqOf := fun _ ↦ none
    clock := 0
    written := []
    synced := [] }

inductive Reach : State → Prop
  | init : Reach (init batch)
  | step {s s' : State} (h : Reach s) (t : ℕ) (o : Outcome) (hs : s.step t o = some s') : Reach s'

end Run

section Invariant

variable {batch : ℕ → ℕ} {s s' : State} {t t' : ℕ} {o : Outcome} {w : Written}

def Durable (s : State) (w : Written) : Prop :=
  ∃ y ∈ s.synced, y.segment = w.segment ∧ w.time < y.began

def Batched (s : State) (target : ℕ) (w : Written) : Prop :=
  w ∈ s.written ∧ ∃ seq ≤ target, s.seqOf w.thread = some seq

def count (s : State) (t : ℕ) : ℕ := s.written.countP (·.thread = t)

variable (batch) in
def Owner (s : State) (t left : ℕ) : Prop :=
  s.mu = some t ∧ s.seqOf t = none ∧ count s t + left = batch t

variable (batch) in
def Numbered (s : State) (t seq : ℕ) : Prop :=
  s.mu ≠ some t ∧ s.seqOf t = some seq ∧ count s t = batch t

variable (batch) in
def At (s : State) (t : ℕ) : PC → Prop
  | .start left => s.mu ≠ some t ∧ s.seqOf t = none ∧ count s t = 0 ∧ left = batch t
  | .appending left | .rotating left => Owner batch s t left
  | .rotateSync left began =>
    Owner batch s t left ∧ ∀ w ∈ s.written, w.segment = s.current → w.time < began
  | .creating left => Owner batch s t left ∧ ∀ w ∈ s.written, w.segment = s.current → Durable s w
  | .groupSync seq | .waiting seq => Numbered batch s t seq
  | .fsyncCurrent seq target => Numbered batch s t seq ∧ seq ≤ target ∧ target ≤ s.writeSeq
  | .opened seq target segment =>
    Numbered batch s t seq ∧ seq ≤ target ∧ target ≤ s.writeSeq ∧ segment ≤ s.current ∧
      ∀ w, Batched s target w → w.segment ≤ segment
  | .fsyncing seq target segment began =>
    Numbered batch s t seq ∧ seq ≤ target ∧ target ≤ s.writeSeq ∧ segment ≤ s.current ∧
      ∀ w, Batched s target w → w.segment < segment ∨ w.segment = segment ∧ w.time < began
  | .finishing seq target ok =>
    Numbered batch s t seq ∧ seq ≤ target ∧ target ≤ s.writeSeq ∧
      (ok = true → ∀ w, Batched s target w → Durable s w)
  | .returned ok =>
    s.mu ≠ some t ∧ (ok = true → count s t = batch t ∧
      ∀ w ∈ s.written, w.thread = t → Durable s w)

variable (batch) in
structure Inv (s : State) : Prop where
  thread : ∀ t, At batch s t (s.pc t)
  before : ∀ w ∈ s.written, w.time < s.clock ∧ w.segment ≤ s.current
  older : ∀ w ∈ s.written, w.segment < s.current → Durable s w
  seq_le : ∀ t seq, s.seqOf t = some seq → seq ≤ s.writeSeq
  synced_le : s.syncedSeq ≤ s.writeSeq
  synced : ∀ w, Batched s s.syncedSeq w → Durable s w

structure Effect (s s' : State) (t : ℕ) : Prop where
  mu : ∀ t' ≠ t, s'.mu = some t' ↔ s.mu = some t'
  seqOf : ∀ t' ≠ t, s'.seqOf t' = s.seqOf t'
  own : s'.seqOf t = s.seqOf t ∨ s'.seqOf t = some (s.writeSeq + 1) ∧ s.writeSeq < s'.writeSeq
  written : s'.written = s.written ∨ s.mu = some t ∧ s'.seqOf t = none ∧
    s'.written = ⟨t, s.current, s.clock⟩ :: s.written ∧ s.clock < s'.clock
  clock : s.clock ≤ s'.clock
  synced : s.synced ⊆ s'.synced
  current : s'.current = s.current ∨ s.mu = some t ∧ s'.current = s.current + 1 ∧
    s'.written = s.written ∧ ∀ w ∈ s.written, w.segment = s.current → Durable s w
  writeSeq : s.writeSeq ≤ s'.writeSeq
  syncedSeq : s'.syncedSeq = s.syncedSeq ∨ s'.syncedSeq ≤ s.writeSeq ∧
    ∀ w, Batched s s'.syncedSeq w → Durable s w
  pc : ∀ t' ≠ t, s'.pc t' = s.pc t' ∨
    ∃ seq, s.pc t' = .waiting seq ∧ s'.pc t' = .groupSync seq

namespace Effect

variable {target : ℕ}

theorem durable (h : Effect s s' t) (hd : Durable s w) : Durable s' w := by
  obtain ⟨y, hy, hspec⟩ := hd
  exact ⟨y, h.synced hy, hspec⟩

theorem mem_written (h : Effect s s' t) (hw : w ∈ s'.written) :
    w ∈ s.written ∨ w = ⟨t, s.current, s.clock⟩ ∧ s'.seqOf t = none ∧ s.clock < s'.clock ∧
      s.mu = some t := by
  rcases h.written with heq | ⟨hmu, hnone, heq, hlt⟩
  · exact .inl (heq ▸ hw)
  · rw [heq] at hw
    rcases mem_cons.mp hw with rfl | hw
    · exact .inr ⟨rfl, hnone, hlt, hmu⟩
    · exact .inl hw

theorem batched (h : Effect s s' t) (ht : target ≤ s.writeSeq) (hb : Batched s' target w) :
    Batched s target w := by
  obtain ⟨hw, seq, hle, hseq⟩ := hb
  rcases h.mem_written hw with hw | ⟨rfl, hnone, -⟩
  · refine ⟨hw, seq, hle, ?_⟩
    by_cases hwt : w.thread = t
    · rw [hwt] at hseq ⊢
      rcases h.own with heq | ⟨heq, -⟩
      · rw [← heq, hseq]
      · rw [hseq, Option.some.injEq] at heq
        omega
    · rw [← h.seqOf _ hwt, hseq]
  · rw [hnone] at hseq
    cases hseq

theorem count_eq (h : Effect s s' t) (ht : t' ≠ t) : count s' t' = count s t' := by
  unfold count
  rcases h.written with heq | ⟨-, -, heq, -⟩
  · rw [heq]
  · rw [heq, countP_cons_of_neg]
    simpa using ht.symm

theorem at_other (h : Effect s s' t) (ht : t' ≠ t) {pc : PC} (ha : At batch s t' pc) :
    At batch s' t' pc := by
  have hcount := h.count_eq ht
  have hmu := h.mu t' ht
  have hseq := h.seqOf t' ht
  have hws := h.writeSeq
  have hcur : s.current ≤ s'.current := by
    rcases h.current with heq | ⟨-, heq, -⟩ <;> omega
  have howner {left : ℕ} (ho : Owner batch s t' left) :
      Owner batch s' t' left ∧ s'.current = s.current ∧ s'.written = s.written := by
    have hne : s.mu ≠ some t := fun heq ↦ ht (Option.some.inj (ho.1.symm.trans heq))
    refine ⟨⟨hmu.mpr ho.1, hseq.trans ho.2.1, hcount ▸ ho.2.2⟩, ?_, ?_⟩
    · exact h.current.resolve_right fun hx ↦ hne hx.1
    · exact h.written.resolve_right fun hx ↦ hne hx.1
  have hnumbered {seq : ℕ} (hn : Numbered batch s t' seq) : Numbered batch s' t' seq :=
    ⟨fun heq ↦ hn.1 (hmu.mp heq), hseq.trans hn.2.1, hcount.trans hn.2.2⟩
  cases pc with
  | start left =>
    exact ⟨fun heq ↦ ha.1 (hmu.mp heq), hseq.trans ha.2.1, hcount.trans ha.2.2.1, ha.2.2.2⟩
  | appending left => exact (howner ha).1
  | rotating left => exact (howner ha).1
  | rotateSync left began =>
    obtain ⟨ho, hc, hw⟩ := howner ha.1
    refine ⟨ho, ?_⟩
    rw [hw, hc]
    exact ha.2
  | creating left =>
    obtain ⟨ho, hc, hw⟩ := howner ha.1
    refine ⟨ho, ?_⟩
    rw [hw, hc]
    exact fun w hw hs ↦ h.durable (ha.2 w hw hs)
  | groupSync seq => exact hnumbered ha
  | waiting seq => exact hnumbered ha
  | fsyncCurrent seq target => exact ⟨hnumbered ha.1, ha.2.1, ha.2.2.trans hws⟩
  | opened seq target segment =>
    obtain ⟨hn, hle, ht, hseg, hall⟩ := ha
    exact ⟨hnumbered hn, hle, ht.trans hws, hseg.trans hcur, fun w hw ↦ hall w (h.batched ht hw)⟩
  | fsyncing seq target segment began =>
    obtain ⟨hn, hle, ht, hseg, hall⟩ := ha
    exact ⟨hnumbered hn, hle, ht.trans hws, hseg.trans hcur, fun w hw ↦ hall w (h.batched ht hw)⟩
  | finishing seq target ok =>
    obtain ⟨hn, hle, ht, hall⟩ := ha
    exact ⟨hnumbered hn, hle, ht.trans hws,
      fun hok w hw ↦ h.durable (hall hok w (h.batched ht hw))⟩
  | returned ok =>
    refine ⟨fun heq ↦ ha.1 (hmu.mp heq), fun hok ↦ ?_⟩
    obtain ⟨hc, hall⟩ := ha.2 hok
    refine ⟨hcount.trans hc, fun w hw hwt ↦ ?_⟩
    rcases h.mem_written hw with hw | ⟨rfl, -⟩
    · exact h.durable (hall w hw hwt)
    · exact absurd hwt.symm ht

theorem inv (h : Effect s s' t) (hi : Inv batch s) (hown : At batch s' t (s'.pc t)) :
    Inv batch s' where
  thread t' := by
    by_cases ht : t' = t
    · rw [ht]
      exact hown
    · rcases h.pc t' ht with heq | ⟨seq, hw, hg⟩
      · rw [heq]
        exact h.at_other ht (hi.thread t')
      · have hat := hi.thread t'
        rw [hw] at hat
        rw [hg]
        exact h.at_other ht hat
  before w hw := by
    have hcur : s.current ≤ s'.current := by
      rcases h.current with heq | ⟨-, heq, -⟩ <;> omega
    rcases h.mem_written hw with hw | ⟨rfl, -, hlt, -⟩
    · obtain ⟨htime, hseg⟩ := hi.before w hw
      exact ⟨htime.trans_le h.clock, hseg.trans hcur⟩
    · exact ⟨hlt, hcur⟩
  older w hw hlt := by
    rcases h.current with heq | ⟨-, heq, hsame, hall⟩
    · rcases h.mem_written hw with hw | ⟨rfl, -⟩
      · exact h.durable (hi.older w hw (heq ▸ hlt))
      · exact absurd (heq ▸ hlt) (lt_irrefl s.current)
    · rw [hsame] at hw
      refine h.durable ?_
      by_cases hc : w.segment = s.current
      · exact hall w hw hc
      · exact hi.older w hw (by omega)
  seq_le t' seq hseq := by
    have hws := h.writeSeq
    by_cases ht : t' = t
    · rw [ht] at hseq
      rcases h.own with heq | ⟨heq, hlt⟩
      · exact (hi.seq_le t seq (heq ▸ hseq)).trans hws
      · rw [hseq, Option.some.injEq] at heq
        omega
    · exact (hi.seq_le t' seq (h.seqOf t' ht ▸ hseq)).trans hws
  synced_le := by
    have hws := h.writeSeq
    have := hi.synced_le
    rcases h.syncedSeq with heq | ⟨hle, -⟩ <;> omega
  synced w hw := by
    rcases h.syncedSeq with heq | ⟨hle, hall⟩
    · rw [heq] at hw
      exact h.durable (hi.synced w (h.batched hi.synced_le hw))
    · exact h.durable (hall w (h.batched hle hw))

end Effect

section Steps

variable {left seq target segment : ℕ} {ok : Bool} {pc : PC}

theorem pc_goto (s : State) (t : ℕ) (pc : PC) : ∀ t' ≠ t, (s.goto t pc).pc t' = s.pc t' ∨
    ∃ seq, s.pc t' = .waiting seq ∧ (s.goto t pc).pc t' = .groupSync seq :=
  fun _ ht ↦ .inl (update_of_ne ht _ _)

theorem mu_iff {mu mu' : Option ℕ} (h : mu = some t ∧ mu' = none ∨ mu = none ∧ mu' = some t) :
    ∀ t' ≠ t, mu' = some t' ↔ mu = some t' := by
  intro t' ht
  rcases h with ⟨rfl, rfl⟩ | ⟨rfl, rfl⟩ <;> simp [ht.symm]

theorem Effect.quiet (hmu : s'.mu = s.mu) (hseq : s'.seqOf = s.seqOf) (hw : s'.written = s.written)
    (hclock : s.clock ≤ s'.clock) (hsynced : s.synced ⊆ s'.synced) (hcur : s'.current = s.current)
    (hws : s'.writeSeq = s.writeSeq) (hss : s'.syncedSeq = s.syncedSeq)
    (hpc : ∀ t' ≠ t, s'.pc t' = s.pc t' ∨
      ∃ seq, s.pc t' = .waiting seq ∧ s'.pc t' = .groupSync seq) : Effect s s' t :=
  ⟨fun _ _ ↦ by rw [hmu], fun _ _ ↦ by rw [hseq], .inl (by rw [hseq]), .inl hw, hclock, hsynced,
    .inl hcur, hws.ge, .inl hss, hpc⟩

theorem Inv.effect (hi : Inv batch s) (h : Effect s s' t) (hpc : s'.pc = update s.pc t pc)
    (hown : At batch s' t pc) : Inv batch s' := by
  refine h.inv hi ?_
  rw [hpc, update_self]
  exact hown

theorem Inv.goto (hi : Inv batch s) (hown : At batch s t pc) : Inv batch (s.goto t pc) :=
  hi.effect (.quiet rfl rfl rfl le_rfl (List.Subset.refl _) rfl rfl rfl (pc_goto s t pc)) rfl
    hown

theorem Effect.fail (h : Owner batch s t left) (locked : List ℕ) :
    Effect s { s.fail t with locked := locked } t :=
  ⟨mu_iff (.inl ⟨h.1, rfl⟩), fun _ _ ↦ rfl, .inl rfl, .inl rfl, le_rfl,
    List.Subset.refl _, .inl rfl, le_rfl, .inl rfl, pc_goto s t _⟩

theorem Inv.fail (hi : Inv batch s) (h : Owner batch s t left) (locked : List ℕ) :
    Inv batch { s.fail t with locked := locked } :=
  hi.effect (Effect.fail h locked) rfl ⟨nofun, nofun⟩

theorem Inv.start (hi : Inv batch s) (h : At batch s t (.start left)) :
    (left = 0 → Inv batch (s.goto t (.returned true))) ∧
      (s.mu = none → Inv batch { s.goto t (.appending left) with mu := some t }) := by
  obtain ⟨hmu, hnone, hcount, rfl⟩ := h
  refine ⟨fun h0 ↦ hi.goto ⟨hmu, fun _ ↦ ⟨hcount.trans h0.symm, fun w hw hwt ↦ ?_⟩⟩,
    fun hfree ↦ hi.effect ⟨mu_iff (.inr ⟨hfree, rfl⟩), fun _ _ ↦ rfl, .inl rfl, .inl rfl, le_rfl,
      List.Subset.refl _, .inl rfl, le_rfl, .inl rfl, pc_goto s t _⟩ rfl ⟨rfl, hnone, ?_⟩⟩
  · exact absurd hwt (by simpa using countP_eq_zero.mp hcount w hw)
  · change count s t + batch t = batch t
    omega

/-- The batch gets its number when all of it is written. -/
theorem Inv.number (hi : Inv batch s) (h : Owner batch s t 0) :
    Inv batch { s.goto t (.groupSync (s.writeSeq + 1)) with
      mu := none
      writeSeq := s.writeSeq + 1
      seqOf := update s.seqOf t (some (s.writeSeq + 1)) } :=
  hi.effect ⟨mu_iff (.inl ⟨h.1, rfl⟩), fun _ ht ↦ update_of_ne ht _ _,
    .inr ⟨update_self _ _ _, Nat.lt_succ_self _⟩, .inl rfl, le_rfl, List.Subset.refl _, .inl rfl,
    Nat.le_succ _, .inl rfl, pc_goto s t _⟩ rfl ⟨nofun, update_self _ _ _, h.2.2⟩

theorem Inv.write (hi : Inv batch s) (h : Owner batch s t (left + 1))
    (hpc : pc = .appending left ∨ pc = .rotating left) (locked : List ℕ) :
    Inv batch { s.goto t pc with
      locked := locked
      clock := s.clock + 1
      written := ⟨t, s.current, s.clock⟩ :: s.written } := by
  refine hi.effect ⟨fun _ _ ↦ Iff.rfl, fun _ _ ↦ rfl, .inl rfl,
    .inr ⟨h.1, h.2.1, rfl, Nat.lt_succ_self _⟩, Nat.le_succ _, List.Subset.refl _, .inl rfl, le_rfl,
    .inl rfl, pc_goto s t _⟩ rfl ?_
  have howner : Owner batch { s.goto t pc with
      locked := locked
      clock := s.clock + 1
      written := ⟨t, s.current, s.clock⟩ :: s.written } t left := by
    refine ⟨h.1, h.2.1, ?_⟩
    have hcount := h.2.2
    unfold count at hcount ⊢
    rw [countP_cons_of_pos (by simp)]
    change countP _ s.written + 1 + left = batch t
    omega
  rcases hpc with rfl | rfl
  · exact howner
  · exact howner

theorem Inv.rotateBegin (hi : Inv batch s) (h : Owner batch s t left) :
    Inv batch { s.goto t (.rotateSync left s.clock) with clock := s.clock + 1 } :=
  hi.effect (.quiet rfl rfl rfl (Nat.le_succ _)
    (List.Subset.refl _) rfl rfl rfl (pc_goto s t _)) rfl ⟨h, fun w hw _ ↦ (hi.before w hw).1⟩

theorem Inv.rotateDone (hi : Inv batch s) {began : ℕ} (h : At batch s t (.rotateSync left began)) :
    Inv batch { s.goto t (.creating left) with synced := ⟨s.current, began⟩ :: s.synced } :=
  hi.effect (.quiet rfl rfl rfl le_rfl (subset_cons_self _ _) rfl rfl rfl (pc_goto s t _)) rfl
    ⟨h.1, fun w hw hseg ↦ ⟨_, mem_cons_self, hseg.symm, h.2 w hw hseg⟩⟩

theorem Inv.create (hi : Inv batch s) (h : At batch s t (.creating left)) (locked : List ℕ) :
    Inv batch { s.goto t (.appending left) with current := s.current + 1, locked := locked } :=
  hi.effect ⟨fun _ _ ↦ Iff.rfl, fun _ _ ↦ rfl, .inl rfl, .inl rfl, le_rfl, List.Subset.refl _,
    .inr ⟨h.1.1, rfl, rfl, h.2⟩, le_rfl, .inl rfl, pc_goto s t _⟩ rfl h.1

theorem Inv.groupSync (hi : Inv batch s) (h : Numbered batch s t seq) :
    (seq ≤ s.syncedSeq → Inv batch (s.goto t (.returned true))) ∧
      Inv batch (s.goto t (.waiting seq)) ∧
      Inv batch { s.goto t (.fsyncCurrent seq s.writeSeq) with syncing := true } := by
  refine ⟨fun hle ↦ hi.goto ⟨h.1, fun _ ↦ ⟨h.2.2, fun w hw hwt ↦ hi.synced w ⟨hw, seq, hle, ?_⟩⟩⟩,
    hi.goto h, hi.effect (.quiet rfl rfl rfl le_rfl (List.Subset.refl _) rfl rfl rfl
      (pc_goto s t _)) rfl ⟨h, hi.seq_le t seq h.2.1, le_rfl⟩⟩
  rw [hwt]
  exact h.2.1

theorem Inv.fsyncCurrent (hi : Inv batch s) (h : At batch s t (.fsyncCurrent seq target)) :
    Inv batch (s.goto t (.finishing seq target false)) ∧
      Inv batch (s.goto t (.opened seq target s.current)) := by
  obtain ⟨hn, hle, ht⟩ := h
  exact ⟨hi.goto ⟨hn, hle, ht, nofun⟩,
    hi.goto ⟨hn, hle, ht, le_rfl, fun w hw ↦ (hi.before w hw.1).2⟩⟩

theorem Inv.fsyncBegin (hi : Inv batch s) (h : At batch s t (.opened seq target segment))
    (locked : List ℕ) : Inv batch { s.goto t (.fsyncing seq target segment s.clock) with
      locked := locked
      clock := s.clock + 1 } := by
  obtain ⟨hn, hle, ht, hseg, hall⟩ := h
  refine hi.effect (.quiet rfl rfl rfl (Nat.le_succ _) (List.Subset.refl _) rfl rfl rfl
    (pc_goto s t _)) rfl ⟨hn, hle, ht, hseg, fun w hw ↦ ?_⟩
  exact (hall w hw).lt_or_eq.imp id fun heq ↦ ⟨heq, (hi.before w hw.1).1⟩

/-- The records in the synced segment are covered, those in older ones were before. -/
theorem Inv.fsyncDone (hi : Inv batch s) {began : ℕ}
    (h : At batch s t (.fsyncing seq target segment began)) (locked : List ℕ) :
    Inv batch { s.goto t (.finishing seq target ok) with
      locked := locked
      synced := if ok then ⟨segment, began⟩ :: s.synced else s.synced } := by
  obtain ⟨hn, hle, ht, hseg, hall⟩ := h
  have hsub : s.synced ⊆ if ok then ⟨segment, began⟩ :: s.synced else s.synced := by
    split_ifs
    · exact subset_cons_self _ _
    · exact List.Subset.refl _
  have heff : Effect s { s.goto t (.finishing seq target ok) with
      locked := locked
      synced := if ok then ⟨segment, began⟩ :: s.synced else s.synced } t :=
    .quiet rfl rfl rfl le_rfl hsub rfl rfl rfl (pc_goto s t _)
  refine hi.effect heff rfl ⟨hn, hle, ht, fun hok w hw ↦ ?_⟩
  rcases hall w (heff.batched ht hw) with hlt | ⟨heq, htime⟩
  · exact heff.durable (hi.older w hw.1 (hlt.trans_le hseg))
  · refine ⟨⟨segment, began⟩, ?_, heq.symm, htime⟩
    rw [if_pos hok]
    exact mem_cons_self

theorem Inv.finish (hi : Inv batch s) (h : At batch s t (.finishing seq target ok)) :
    Inv batch { (s.goto t (.returned ok)).broadcast with
      syncedSeq := if ok ∧ s.syncedSeq < target then target else s.syncedSeq
      syncing := false } := by
  obtain ⟨hn, hle, ht, hall⟩ := h
  have hpc : (s.goto t (.returned ok)).broadcast.pc t = .returned ok := by
    unfold State.broadcast State.goto
    dsimp only
    rw [update_self]
  refine Effect.inv (s := s) (t := t) ⟨fun _ _ ↦ Iff.rfl, fun _ _ ↦ rfl, .inl rfl, .inl rfl, le_rfl,
    List.Subset.refl _, .inl rfl, le_rfl, ?_, fun t' ht' ↦ ?_⟩ hi ?_
  · dsimp only
    split_ifs with hok
    · exact .inr ⟨ht, hall hok.1⟩
    · exact .inl rfl
  · unfold State.broadcast State.goto
    dsimp only
    rw [update_of_ne ht']
    cases s.pc t' with
    | waiting seq => exact .inr ⟨seq, rfl, rfl⟩
    | _ => exact .inl rfl
  · change At batch _ t ((s.goto t (.returned ok)).broadcast.pc t)
    rw [hpc]
    refine ⟨hn.1, fun hok ↦ ⟨hn.2.2, fun w hw hwt ↦ hall hok w ⟨hw, seq, hle, ?_⟩⟩⟩
    rw [hwt]
    exact hn.2.1

theorem Inv.step (hi : Inv batch s) (hs : s.step t o = some s') : Inv batch s' := by
  have hat := hi.thread t
  unfold State.step at hs
  split at hs <;> rename_i hpc <;> rw [hpc] at hat
  · split_ifs at hs with h0 hfree
    · cases hs
      exact (hi.start hat).1 h0
    · cases hs
      exact (hi.start hat).2 hfree
  · cases hs
    exact hi.number hat
  · split_ifs at hs with hl hok
    · cases hs
      exact hi.write hat (.inr rfl) _
    · cases hs
      exact hi.write hat (.inl rfl) _
    · cases hs
      exact hi.fail hat s.locked
  · cases hs
    exact hi.rotateBegin hat
  · split_ifs at hs
    · cases hs
      exact hi.rotateDone hat
    · cases hs
      exact hi.fail hat.1 _
  · split_ifs at hs
    · cases hs
      exact hi.create hat _
    · cases hs
      exact hi.fail hat.1 _
  · split_ifs at hs with hle hsync
    · cases hs
      exact (hi.groupSync hat).1 hle
    · cases hs
      exact (hi.groupSync hat).2.1
    · cases hs
      exact (hi.groupSync hat).2.2
  · cases hs
  · split_ifs at hs
    · cases hs
      exact (hi.fsyncCurrent hat).1
    · cases hs
      exact (hi.fsyncCurrent hat).2
  · split_ifs at hs
    cases hs
    exact hi.fsyncBegin hat _
  · cases hs
    exact hi.fsyncDone hat _
  · cases hs
    exact hi.finish hat
  · cases hs

end Steps

theorem Inv.init (batch : ℕ → ℕ) : Inv batch (init batch) where
  thread _ := ⟨nofun, rfl, rfl, rfl⟩
  before := nofun
  older := nofun
  seq_le := nofun
  synced_le := le_rfl
  synced _ hw := nomatch hw.1

theorem Reach.inv (h : Reach batch s) : Inv batch s := by
  induction h with
  | init => exact .init batch
  | step _ t o hs ih => exact ih.step hs

/-- `Append` returns without an error only when all records of its batch are written and each is
covered by a successful fsync of its file that began later. -/
theorem append_durable (h : Reach batch s) (ht : s.pc t = .returned true) :
    (s.written.filter (·.thread = t)).length = batch t ∧
      ∀ w ∈ s.written, w.thread = t → ∃ y ∈ s.synced, y.segment = w.segment ∧ w.time < y.began := by
  have hat := h.inv.thread t
  rw [ht] at hat
  obtain ⟨hcount, hall⟩ := hat.2 rfl
  refine ⟨?_, hall⟩
  rw [← countP_eq_length_filter]
  exact hcount

end Invariant

def State.run (s : State) : List (ℕ × Outcome) → Option State
  | [] => some s
  | (t, o) :: rest => (s.step t o).bind fun s ↦ s.run rest

theorem Reach.run {batch : ℕ → ℕ} {s s' : State} {l : List (ℕ × Outcome)} (h : Reach batch s)
    (hr : s.run l = some s') : Reach batch s' := by
  induction l generalizing s with
  | nil =>
    cases hr
    exact h
  | cons x l ih =>
    obtain ⟨s₁, hs, hr⟩ := Option.bind_eq_some_iff.mp hr
    exact ih (.step h x.1 x.2 hs) hr

/-- Call 0 rotates, call 1 writes to the new segment, and call 0 syncs for both. -/
def sharedSync : List (ℕ × Outcome) :=
  [(0, ⟨true, false⟩), (0, ⟨true, true⟩), (0, ⟨true, false⟩), (0, ⟨true, false⟩),
    (0, ⟨true, false⟩), (0, ⟨true, false⟩), (1, ⟨true, false⟩), (1, ⟨true, false⟩),
    (1, ⟨true, false⟩), (0, ⟨true, false⟩), (1, ⟨true, false⟩), (0, ⟨true, false⟩),
    (0, ⟨true, false⟩), (0, ⟨true, false⟩), (0, ⟨true, false⟩), (1, ⟨true, false⟩)]

theorem append_durable_sharedSync : ∃ s, Reach (fun _ ↦ 1) s ∧ s.pc 0 = .returned true ∧
    s.pc 1 = .returned true ∧ (s.written.filter (·.thread = 1)).length = 1 ∧
      ∀ w ∈ s.written, w.thread = 1 → ∃ y ∈ s.synced, y.segment = w.segment ∧ w.time < y.began := by
  have hrun : ((init fun _ ↦ 1).run sharedSync).map (fun s ↦ (s.pc 0, s.pc 1)) =
      some (.returned true, .returned true) := by decide
  obtain ⟨s, hs, hpc⟩ := Option.map_eq_some_iff.mp hrun
  simp only [Prod.mk.injEq] at hpc
  have hreach := Reach.run .init hs
  exact ⟨s, hreach, hpc.1, hpc.2, append_durable hreach hpc.2⟩

end RaftConsensus.GroupCommit
