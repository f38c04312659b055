import RaftConsensus.Single.Commit

namespace RaftConsensus

open LogStore

namespace Raft

variable {σ : Type} (r : Raft σ)

/-- The node's logical log has an entry of the given term at the index: the latest snapshot stands
for the entry at its own index, the log store holds the others. -/
def LogicalTerm (index term : ℕ) : Prop :=
  index = 0 ∨
    if r.snapshot.latest.map Snapshot.index = some index then
      r.snapshot.latest.map Snapshot.term = some term
    else ∃ e, r.log.get index = some e ∧ e.term = term

def holdsSnapshot : Bool :=
  match r.snapshot.latest with
  | none => true
  | some s => s.index = 0 || (r.log.get s.index).any (·.term = s.term)

variable {r}

theorem holdsSnapshot_iff {s : Snapshot} (h : r.snapshot.latest = some s) : r.holdsSnapshot = true ↔
    s.index = 0 ∨ ∃ e, r.log.get s.index = some e ∧ e.term = s.term := by
  simp [holdsSnapshot, h, Option.any_eq_true]

/-- Where the log store stands in for the logical log: away from the snapshot's index, when the
entry there is held, or when the request asks for a term that neither of them has. -/
def Checkable (r : Raft σ) (req : AppendEntriesRequest) : Prop :=
  ∀ s, r.snapshot.latest = some s → req.prevLogIndex = s.index → r.holdsSnapshot = true ∨
    req.prevLogTerm ≠ s.term ∧ ∀ e, r.log.get s.index = some e → e.term ≠ req.prevLogTerm

variable {entries : List LogEntry} {term : ℕ}

theorem logicalTerm_of_ne {index : ℕ}
    (h : ∀ s, r.snapshot.latest = some s → index ≠ s.index) : r.LogicalTerm index term ↔
      index = 0 ∨ ∃ e, r.log.get index = some e ∧ e.term = term := by
  rw [LogicalTerm, if_neg]
  intro heq
  obtain ⟨s, hs, rfl⟩ := Option.map_eq_some_iff.mp heq
  exact h s hs rfl

theorem logicalTerm_snapshot {s : Snapshot} (h : r.snapshot.latest = some s) :
    r.LogicalTerm s.index term ↔ s.index = 0 ∨ s.term = term := by
  simp [LogicalTerm, h]

theorem check_iff_checkable (req : AppendEntriesRequest) :
    (r.prevLogConflict req = none ↔ r.LogicalTerm req.prevLogIndex req.prevLogTerm) ↔
      r.Checkable req := by
  rw [prevLogConflict_none_iff]
  by_cases hs : ∃ s, r.snapshot.latest = some s ∧ req.prevLogIndex = s.index
  · obtain ⟨s, hs, hp⟩ := hs
    have hc : r.Checkable req ↔ r.holdsSnapshot = true ∨ req.prevLogTerm ≠ s.term ∧
        ∀ e, r.log.get s.index = some e → e.term ≠ req.prevLogTerm := by
      refine ⟨fun h ↦ h s hs hp, fun h x hx hpx ↦ ?_⟩
      rw [hs] at hx
      cases hx
      exact h
    rw [hc, holdsSnapshot_iff hs, hp, logicalTerm_snapshot hs]
    by_cases h0 : s.index = 0
    · simp [h0]
    · simp only [h0, false_or]
      constructor
      · intro h
        by_cases ht : s.term = req.prevLogTerm
        · rw [ht]
          exact .inl (h.mpr ht)
        · exact .inr ⟨Ne.symm ht, fun e he heq ↦ ht (h.mp ⟨e, he, heq⟩)⟩
      · rintro (⟨e, he, ht⟩ | ⟨hne, hall⟩)
        · refine ⟨fun ⟨x, hx, hxt⟩ ↦ ?_, fun h ↦ ⟨e, he, ht.trans h⟩⟩
          rw [he] at hx
          cases hx
          exact ht.symm.trans hxt
        · exact ⟨fun ⟨x, hx, hxt⟩ ↦ absurd hxt (hall x hx), fun h ↦ absurd h.symm hne⟩
  · have hne (s : Snapshot) (h : r.snapshot.latest = some s) : req.prevLogIndex ≠ s.index :=
      fun heq ↦ hs ⟨s, h, heq⟩
    rw [logicalTerm_of_ne hne]
    exact ⟨fun _ s h heq ↦ absurd heq (hne s h), fun _ ↦ Iff.rfl⟩

theorem get_foldl_append {c : Core} {idx : ℕ} (hpos : 0 < idx)
    (hc : contiguous idx entries = true) :
    (∀ i < idx, (entries.foldl Core.append c).log.get i = c.log.get i) ∧
      ∀ e ∈ entries, (entries.foldl Core.append c).log.get e.index = some e := by
  induction entries generalizing c idx with
  | nil => exact ⟨fun _ _ ↦ rfl, nofun⟩
  | cons x rest ih =>
    rw [contiguous_cons] at hc
    obtain ⟨hlow, hmem⟩ := ih (c := c.append x) (Nat.succ_pos idx) hc.2
    have hget (i : ℕ) (hi : 0 < i) :
        (c.append x).log.get i = if i = x.index then some x else c.log.get i :=
      get_append _ _ _ hi
    refine ⟨fun i hi ↦ ?_, fun e he ↦ ?_⟩
    · rw [List.foldl_cons, hlow i (by omega)]
      rcases Nat.eq_zero_or_pos i with rfl | hi0
      · rfl
      · rw [hget i hi0, if_neg (by omega)]
    · rcases List.mem_cons.mp he with rfl | he
      · rw [List.foldl_cons, hlow _ (by omega), hget _ (by omega), if_pos rfl]
      · exact hmem e he

/-- A request that continues the log at its end is stored as it is. -/
theorem storeEntries_end (hlog : ∀ i e, r.log.get i = some e → i ≤ r.lastIndex)
    (hw : contiguous (r.lastIndex + 1) entries = true) :
    (r.storeEntries entries).2 = none ∧
      ∀ e ∈ entries, (r.storeEntries entries).1.log.get e.index = some e := by
  cases entries with
  | nil => exact ⟨rfl, nofun⟩
  | cons e rest =>
    have hidx : e.index = r.lastIndex + 1 := by
      rw [contiguous_cons] at hw
      exact hw.1
    have hnone : r.log.get e.index = none := by
      refine Option.eq_none_iff_forall_ne_some.mpr fun x hx ↦ ?_
      have := hlog _ x hx
      omega
    have hp : r.persistLog (e :: rest) = some ((e :: rest).foldl appendEntry r) := if_pos hw
    simp only [storeEntries, hnone, hp]
    refine ⟨trivial, fun x hx ↦ ?_⟩
    have hget := (get_foldl_append (c := r.core) (Nat.succ_pos _) hw).2 x hx
    rw [← core_foldl_appendEntry] at hget
    exact hget

theorem accepts_end_iff {req : AppendEntriesRequest} (rnd : ℕ) (ht : req.term = r.term)
    (hw : contiguous (req.prevLogIndex + 1) req.entries = true)
    (hlog : ∀ i e, r.log.get i = some e → i ≤ r.lastIndex) (hp : req.prevLogIndex = r.lastIndex) :
    ((r.handleAppendEntries req rnd).2.success = true ∧
        ∀ e ∈ req.entries, (r.handleAppendEntries req rnd).1.log.get e.index = some e) ↔
      r.prevLogConflict req = none := by
  have hcore := r.core_heardFromLeader req rnd
  have hcatch : r.catchUp req.term = r := if_neg (by omega)
  rw [hcatch] at hcore
  unfold handleAppendEntries
  rw [if_neg (by omega)]
  dsimp only
  generalize r.heardFromLeader req rnd = r₁ at hcore
  have hl : r₁.log = r.log := congrArg Core.log hcore
  have hi : r₁.lastIndex = r.lastIndex := congrArg Core.lastIndex hcore
  have hsame : r₁.prevLogConflict req = none ↔ r.prevLogConflict req = none := by
    rw [prevLogConflict_none_iff, prevLogConflict_none_iff, hl]
  rw [← hsame]
  cases hc : r₁.prevLogConflict req with
  | some q => exact ⟨fun h ↦ (nomatch h.1), nofun⟩
  | none =>
    refine ⟨fun _ ↦ rfl, fun _ ↦ ?_⟩
    rw [hp, ← hi] at hw
    rw [← hl, ← hi] at hlog
    obtain ⟨hnone, hget⟩ := storeEntries_end hlog hw
    generalize r₁.storeEntries req.entries = q at hnone hget
    obtain ⟨r₂, early⟩ := q
    cases hnone
    refine ⟨rfl, fun e he ↦ ?_⟩
    rw [show (r₂.followCommit req).log = r₂.log from (r₂.followCommit_frame req).2]
    exact hget e he

end Raft

/-- The log of a started node ends where the node says, unless it is in the middle of
a `Restore`. -/
structure Core.Ranged (c : Core) : Prop where
  log : ∀ i e, c.log.get i = some e → i ≤ c.lastIndex
  calm : ∀ future, c.run ≠ .restored future

section Ranged

variable {R : Rules} {L : Warrant} {inp : Input} {c c' : Core} {out : List Effect}

theorem Core.Ranged.append (h : c.Ranged) {e : LogEntry} (hi : e.index = c.lastIndex + 1)
    (hg : c'.log = c.log.append e) (hl : c'.lastIndex = e.index)
    (hr : ∀ future, c'.run ≠ .restored future) : c'.Ranged where
  log i x hx := by
    rw [hg] at hx
    rcases get_append_cases hx with hx | rfl
    · have := h.log i x hx
      omega
    · exact hl ▸ (get_index hx).ge
  calm := hr

theorem Core.Ranged.boot (c : Core) (state : RaftState) (lastTerm : ℕ) :
    (c.boot state lastTerm).Ranged where
  log _ _ he := (le_lastIndex he).trans (le_max_left _ _)
  calm := nofun

theorem Move.ranged (hR : R.restore = false) (h : c.started = true → c.Ranged)
    (hm : Move R L inp c out c') (hst : c'.started = true) : c'.Ranged := by
  cases hm with
  | crown hq hL hS | lead who hs hi hq hL => exact (h hst).append rfl rfl rfl (h hst).calm
  | propose e hi ht hs hp | submit e future hi ht hs hp | change e data hi ht hs hR hp
  | copy req e hi ht he hi =>
    exact (h hst).append ‹e.index = c.lastIndex + 1› rfl rfl (h hst).calm
  | exit e x drain k hi => exact (h hst).append hi rfl rfl nofun
  | truncate req e x lastTerm hi ht he hx hne hc =>
    refine ⟨fun i y hy ↦ ?_, (h hst).calm⟩
    have hy : (c.log.deleteRange (e.index - 1 + 1) (c.lastIndex + 1)).get i = some y := hy
    rw [get_deleteRange] at hy
    split at hy
    · cases hy
    · have := (h hst).log i y hy
      change i ≤ e.index - 1
      omega
  | goto pc hT hturn =>
    refine ⟨(h hst).log, fun future hpc ↦ ?_⟩
    have := hturn.restore_of hpc
    rw [hR] at this
    cases this
  | configure data drain k e hr hp =>
    refine ⟨(h hst).log, fun future hpc ↦ ?_⟩
    have hpc : c.afterConfiguration drain k e data = .restored future := hpc
    unfold Core.afterConfiguration at hpc
    split at hpc <;> cases hpc
  | start state lastTerm hn => exact .boot c state lastTerm
  | compact lo hi =>
    exact ⟨fun i x hx ↦ (h hst).log i x (get_of_deleteRange hx), (h hst).calm⟩
  | install req lastIndex lastTerm hi hc hl hx =>
    refine ⟨fun i x hx' ↦ ?_, (h hst).calm⟩
    rcases hx with hx | hnone
    · exact ((h hst).log i x hx').trans hx
    · rw [hnone i] at hx'
      cases hx'
  | restore future hr => exact absurd hr ((h hst).calm future)
  | _ => exact ⟨(h hst).log, (h hst).calm⟩

def ranged : Scheme := ⟨fun _ _ c _ ↦ c.started = true → c.Ranged, fun _ _ _ ↦ True, fun _ ↦ True⟩

theorem ranged_kept {cl : Cluster} {L : Licence} {since : ℕ} (hR : R.restore = false) :
    ranged.Kept cl R L since where
  frame _ _ _ _ _ _ h := h
  replied _ _ _ _ h := h
  move _ _ _ _ _ _ _ _ h _ _ hm := ⟨hm.ranged hR h, trivial⟩
  boot _ _ c _ state lastTerm _ _ _ _ _ _ _ := .boot c state lastTerm
  idle _ _ _ _ _ _ h _ _ := ⟨h, trivial⟩
  create _ _ _ _ _ _ _ _ hst := nomatch hst
  crash _ _ _ _ _ := trivial
  drop _ _ _ _ _ h _ := h
  answer _ _ _ _ _ _ _ _ _ _ _ _ _ _ _ := trivial

theorem ranged_init {σ : Type} : ranged.Holds (World.init : World σ).view :=
  ⟨fun _ ↦ trivial, trivial⟩

end Ranged

section Run

variable {σ : Type} {cl : Cluster} {F : FSM σ} {w : World σ} {n : ServerID} {r : Raft σ}

theorem World.Reach.log_ranged (h : World.Reach cl F (fun w a ↦ w.within withoutRestore a = true) w)
    (hr : w.raft? n = some r) (hst : r.started = true) :
    ∀ i e, r.log.get i = some e → i ≤ r.lastIndex := by
  have hkept : ranged.Kept cl withoutRestore .free 0 := ranged_kept rfl
  have hv := hkept.reach (fun _ _ ↦ permits_free) ranged_init h
  obtain ⟨calls, hh⟩ := hosts_of_raft? hr
  have hup : w.view.sites n = .up r.core calls := congrArg site hh
  exact (hv.up hup hst).log

/-- The consistency check sees the logical log, and a request that continues the log at its end
is accepted, exactly when the log store still holds what the snapshot ends with (or the request
is not about it) and the node's last index and term are those of the logical log. -/
theorem consistencyCheck_iff
    (h : World.Reach cl F (fun w a ↦ w.within withoutRestore a = true) w)
    (hr : w.raft? n = some r) (hst : r.started = true) (req : AppendEntriesRequest) (rnd : ℕ)
    (ht : req.term = r.term) :
    ((r.prevLogConflict req = none ↔ r.LogicalTerm req.prevLogIndex req.prevLogTerm) ∧
      (req.prevLogIndex = r.lastIndex → req.prevLogTerm = r.lastTerm →
        r.prevLogConflict req = none ∧
          (Raft.contiguous (req.prevLogIndex + 1) req.entries = true →
            (r.handleAppendEntries req rnd).2.success = true ∧
              ∀ e ∈ req.entries, (r.handleAppendEntries req rnd).1.log.get e.index = some e))) ↔
    r.Checkable req ∧ (req.prevLogIndex = r.lastIndex → req.prevLogTerm = r.lastTerm →
      r.LogicalTerm r.lastIndex r.lastTerm) := by
  constructor
  · rintro ⟨hcheck, hend⟩
    refine ⟨(Raft.check_iff_checkable req).mp hcheck, fun hp hpt ↦ ?_⟩
    rw [← hp, ← hpt]
    exact hcheck.mp (hend hp hpt).1
  · rintro ⟨hcheck, hend⟩
    have hcheck := (Raft.check_iff_checkable req).mpr hcheck
    refine ⟨hcheck, fun hp hpt ↦ ?_⟩
    have hnone : r.prevLogConflict req = none := by
      refine hcheck.mpr ?_
      rw [hp, hpt]
      exact hend hp hpt
    exact ⟨hnone, fun hw ↦ (Raft.accepts_end_iff rnd ht hw (h.log_ranged hr hst) hp).mpr hnone⟩

end Run

section Example

open Action (boot timeout turns)

def appliedAtB : List Action :=
  electA ++ turns "A" 3 ++ [.op "A" (.propose [(1, [1])]), .op "A" (.replicate "B"), .deliver 2,
    .reply 1, .op "A" (.replicate "B")] ++ turns "A" 9 ++ [.op "A" (.tick 0 0 ["B", "C"]),
    .op "A" (.replicate "B"), .deliver 3, .op "B" .commitNotify] ++ turns "B" 9

def nextForB : AppendEntriesRequest := ⟨1, "A", 2, 1, [⟨1, 3, .normal [2]⟩], 2⟩

theorem consistencyCheck_iff_appliedAtB : ∃ (w : World (List Bytes)) (r : Raft (List Bytes)),
    World.Reach threeVoters .keeping (fun w a ↦ w.within withoutRestore a = true) w ∧
      w.raft? "B" = some r ∧ r.started = true ∧ nextForB.term = r.term ∧
      (r.prevLogConflict nextForB = none ↔ r.LogicalTerm 2 1) ∧
      (r.handleAppendEntries nextForB 0).2.success = true := by
  obtain ⟨w, r, hreach, hr, hst, ht, hl, hlt, hg, hs⟩ := World.exists_checked_raft threeVoters
    .keeping (·.within withoutRestore) appliedAtB "B" (fun r ↦ r.started = true ∧ r.term = 1 ∧
      r.lastIndex = 2 ∧ r.lastTerm = 1 ∧ (r.log.get 2).map LogEntry.term = some 1 ∧
      r.snapshot.latest = none) (by decide +kernel)
  obtain ⟨e, he, het⟩ := Option.map_eq_some_iff.mp hg
  have hend : r.LogicalTerm 2 1 := by
    refine .inr ?_
    rw [if_neg (by rw [hs]; nofun)]
    exact ⟨e, he, het⟩
  have hcheck : r.Checkable nextForB := fun s hs' ↦ by rw [hs] at hs'; cases hs'
  obtain ⟨hiff, hacc⟩ := (consistencyCheck_iff hreach hr hst nextForB 0 ht.symm).mpr
    ⟨hcheck, fun hp hpt ↦ by rw [← hp, ← hpt]; exact hend⟩
  exact ⟨w, r, hreach, hr, hst, ht.symm, hiff, ((hacc hl.symm hlt.symm).2 rfl).1⟩

def snapshotAtB : List Action := appliedAtB ++ .op "B" .snapshot :: turns "B" 4

/-- The entry that B's log ended with is only in its snapshot: a request that continues from
there is refused. -/
theorem snapshot_end_refused : ∃ (w : World (List Bytes)) (r : Raft (List Bytes)) (s : Snapshot),
    World.Reach threeVoters .keeping (fun w a ↦ w.within withoutRestore a = true) w ∧
      w.raft? "B" = some r ∧ r.started = true ∧ nextForB.term = r.term ∧
      r.snapshot.latest = some s ∧ s.index = nextForB.prevLogIndex ∧
      nextForB.prevLogIndex = r.lastIndex ∧ nextForB.prevLogTerm = r.lastTerm ∧
      r.LogicalTerm nextForB.prevLogIndex nextForB.prevLogTerm ∧
      r.prevLogConflict nextForB ≠ none ∧
      (r.handleAppendEntries nextForB 0).2.success = false := by
  obtain ⟨w, r, hreach, hr, hst, ht, hl, hlt, hs, hc, hf⟩ := World.exists_checked_raft threeVoters
    .keeping (·.within withoutRestore) snapshotAtB "B" (fun r ↦ r.started = true ∧ r.term = 1 ∧
      r.lastIndex = 2 ∧ r.lastTerm = 1 ∧
      r.snapshot.latest.map (fun s ↦ (s.index, s.term)) = some (2, 1) ∧
      r.prevLogConflict nextForB ≠ none ∧ (r.handleAppendEntries nextForB 0).2.success = false)
    (by decide +kernel)
  obtain ⟨s, hs, hst'⟩ := Option.map_eq_some_iff.mp hs
  simp only [Prod.mk.injEq] at hst'
  refine ⟨w, r, s, hreach, hr, hst, ht.symm, hs, hst'.1, hl.symm, hlt.symm, ?_, hc, hf⟩
  have hlog := (Raft.logicalTerm_snapshot hs).mpr (.inr hst'.2)
  rw [hst'.1] at hlog
  exact hlog

end Example

end RaftConsensus
