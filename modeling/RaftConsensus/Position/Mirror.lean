import RaftConsensus.Position.Placed
import RaftConsensus.Single.Machine
import RaftConsensus.Compaction.Follower

namespace RaftConsensus

open Option LogStore

namespace Raft

variable {σ : Type} {F : FSM σ} {r r' : Raft σ}

section Install

variable {req : InstallSnapshotRequest}

theorem handleInstallSnapshot_installs (F : FSM σ) (r : Raft σ) (req : InstallSnapshotRequest)
    (rnd : ℕ) :
    r.installs req = none ∧ (∃ r₁, (r₁ = r ∨ r₁ = r.catchUp req.term) ∧
      (r.handleInstallSnapshot F req rnd).1.core = r₁.core ∧
      (r.handleInstallSnapshot F req rnd).1.journal = r₁.journal) ∨
    ∃ (data : Bytes) (r₁ : Raft σ), r.installs req = some data ∧
      r₁.core = (r.catchUp req.term).core ∧ r₁.journal = (r.catchUp req.term).journal ∧
      (r.handleInstallSnapshot F req rnd).1 = r₁.installSnapshot F req data := by
  unfold handleInstallSnapshot installs
  dsimp only
  split
  · exact .inl ⟨rfl, r, .inl rfl, rfl, rfl⟩
  · obtain ⟨hb, hk⟩ := r.snapReasm_catchUp req.term
    generalize r.catchUp req.term = r₁ at hb hk
    rw [hb, ← hk]
    cases reassemble r.snapReasm req with
    | none => exact .inl ⟨rfl, r₁, .inr rfl, rfl, rfl⟩
    | some b =>
      simp only [bind_some]
      by_cases hall : b.buf.length ≤ maxReassembledSnapshotBytes ∧ req.done = true ∧
          r₁.commitIndex < req.lastIncludedIndex
      · rw [if_pos hall, if_neg hall.1.not_gt, if_neg (by simp [hall.2.1]), if_neg hall.2.2.not_ge]
        refine .inr ⟨b.buf, _, rfl, ?_, ?_, rfl⟩
        · rfl
        · rfl
      · rw [if_neg hall]
        refine .inl ⟨rfl, r₁, .inr rfl, ?_⟩
        split_ifs with hlen hdone hle
        · exact ⟨rfl, rfl⟩
        · exact ⟨rfl, rfl⟩
        · exact ⟨rfl, rfl⟩
        · exact absurd ⟨not_lt.mp hlen, by simpa using hdone, not_le.mp hle⟩ hall

theorem placed_catchUp (t : ℕ) (h : Placed r.core) : Placed (r.catchUp t).core := by
  rw [core_catchUp]
  split
  · exact h.keep rfl rfl rfl rfl le_rfl (.inl rfl)
  · exact h

theorem paced_catchUp (t : ℕ) (h : Paced r.core) : Paced (r.catchUp t).core := by
  rw [core_catchUp]
  split
  · exact { h with }
  · exact h

variable {data : Bytes} {index term : ℕ}

theorem core_reconcileLog_inside {e : LogEntry} (he : r.log.get index = some e)
    (ht : e.term = term) (hle : index ≤ r.lastIndex) : ∃ lo, (r.reconcileLog index term).core =
      { r.core with log := r.log.deleteRange lo index } ∧ ∀ i < lo, r.log.get i = none := by
  have hfirst := firstIndex_le he
  have hpos := get_pos he
  unfold reconcileLog
  rw [if_pos (by simp [he, ht])]
  have hlo : (if r.log.firstIndex = 0 then 1 else r.log.firstIndex) ≤ index := by split <;> omega
  refine ⟨if r.log.firstIndex = 0 then 1 else r.log.firstIndex, ?_, fun i hi ↦ ?_⟩
  · dsimp only
    rw [if_pos hlo]
    exact congrArg core (if_neg (not_lt.mpr hle))
  · cases hg : r.log.get i with
    | none => rfl
    | some x =>
      have := firstIndex_le hg
      have := get_pos hg
      split at hi <;> omega

theorem core_reconcileLog_over
    (h : ¬ (r.log.get index).any (·.term = term) = true) : (r.reconcileLog index term).core =
      { r.core with
        log := if 0 < r.log.lastIndex ∧ r.log.firstIndex ≤ r.log.lastIndex then
          r.log.deleteRange r.log.firstIndex r.log.lastIndex else r.log
        lastIndex := index
        lastTerm := term } := by
  unfold reconcileLog
  rw [if_neg h]
  dsimp only
  split <;> rfl

/-- What the installation of a snapshot makes of a node: the snapshot ends inside the log, which
keeps what follows, or the log is dropped. -/
theorem core_installSnapshot (hF : (F.restore data).isSome = true)
    (hle : ∀ e, r.log.get req.lastIncludedIndex = some e → req.lastIncludedIndex ≤ r.lastIndex)
    {snap : Snapshot}
    (hs : snap = ⟨req.lastIncludedIndex, req.lastIncludedTerm, r.configuration, data⟩) :
    (∃ e lo, r.log.get snap.index = some e ∧ e.term = snap.term ∧ (∀ i < lo, r.log.get i = none) ∧
      (r.installSnapshot F req data).core = { r.core with
        snapshot := r.snapshot.create snap, log := r.log.deleteRange lo snap.index,
        commitIndex := snap.index, applyIndex := snap.index }) ∨
    (r.installSnapshot F req data).core = { r.core with
      snapshot := r.snapshot.create snap
      log := if 0 < r.log.lastIndex ∧ r.log.firstIndex ≤ r.log.lastIndex then
        r.log.deleteRange r.log.firstIndex r.log.lastIndex else r.log
      lastIndex := snap.index, lastTerm := snap.term
      commitIndex := snap.index, applyIndex := snap.index } := by
  obtain ⟨fsm, hfsm⟩ := isSome_iff_exists.mp hF
  obtain ⟨r₁, hr₁, hcore⟩ : ∃ r₁ :
      Raft σ, r₁.core = { r.core with snapshot := r.snapshot.create snap } ∧
      (r.installSnapshot F req data).core =
        { (r₁.reconcileLog req.lastIncludedIndex req.lastIncludedTerm).core with
          commitIndex := req.lastIncludedIndex
          applyIndex := req.lastIncludedIndex } := by
    refine ⟨{ { r with snapshot := r.snapshot.create snap }.checkpoint with fsm := fsm }, rfl, ?_⟩
    unfold installSnapshot restoreSnapshotData
    simp only [hfsm, hs]
    rfl
  have hlog : r₁.log = r.log := congrArg Core.log hr₁
  rw [hcore]
  by_cases hany : (r₁.log.get req.lastIncludedIndex).any (·.term = req.lastIncludedTerm) = true
  · obtain ⟨e, he, ht⟩ := (any_eq_true _ _).mp hany
    have he' : r.log.get req.lastIncludedIndex = some e := hlog ▸ he
    have hlast : r₁.lastIndex = r.lastIndex := congrArg Core.lastIndex hr₁
    obtain ⟨lo, hlo, hnone⟩ := core_reconcileLog_inside he (of_decide_eq_true ht)
      (hlast ▸ hle e he')
    rw [hlo, hr₁, hlog, hs]
    exact .inl ⟨e, lo, he', of_decide_eq_true ht, hlog ▸ hnone, rfl⟩
  · rw [core_reconcileLog_over hany, hr₁, hlog, hs]
    exact .inr rfl

theorem placed_installSnapshot (hp : Paced r.core) (h : Placed r.core)
    (hk : r.commitIndex < req.lastIncludedIndex) (hF : (F.restore data).isSome = true) :
    Placed (r.installSnapshot F req data).core := by
  obtain ⟨snap, hs⟩ : ∃ snap : Snapshot,
      snap = ⟨req.lastIncludedIndex, req.lastIncludedTerm, r.configuration, data⟩ := ⟨_, rfl⟩
  have hk' : r.core.commitIndex < snap.index := by
    rw [hs]
    exact hk
  rcases core_installSnapshot hF (fun e he ↦ hp.log _ e he) hs with ⟨e, lo, he, ht, -, hc⟩ | hc
  · rw [hc]
    exact h.install_inside hp hk' he ht lo
  · rw [hc]
    exact h.install_over hp hk' r.log.get_discarded

theorem placed_handleInstallSnapshot (hp : Paced r.core) (h : Placed r.core) (rnd : ℕ)
    (hF : ∀ data, r.installs req = some data → (F.restore data).isSome = true) :
    Placed (r.handleInstallSnapshot F req rnd).1.core := by
  rcases handleInstallSnapshot_installs F r req rnd with
    ⟨-, r₁, rfl | rfl, hc, -⟩ | ⟨data, r₁, hd, hc, -, hr⟩
  · exact hc ▸ h
  · exact hc ▸ placed_catchUp req.term h
  · have hk : r₁.commitIndex = r.commitIndex :=
      (congrArg Core.commitIndex hc).trans (r.snapReasm_catchUp req.term).2
    rw [hr]
    refine placed_installSnapshot ?_ ?_ (hk ▸ r.lt_of_installs hd) (hF data hd)
    · exact hc ▸ paced_catchUp req.term hp
    · exact hc ▸ placed_catchUp req.term h

end Install

theorem placed_goto {pc : RunPC} (h : Placed r.core)
    (hgone : ∀ k cfg data, pc = .snapshotLastTerm k cfg data → 0 < k ∧ r.log.get k = none)
    (htaken : ∀ k t cfg data, pc = .snapshotCreate k t cfg data → (k = 0 → t = 0) ∧
      (∀ e, r.log.get k = some e → e.term = t) ∧ (r.lastIndex = k → r.lastTerm = t))
    (hstored : ∀ k, pc = .snapshotCompact k → k ≤ r.core.snapIndex) :
    Placed { r with run := pc }.core :=
  { h with gone := hgone, taken := htaken, stored := hstored }

theorem placed_snapshotTerm (h : Placed r.core) (index : ℕ) (config : Configuration)
    (data : Bytes) :
    Placed (r.snapshotTerm index config data).core := by
  unfold snapshotTerm
  split
  · rename_i h0
    refine placed_goto h nofun (fun k t cfg data heq ↦ ?_) nofun
    cases heq
    refine ⟨fun _ ↦ rfl, fun e he ↦ ?_, fun hl ↦ h.zero (hl.trans h0)⟩
    rw [h0] at he
    cases he
  · rename_i hpos
    split
    · rename_i e he
      refine placed_goto h nofun (fun k t cfg data heq ↦ ?_) nofun
      cases heq
      refine ⟨fun h0 ↦ absurd h0 hpos, fun x hx ↦ ?_, fun hl ↦ ?_⟩
      · exact congrArg LogEntry.term (some.inj (hx.symm.trans he))
      · exact (h.term e (show r.log.get r.lastIndex = some e from hl ▸ he)).symm
    · rename_i hnone
      refine placed_goto h (fun k cfg data heq ↦ ?_) nofun nofun
      cases heq
      exact ⟨Nat.pos_of_ne_zero hpos, hnone⟩

variable {index : ℕ}

theorem placed_snapshotCreate (hp : Paced r.core) (h : Placed r.core) {term : ℕ}
    {config : Configuration} {data : Bytes} (hr : r.run = .snapshotCreate index term config data) :
    Placed (r.snapshotCreate index term config data).core := by
  obtain ⟨h0, hterm, hend⟩ := h.taken index term config data hr
  have hk : index ≤ r.commitIndex :=
    (hp.snapshot index (by rw [show r.core.run = _ from hr]; rfl)).trans hp.apply
  have hcommit : r.commitIndex ≤ r.lastIndex := hp.commit
  have hcommitted : r.core.snapIndex ≤ r.commitIndex := h.committed
  have hlatest := r.snapshot.latest_create ⟨index, term, config, data⟩
  have hsnap : ((r.snapshot.create ⟨index, term, config, data⟩).latest.map Snapshot.index).getD 0 =
      max index r.core.snapIndex := by
    rw [hlatest]
    cases hs : r.snapshot.latest with
    | none =>
      have : r.core.snapIndex = 0 := by
        rw [Core.snapIndex, show r.core.snapshot.latest = none from hs]
        rfl
      simp [this]
    | some s =>
      rw [Placed.snapIndex_eq (show r.core.snapshot.latest = some s from hs)]
      simp only [any_some, decide_eq_true_eq]
      split
      · rename_i hlt
        exact (max_eq_right hlt.le).symm
      · rename_i hge
        exact (max_eq_left (not_lt.mp hge)).symm
  have hcase {s : Snapshot} (hs : (r.snapshot.create ⟨index, term, config, data⟩).latest = some s) :
      r.snapshot.latest = some s ∨ s = ⟨index, term, config, data⟩ := by
    rw [hlatest] at hs
    split at hs
    · exact .inl hs
    · exact .inr (some.inj hs).symm
  refine ⟨h.term, fun hne ↦ ?_, h.zero, ?_, fun s hs heq ↦ ?_, fun s hs e he ↦ ?_, fun s hs hz ↦ ?_,
    (fun _ _ _ h ↦ by cases h), (fun _ _ _ _ h ↦ by cases h), fun k heq ↦ ?_⟩
  · refine (h.held hne).imp_right fun heq ↦ ?_
    have heq : r.core.snapIndex = r.lastIndex := heq
    exact hsnap.trans (by rw [heq]; exact max_eq_right (hk.trans hcommit))
  · exact hsnap.le.trans (max_le hk hcommitted)
  · rcases hcase hs with hs | rfl
    · exact h.snapTerm s hs heq
    · exact (hend heq.symm).symm
  · rcases hcase hs with hs | rfl
    · exact h.agree s hs e he
    · exact hterm e he
  · rcases hcase hs with hs | rfl
    · exact h.origin s hs hz
    · exact h0 hz
  · cases heq
    exact (le_max_left _ _).trans hsnap.ge

theorem placed_snapshotCompact (hp : Paced r.core) (h : Placed r.core)
    (hr : r.run = .snapshotCompact index) : Placed (r.snapshotCompact index).core := by
  have hstored := h.stored index hr
  have hlast := h.committed.trans hp.commit
  have hget (i : ℕ) : (r.log.compact index).get i = r.log.get i ∨
      i ≤ index ∧ (r.log.compact index).get i = none := by
    unfold compact
    split
    · exact .inl rfl
    · rw [get_deleteRange]
      split
      · rename_i hi
        exact .inr ⟨hi.2, rfl⟩
      · exact .inl rfl
  have hsub {i : ℕ} {x : LogEntry} (hx : (r.log.compact index).get i = some x) :
      r.log.get i = some x := by
    rcases hget i with heq | ⟨-, hnone⟩
    · exact heq ▸ hx
    · rw [hnone] at hx
      cases hx
  refine ⟨fun x hx ↦ h.term x (hsub hx), fun hne ↦ ?_, h.zero, h.committed, h.snapTerm,
    fun s hs x hx ↦ h.agree s hs x (hsub hx), h.origin, nofun, nofun, nofun⟩
  rcases hget r.lastIndex with heq | ⟨hle, -⟩
  · refine (h.held hne).imp_left fun hsome ↦ ?_
    change ((r.log.compact index).get r.lastIndex).isSome = true
    rw [heq]
    exact hsome
  · have hlast : r.core.snapIndex ≤ r.lastIndex := hlast
    exact .inr (Nat.le_antisymm hlast (hle.trans hstored))

/-- The stages of `processSnapshot` after the first. -/
theorem placed_runStep (hp : Paced r.core) (h : Placed r.core) {rnd : ℕ}
    (hsnap : r.run.snapshotting = true) (hs : r.runStep F rnd = some r') : Placed r'.core := by
  unfold runStep at hs
  cases hr : r.run with
  | snapshotTerm index config data =>
    simp only [hr, some.injEq] at hs
    exact hs ▸ placed_snapshotTerm h index config data
  | snapshotLastTerm index config data =>
    simp only [hr, some.injEq] at hs
    obtain ⟨hpos, hnone⟩ := h.gone index config data hr
    refine hs ▸ placed_goto h nofun (fun k t cfg data heq ↦ ?_) nofun
    cases heq
    refine ⟨fun h0 ↦ absurd h0 hpos.ne', fun e he ↦ ?_, fun _ ↦ rfl⟩
    rw [show r.log.get index = none from hnone] at he
    cases he
  | snapshotCreate index term config data =>
    simp only [hr, some.injEq] at hs
    exact hs ▸ placed_snapshotCreate hp h hr
  | snapshotCompact index =>
    simp only [hr, some.injEq] at hs
    exact hs ▸ placed_snapshotCompact hp h hr
  | snapshotDone index =>
    simp only [hr, some.injEq] at hs
    exact hs ▸ h.keep rfl rfl rfl rfl le_rfl (.inr rfl)
  | _ =>
    rw [hr] at hsnap
    cases hsnap

/-- The entry at the index of the latest snapshot, if it is retained, has the snapshot's term, and
a snapshot of the empty log has none. -/
def snapshotAgrees (r : Raft σ) : Bool :=
  r.snapshot.latest.all fun s ↦
    (s.index ≠ 0 || s.term = 0) && (r.log.get s.index).all (·.term = s.term)

theorem snapshotAgrees_some {s : Snapshot} (h : r.snapshotAgrees = true)
    (hs : r.snapshot.latest = some s) :
    (s.index = 0 → s.term = 0) ∧ ∀ e, r.log.get s.index = some e → e.term = s.term := by
  unfold snapshotAgrees at h
  rw [hs] at h
  simp only [all_some, Bool.and_eq_true, Bool.or_eq_true, decide_eq_true_eq] at h
  refine ⟨fun h0 ↦ h.1.resolve_left fun hne ↦ hne h0, fun e he ↦ ?_⟩
  have := h.2
  rw [he] at this
  simpa using this

theorem lastTerm_start (rnd : ℕ) (h : r.state = .shutdown) (h0 : r.lastTerm = 0) :
    (r.start rnd).lastTerm = match r.snapshot.latest with
      | none => r.log.lastPosition.2
      | some s => if r.log.lastIndex < s.index then s.term else r.log.lastPosition.2 := by
  have hcfg := r.core_loadConfiguration
  have hterm : r.loadConfiguration.loadTerm.loadLastIndex.lastTerm = r.log.lastPosition.2 := by
    unfold loadLastIndex
    dsimp only
    rw [show r.loadConfiguration.loadTerm.log = r.log from congrArg Core.log hcfg,
      show r.loadConfiguration.loadTerm.lastTerm = 0 from (congrArg Core.lastTerm hcfg).trans h0]
    split
    · rfl
    · exact (lastPosition_empty (by omega)).symm
  have hstart : (r.start rnd).lastTerm =
      r.loadConfiguration.loadTerm.loadLastIndex.loadCommitIndex.loadSnapshotState.lastTerm := by
    unfold start
    rw [if_neg (not_not.mpr h)]
  have hlog : r.loadConfiguration.loadTerm.loadLastIndex.lastIndex = r.log.lastIndex :=
    congrArg (·.log.lastIndex) hcfg
  rw [hstart]
  unfold loadSnapshotState
  rw [show r.loadConfiguration.loadTerm.loadLastIndex.loadCommitIndex.snapshot = r.snapshot from
    congrArg Core.snapshot hcfg]
  cases r.snapshot.latest with
  | none => exact hterm
  | some s =>
    dsimp only
    rw [show r.loadConfiguration.loadTerm.loadLastIndex.loadCommitIndex.lastIndex =
      r.log.lastIndex from hlog]
    split
    · rfl
    · exact hterm

theorem placed_start {cfg : Config} {n : ServerID} (hf : r.core = .fresh cfg n r.disk) (rnd : ℕ)
    (hs : r.snapshotAgrees = true) : Placed (r.start rnd).core := by
  obtain ⟨lastTerm, hcore, -⟩ := r.start_spec rnd (congrArg Core.state hf)
  have hterm := lastTerm_start rnd (congrArg Core.state hf) (congrArg Core.lastTerm hf)
  have hlog : (r.start rnd).log = r.log := congrArg Core.log hcore
  have hsnap : (r.start rnd).snapshot = r.snapshot := congrArg Core.snapshot hcore
  have hi : (r.start rnd).core.snapIndex = r.core.snapIndex := by
    rw [hcore]
    rfl
  have hlast : (r.start rnd).lastIndex = max r.log.lastIndex r.core.snapIndex :=
    congrArg Core.lastIndex hcore
  have hk : r.core.snapIndex ≤ (r.start rnd).commitIndex := by
    rw [show (r.start rnd).commitIndex = _ from congrArg Core.commitIndex hcore]
    exact le_min (le_max_right _ _) (le_max_right _ _)
  have hrun : (r.start rnd).run.snapshotting = false := by
    rw [show (r.start rnd).run = .select from congrArg Core.run hcore]
    rfl
  refine .idle hrun (hi ▸ hk) (fun s hs' ↦ ?_) ?_
  · have hs' : (r.start rnd).snapshot.latest = some s := hs'
    rw [hsnap] at hs'
    rw [show (r.start rnd).core.log = r.log from hlog]
    exact snapshotAgrees_some hs hs'
  · rw [show (r.start rnd).core.log = r.log from hlog, hi,
      show (r.start rnd).core.lastIndex = _ from hlast,
        show (r.start rnd).core.lastTerm = _ from hterm,
      show (r.start rnd).core.snapshot = r.snapshot from hsnap]
    cases hl : r.snapshot.latest with
    | none =>
      have hz : r.core.snapIndex = 0 := by
        rw [Core.snapIndex, show r.core.snapshot.latest = none from hl]
        rfl
      exact .inl ⟨by omega, by rw [hz, Nat.max_zero], rfl⟩
    | some s =>
      rw [Placed.snapIndex_eq (show r.core.snapshot.latest = some s from hl)]
      dsimp only
      split
      · rename_i hlt
        exact .inr ⟨s, rfl, hlt, max_eq_right hlt.le, rfl⟩
      · rename_i hge
        exact .inl ⟨not_lt.mp hge, max_eq_left (not_lt.mp hge), rfl⟩

section Take

variable {s : Stimulus}

/-- Besides `keepsCommit`: a node starts with a snapshot and a log that agree, and a snapshot that
is installed can be restored. -/
def keepsPosition (F : FSM σ) (r : Raft σ) (s : Stimulus) : Bool :=
  r.keepsCommit s && match s with
    | .op (.start _) => r.snapshotAgrees
    | .request (.installSnapshot req) _ => (r.installs req).all fun data ↦ (F.restore data).isSome
    | _ => true

/-- Everything but what makes a node lower its commit index; the `run` goroutine moves on if `P`. -/
def turningIf (P : Prop) : Warrant := { keepingCommit.open with turn := P }

theorem does_turningIf {P : Prop} {R : Rules} (hop : s.allowed R = true)
    (hT : s.turns = true → P) (hc : r.keepsCommit s = true) (hw : s.Contiguous)
    (ht : r.take F s = some r') : Does R (turningIf P) s.input r r' :=
  does_take_of hop hw (covers_keepingCommit hc) hT (fun _ _ ↦ ⟨trivial, trivial⟩)
    (fun _ _ _ _ _ _ ↦ trivial) (fun _ _ ↦ ⟨fun _ _ ↦ trivial, fun _ _ _ _ ↦ trivial,
      fun _ _ _ _ _ ↦ trivial, fun _ _ _ ↦ trivial, fun _ _ _ _ _ _ _ _ _ ↦ trivial,
      fun _ _ _ _ _ _ _ _ _ ↦ trivial, fun _ _ _ ↦ trivial⟩) ht

theorem run_of_turns {o : Op} (ht : o.turns = true) (hst : r.started = true)
    (hstep : ∀ rnd, o ≠ .runStep rnd) (h : r.exec F o = some r') : r.run = .select := by
  have hsel {r r' : Raft σ} {f : Raft σ → Raft σ} (h : r.selected f = some r') :
      r.run = .select := by
    unfold selected at h
    split at h
    · assumption
    · cases h
  have hif {p : Prop} [Decidable p] {x : Option (Raft σ)} (h : (if p then x else none) = some r') :
      p ∧ x = some r' := by
    split at h
    · exact ⟨‹p›, h⟩
    · cases h
  cases o with
  | start rnd =>
    simp only [exec, hst, if_true] at h
    cases h
  | tick rnd now order =>
    obtain ⟨r₁, hc, h⟩ := bind_eq_some_iff.mp (hif h).2
    rw [(r.readClock_some hc).2] at h
    exact hsel (r := { r with clock := now }) h
  | propose batch => exact hsel (hif h).2
  | commitNotify => exact hsel (hif h).2
  | persistCommit => exact (hif h).1.2
  | heartbeatTrigger => exact hsel (hif h).2
  | snapshot => exact (hif h).1
  | restore future data => exact (hif h).1
  | stop => exact (hif h).1.1
  | runStep rnd => exact absurd rfl (hstep rnd)
  | _ => cases ht

theorem request_of_input {req : Request} (h : s.input = .request req) :
    ∃ rnd, s = .request req rnd := by
  cases s with
  | op o => cases o <;> cases h
  | request req' rnd =>
    cases h
    exact ⟨rnd, rfl⟩
  | reply id now req' resp => cases h
  | failed id req' => cases h

def takesSnapshot (r : Raft σ) (s : Stimulus) : Prop :=
  s = .op .snapshot ∨ r.run.snapshotting = true ∧ ∃ rnd, s = .op (.runStep rnd)

theorem calm_take (hc : r.keepsCommit s = true) (hw : s.Contiguous) (hst : r.started = true)
    (ht : r.take F s = some r') (hn : ¬ r.takesSnapshot s) : ∃ (P : Prop) (R : Rules),
      R.restore = false ∧ (P → R.snapshot = false ∧ r.run.snapshotting = false) ∧
      Does R (turningIf P) s.input r r' := by
  cases hturn : s.turns with
  | false =>
    exact ⟨False, withoutRestore, rfl, False.elim, does_turningIf (keepsCommit_allowed hc)
      (fun hT ↦ by rw [hturn] at hT; cases hT) hc hw ht⟩
  | true =>
    obtain ⟨hnot, hstep⟩ := not_or.mp hn
    cases s with
    | op o =>
      have hrun : r.run.snapshotting = false := by
        by_cases hrs : ∃ rnd, o = .runStep rnd
        · obtain ⟨rnd, rfl⟩ := hrs
          exact Bool.eq_false_iff.mpr fun hsnap ↦ hstep ⟨hsnap, rnd, rfl⟩
        · rw [run_of_turns hturn hst (fun rnd heq ↦ hrs ⟨rnd, heq⟩) ht]
          rfl
      have hop : o.allowed ⟨true, true, false, false⟩ = true := by
        cases o with
        | snapshot => exact absurd rfl hnot
        | restore future data => cases hc
        | snapshotChunk target n done => cases hturn
        | snapshotSent target now => cases hturn
        | _ => rfl
      exact ⟨True, ⟨true, true, false, false⟩, rfl, fun _ ↦ ⟨rfl, hrun⟩,
        does_turningIf hop (fun _ ↦ trivial) hc hw ht⟩
    | _ => cases hturn

theorem placed_takesSnapshot (hs : r.takesSnapshot s) (ht : r.take F s = some r')
    (hp : Paced r.core) (h : Placed r.core) : Placed r'.core := by
  rcases hs with rfl | ⟨hsnap, rnd, rfl⟩
  · have ht : (if r.run = .select then some (r.snapshotBegin F) else none) = some r' := ht
    split at ht
    · cases ht
      unfold snapshotBegin
      split
      · exact h.keep rfl rfl rfl rfl le_rfl (.inr rfl)
      · exact placed_goto h nofun nofun nofun
    · cases ht
  · exact placed_runStep hp h hsnap ht

theorem placed_take (hc : r.keepsPosition F s = true) (hw : s.Contiguous) (hst : r.started = true)
    (ht : r.take F s = some r') (hp : Paced r.core) (h : Placed r.core) : Placed r'.core := by
  obtain ⟨hc, hpos⟩ := Bool.and_eq_true_iff.mp hc
  by_cases hi : ∃ req rnd, s = .request (.installSnapshot req) rnd
  · obtain ⟨req, rnd, rfl⟩ := hi
    cases ht
    refine placed_handleInstallSnapshot hp h rnd fun data hd ↦ ?_
    have hpos : (r.installs req).all (fun data ↦ (F.restore data).isSome) = true := hpos
    rw [hd] at hpos
    exact hpos
  · by_cases hs : r.takesSnapshot s
    · exact placed_takesSnapshot hs ht hp h
    · obtain ⟨P, R, hR, hq, hd⟩ := calm_take hc hw hst ht hs
      obtain ⟨out, -, hpath⟩ := hd.path
      refine h.path (fun _ _ ↦ id) hR (fun req heq ↦ hi ?_) hq hp hst hpath
      obtain ⟨rnd, rfl⟩ := request_of_input heq
      exact ⟨req, rnd, rfl⟩

end Take

end Raft

section Run

variable {σ : Type} {F : FSM σ} {cl : Cluster} {w : World σ} {n : ServerID} {r : Raft σ}

/-- In a run whose steps all meet the condition, the last index and term of every started node are
those of its logical log. The stores do not fail here; see `WalNode.Intact.mem_index_iff`. -/
theorem position_mirrors_log
    (h : World.Reach cl F (fun w a ↦ w.asks (Raft.keepsPosition F) a = true) w)
    (hr : w.raft? n = some r) (hst : r.started = true) :
    (r.lastIndex, r.lastTerm) = r.disk.logEnd := by
  suffices hall : (r.started = true ∧ Paced r.core ∧ Placed r.core) ∨
      ∃ cfg n, r.core = .fresh cfg n r.disk by
    rcases hall with ⟨-, hp, hplaced⟩ | ⟨_, _, hf⟩
    · exact (hplaced.logEnd_eq hp).symm
    · rw [show r.started = false from congrArg Core.started hf] at hst
      cases hst
  refine World.Reach.each (J := fun r ↦ (r.started = true ∧ Paced r.core ∧ Placed r.core) ∨
      ∃ cfg n, r.core = .fresh cfg n r.disk) (fun cfg n d r hnew ↦ ?_)
    (fun r s r' hc hw ht hJ ↦ ?_) h hr
  · obtain ⟨c', -, rfl⟩ := map_eq_some_iff.mp hnew
    exact .inr ⟨c', n, rfl⟩
  · have hk : r.keepsCommit s = true := (Bool.and_eq_true_iff.mp hc).1
    rcases hJ with ⟨hst, hp, hplaced⟩ | ⟨cfg, n, hf⟩
    · have hst' : r'.started = true := Raft.started_take hw ht hst
      have hp' : Paced r'.core := (Raft.paced_take hk hw hst ht hp).2
      have hplaced' : Placed r'.core := Raft.placed_take hc hw hst ht hp hplaced
      exact .inl ⟨hst', hp', hplaced'⟩
    · rcases Raft.take_fresh hf (Raft.keepsCommit_finds hk) ht with ⟨rnd, rfl, rfl⟩ | ⟨hcore, -⟩
      · obtain ⟨lastTerm, hcore, -⟩ := r.start_spec rnd (congrArg Core.state hf)
        have hp' : Paced (r.start rnd).core := by
          rw [hcore, hf]
          exact Paced.boot cfg n r.disk _ lastTerm
        have hplaced' : Placed (r.start rnd).core :=
          Raft.placed_start hf rnd (Bool.and_eq_true_iff.mp hc).2
        exact .inl ⟨congrArg Core.started hcore, hp', hplaced'⟩
      · refine .inr ⟨cfg, n, hcore.trans (hf.trans ?_)⟩
        rw [show r'.rest.disk = r.disk from congrArg Core.disk hcore]

end Run

/-- B holds its log as a snapshot only. -/
theorem position_mirrors_log_snapshotAtB : ∃ (w : World (List Bytes)) (r : Raft (List Bytes)),
    World.Reach threeVoters .keeping (fun w a ↦ w.asks (Raft.keepsPosition .keeping) a = true) w ∧
      w.raft? "B" = some r ∧ r.started = true ∧ r.log.entries = [] ∧ r.disk.logEnd = (2, 1) ∧
      (r.lastIndex, r.lastTerm) = r.disk.logEnd := by
  obtain ⟨w, r, hreach, hr, hst, hlog, hend⟩ := World.exists_checked_raft threeVoters .keeping
    (·.asks (Raft.keepsPosition .keeping)) snapshotAtB "B" (fun r ↦ r.started = true ∧
      r.log.entries = [] ∧ r.disk.logEnd = (2, 1)) (by decide +kernel)
  exact ⟨w, r, hreach, hr, hst, hlog, hend, position_mirrors_log hreach hr hst⟩

def restoredA : List Action :=
  electA ++ Action.turns "A" 3 ++ [.op "A" (.restore 1 [7]), .op "A" (.runStep 0)]

/-- `Restore` puts the position back to the beginning and leaves the log where it was. -/
theorem position_lost_restoredA : ∃ (w : World (List Bytes)) (r : Raft (List Bytes)),
    World.Reach threeVoters .keeping (fun _ _ ↦ True) w ∧ w.raft? "A" = some r ∧
      r.started = true ∧ (r.lastIndex, r.lastTerm) = (0, 0) ∧ r.disk.logEnd = (1, 1) := by
  exact World.exists_reached_raft threeVoters .keeping restoredA "A" _ (by decide +kernel)

end RaftConsensus
