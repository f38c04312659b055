import RaftConsensus.Single.Machine

namespace RaftConsensus

variable {σ : Type} {F : FSM σ} {G : ℕ → LogEntry} {r r' : Raft σ} {s : Stimulus}

/-- The steps of `applyCommitted`, what makes the `run` goroutine call it, and the two requests
that are handled besides it. -/
def Stimulus.concernsApply : Stimulus → Bool
  | .op (.runStep _) | .op .commitNotify | .op .persistCommit | .op .stop => true
  | .request (.appendEntries _) _ | .request (.installSnapshot _) _ => true
  | _ => false

namespace Raft

/-- The committed entries are those of `G`: up to the commit index the log holds no others, and
a snapshot that is installed restores the state after those up to its index. -/
def Agrees (F : FSM σ) (G : ℕ → LogEntry) (r : Raft σ) (s : Stimulus) : Prop :=
  (∀ i e, i ≤ r.commitIndex → r.log.get i = some e → e = G i) ∧
    ∀ req rnd data m, s = .request (.installSnapshot req) rnd → r.installs req = some data →
      F.restore data = some m → m = F.fold G req.lastIncludedIndex

/-- No snapshot is installed while the `run` goroutine is inside the loop. -/
def installsIdle (r : Raft σ) : Stimulus → Bool
  | .request (.installSnapshot req) _ => (r.installs req).isNone || !r.run.applying
  | _ => true

end Raft

/-- The state machine is where `applyIndex` says, and the `run` goroutine works on the entry
that follows. -/
structure Tracks (F : FSM σ) (G : ℕ → LogEntry) (r : Raft σ) : Prop where
  plain : r.run.snapshot? = none
  loop : ∀ drain k a, r.run = .applyLoop drain k a → a = r.applyIndex
  entry : ∀ e, r.run.entry? = some e → e.index = r.applyIndex + 1 ∧ e = G e.index
  joint : ∀ drain k e, r.run = .applyJoint drain k e → ∃ data, e.payload = .configuration data
  done : ∀ drain k e result, r.run = .applyDone drain k e result → result ≠ .panicked →
    r.fatalErr = false → r.fsm = F.fold G e.index
  idle : (∀ drain k e result, r.run ≠ .applyDone drain k e result) → r.fatalErr = false →
    r.fsm = F.fold G r.applyIndex

namespace Tracks

theorem leaves (h : Tracks F G r) (hl : Leaves r r') : Tracks F G r' := by
  refine ⟨?_, ?_, ?_, ?_, ?_, ?_⟩
  · rw [hl.run]
    exact h.plain
  · rw [hl.run, hl.applyIndex]
    exact h.loop
  · rw [hl.run, hl.applyIndex]
    exact h.entry
  · rw [hl.run]
    exact h.joint
  · rw [hl.run, hl.fatalErr, hl.fsm]
    exact h.done
  · rw [hl.run, hl.fatalErr, hl.fsm, hl.applyIndex]
    exact h.idle

theorem outside (hs : r'.run.snapshot? = none) (he : r'.run.entry? = none)
    (hl : ∀ drain k a, r'.run = .applyLoop drain k a → a = r'.applyIndex)
    (hi : r'.fatalErr = false → r'.fsm = F.fold G r'.applyIndex) : Tracks F G r' := by
  refine ⟨hs, hl, fun e hx ↦ ?_, fun drain k e hx ↦ ?_, fun drain k e result hx ↦ ?_,
    fun _ ↦ hi⟩
  · rw [he] at hx
    cases hx
  · rw [hx] at he
    cases he
  · rw [hx] at he
    cases he

variable {drain : Bool} {e : LogEntry} {k : ℕ} {result : ApplyResult}

theorem fold_succ (h : Tracks F G r) (he : r.run.entry? = some e) :
    F.fold G e.index = F.step (F.fold G r.applyIndex) e := by
  obtain ⟨hi, hG⟩ := h.entry e he
  rw [hi, FSM.fold, ← hi, ← hG]

theorem applied (h : Tracks F G r) (he : r.run.entry? = some e)
    (ha : r'.applyIndex = r.applyIndex) (hr : r'.run = .applyDone drain k e result)
    (hf : r'.fatalErr = false → r'.fsm = F.fold G e.index) : Tracks F G r' := by
  refine ⟨?_, fun _ _ _ hx ↦ ?_, fun x hx ↦ ?_, fun _ _ _ hx ↦ ?_, fun _ _ x _ hx _ ↦ ?_,
    fun hx ↦ absurd hr (hx _ _ _ _)⟩
  · rw [hr]
    rfl
  · exact nomatch hr.symm.trans hx
  · rw [hr] at hx
    cases hx
    rw [ha]
    exact h.entry e he
  · exact nomatch hr.symm.trans hx
  · rw [hr] at hx
    cases hx
    exact hf

theorem applyRun (h : Tracks F G r) (rnd : ℕ)
    (hr : r.run = .applyEntry drain k e) : (r.applyRun F drain k e rnd).applyIndex = r.applyIndex ∧
      Tracks F G (r.applyRun F drain k e rnd) := by
  have he : r.run.entry? = some e := by
    rw [hr]
    rfl
  have hfold := h.fold_succ he
  have hidle := h.idle (by simp [hr])
  unfold Raft.applyRun
  split
  · rename_i hpay
    refine ⟨rfl, h.applied he rfl rfl fun hf ↦ ?_⟩
    rw [hfold, ← hidle hf]
    simp only [FSM.step, hpay, if_true]
  · rename_i data hne hpay
    refine ⟨rfl, h.applied he rfl rfl fun hf ↦ ?_⟩
    rw [hfold, ← hidle hf]
    simp only [FSM.step, hpay]
    rw [if_neg hne]
    rfl
  · rename_i data hpay
    have hl := Leaves.follows.applyConfigurationEntry r data rnd
    generalize r.applyConfigurationEntry data rnd = q at hl
    obtain ⟨r₁, second⟩ := q
    have hsame : F.fold G e.index = F.fold G r.applyIndex := by
      rw [hfold, FSM.step_configuration hpay]
    cases second with
    | false =>
      refine ⟨hl.applyIndex, h.applied he hl.applyIndex rfl fun hf ↦ ?_⟩
      rw [hsame, ← hidle (hl.fatalErr ▸ hf)]
      exact hl.fsm
    | true =>
      refine ⟨hl.applyIndex, rfl, by simp, fun x hx ↦ ?_, fun _ _ x hx ↦ ?_, by simp, fun _ hf ↦ ?_⟩
      · cases hx
        rw [show ({ r₁ with run := _ } : Raft σ).applyIndex = r.applyIndex from hl.applyIndex]
        exact h.entry e he
      · cases hx
        exact ⟨data, hpay⟩
      · have hi : r₁.fsm = F.fold G r₁.applyIndex := by
          rw [hl.fsm, hl.applyIndex]
          exact hidle (hl.fatalErr ▸ hf)
        exact hi

theorem applyFinish (h : Tracks F G r)
    (hr : r.run = .applyDone drain k e result) :
    r.applyIndex ≤ (r.applyFinish drain k e result).applyIndex ∧
      Tracks F G (r.applyFinish drain k e result) := by
  obtain ⟨hi, -⟩ := h.entry e (by rw [hr]; rfl)
  have hadvance (err : Option RaftError) (out : Bytes) (hne : result ≠ .panicked)
      (hx : r.applyFinish drain k e result = ({ r with
        applyIndex := e.index, run := .applyLoop drain k e.index } : Raft σ).resolveFuture
        e err out) :
      r.applyIndex ≤ (r.applyFinish drain k e result).applyIndex ∧
        Tracks F G (r.applyFinish drain k e result) := by
    have hl := Leaves.follows.resolveFuture
      ({ r with applyIndex := e.index, run := .applyLoop drain k e.index } : Raft σ) e err out
    rw [← hx] at hl
    have hai : (r.applyFinish drain k e result).applyIndex = e.index := hl.applyIndex
    have hrun : (r.applyFinish drain k e result).run = .applyLoop drain k e.index := hl.run
    refine ⟨by omega, outside (by rw [hrun]; rfl) (by rw [hrun]; rfl) (fun _ _ a ha ↦ ?_)
      fun hf ↦ ?_⟩
    · rw [hrun] at ha
      cases ha
      exact hai.symm
    · rw [hai, hl.fsm]
      exact h.done drain k e result hr hne (hl.fatalErr ▸ hf)
  cases result with
  | panicked =>
    have hl := Leaves.follows.resolveFuture r e (some .fsmPanic) []
    have hfatal (x : Raft σ) : x.stopFatal.fatalErr = true ∧
        x.stopFatal.applyIndex = x.applyIndex := by
      unfold Raft.stopFatal
      dsimp only
      split <;> exact ⟨rfl, rfl⟩
    have hai : (r.applyFinish drain k e .panicked).applyIndex = r.applyIndex :=
      (hfatal _).2.trans hl.applyIndex
    have hrun : (r.applyFinish drain k e .panicked).run = .endOf drain := rfl
    refine ⟨hai.ge, outside ?_ ?_ (fun _ _ a ha ↦ ?_) fun hf ↦ ?_⟩
    · rw [hrun]
      cases drain <;> rfl
    · rw [hrun]
      cases drain <;> rfl
    · rw [hrun] at ha
      cases drain <;> cases ha
    · rw [show (r.applyFinish drain k e .panicked).fatalErr = true from (hfatal _).1] at hf
      cases hf
  | error => exact hadvance _ _ nofun rfl
  | ok out => exact hadvance _ _ nofun rfl

theorem runStep (h : Tracks F G r) (hp : Paced r.core) {rnd : ℕ}
    (hG : ∀ i e, i ≤ r.commitIndex → r.log.get i = some e → e = G i)
    (ht : r.runStep F rnd = some r') :
    r.applyIndex ≤ r'.applyIndex ∧ Tracks F G r' := by
  have hplain := h.plain
  unfold Raft.runStep at ht
  split at ht
  · cases ht
  · cases ht
  · rename_i k hr
    cases ht
    exact ⟨le_rfl, outside rfl rfl nofun (h.idle (by rw [hr]; nofun))⟩
  · rename_i drain hr
    have hidle := h.idle (by rw [hr]; nofun)
    cases ht
    unfold Raft.applyBegin
    split
    · cases drain <;> exact ⟨le_rfl, outside rfl rfl nofun hidle⟩
    · refine ⟨le_rfl, outside rfl rfl (fun _ _ a ha ↦ ?_) hidle⟩
      cases ha
      rfl
  · rename_i drain k a hr
    have hidle := h.idle (by rw [hr]; nofun)
    cases ht
    unfold Raft.applyNext
    dsimp only
    split
    · split
      · cases drain <;> exact ⟨le_rfl, outside rfl rfl nofun hidle⟩
      · rename_i hlt e he
        have hi : e.index = a + 1 := LogStore.get_index he
        have hk : k ≤ r.commitIndex := hp.copy k (by rw [show r.core.run = _ from hr]; rfl)
        have ha := h.loop drain k a hr
        refine ⟨le_rfl, rfl, nofun, fun x hx ↦ ?_, nofun, nofun, fun _ ↦ hidle⟩
        cases hx
        refine ⟨by rw [hi, ha], ?_⟩
        rw [hi]
        exact hG (a + 1) e (by omega) he
    · cases drain <;> exact ⟨le_rfl, outside rfl rfl nofun hidle⟩
  · rename_i drain k e hr
    cases ht
    obtain ⟨ha, htracks⟩ := h.applyRun rnd hr
    exact ⟨ha.ge, htracks⟩
  · rename_i drain k e hr
    have he : r.run.entry? = some e := by
      rw [hr]
      rfl
    have hl : Leaves r r.appendCommitJoint := by
      unfold Raft.appendCommitJoint
      cases hx : r.persistLog [⟨r.term, r.lastIndex + 1, .configuration .commitJoint⟩] with
      | none => exact .refl r
      | some r₁ => exact Leaves.follows.persistLog r hx
    obtain ⟨data, hpay⟩ := h.joint drain k e hr
    cases ht
    refine ⟨hl.applyIndex.ge, h.applied he hl.applyIndex rfl fun hf ↦ ?_⟩
    rw [h.fold_succ he, FSM.step_configuration hpay, ← h.idle (by rw [hr]; nofun)
      (hl.fatalErr ▸ hf)]
    exact hl.fsm
  · rename_i drain k e result hr
    cases ht
    exact h.applyFinish hr
  · rename_i hr
    have hidle := h.idle (by rw [hr]; nofun)
    cases ht
    refine ⟨le_rfl, outside ?_ ?_ (fun _ _ a ha ↦ ?_) hidle⟩
    · change (if r.fatalErr then RunPC.applyStart true else .select).snapshot? = none
      split <;> rfl
    · change RunPC.entry? (if r.fatalErr then RunPC.applyStart true else .select) = none
      split <;> rfl
    · change (if r.fatalErr then RunPC.applyStart true else .select) = _ at ha
      split at ha <;> cases ha
  · rename_i hr
    have hidle := h.idle (by rw [hr]; nofun)
    cases ht
    unfold Raft.drainFuturesOnShutdown
    rw [Raft.foldl_drain]
    exact ⟨le_rfl, outside rfl rfl nofun hidle⟩
  all_goals first
    | exact absurd ‹_› (hp.calm _)
    | (rename_i hr; rw [hr] at hplain; cases hplain)

theorem take (h : Tracks F G r) (hp : Paced r.core) (hs : s.concernsApply = true)
    (hG : r.Agrees F G s) (hc : r.installsIdle s = true) (ht : r.take F s = some r') :
    r.applyIndex ≤ r'.applyIndex ∧ Tracks F G r' := by
  have hselect (hr : r.run = .select) : r.fatalErr = false → r.fsm = F.fold G r.applyIndex :=
    h.idle (by simp [hr])
  cases s with
  | op o =>
    cases o with
    | runStep rnd => exact h.runStep hp hG.1 ht
    | commitNotify =>
      have ht : r.exec F .commitNotify = some r' := ht
      simp only [Raft.exec, Raft.selected] at ht
      split at ht
      · split at ht
        · rename_i hr
          cases ht
          exact ⟨le_rfl, outside rfl rfl (by simp) (hselect hr)⟩
        · cases ht
      · cases ht
    | persistCommit =>
      have ht : r.exec F .persistCommit = some r' := ht
      simp only [Raft.exec] at ht
      split at ht
      · rename_i hr
        cases ht
        exact ⟨le_rfl, outside rfl rfl (by simp) (hselect hr.2)⟩
      · cases ht
    | stop =>
      have ht : r.exec F .stop = some r' := ht
      simp only [Raft.exec] at ht
      split at ht
      · rename_i hr
        cases ht
        exact ⟨le_rfl, outside rfl rfl (by simp) (hselect hr.1)⟩
      · cases ht
    | _ => cases hs
  | request req rnd =>
    cases req with
    | appendEntries req =>
      cases ht
      have hl := Leaves.follows.handleAppendEntries r req rnd fun a _ _ _ ↦ .finishTransfer a none
      have hl' : Leaves r (r.handle F rnd (.appendEntries req)).1 := { hl with }
      exact ⟨hl'.applyIndex.ge, h.leaves hl'⟩
    | installSnapshot req =>
      cases ht
      rcases r.handleInstallSnapshot_cases F req rnd with hl | ⟨data, hd, hm, ha, hrun, hf⟩
      · exact ⟨hl.applyIndex.ge, h.leaves hl⟩
      · have hidle : r.run.applying = false := by
          simpa [Raft.installsIdle, hd] using hc
        have hm' := hG.2 req rnd data _ rfl hd hm
        have hlt := r.lt_of_installs hd
        have hap : r.applyIndex ≤ r.commitIndex := hp.apply
        generalize hx : (r.handleInstallSnapshot F req rnd).1 = x at ha hrun hf hm'
        have hx' : (r.handle F rnd (.installSnapshot req)).1 = x := hx
        rw [hx']
        refine ⟨by omega, outside ?_ ?_ (fun _ _ a hx ↦ ?_) fun _ ↦ ?_⟩
        · rw [hrun]
          exact h.plain
        · rw [hrun]
          generalize r.run = pc at hidle
          cases pc <;> first | rfl | cases hidle
        · rw [← hrun, hx] at hidle
          cases hidle
        · rw [ha, hm']
    | _ => cases hs
  | _ => cases hs

end Tracks

/-- A step of `applyCommitted` or of the two requests by which no snapshot is installed inside
the loop and no commit index is lowered, when the committed entries are those of `G`. -/
def Raft.AppliesAlone (F : FSM σ) (G : ℕ → LogEntry) (r : Raft σ) (s : Stimulus) : Prop :=
  s.concernsApply = true ∧ s.Contiguous ∧ r.Agrees F G s ∧ r.keepsCommit s = true ∧
    r.installsIdle s = true

/-- From a state in which the machine is where `applyIndex` says and the `run` goroutine waits,
in every run whose steps all meet the condition: the machine holds the committed entries up to
`applyIndex` whenever no call of it is under way, unless one has panicked, and no step lowers
`applyIndex`. -/
theorem machine_tracks {r₀ : Raft σ} (hst : r₀.started = true) (hp : Paced r₀.core)
    (hr : r₀.run = .select) (hm : r₀.fsm = F.fold G r₀.applyIndex)
    (h : Raft.Steps F (Raft.AppliesAlone F G) r₀ r) :
    ((∀ drain k e result, r.run ≠ .applyDone drain k e result) → r.fatalErr = false →
        r.fsm = F.fold G r.applyIndex) ∧
      ∀ s r', r.AppliesAlone F G s → r.take F s = some r' → r.applyIndex ≤ r'.applyIndex := by
  have hinv : r.started = true ∧ Paced r.core ∧ Tracks F G r := by
    refine Raft.Steps.invariant (I := fun r ↦ r.started = true ∧ Paced r.core ∧
      Tracks F G r) h ?_ ?_
    · refine ⟨hst, hp, .outside ?_ ?_ (fun _ _ _ hx ↦ ?_) fun _ ↦ hm⟩
      · rw [hr]
        rfl
      · rw [hr]
        rfl
      · exact nomatch hr.symm.trans hx
    · intro r s r' ⟨hs, hw, hG, hk, hi⟩ ht ⟨hst, hp, htr⟩
      have hst' : r'.started = true := Raft.started_take hw ht hst
      refine ⟨hst', (Raft.paced_take hk hw hst ht hp).2, ?_⟩
      exact (htr.take hp hs hG hi ht).2.leaves ⟨rfl, rfl, rfl, rfl⟩
  obtain ⟨-, hp, htr⟩ := hinv
  exact ⟨htr.idle, fun s r' ⟨hs, _, hG, _, hi⟩ ht ↦ (htr.take hp hs hG hi ht).1⟩

section Example

open Action (turns)

def FSM.appending : FSM Bytes where
  init := []
  apply s d := (s ++ d, .ok [])
  snapshot s := some s
  restore d := some d

def fourEntries : List LogEntry :=
  [⟨1, 1, .normal []⟩, ⟨1, 2, .normal [1]⟩, ⟨1, 3, .normal [2]⟩, ⟨1, 4, .normal [3]⟩]

def entryAt (i : ℕ) : LogEntry := fourEntries.getD (i - 1) ⟨0, 0, .normal []⟩

def Raft.agrees [DecidableEq σ] (F : FSM σ) (G : ℕ → LogEntry) (r : Raft σ) (s : Stimulus) : Bool :=
  r.log.entries.all (fun e ↦ r.commitIndex < e.index || e = G e.index) && match s with
    | .request (.installSnapshot req) _ =>
      ((r.installs req).bind F.restore).all (· = F.fold G req.lastIncludedIndex)
    | _ => true

theorem Raft.agrees_iff [DecidableEq σ] (h : r.agrees F G s = true) : r.Agrees F G s := by
  obtain ⟨hlog, hs⟩ := Bool.and_eq_true_iff.mp h
  refine ⟨fun i e hi he ↦ ?_, fun req rnd data m heq hd hm ↦ ?_⟩
  · have hx := List.all_eq_true.mp hlog e (LogStore.get_mem he)
    have hidx := LogStore.get_index he
    simp only [Bool.or_eq_true, decide_eq_true_eq] at hx
    rcases hx with hx | hx
    · omega
    · exact hidx ▸ hx
  · subst heq
    simpa [hd, hm] using hs

/-- A follower gets two entries and applies them, and then installs a snapshot of four. -/
def installedIdle : List Stimulus :=
  .request (.appendEntries ⟨1, "A", 0, 0, fourEntries.take 2, 2⟩) 0 :: .op .commitNotify ::
    List.replicate 9 (.op (.runStep 0)) ++
    [.request (.installSnapshot ⟨1, "A", 4, 1, 0, [1, 2, 3], true⟩) 0]

theorem installedIdle_checked :
    (Raft.newRaft .appending (.least "B" abc) "B" .empty).bind (fun r ↦
      ((r.start 0).rest.checkedSteps .appending (fun r s ↦ s.concernsApply && s.Contiguous &&
        r.agrees .appending entryAt s && r.keepsCommit s && r.installsIdle s) installedIdle).map
        fun r ↦ (r.fatalErr, r.run, r.applyIndex)) = some (false, .select, 4) := by
  decide +kernel

theorem machine_tracks_installedIdle : ∃ r₀ r : Raft Bytes, r₀.started = true ∧ Paced r₀.core ∧
    r₀.run = .select ∧ r₀.fsm = FSM.appending.fold entryAt r₀.applyIndex ∧
    Raft.Steps .appending (Raft.AppliesAlone .appending entryAt) r₀ r ∧ r.applyIndex = 4 ∧
    r.fsm = FSM.appending.fold entryAt r.applyIndex := by
  obtain ⟨r, hnew, h⟩ := Option.bind_eq_some_iff.mp installedIdle_checked
  obtain ⟨r', hrun, h⟩ := Option.map_eq_some_iff.mp h
  simp only [Prod.mk.injEq] at h
  obtain ⟨hf, hsel, ha⟩ := h
  obtain ⟨hst, hp, hr⟩ := Raft.paced_start hnew 0
  have hm : (r.start 0).rest.fsm = FSM.appending.fold entryAt (r.start 0).rest.applyIndex := by
    cases hnew
    rfl
  have hsteps : Raft.Steps .appending (Raft.AppliesAlone .appending entryAt)
      (r.start 0).rest r' := by
    refine Raft.steps_of_checkedSteps (fun r s hs ↦ ?_) hrun
    simp only [Bool.and_eq_true, decide_eq_true_eq] at hs
    obtain ⟨⟨⟨⟨hc, hw⟩, hG⟩, hk⟩, hi⟩ := hs
    exact ⟨hc, hw, Raft.agrees_iff hG, hk, hi⟩
  refine ⟨_, r', hst, hp, hr, hm, hsteps, ha, (machine_tracks hst hp hr hm hsteps).1 ?_ hf⟩
  rw [hsel]
  nofun

/-- A commits four entries with C; B has the first three of them and has read the second one to
apply it. -/
def aboutToApply : List Action :=
  electA ++ turns "A" 3 ++ [.op "A" (.propose [(1, [1]), (2, [2]), (3, [3])])] ++
    [.op "A" (.replicate "C"), .deliver 2, .reply 1, .op "A" (.replicate "C"), .deliver 3, .reply 2,
      .op "A" (.replicate "C"), .deliver 4, .reply 3] ++
    [.op "A" (.replicate "B"), .deliver 5, .reply 4, .op "A" (.replicate "B"), .deliver 6,
      .reply 5] ++
    .op "B" .commitNotify :: turns "B" 5

/-- A takes a snapshot of the four entries, compacts its log and sends the snapshot to B, which
installs it; then B makes its call of the state machine. -/
def installedInside : List Action :=
  turns "A" 15 ++ .op "A" .snapshot :: turns "A" 7 ++ [.op "A" (.propose [(4, [4])]),
    .op "A" (.replicate "B"), .op "A" (.replicate "B"), .op "A" (.replicate "B"),
    .op "A" (.replicate "B"), .op "A" (.snapshotChunk "B" 3 true), .deliver 7] ++ turns "B" 1

theorem aboutToApply_installedInside :
    (World.init.steps threeVoters .appending aboutToApply).bind (fun w₀ ↦
      (w₀.steps threeVoters .appending installedInside).bind fun w ↦
        (w.step threeVoters .appending (.op "B" (.runStep 0))).bind fun w' ↦
          (w₀.raft? "A").bind fun r₀ ↦ (w.raft? "B").bind fun r ↦ (w'.raft? "B").map fun r' ↦
            ((r₀.state, r₀.log.entries, r₀.commitIndex), r.applyIndex, r'.applyIndex,
              r'.fsm, r'.run)) =
      some ((.leader, fourEntries, 4), 4, 2, [1, 2, 3, 1], .applyLoop false 3 2) := by
  decide +kernel

/-- B goes back from index 4 to index 2, with a state machine that holds the second entry twice. -/
theorem machine_goes_back : ∃ (w₀ w w' : World Bytes) (r₀ r r' : Raft Bytes),
    World.Reach threeVoters .appending (fun _ _ ↦ True) w₀ ∧
      World.Steps threeVoters .appending (fun _ _ ↦ True) w₀ w ∧
      w.step threeVoters .appending (.op "B" (.runStep 0)) = some w' ∧ w₀.raft? "A" = some r₀ ∧
      r₀.state = .leader ∧ r₀.log.entries = fourEntries ∧ r₀.commitIndex = 4 ∧
      w.raft? "B" = some r ∧ w'.raft? "B" = some r' ∧ r'.applyIndex < r.applyIndex ∧
      r'.run = .applyLoop false 3 2 ∧ r'.fsm ≠ FSM.appending.fold entryAt r'.applyIndex := by
  obtain ⟨w₀, hw₀, h⟩ := Option.bind_eq_some_iff.mp aboutToApply_installedInside
  obtain ⟨w, hw, h⟩ := Option.bind_eq_some_iff.mp h
  obtain ⟨w', hw', h⟩ := Option.bind_eq_some_iff.mp h
  obtain ⟨r₀, hr₀, h⟩ := Option.bind_eq_some_iff.mp h
  obtain ⟨r, hr, h⟩ := Option.bind_eq_some_iff.mp h
  obtain ⟨r', hr', h⟩ := Option.map_eq_some_iff.mp h
  simp only [Prod.mk.injEq] at h
  obtain ⟨⟨hs, hlog, hk⟩, ha, ha', hm, hrun⟩ := h
  refine ⟨w₀, w, w', r₀, r, r', World.steps_of_steps hw₀, World.steps_of_steps hw, hw',
    hr₀, hs, hlog, hk, hr, hr', by omega, hrun, ?_⟩
  rw [hm, ha']
  decide

end Example

end RaftConsensus
