import RaftConsensus.Single.Steps

namespace RaftConsensus

open LogStore World

variable {σ : Type} {F : FSM σ} {R : Rules} {L : Warrant} {inp : Input} {c c' : Core}
  {out : List Effect}

structure Paced (c : Core) : Prop where
  commit : c.commitIndex ≤ c.lastIndex
  log : ∀ i e, c.log.get i = some e → i ≤ c.lastIndex
  copy : ∀ k, c.run.commit? = some k → k ≤ c.commitIndex
  entry : ∀ e, c.run.entry? = some e → e.index ≤ c.commitIndex
  apply : c.applyIndex ≤ c.commitIndex
  loop : ∀ drain k a, c.run = .applyLoop drain k a → a ≤ c.applyIndex
  snapshot : ∀ k, c.run.snapshot? = some k → k ≤ c.applyIndex
  calm : ∀ future, c.run ≠ .restored future

def Core.progress (c : Core) : ℕ :=
  match c.run with
  | .applyLoop _ _ a => a
  | .applyEntry _ _ e => e.index - 1
  | .applyJoint _ _ e | .applyDone _ _ e _ => e.index
  | _ => c.applyIndex

namespace Paced

theorem append (h : Paced c) {e : LogEntry} (hi : e.index = c.lastIndex + 1)
    (hg : c'.log = c.log.append e) (hl : c'.lastIndex = e.index)
    (hk : c'.commitIndex = c.commitIndex) (ha : c'.applyIndex = c.applyIndex)
    (hr : c'.run = c.run) : Paced c' where
  commit := by
    have := h.commit
    omega
  log i x hx := by
    rw [hg] at hx
    rcases get_append_cases hx with hx | rfl
    · have := h.log i x hx
      omega
    · exact hl ▸ (get_index hx).ge
  copy k hk' := hk ▸ h.copy k (hr ▸ hk')
  entry x hx := hk ▸ h.entry x (hr ▸ hx)
  apply := by
    rw [ha, hk]
    exact h.apply
  loop drain k a hrun := ha ▸ h.loop drain k a (hr ▸ hrun)
  snapshot k hk' := ha ▸ h.snapshot k (hr ▸ hk')
  calm := hr ▸ h.calm

theorem turn (h : Paced c) {pc : RunPC} (hcopy : ∀ k, pc.commit? = some k → k ≤ c.commitIndex)
    (hentry : ∀ e, pc.entry? = some e → e.index ≤ c.commitIndex)
    (hloop : ∀ drain k a, pc = .applyLoop drain k a → a ≤ c.applyIndex)
    (hsnap : ∀ k, pc.snapshot? = some k → k ≤ c.applyIndex)
    (hr : ∀ future, pc ≠ .restored future) : Paced { c with run := pc } :=
  ⟨h.commit, h.log, hcopy, hentry, h.apply, hloop, hsnap, hr⟩

theorem raise {k : ℕ} (h : Paced c) (hk : c.commitIndex ≤ k) (hle : k ≤ c.lastIndex) :
    c.commitIndex ≤ k ∧ Paced { c with commitIndex := k } :=
  ⟨hk, { h with
    commit := hle
    copy := fun k' hc ↦ (h.copy k' hc).trans hk
    entry := fun x hx ↦ (h.entry x hx).trans hk
    apply := h.apply.trans hk }⟩

theorem progress_le (h : Paced c) : c.progress ≤ c.commitIndex := by
  unfold Core.progress
  split
  · exact (h.loop _ _ _ ‹_›).trans h.apply
  · rename_i hr
    exact (Nat.sub_le _ _).trans (h.entry _ (by rw [hr]; rfl))
  · rename_i hr
    exact h.entry _ (by rw [hr]; rfl)
  · rename_i hr
    exact h.entry _ (by rw [hr]; rfl)
  · exact h.apply

variable (hF : ∀ c req, L.follow c req →
    req.leaderCommit ≤ c.commitIndex ∨ c.commitIndex ≤ Raft.lastReqIndex req)
  (hR : R.restore = false)

include hF hR

theorem move (h : Paced c) (hst : c.started = true) (hm : Move R L inp c out c') :
    c.commitIndex ≤ c'.commitIndex ∧ Paced c' := by
  cases hm with
  | crown hq hL hS | lead who hs hi hq hL =>
    exact ⟨le_rfl, h.append rfl rfl rfl rfl rfl rfl⟩
  | propose e hi ht hs hp | submit e future hi ht hs hp | change e data hi ht hs hR hp
  | copy req e hi ht he hi =>
    exact ⟨le_rfl, h.append ‹e.index = c.lastIndex + 1› rfl rfl rfl rfl rfl⟩
  | exit e x drain k hi ht hp hr =>
    have happend : Paced (c.append e) := h.append hi rfl rfl rfl rfl rfl
    refine ⟨le_rfl, happend.turn (fun k' hk ↦ h.copy k' ?_)
      (fun y hy ↦ h.entry y ?_) nofun nofun nofun⟩
    · rw [hr]
      exact hk
    · rw [hr]
      exact hy
  | truncate req e x lastTerm hi ht he hx hne hc =>
    refine ⟨le_rfl, { h with commit := Nat.le_pred_of_lt hc, log := fun i y hy ↦ ?_ }⟩
    have hy : (c.log.deleteRange (e.index - 1 + 1) (c.lastIndex + 1)).get i = some y := hy
    rw [get_deleteRange] at hy
    split at hy
    · cases hy
    · have := h.log i y hy
      change i ≤ e.index - 1
      omega
  | commit k e hs he ht hk =>
    exact h.raise (hk.elim id fun heq ↦ heq ▸ h.commit) (h.log k e he)
  | follow req hi ht hlt ha hL =>
    have hk' : c.commitIndex ≤ min req.leaderCommit (Raft.lastReqIndex req) := by
      rcases hF c req hL with hle | hle
      · omega
      · omega
    have hle : min req.leaderCommit (Raft.lastReqIndex req) ≤ c.lastIndex := by
      refine (min_le_right _ _).trans ?_
      rcases ha with h0 | ⟨x, hx, -⟩
      · omega
      · exact h.log _ x hx
    exact h.raise hk' hle
  | goto pc hT hturn =>
    refine ⟨le_rfl, h.turn (fun k hk ↦ ?_) (fun e he ↦ ?_) (fun drain k a hpc ↦ ?_) (fun k hk ↦ ?_)
      fun future hpc ↦ ?_⟩
    · rcases hturn.commit? hk with rfl | hold
      · exact le_rfl
      · exact h.copy k hold
    · rcases hturn.entry? he with hold | ⟨-, k, hk, hle⟩
      · exact h.entry e hold
      · exact hle.trans (h.copy k hk)
    · exact (hturn.loop_eq hpc).ge
    · rcases hturn.snapshot? hk with rfl | hold
      · exact le_rfl
      · exact h.snapshot k hold
    · have := hturn.restore_of hpc
      rw [hR] at this
      cases this
  | advance drain k e result hr =>
    refine ⟨le_rfl, { h with
      apply := h.entry e ?_, loop := fun drain k a hrun ↦ ?_, snapshot := fun k hk ↦ ?_ }⟩
    · rw [hr]
      rfl
    · rw [show c.run = _ from hrun] at hr
      cases hr
    · have hk : c.run.snapshot? = some k := hk
      rw [hr] at hk
      cases hk
  | configure data drain k e hr hp =>
    have hcfg : Paced (c.configure (c.electorate.apply data)) := { h with }
    have hk' : k ≤ c.commitIndex := h.copy k (by rw [hr]; rfl)
    have he : e.index ≤ c.commitIndex := h.entry e (by rw [hr]; rfl)
    refine ⟨le_rfl, ?_⟩
    unfold Core.afterConfiguration
    split
    all_goals
      refine hcfg.turn (fun x hx ↦ ?_) (fun x hx ↦ ?_) nofun nofun nofun
      · cases hx
        exact hk'
      · cases hx
        exact he
  | start state lastTerm hn =>
    rw [hst] at hn
    cases hn
  | compact lo hi =>
    exact ⟨le_rfl, { h with log := fun i x hx ↦ h.log i x (get_of_deleteRange hx) }⟩
  | install req lastIndex lastTerm hi hc hl hx =>
    refine ⟨hc.le, hl, fun i x hx' ↦ ?_, fun k hk ↦ (h.copy k hk).trans hc.le,
      fun e he ↦ (h.entry e he).trans hc.le, le_rfl,
      fun drain k a hrun ↦ ((h.loop drain k a hrun).trans h.apply).trans hc.le,
      fun k hk ↦ ((h.snapshot k hk).trans h.apply).trans hc.le, h.calm⟩
    rcases hx with hx | hnone
    · exact (h.log i x hx').trans hx
    · rw [hnone i] at hx'
      cases hx'
  | restore future hr => exact absurd hr (h.calm future)
  | _ => exact ⟨le_rfl, { h with }⟩

theorem path (h : Paced c) (hst : c.started = true) (hp : Path R L inp c out c') :
    c.commitIndex ≤ c'.commitIndex ∧ Paced c' := by
  induction hp with
  | refl => exact ⟨le_rfl, h⟩
  | tail hp hm ih =>
    obtain ⟨hle, hpaced⟩ := ih
    obtain ⟨hle', hpaced'⟩ := hpaced.move hF hR (hp.started hst) hm
    exact ⟨hle.trans hle', hpaced'⟩

omit hF hR

theorem boot (cfg : Config) (n : ServerID) (d : Disk) (state : RaftState) (lastTerm : ℕ) :
    Paced ((Core.fresh cfg n d).boot state lastTerm) where
  commit := min_le_right _ _
  log i e he := (le_lastIndex he).trans (le_max_left _ _)
  copy := nofun
  entry := nofun
  apply := by
    have hle : (Core.fresh cfg n d).applyIndex ≤ (Core.fresh cfg n d).snapIndex := Nat.zero_le _
    change max _ _ ≤ min (max _ _) (max _ _)
    rw [max_eq_right hle]
    exact le_min (le_max_right _ _) (le_max_right _ _)
  loop := nofun
  snapshot := nofun
  calm := nofun

end Paced

/-- No `Restore`, no request before `Start`, and no AppendEntries request that knows of a
later commit than the node but ends before the node's own. -/
def Raft.keepsCommit (r : Raft σ) : Stimulus → Bool
  | .op (.restore _ _) => false
  | .request (.appendEntries req) _ =>
    r.started && (req.leaderCommit ≤ r.commitIndex || r.commitIndex ≤ lastReqIndex req)
  | .request _ _ => r.started
  | _ => true

def Request.fromLeader : Request → Bool
  | .appendEntries _ | .installSnapshot _ => true
  | _ => false

def keepingCommit : Licence :=
  { Licence.free with
    follow := fun c req ↦ req.leaderCommit ≤ c.commitIndex ∨ c.commitIndex ≤ Raft.lastReqIndex req }

def withoutRestore : Rules := ⟨true, true, true, false⟩

theorem Raft.paced_start {cfg : Config} {n : ServerID} {d : Disk} {r : Raft σ}
    (h : Raft.newRaft F cfg n d = some r) (rnd : ℕ) : (r.start rnd).rest.started = true ∧
      Paced (r.start rnd).rest.core ∧ (r.start rnd).rest.run = .select := by
  obtain ⟨cfg', -, rfl⟩ := Option.map_eq_some_iff.mp h
  obtain ⟨lastTerm, hcore, -⟩ := (Raft.new cfg' n d F.init).start_spec rnd rfl
  refine ⟨congrArg Core.started hcore, ?_, congrArg Core.run hcore⟩
  rw [show ((Raft.new cfg' n d F.init).start rnd).rest.core = _ from hcore]
  exact Paced.boot cfg' n d _ lastTerm

section KeepsCommit

variable {r r' : Raft σ} {s : Stimulus}

theorem Raft.keepsCommit_finds (h : r.keepsCommit s = true) : s.finds r = true := by
  cases s with
  | request req rnd =>
    cases req with
    | appendEntries req => exact (Bool.and_eq_true_iff.mp h).1
    | _ => exact h
  | _ => rfl

theorem Raft.keepsCommit_allowed (h : r.keepsCommit s = true) :
    s.allowed withoutRestore = true := by
  cases s with
  | op o =>
    cases o with
    | restore future data => cases h
    | _ => rfl
  | _ => rfl

theorem Raft.keepsCommit_follows (h : r.keepsCommit s = true) {req : AppendEntriesRequest}
    (hi : s.input = .request (.appendEntries req)) :
    req.leaderCommit ≤ r.commitIndex ∨ r.commitIndex ≤ lastReqIndex req := by
  cases s with
  | op o => cases o <;> cases hi
  | request req rnd =>
    cases hi
    simpa using (Bool.and_eq_true_iff.mp h).2
  | reply id now req resp => cases hi
  | failed id req => cases hi

theorem Raft.covers_keepingCommit (hk : r.keepsCommit s = true) :
    keepingCommit.Covers (s.mayLead r = true) s.input r.core := by
  refine ⟨fun _ _ _ ↦ trivial, fun _ _ _ _ _ ↦ trivial, fun req hi c' hk' ↦ ?_,
    fun _ _ _ _ _ _ _ ↦ trivial⟩
  have hf := keepsCommit_follows hk hi
  rw [← show c'.commitIndex = r.commitIndex from hk'] at hf
  exact hf

theorem Raft.paced_take (hc : r.keepsCommit s = true) (hw : s.Contiguous) (hst : r.started = true)
    (ht : r.take F s = some r') (h : Paced r.core) :
    r.commitIndex ≤ r'.commitIndex ∧ Paced r'.core := by
  have hd : Does withoutRestore keepingCommit.open s.input r r' :=
    does_take (keepsCommit_allowed hc) hw (covers_keepingCommit hc) (Licence.open_serves _ _ _ _)
      (fun o _ ↦ Licence.open_allows _ F r o) ht
  obtain ⟨out, -, hp⟩ := hd.path
  exact h.path (fun _ _ ↦ id) rfl hst hp

end KeepsCommit

section Run

variable {cl : Cluster} {w : World σ}

/-- While no request lowers it, the commit index of a running node only grows, and it is
never behind what was applied. -/
theorem commitIndex_monotone {n : ServerID} {r : Raft σ}
    (h : World.Reach cl F (fun w a ↦ w.asks Raft.keepsCommit a = true) w)
    (hr : w.raft? n = some r) (hst : r.started = true) :
    r.applyIndex ≤ r.commitIndex ∧
      ∀ t w' r', w.asks Raft.keepsCommit (.run t none) = true →
      w.step cl F (.run t none) = some w' →
        w'.raft? n = some r' → r.commitIndex ≤ r'.commitIndex := by
  have hpaced : Paced r.core := by
    rcases World.Reach.started (fun _ _ ↦ Raft.keepsCommit_finds)
      (fun cfg n d state lastTerm _ ↦ Paced.boot cfg n d state lastTerm)
      (fun r s r' hc hw hst ht hI ↦ (Raft.paced_take hc hw hst ht hI).2) h hr with
      ⟨-, hI⟩ | ⟨_, _, hf⟩
    · exact hI
    · rw [show r.started = false from congrArg Core.started hf] at hst
      cases hst
  refine ⟨hpaced.apply, fun t w' r' ha hstep hr' ↦ ?_⟩
  rcases run_raft? hstep hr' with hsame | ⟨r₀, s, r₁, hr₀, hs, ht, rfl⟩
  · rw [hr] at hsame
    cases hsame
    exact le_rfl
  · rw [hr] at hr₀
    cases hr₀
    have hc : r.keepsCommit s = true := by simpa [asks, hs] using ha
    exact (Raft.paced_take hc (stimulus_contiguous (World.Reach.wired h) hs) hst ht hpaced).1

end Run

section Example

open Action (boot timeout turns)

/-- A commits three entries with C, and B gets the first two of them, each in a request of
its own that says so. -/
def commitSpread : List Action :=
  electA ++ turns "A" 3 ++ [.op "A" (.propose [(1, [0, 0]), (2, [0, 0])])] ++
    [.op "A" (.replicate "C"), .deliver 2, .reply 1, .op "A" (.replicate "C"), .deliver 3, .reply 2,
      .op "A" (.replicate "C"), .deliver 4, .reply 3] ++
    [.op "A" (.replicate "B"), .deliver 5, .reply 4, .op "A" (.replicate "B"), .deliver 6] ++
    .op "B" .commitNotify :: turns "B" 9

theorem commitIndex_monotone_commitSpread : ∃ (w : World (List Bytes)) (r : Raft (List Bytes)),
    World.Reach threeVoters .keeping (fun w a ↦ w.asks Raft.keepsCommit a = true) w ∧
      w.raft? "B" = some r ∧ r.started = true ∧ r.commitIndex = 2 ∧
      r.applyIndex ≤ r.commitIndex := by
  obtain ⟨w, r, hreach, hr, hst, hk⟩ := World.exists_checked_raft threeVoters .keeping
    (·.asks Raft.keepsCommit) commitSpread "B" (fun r ↦ r.started = true ∧ r.commitIndex = 2)
    (by decide +kernel)
  exact ⟨w, r, hreach, hr, hst, hk, (commitIndex_monotone hreach hr hst).1⟩

theorem commitSpread_redelivered :
    (World.init.steps threeVoters .keeping commitSpread).bind (fun w ↦
      (w.step threeVoters .keeping (.deliver 5)).bind fun w' ↦
        (w.raft? "B").bind fun r ↦ (w'.raft? "B").map fun r' ↦
          (r.commitIndex, r'.commitIndex, r'.applyIndex)) = some (2, 1, 2) := by
  decide +kernel

/-- The first of B's two requests arrives once more: it ends at index 1 but knows of the
commit of index 3, and takes B's commit index back below what B has applied. -/
theorem commitIndex_lowered : ∃ (w w' : World (List Bytes)) (r r' : Raft (List Bytes)),
    World.Reach threeVoters .keeping (fun _ _ ↦ True) w ∧
      w.step threeVoters .keeping (.deliver 5) = some w' ∧ w.raft? "B" = some r ∧
      w'.raft? "B" = some r' ∧ r'.commitIndex < r.commitIndex ∧ r'.commitIndex < r'.applyIndex := by
  obtain ⟨w, hw, h⟩ := Option.bind_eq_some_iff.mp commitSpread_redelivered
  obtain ⟨w', hw', h⟩ := Option.bind_eq_some_iff.mp h
  obtain ⟨r, hr, h⟩ := Option.bind_eq_some_iff.mp h
  obtain ⟨r', hr', h⟩ := Option.map_eq_some_iff.mp h
  simp only [Prod.mk.injEq] at h
  obtain ⟨hk, hk', ha⟩ := h
  exact ⟨w, w', r, r', steps_of_steps hw, hw', hr, hr', by omega, by omega⟩

end Example

end RaftConsensus
