import RaftConsensus.Does.Election

namespace RaftConsensus

variable {σ : Type} {R : Rules} {L : Warrant} {inp : Input}

namespace Raft

variable (r : Raft σ)

section Membership

theorem appendConfiguration_eq (data : ConfigurationData) : r.appendConfiguration data =
    { r.appendEntry ⟨r.term, r.lastIndex + 1, .configuration data⟩ with
      pendingConfigIndex := r.lastIndex + 1 } := by
  simp [appendConfiguration, persistLog, contiguous, appendEntry, checkpoint]

variable (hR : R.membership) (hL : r.configChangePending = false → L.change r.core)

include hR hL

theorem does_changeConfiguration {data : ConfigurationData} (hd : data ≠ .commitJoint)
    (hs : r.state = .leader) : Does R L inp r (r.changeConfiguration data).1 := by
  unfold changeConfiguration
  split
  · exact .refl r
  · rename_i hp
    have hp' : r.configChangePending = false := by simpa using hp
    rw [configChangePending, Bool.or_eq_true, not_or, Option.isSome_iff_ne_none, not_not,
      decide_eq_true_eq, not_lt] at hp
    rw [appendConfiguration_eq]
    exact .write (.change ⟨r.term, r.lastIndex + 1, .configuration data⟩ data rfl rfl hs hR rfl hd
      hp.1 hp.2 (hL hp')) rfl rfl

theorem does_addServer (target : ServerID) (addr : ServerAddress) :
    Does R L inp r (r.addServer target addr).1 := by
  unfold addServer
  split
  · exact .refl r
  · exact r.does_changeConfiguration hR hL nofun (not_not.mp ‹_›)

theorem does_removeServer (target : ServerID) : Does R L inp r (r.removeServer target).1 := by
  unfold removeServer
  split
  · exact .refl r
  · split
    · exact .refl r
    · exact r.does_changeConfiguration hR hL nofun (not_not.mp ‹_›)

theorem does_replaceServer (oldID newID : ServerID) (newAddr : ServerAddress) :
    Does R L inp r (r.replaceServer oldID newID newAddr).1 := by
  unfold replaceServer
  split
  · exact .refl r
  · exact r.does_changeConfiguration hR hL nofun (not_not.mp ‹_›)

theorem does_addLearner (target : ServerID) (addr : ServerAddress) :
    Does R L inp r (r.addLearner target addr).1 := by
  unfold addLearner
  split
  · exact .refl r
  · exact r.does_changeConfiguration hR hL nofun (not_not.mp ‹_›)

theorem does_promoteLearner (target : ServerID) : Does R L inp r (r.promoteLearner target).1 := by
  unfold promoteLearner
  generalize (if r.config.trailingLogs = 0 then 1000 else r.config.trailingLogs) = trailingLogs
  dsimp only
  split
  · exact .refl r
  · split
    · exact .refl r
    · split
      · exact .refl r
      · exact r.does_changeConfiguration hR hL nofun (not_not.mp ‹_›)

end Membership

theorem does_stepDownIfNotVoter (data : ConfigurationData) (rnd : ℕ)
    (h : r.core.AtConfiguration data) : Does R L inp r (r.stepDownIfNotVoter rnd) := by
  unfold stepDownIfNotVoter
  refine .ite (fun _ ↦ .refl r) fun hs ↦ ?_
  have hs' : r.state = .leader := by tauto
  have hd : Does R L inp r (r.failPendingFutures.finishTransfer (some .leadershipLost)) :=
    r.does_failPendingFutures.trans (quiet_finishTransfer _ _).does
  have hcore := (quiet_finishTransfer r.failPendingFutures (some .leadershipLost)).core.trans
    r.core_failPendingFutures
  generalize r.failPendingFutures.finishTransfer (some .leadershipLost) = r₁ at hd hcore
  have hretire : Does R L inp r₁ { r₁ with state := .follower, votedFor := "" } := by
    refine .move (.retire data ?_ ?_ ?_) rfl rfl
    · rw [hcore]
      exact hs'
    · rw [hcore]
      exact h
    · rw [hcore]
      exact settled_settle r.pendingFutures rfl
  exact (hd.trans hretire).trans (.move .clearAcks rfl rfl)

def goto (pc : RunPC) : Raft σ := { r with run := pc }

theorem addMissingTrackers_goto (servers : List Server) (pc : RunPC) :
    (r.goto pc).addMissingTrackers servers = (r.addMissingTrackers servers).goto pc := by
  unfold addMissingTrackers
  induction servers generalizing r with
  | nil => rfl
  | cons s servers ih =>
    rw [List.foldl_cons, List.foldl_cons, ← ih, apply_ite (goto · pc)]
    rfl

theorem failPendingFutures_goto (pc : RunPC) :
    (r.goto pc).failPendingFutures = r.failPendingFutures.goto pc := by
  rw [failPendingFutures_eq, failPendingFutures_eq]
  rfl

theorem finishTransfer_goto (err : Option RaftError) (pc : RunPC) :
    (r.goto pc).finishTransfer err = (r.finishTransfer err).goto pc := by
  unfold finishTransfer
  rw [show (r.goto pc).leadershipTransfer = r.leadershipTransfer from rfl]
  cases r.leadershipTransfer <;> rfl

theorem stepDownIfNotVoter_goto (rnd : ℕ) (pc : RunPC) :
    (r.goto pc).stepDownIfNotVoter rnd = (r.stepDownIfNotVoter rnd).goto pc := by
  unfold stepDownIfNotVoter
  rw [failPendingFutures_goto, finishTransfer_goto, apply_ite (goto · pc)]
  rfl

theorem applyConfigurationEntry_goto (data : ConfigurationData) (rnd : ℕ) (pc : RunPC) :
    ((r.goto pc).applyConfigurationEntry data rnd).1 =
      (r.applyConfigurationEntry data rnd).1.goto pc := by
  cases data with
  | joint newConfig =>
    simp only [applyConfigurationEntry, enterJoint]
    rw [apply_ite (goto · pc), ← addMissingTrackers_goto]
    rfl
  | commitJoint =>
    simp only [applyConfigurationEntry, leaveJoint]
    rw [show (r.goto pc).jointConfig = r.jointConfig from rfl]
    cases r.jointConfig with
    | none => rfl
    | some j =>
      dsimp only
      rw [← stepDownIfNotVoter_goto, apply_ite (goto · pc)]
      rfl
  | single changeType rest =>
    simp only [applyConfigurationEntry, applySingle]
    rw [← stepDownIfNotVoter_goto, apply_ite (goto · pc), ← addMissingTrackers_goto]
    rfl

theorem does_untrack (gone : List ServerID) : Does R L inp r
    { r with matchIndex := gone.foldl (fun m id ↦ m.erase id) r.matchIndex } := by
  induction gone generalizing r with
  | nil => exact .refl r
  | cons id gone ih =>
    have hd : Does R L inp r { r with matchIndex := r.matchIndex.erase id } :=
      .move (.untrack id) rfl rfl
    exact hd.trans (ih _)

theorem run_addMissingTrackers (servers : List Server) :
    (r.addMissingTrackers servers).run = r.run := by
  have h := r.addMissingTrackers_goto servers r.run
  rw [show r.goto r.run = r from rfl] at h
  rw [h]
  rfl

theorem does_applyConfigurationEntry {data : ConfigurationData} (rnd : ℕ) {drain : Bool} {k : ℕ}
    {e : LogEntry} (h : r.run = .applyEntry drain k e) (hp : e.payload = .configuration data)
    (hT : L.turn) : Does R L inp r { (r.applyConfigurationEntry data rnd).1 with
      run := r.core.afterConfiguration drain k e data } := by
  change Does R L inp r ((r.applyConfigurationEntry data rnd).1.goto _)
  rw [← applyConfigurationEntry_goto]
  have hcfg (r' : Raft σ) (hc : r'.core = { r.core.configure (r.electorate.apply data) with
      run := r.core.afterConfiguration drain k e data }) (ho : r'.outbox = r.outbox)
      (hj : r'.journal = r.journal) : Does R L inp r r' :=
    .move (hc ▸ .configure data drain k e h hp hT) ho hj
  have hat (r' : Raft σ) (hr : r'.run = r.core.afterConfiguration drain k e data) :
      r'.core.AtConfiguration data := by
    refine ⟨e, ?_, hp⟩
    rw [show r'.core.run = _ from hr, Core.afterConfiguration]
    split <;> rfl
  generalize r.core.afterConfiguration drain k e data = pc at hcfg hat
  cases data with
  | joint newConfig =>
    have hd : Does R L inp r
        { r with run := pc, jointConfig := some ⟨r.configuration, newConfig⟩ } :=
      hcfg _ rfl rfl rfl
    refine hd.trans ?_
    exact .ite (fun _ ↦ does_addMissingTrackers _ _) fun _ ↦ .refl _
  | commitJoint =>
    simp only [applyConfigurationEntry, leaveJoint]
    split
    · rename_i hj
      refine hcfg _ ?_ rfl rfl
      have hj : r.jointConfig = none := hj
      simp only [Electorate.apply, electorate, hj]
      rw [← hj]
      rfl
    · rename_i j hj
      have hd : Does R L inp r
          { r with run := pc, configuration := j.newConfig, jointConfig := none } := by
        refine hcfg _ ?_ rfl rfl
        have hj : r.jointConfig = some j := hj
        simp only [Electorate.apply, electorate, hj]
        rfl
      split
      · refine Does.trans ?_ (does_stepDownIfNotVoter _ .commitJoint rnd (hat _ rfl))
        exact (hd.trans (does_untrack _ _)).trans (.same rfl rfl rfl)
      · exact hd.trans (does_stepDownIfNotVoter _ .commitJoint rnd (hat _ rfl))
  | single changeType rest =>
    have hd : Does R L inp r { r with
        run := pc
        configuration := (decodeConfigurationChange changeType rest).applyTo r.configuration } :=
      hcfg _ rfl rfl rfl
    simp only [applyConfigurationEntry, applySingle]
    split
    · exact (hd.trans (does_addMissingTrackers _ _)).trans
        (does_stepDownIfNotVoter _ (.single changeType rest) rnd
        (hat _ (run_addMissingTrackers _ _)))
    · exact hd.trans (does_stepDownIfNotVoter _ (.single changeType rest) rnd (hat _ rfl))

theorem electorate_addMissingTrackers (servers : List Server) :
    (r.addMissingTrackers servers).electorate = r.electorate := by
  unfold addMissingTrackers
  induction servers generalizing r with
  | nil => rfl
  | cons s servers ih =>
    rw [List.foldl_cons, ih]
    split <;> rfl

theorem core_stepDown (r : Raft σ) :
    (r.failPendingFutures.finishTransfer (some .leadershipLost)).core =
      { r.core with pendingFutures := settle r.commitIndex r.pendingFutures } :=
  (quiet_finishTransfer _ _).core.trans r.core_failPendingFutures

theorem electorate_stepDownIfNotVoter (rnd : ℕ) :
    (r.stepDownIfNotVoter rnd).electorate = r.electorate := by
  unfold stepDownIfNotVoter
  split
  · rfl
  · exact congrArg Core.electorate r.core_stepDown

theorem electorate_applyConfigurationEntry (data : ConfigurationData) (rnd : ℕ) :
    (r.applyConfigurationEntry data rnd).1.electorate = r.electorate.apply data := by
  cases data with
  | joint newConfig =>
    simp only [applyConfigurationEntry, enterJoint]
    split
    · rw [electorate_addMissingTrackers]
      rfl
    · rfl
  | commitJoint =>
    simp only [applyConfigurationEntry, leaveJoint]
    cases hj : r.jointConfig with
    | none => simp only [Electorate.apply, electorate, hj]
    | some j =>
      have he : r.electorate.apply .commitJoint = ⟨j.newConfig, none⟩ := by
        simp only [Electorate.apply, electorate, hj]
      rw [he, electorate_stepDownIfNotVoter]
      split <;> rfl
  | single changeType rest =>
    simp only [applyConfigurationEntry, applySingle, electorate_stepDownIfNotVoter]
    split
    · rw [electorate_addMissingTrackers]
      rfl
    · rfl

/-- A second critical section follows when a leader applies a joint entry. -/
theorem afterConfiguration_eq (data : ConfigurationData) (rnd : ℕ) (drain : Bool) (k : ℕ)
    (e : LogEntry) : r.core.afterConfiguration drain k e data =
      if (r.applyConfigurationEntry data rnd).2 then .applyJoint drain k e
      else .applyDone drain k e (.ok []) := by
  unfold Core.afterConfiguration
  congr 1
  cases data <;> simp [applyConfigurationEntry, ConfigurationData.isJoint, core]

section ApplyCommitted

variable {drain : Bool} {k : ℕ} {e : LogEntry} {result : ApplyResult}

theorem resolveFuture_eq (err : Option RaftError) (out : Bytes) (pc : RunPC) (a : ℕ) :
    ({ r with applyIndex := a, run := pc } : Raft σ).resolveFuture e err out =
      { r.resolveFuture e err out with applyIndex := a, run := pc } := by
  unfold resolveFuture
  dsimp only
  cases r.pendingFutures.lookup e.index with
  | none => rfl
  | some f => rfl

theorem does_resolveFuture (h : r.run = .applyDone drain k e result) :
    Does R L inp r (r.resolveFuture e result.err result.out) := by
  unfold resolveFuture
  split
  · exact .refl r
  · rename_i f hf
    exact .one (.resolve drain k e result f h hf) rfl rfl

theorem run_resolveFuture (err : Option RaftError) (out : Bytes) :
    (r.resolveFuture e err out).run = r.run := by
  unfold resolveFuture
  split <;> rfl

theorem foldl_drain (l : List (Σ _ : ℕ, ℕ)) : l.foldl (fun r f ↦
      if f.1 ≤ r.commitIndex then
        r.respond f.2 none f.1 (((r.log.get f.1).map LogEntry.term).getD 0) []
      else r.respond f.2 (some .notStarted) 0 0 []) r =
    { r with outbox := r.outbox ++ l.map fun f ↦
        .note (if f.1 ≤ r.commitIndex then
            .responded f.2 none f.1 (((r.log.get f.1).map LogEntry.term).getD 0) []
          else .responded f.2 (some .notStarted) 0 0 []) } := by
  induction l generalizing r with
  | nil => simp
  | cons f l ih =>
    rw [List.foldl_cons, List.map_cons, List.append_cons]
    split
    · rw [ih]
      rfl
    · rw [ih]
      rfl

variable (hT : L.turn)

include hT

theorem does_goto {pc : RunPC} (h : Turn R L r.core pc) : Does R L inp r { r with run := pc } :=
  .move (.goto pc hT h) rfl rfl

theorem does_applyBegin (h : r.run = .applyStart drain) : Does R L inp r (r.applyBegin drain) :=
  .ite (fun _ ↦ r.does_goto hT (.halted h)) fun _ ↦ r.does_goto hT (.loop h)

theorem does_applyNext {a : ℕ} (h : r.run = .applyLoop drain k a)
    (hL : ∀ e, a < k → r.log.get (a + 1) = some e → L.reads e) :
    Does R L inp r (r.applyNext drain k a) := by
  unfold applyNext
  dsimp only
  refine .ite (fun hlt ↦ ?_) fun hge ↦ r.does_goto hT (.done h fun hlt ↦ absurd hlt hge)
  split
  · rename_i hn
    exact r.does_goto hT (.done h fun _ ↦ hn)
  · rename_i e he
    exact r.does_goto hT (.entry h hlt he (hL e hlt he))

theorem does_applyRun (F : FSM σ) (rnd : ℕ) (h : r.run = .applyEntry drain k e)
    (hL : ∀ data, e.payload = .normal data → data ≠ [] → L.returns e (F.apply r.fsm data).2) :
    Does R L inp r (r.applyRun F drain k e rnd) := by
  unfold applyRun
  split
  · rename_i hp
    refine r.does_goto hT (.ran h ?_)
    simp only [Warrant.Ran, hp]
  · rename_i data hne hp
    have hd : Does R L inp r (r.emit (.note (.applied e))) := .emit (.applied drain k e h)
    have hran : L.Ran e (F.apply r.fsm data).2 := by
      simp only [Warrant.Ran, hp]
      exact hL data hp hne
    exact (hd.trans (does_goto _ hT (.ran h hran))).trans (.same rfl rfl rfl)
  · rename_i data hp
    have hd : Does R L inp r { (r.applyConfigurationEntry data rnd).1 with
        run := r.core.afterConfiguration drain k e data } :=
      r.does_applyConfigurationEntry rnd h hp hT
    rw [r.afterConfiguration_eq data rnd] at hd
    generalize r.applyConfigurationEntry data rnd = q at hd
    obtain ⟨r₁, second⟩ := q
    cases second with
    | false => exact hd
    | true => exact hd

theorem does_advance (h : r.run = .applyDone drain k e result) : Does R L inp r
      { r with applyIndex := e.index, run := .applyLoop drain k e.index } := by
  have hd : Does R L inp r { r with applyIndex := e.index } :=
    .move (.advance drain k e result h) rfl rfl
  exact hd.trans (does_goto _ hT (.next h rfl))

theorem does_applyFinish (h : r.run = .applyDone drain k e result) :
    Does R L inp r (r.applyFinish drain k e result) := by
  have hd : Does R L inp r (r.resolveFuture e result.err result.out) := r.does_resolveFuture h
  have hrun : (r.resolveFuture e result.err result.out).run = _ :=
    (r.run_resolveFuture _ _).trans h
  cases result with
  | panicked =>
    have hs : (r.resolveFuture e (some .fsmPanic) []).stopFatal.state = .shutdown ∧
        (r.resolveFuture e (some .fsmPanic) []).stopFatal.run =
          (r.resolveFuture e (some .fsmPanic) []).run := by
      unfold stopFatal
      dsimp only
      split
      · exact ⟨‹_›, rfl⟩
      · exact ⟨rfl, rfl⟩
    exact (hd.trans (does_stopFatal _)).trans
      (does_goto _ hT (.panicked (hs.2.trans hrun) hs.1))
  | error =>
    simp only [applyFinish, resolveFuture_eq]
    exact hd.trans (does_advance _ hT hrun)
  | ok out =>
    simp only [applyFinish, resolveFuture_eq]
    exact hd.trans (does_advance _ hT hrun)

theorem does_appendCommitJoint (h : r.run = .applyJoint drain k e) : Does R L inp r
      { r.appendCommitJoint with run := .applyDone drain k e (.ok []) } := by
  have heq : r.appendCommitJoint =
      r.appendEntry ⟨r.term, r.lastIndex + 1, .configuration .commitJoint⟩ := by
    simp [appendCommitJoint, persistLog, contiguous]
  rw [heq]
  exact .write (.exit _ e drain k rfl rfl rfl h hT) rfl rfl

theorem does_drainFutures (h : r.run = .drainFutures) (hL : L.drain r.core) :
    Does R L inp r r.drainFuturesOnShutdown := by
  unfold drainFuturesOnShutdown
  rw [foldl_drain]
  have hd : Does R L inp r { r with
      outbox := r.outbox ++ r.pendingFutures.entries.map fun f ↦
        .note (if f.1 ≤ r.commitIndex then
            .responded f.2 none f.1 (((r.log.get f.1).map LogEntry.term).getD 0) []
          else .responded f.2 (some .notStarted) 0 0 [])
      pendingFutures := ∅ } := .one (.drain h hL) rfl rfl
  exact hd.trans (does_goto _ hT (.off h))

end ApplyCommitted

end Raft

end RaftConsensus
