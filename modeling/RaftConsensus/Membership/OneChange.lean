import RaftConsensus.Membership.Leader

namespace RaftConsensus

open LogStore

variable {σ : Type} {F : FSM σ} {R : Rules} {L : Warrant} {inp : Input} {c c' : Core}
  {out : List Effect}

/-- No configuration entry waits, and none is being applied. -/
structure Core.Calm (c : Core) : Prop where
  none : ∀ i data, ¬ c.Waits i data
  entry : ∀ drain k e data, c.run = .applyEntry drain k e → e.payload ≠ .configuration data
  joint : ∀ drain k e, c.run ≠ .applyJoint drain k e

theorem Core.Calm.of_eq (h : c.Calm) (hl : c'.log = c.log) (hr : c'.run = c.run)
    (ha : c'.applyIndex = c.applyIndex) : c'.Calm := by
  have hprog : c'.progress = c.progress := by simp only [Core.progress, hr, ha]
  refine ⟨fun i d hw ↦ h.none i d ⟨hprog ▸ hw.1, ?_⟩, hr ▸ h.entry, hr ▸ h.joint⟩
  obtain ⟨e, he, hp⟩ := hw.2
  exact ⟨e, hl ▸ he, hp⟩

/-- The configuration entries of a leader come one after the other: the next one is logged
when the `run` goroutine is through with the one before. -/
structure OneAtATime (c : Core) : Prop where
  one : ∀ i j d d', c.Waits i d → c.Waits j d' → i = j
  exit : ∀ i, c.Waits i .commitJoint → c.jointConfig.isSome = true
  pending : ∀ i d, c.Waits i d → d ≠ .commitJoint → i ≤ c.pendingConfigIndex
  entry : ∀ drain k e d, c.run = .applyEntry drain k e → e.payload = .configuration d →
    c.log.get e.index = some e
  joint : ∀ drain k e, c.run = .applyJoint drain k e →
    (∀ i d, ¬ c.Waits i d) ∧ c.jointConfig.isSome = true

namespace OneAtATime

theorem keep (h : OneAtATime c) (hw : ∀ i d, c'.Waits i d → c.Waits i d)
    (hj : c'.jointConfig = c.jointConfig) (hp : c'.pendingConfigIndex = c.pendingConfigIndex)
    (hentry : ∀ drain k e d, c'.run = .applyEntry drain k e → e.payload = .configuration d →
      c'.log.get e.index = some e)
    (hjoint : ∀ drain k e, c'.run = .applyJoint drain k e → c.run = .applyJoint drain k e) :
    OneAtATime c' where
  one i j d d' hi hj := h.one i j d d' (hw i d hi) (hw j d' hj)
  exit i hi := hj ▸ h.exit i (hw i _ hi)
  pending i d hi hd := hp ▸ h.pending i d (hw i d hi) hd
  entry := hentry
  joint drain k e hr := by
    obtain ⟨hnone, hsome⟩ := h.joint drain k e (hjoint drain k e hr)
    exact ⟨fun i d hi ↦ hnone i d (hw i d hi), hj ▸ hsome⟩

theorem of_none (hnone : ∀ i d, ¬ c.Waits i d)
    (hentry : ∀ drain k e d, c.run = .applyEntry drain k e → e.payload ≠ .configuration d)
    (hjoint : ∀ drain k e, c.run = .applyJoint drain k e → c.jointConfig.isSome = true) :
    OneAtATime c where
  one i _ d _ hi := absurd hi (hnone i d)
  exit i hi := absurd hi (hnone i _)
  pending i d hi := absurd hi (hnone i d)
  entry drain k e d hr hp := absurd hp (hentry drain k e d hr)
  joint drain k e hr := ⟨hnone, hjoint drain k e hr⟩

theorem append (h : OneAtATime c) (hp : Paced c) {e : LogEntry} (hi : e.index = c.lastIndex + 1)
    (hn : ∃ data, e.payload = .normal data) (hg : c'.log = c.log.append e) (hr : c'.run = c.run)
    (ha : c'.applyIndex = c.applyIndex) (hj : c'.jointConfig = c.jointConfig)
    (hk : c'.pendingConfigIndex = c.pendingConfigIndex) : OneAtATime c' := by
  obtain ⟨data, hn⟩ := hn
  have hprog : c'.progress = c.progress := by simp only [Core.progress, hr, ha]
  refine h.keep (fun i d hw ↦ ?_) hj hk (fun drain k x d hx hc ↦ ?_) fun drain k x hx ↦ hr ▸ hx
  · refine ⟨hprog ▸ hw.1, (hw.2.of_append hg).resolve_right ?_⟩
    rintro ⟨-, hc⟩
    rw [hn] at hc
    cases hc
  · rw [hg]
    exact hp.get_append hi (h.entry drain k x d (hr ▸ hx) hc)

theorem lead (h : c.Calm) : OneAtATime c.lead := by
  refine of_none (fun i d hw ↦ ?_) h.entry fun drain k e hr ↦ absurd hr (h.joint drain k e)
  rcases hw.2.of_append (c := c) rfl with hold | ⟨-, hc⟩
  · exact h.none i d ⟨hw.1, hold⟩
  · cases hc

theorem none_waits (h : OneAtATime c) (hj : c.jointConfig = none)
    (hk : c.pendingConfigIndex ≤ c.progress) (i : ℕ) (d : ConfigurationData) : ¬ c.Waits i d := by
  intro hw
  by_cases hd : d = .commitJoint
  · subst hd
    have := h.exit i hw
    rw [hj] at this
    cases this
  · have := h.pending i d hw hd
    have := hw.1
    omega

theorem change (h : OneAtATime c) (hp : Paced c) {e : LogEntry} {data : ConfigurationData}
    (hi : e.index = c.lastIndex + 1) (he : e.payload = .configuration data)
    (hd : data ≠ .commitJoint) (hj : c.jointConfig = none)
    (hk : c.pendingConfigIndex ≤ c.progress) :
    OneAtATime { c.append e with pendingConfigIndex := e.index } := by
  have hwaits (i : ℕ) (d : ConfigurationData)
      (hw : ({ c.append e with pendingConfigIndex := e.index } : Core).Waits i d) :
      i = e.index ∧ d = data := by
    rcases hw.2.of_append (c := c) rfl with hold | ⟨hi, hc⟩
    · exact absurd ⟨hw.1, hold⟩ (h.none_waits hj hk i d)
    · rw [he] at hc
      cases hc
      exact ⟨hi, rfl⟩
  refine ⟨fun i j d d' hi hj ↦ ?_, fun i hi ↦ ?_, fun i d hi _ ↦ (hwaits i d hi).1.le,
    fun drain k x d hx hc ↦ hp.get_append hi (h.entry drain k x d hx hc), fun drain k x hx ↦ ?_⟩
  · rw [(hwaits i d hi).1, (hwaits j d' hj).1]
  · exact absurd (hwaits i _ hi).2.symm hd
  · have := (h.joint drain k x hx).2
    rw [hj] at this
    cases this

theorem exitJoint (h : OneAtATime c) {e x : LogEntry} {drain : Bool} {k : ℕ}
    (he : e.payload = .configuration .commitJoint) (hr : c.run = .applyJoint drain k x) :
    OneAtATime { c.append e with run := .applyDone drain k x (.ok []) } := by
  obtain ⟨hnone, hsome⟩ := h.joint drain k x hr
  have hwaits (i : ℕ) (d : ConfigurationData)
      (hw : ({ c.append e with run := .applyDone drain k x (.ok []) } : Core).Waits i d) :
      i = e.index ∧ d = .commitJoint := by
    rcases hw.2.of_append (c := c) rfl with hold | ⟨hi, hc⟩
    · refine absurd ⟨?_, hold⟩ (hnone i d)
      rw [Core.progress, hr]
      exact hw.1
    · rw [he] at hc
      cases hc
      exact ⟨hi, rfl⟩
  refine ⟨fun i j d d' hi hj ↦ ?_, fun i hi ↦ hsome, fun i d hi hd ↦ absurd (hwaits i d hi).2 hd,
    by simp, by simp⟩
  rw [(hwaits i d hi).1, (hwaits j d' hj).1]

theorem configure (h : OneAtATime c) {e : LogEntry} {data : ConfigurationData}
    {drain : Bool} {k : ℕ} (hr : c.run = .applyEntry drain k e)
    (hp : e.payload = .configuration data) :
    OneAtATime { c.configure (c.electorate.apply data) with
      run := c.afterConfiguration drain k e data } := by
  have hget := h.entry drain k e data hr hp
  have hpos := get_pos hget
  have hself : c.Waits e.index data := by
    refine ⟨?_, e, hget, hp⟩
    simp only [Core.progress, hr]
    omega
  refine of_none (fun i d hw ↦ ?_) (fun drain k x d hx ↦ ?_) fun drain' k' x hx ↦ ?_
  · have hlt : e.index < i := by
      have hprog := hw.1
      rw [Core.progress_afterConfiguration c drain k e data rfl] at hprog
      exact hprog
    refine absurd (h.one i e.index d data ⟨?_, hw.2⟩ hself) hlt.ne'
    exact hself.1.trans hlt
  · dsimp only [Core.afterConfiguration] at hx
    split at hx <;> cases hx
  · dsimp only [Core.afterConfiguration] at hx
    split at hx
    · rename_i hjoint
      cases data with
      | joint newConfig => rfl
      | _ => cases hjoint.1
    · cases hx

variable
  (hlead : ∀ c, L.lead c → c.Calm)
  (hobey : ∀ c req, req.fromLeader = true → L.obey c req → c.state ≠ .leader)
  (hchange : ∀ c, L.change c → c.state = .leader → c.pendingConfigIndex ≤ c.progress)
  (hR : R.restore = false)

include hlead hobey hchange hR

theorem move (h : c.state = .leader → OneAtATime c) (hp : Paced c) (hst : c.started = true)
    (hm : Move R L inp c out c') (hs : c'.state = .leader) : OneAtATime c' := by
  cases hm with
  | raise t who hlt hb hf => cases hs
  | campaign asks hasks hS => cases hs
  | crown hq hL hS => exact lead (hlead _ hL)
  | setState state hne => exact absurd hs hne.1
  | retire data hl => cases hs
  | lead who hc hi hq hL => exact lead (hlead _ hL)
  | propose e hi ht hl hn => exact (h hl).append hp hi hn rfl rfl rfl rfl rfl
  | exit e x drain k hi ht he hr => exact (h hs).exitJoint he hr
  | submit e future hi ht hl hn => exact (h hl).append hp hi hn rfl rfl rfl rfl rfl
  | change e data hi ht hl hm he hd hj hk hL =>
    exact (h hl).change hp hi he hd hj (hchange c hL hl)
  | copy req e hi ht he hx ha hO => exact absurd hs (hobey c _ rfl hO)
  | truncate req e x lastTerm hi ht he hx hne hc ha h0 hl hO => exact absurd hs (hobey c _ rfl hO)
  | goto pc hT hturn =>
    have hprog := c.progress_turn hp hR hturn (by rw [show c.state = .leader from hs]; nofun)
    refine (h hs).keep (fun i d hw ↦ ⟨hprog.trans_lt hw.1, hw.2⟩) rfl rfl
      (fun drain k e d hr _ ↦ hturn.get_of_applyEntry hr) fun drain k e hr ↦
      absurd hr hturn.ne_applyJoint
  | advance drain k e result hr =>
    refine (h hs).keep (fun i d hw ↦ ⟨?_, hw.2⟩) rfl rfl (h hs).entry fun _ _ _ ↦ id
    have hlt := hw.1
    simp only [Core.progress, hr] at hlt ⊢
    exact hlt
  | configure data drain k e hr he => exact (h hs).configure hr he
  | start state lastTerm hn =>
    rw [hst] at hn
    cases hn
  | compact lo hi hc =>
    rcases hc with hsnap | ⟨req, -, hO⟩
    · refine (h hs).keep (fun i d hw ↦ ⟨hw.1, ?_⟩) rfl rfl (fun drain k e d hr ↦ ?_) fun _ _ _ ↦ id
      · obtain ⟨x, hx, hd⟩ := hw.2
        exact ⟨x, get_of_deleteRange hx, hd⟩
      · rw [show c.run = _ from hr] at hsnap
        cases hsnap
    · exact absurd hs (hobey c _ rfl hO)
  | install req lastIndex lastTerm hi hc hl hx hO => exact absurd hs (hobey c _ rfl hO)
  | restore future hr => exact absurd hr (hp.calm future)
  | _ => exact { h hs with }

end OneAtATime

section Run

/-- The log has at most one configuration change above the commit index, a joint entry and its
exit being one. -/
def Raft.OneChange (r : Raft σ) : Prop :=
  ∀ i j d d', r.commitIndex < i → i < j → r.core.Holds i d → r.core.Holds j d' →
    d.isJoint = true ∧ d' = .commitJoint

def LogEntry.isConfiguration (e : LogEntry) : Bool :=
  match e.payload with
  | .configuration _ => true
  | .normal _ => false

namespace Raft

def calm (r : Raft σ) : Bool :=
  (r.log.entries.all fun e ↦ e.index ≤ r.core.progress || !e.isConfiguration) &&
    match r.run with
    | .applyEntry _ _ e => !e.isConfiguration
    | .applyJoint _ _ _ => false
    | _ => true

/-- Besides the rules: the node that may become a leader is calm, and a leader accepts a
membership change only when the one before is applied. -/
def changesOnce (r : Raft σ) (s : Stimulus) : Bool :=
  r.rules s && (!s.mayLead r || r.calm) &&
    match s with
    | .op o => !o.changes || r.state ≠ .leader || r.configChangePending ||
        r.pendingConfigIndex ≤ r.core.progress
    | _ => true

theorem calm_core {r : Raft σ} (h : r.calm = true) : r.core.Calm := by
  obtain ⟨hlog, hrun⟩ := Bool.and_eq_true_iff.mp h
  refine ⟨fun i d hw ↦ ?_, fun drain k e d hr hp ↦ ?_, fun drain k e hr ↦ ?_⟩
  · obtain ⟨hlt, e, he, hp⟩ := hw
    have hmem := List.all_eq_true.mp hlog e (get_mem he)
    have hi := get_index he
    have hc : e.isConfiguration = true := by simp only [LogEntry.isConfiguration, hp]
    rw [hc, Bool.not_true, Bool.or_false, decide_eq_true_eq] at hmem
    omega
  · have hr : r.run = .applyEntry drain k e := hr
    simp [hr, LogEntry.isConfiguration, hp] at hrun
  · have hr : r.run = .applyJoint drain k e := hr
    simp [hr] at hrun

end Raft

variable {cl : Cluster} {w : World σ}

/-- A leader has at most one configuration change above its commit index. -/
theorem leader_oneChange {n : ServerID} {r : Raft σ}
    (h : World.Reach cl F (fun w a ↦ w.asks Raft.changesOnce a = true) w)
    (hr : w.raft? n = some r) (hs : r.state = .leader) : r.OneChange := by
  have hsplit (r : Raft σ) (s : Stimulus) (hc : r.changesOnce s = true) :
      r.rules s = true ∧ (s.mayLead r = true → r.calm = true) := by
    obtain ⟨hc, -⟩ := Bool.and_eq_true_iff.mp hc
    obtain ⟨hrules, hcalm⟩ := Bool.and_eq_true_iff.mp hc
    exact ⟨hrules, fun hm ↦ by simpa [hm] using hcalm⟩
  have hchange (r : Raft σ) (o : Raft.Op) (hc : r.changesOnce (.op o) = true)
      (ho : o.changes = true) (hpend : r.configChangePending = false) :
      r.core.state = .leader → r.core.pendingConfigIndex ≤ r.core.progress := by
    intro hl
    have hl : r.state = .leader := hl
    have hle : r.pendingConfigIndex ≤ r.core.progress := by
      simpa [ho, hpend, hl] using (Bool.and_eq_true_iff.mp hc).2
    exact hle
  have hmove (c c' : Core) (inp : Input) (out : List Effect) (hp : Paced c) (hst : c.started = true)
      (hI : c.state = .leader → OneAtATime c)
      (hm : Move withoutRestore (ruling Core.Calm fun c ↦
        c.state = .leader → c.pendingConfigIndex ≤ c.progress) inp c out c') :
      c'.state = .leader → OneAtATime c' := by
    refine OneAtATime.move ?_ ?_ ?_ rfl hI hp hst hm
    · exact fun _ ↦ id
    · exact fun _ _ hreq hO ↦ hO hreq
    · exact fun _ ↦ id
  obtain ⟨hp, hone⟩ := leader_invariant Core.Calm _ OneAtATime
    (fun c c' hl hr ha _ hcalm ↦ hcalm.of_eq hl hr ha) (fun r s hc ↦ (hsplit r s hc).1)
    (fun r s hc hm ↦ Raft.calm_core ((hsplit r s hc).2 hm)) hchange hmove h hr hs
  intro i j d d' hi hij hd hd'
  have hprog := hp.progress_le
  have heq := hone.one i j d d' ⟨hprog.trans_lt hi, hd⟩ ⟨hprog.trans_lt (hi.trans hij), hd'⟩
  omega

end Run

section Example

open Action (timeout)

/-- A is elected and logs that D shall become a learner. -/
def changeLogged : List Action := electA ++ [.op "A" (.addLearner "D" "")]

def learnerEntry (term index : ℕ) (id : ServerID) : LogEntry :=
  ⟨term, index, .configuration (encodeConfigurationChange ⟨.addLearner, id, ""⟩)⟩

theorem leader_oneChange_changeLogged : ∃ (w : World (List Bytes)) (r : Raft (List Bytes)),
    World.Reach threeVoters .keeping (fun w a ↦ w.asks Raft.changesOnce a = true) w ∧
      w.raft? "A" = some r ∧ r.state = .leader ∧ r.commitIndex = 0 ∧
      r.log.get 2 = some (learnerEntry 1 2 "D") ∧ r.OneChange := by
  obtain ⟨w, r, hreach, hr, hs, hk, hget⟩ := World.exists_checked_raft threeVoters .keeping
    (·.asks Raft.changesOnce) changeLogged "A" (fun r ↦ r.state = .leader ∧ r.commitIndex = 0 ∧
      r.log.get 2 = some (learnerEntry 1 2 "D")) (by decide +kernel)
  exact ⟨w, r, hreach, hr, hs, hk, hget, leader_oneChange hreach hr hs⟩

/-- B has stored the entry when it is elected with the vote of C, and logs another change. -/
def changeInherited : List Action :=
  changeLogged ++
    [.op "A" (.replicate "B"), .deliver 2, .reply 1, .op "A" (.replicate "B"), .deliver 3] ++
    timeout "B" 6 ++ [.deliver 5, .reply 3, .op "B" (.addLearner "E" "")]

theorem leader_two_changes : ∃ (w : World (List Bytes)) (r : Raft (List Bytes)),
    World.Reach threeVoters .keeping (fun _ _ ↦ True) w ∧ w.raft? "B" = some r ∧
      r.state = .leader ∧ ¬ r.OneChange := by
  obtain ⟨w, r, hw, hr, hs, hk, hD, hE⟩ := World.exists_reached_raft threeVoters .keeping
    changeInherited "B" (fun r ↦ r.state = .leader ∧ r.commitIndex = 1 ∧
      r.log.get 2 = some (learnerEntry 1 2 "D") ∧ r.log.get 4 = some (learnerEntry 2 4 "E"))
    (by decide +kernel)
  refine ⟨w, r, hw, hr, hs, fun hone ↦ ?_⟩
  obtain ⟨hjoint, -⟩ := hone 2 4 _ _ (by omega) (by omega) ⟨_, hD, rfl⟩ ⟨_, hE, rfl⟩
  cases hjoint

end Example

end RaftConsensus
