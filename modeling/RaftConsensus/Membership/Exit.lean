import RaftConsensus.Membership.Leader

namespace RaftConsensus

open LogStore

variable {σ : Type} {F : FSM σ} {R : Rules} {L : Warrant} {inp : Input} {c c' : Core}
  {out : List Effect}

/-- A node in joint mode is about to log the exit, or has it in its log and has not come to it. -/
structure Exits (c : Core) : Prop where
  waits : c.jointConfig.isSome = true → (∀ drain k e, c.run ≠ .applyJoint drain k e) →
    ∃ m, c.applyIndex < m ∧ c.Waits m .commitJoint
  entry : c.jointConfig.isSome = true → ∀ drain k e, c.run = .applyEntry drain k e →
    c.log.get e.index = some e

namespace Exits

theorem of_eq (h : Exits c) (hl : c'.log = c.log) (hr : c'.run = c.run)
    (ha : c'.applyIndex = c.applyIndex) (hj : c'.jointConfig = c.jointConfig) : Exits c' := by
  have hprog : c'.progress = c.progress := by simp only [Core.progress, hr, ha]
  refine ⟨fun hsome hrun ↦ ?_, fun hsome drain k e he ↦ ?_⟩
  · obtain ⟨m, hm, hlt, e, he, hp⟩ := h.waits (hj ▸ hsome) (hr ▸ hrun)
    exact ⟨m, ha ▸ hm, hprog ▸ hlt, e, hl ▸ he, hp⟩
  · rw [hl]
    exact h.entry (hj ▸ hsome) drain k e (hr ▸ he)

variable {drain : Bool} {e : LogEntry} {k : ℕ}

theorem append (h : Exits c) (hp : Paced c) (hi : e.index = c.lastIndex + 1)
    (hg : c'.log = c.log.append e) (hr : c'.run = c.run) (ha : c'.applyIndex = c.applyIndex)
    (hj : c'.jointConfig = c.jointConfig) : Exits c' := by
  have hprog : c'.progress = c.progress := by simp only [Core.progress, hr, ha]
  refine ⟨fun hsome hrun ↦ ?_, fun hsome drain k x hx ↦ ?_⟩
  · obtain ⟨m, hm, hlt, x, hx, hpay⟩ := h.waits (hj ▸ hsome) (hr ▸ hrun)
    have hle := hp.log m x hx
    exact ⟨m, ha ▸ hm, hprog ▸ hlt, Core.Holds.append ⟨x, hx, hpay⟩ hg (by omega)⟩
  · rw [hg]
    exact hp.get_append hi (h.entry (hj ▸ hsome) drain k x (hr ▸ hx))

theorem exitJoint (hp : Paced c) {x : LogEntry}
    (hi : e.index = c.lastIndex + 1) (he : e.payload = .configuration .commitJoint)
    (hr : c.run = .applyJoint drain k x) :
    Exits { c.append e with run := .applyDone drain k x (.ok []) } := by
  have hx : x.index ≤ c.commitIndex := hp.entry x (by rw [hr]; rfl)
  have hle := hp.commit
  have ha := hp.apply
  refine ⟨fun _ _ ↦ ⟨e.index, ?_, ?_, e, ?_, he⟩, nofun⟩
  · change c.applyIndex < e.index
    omega
  · change x.index < e.index
    omega
  · change (c.log.append e).get e.index = some e
    rw [get_append _ _ _ (by omega), if_pos rfl]

theorem passes (h : Exits c) (hsome : c.jointConfig.isSome = true)
    {m : ℕ} (hr : c.run = .applyEntry drain k e) (hm : c.Waits m .commitJoint)
    (he : e.payload ≠ .configuration .commitJoint) : e.index < m := by
  obtain ⟨hlt, x, hx, hp⟩ := hm
  have hget := h.entry hsome drain k e hr
  have hne : m ≠ e.index := by
    rintro rfl
    rw [hget] at hx
    cases hx
    exact he hp
  simp only [Core.progress, hr] at hlt
  omega

theorem goto (h : Exits c) (hs : c.state = .leader) {pc : RunPC} (hturn : Turn R L c pc)
    (hp : Paced c) (hR : R.restore = false) : Exits { c with run := pc } := by
  refine ⟨fun hsome _ ↦ ?_, fun _ drain k e hr ↦ hturn.get_of_applyEntry hr⟩
  have hsome : c.jointConfig.isSome = true := hsome
  have hrun (drain : Bool) (k : ℕ) (e : LogEntry) : c.run ≠ .applyJoint drain k e := by
    intro hr
    cases hturn <;> simp_all [RunPC.snapshot?]
  obtain ⟨m, hm, hw⟩ := h.waits hsome hrun
  refine ⟨m, hm, ?_, hw.2⟩
  have hend (drain : Bool) : ({ c with run := .endOf drain } : Core).progress = c.applyIndex := by
    cases drain <;> rfl
  cases hturn with
  | @entry drain k a e hr ha he =>
    have hlt := hw.1
    have hi := get_index he
    simp only [Core.progress, hr] at hlt ⊢
    omega
  | @ran drain k e result hr hran =>
    refine h.passes hsome hr hw fun hp ↦ ?_
    simp only [Warrant.Ran, hp] at hran
  | panicked hr hs' =>
    rw [hs] at hs'
    cases hs'
  | next hr ha =>
    have hlt := hw.1
    simp only [Core.progress, hr] at hlt ⊢
    exact hlt
  | done hr ha =>
    rw [hend]
    exact hm
  | halted hr =>
    rw [hend]
    exact hm
  | @snapshotting k pc hr hp =>
    have hprog : ({ c with run := pc } : Core).progress = c.applyIndex := by
      unfold Core.progress
      split <;> simp_all [RunPC.snapshot?]
    rw [hprog]
    exact hm
  | restoring future hr hR' =>
    rw [hR] at hR'
    cases hR'
  | restored hr => exact absurd hr (hp.calm _)
  | _ => exact hm

theorem configure (h : Exits c) (hs : c.state = .leader) {data : ConfigurationData}
    (hr : c.run = .applyEntry drain k e) (he : e.payload = .configuration data) :
    Exits { c.configure (c.electorate.apply data) with
      run := c.afterConfiguration drain k e data } := by
  cases data with
  | joint newConfig =>
    have hrun : c.afterConfiguration drain k e (.joint newConfig) = .applyJoint drain k e :=
      if_pos ⟨rfl, hs⟩
    exact ⟨fun _ hne ↦ absurd hrun (hne drain k e), fun _ _ _ _ hx ↦ by cases hrun.symm.trans hx⟩
  | commitJoint =>
    have hnone : ¬ (c.electorate.apply .commitJoint).jointConfig.isSome = true := by
      simp only [Electorate.apply]
      split <;> simp_all
    exact ⟨fun hsome ↦ absurd hsome hnone, fun hsome ↦ absurd hsome hnone⟩
  | single changeType rest =>
    have hrun : c.afterConfiguration drain k e (.single changeType rest) =
        .applyDone drain k e (.ok []) := if_neg fun hj ↦ by cases hj.1
    refine ⟨fun hsome _ ↦ ?_, fun _ _ _ _ hx ↦ by cases hrun.symm.trans hx⟩
    have hsome : c.jointConfig.isSome = true := hsome
    obtain ⟨m, hm, hlt, x, hx, hp⟩ := h.waits hsome (by simp [hr])
    refine ⟨m, hm, ?_, x, hx, hp⟩
    rw [Core.progress_afterConfiguration c drain k e (.single changeType rest) rfl]
    exact h.passes hsome hr ⟨hlt, x, hx, hp⟩ (by simp [he])

variable
  (hlead : ∀ c, L.lead c → Exits c)
  (hobey : ∀ c req, req.fromLeader = true → L.obey c req → c.state ≠ .leader)
  (hR : R.restore = false)

include hlead hobey hR

theorem move (h : c.state = .leader → Exits c) (hp : Paced c) (hst : c.started = true)
    (hm : Move R L inp c out c') (hs : c'.state = .leader) : Exits c' := by
  cases hm with
  | raise t who hlt hb hf => cases hs
  | campaign asks hasks hS => cases hs
  | crown hq hL hS =>
    have hcamp : Paced c.campaigned := { hp with }
    exact (hlead _ hL).append hcamp
      (e := ⟨c.term + 1, c.lastIndex + 1, .normal []⟩) rfl rfl rfl rfl rfl
  | setState state hne => exact absurd hs hne.1
  | retire data hl => cases hs
  | lead who hc hi hq hL =>
    exact (hlead _ hL).append hp (e := ⟨c.term, c.lastIndex + 1, .normal []⟩) rfl rfl rfl rfl rfl
  | propose e hi ht hl hn => exact (h hl).append hp hi rfl rfl rfl rfl
  | exit e x drain k hi ht he hr => exact exitJoint hp hi he hr
  | submit e future hi ht hl hn => exact (h hl).append hp hi rfl rfl rfl rfl
  | change e data hi ht hl hm he hd hj hk hL => exact (h hl).append hp hi rfl rfl rfl rfl
  | copy req e hi ht he hx ha hO => exact absurd hs (hobey c _ rfl hO)
  | truncate req e x lastTerm hi ht he hx hne hc ha h0 hl hO => exact absurd hs (hobey c _ rfl hO)
  | goto pc hT hturn => exact (h hs).goto hs hturn hp hR
  | advance drain k e result hr =>
    refine ⟨fun hsome hrun ↦ ?_, (h hs).entry⟩
    obtain ⟨m, -, hlt, hm⟩ := (h hs).waits hsome hrun
    simp only [Core.progress, hr] at hlt
    refine ⟨m, hlt, ?_, hm⟩
    simp only [Core.progress, hr]
    exact hlt
  | configure data drain k e hr he => exact (h hs).configure hs hr he
  | start state lastTerm hn =>
    rw [hst] at hn
    cases hn
  | compact lo hi hc =>
    rcases hc with hsnap | ⟨req, -, hO⟩
    · refine ⟨fun hsome hrun ↦ ?_, fun _ drain k e hr ↦ ?_⟩
      · obtain ⟨m, hm, hlt, x, hx, hpay⟩ := (h hs).waits hsome hrun
        refine ⟨m, hm, hlt, x, ?_, hpay⟩
        have hle := hp.snapshot hi hsnap
        change (c.log.deleteRange lo hi).get m = some x
        rw [get_deleteRange, if_neg (by omega)]
        exact hx
      · rw [show c.run = _ from hr] at hsnap
        cases hsnap
    · exact absurd hs (hobey c _ rfl hO)
  | install req lastIndex lastTerm hi hc hl hx hO => exact absurd hs (hobey c _ rfl hO)
  | restore future hr => exact absurd hr (hp.calm future)
  | _ => exact ⟨(h hs).waits, (h hs).entry⟩

end Exits

section Run

namespace Raft

def holdsExit (r : Raft σ) : Bool :=
  r.log.entries.any fun e ↦ r.applyIndex < e.index && r.core.progress < e.index &&
    (r.log.get e.index).any (·.payload = .configuration .commitJoint)

/-- The node is not in joint mode, is about to log the exit, or has it in its log and has not
come to it. -/
def canExit (r : Raft σ) : Bool :=
  r.jointConfig.isNone ||
    match r.run with
    | .applyJoint _ _ _ => true
    | .applyEntry _ _ e => r.log.get e.index = some e && r.holdsExit
    | _ => r.holdsExit

/-- Besides the rules: the node that may become a leader can exit joint mode. -/
def leadsWithExit (r : Raft σ) (s : Stimulus) : Bool := r.rules s && (!s.mayLead r || r.canExit)

variable {r : Raft σ}

theorem waits_of_holdsExit (h : r.holdsExit = true) :
    ∃ m, r.applyIndex < m ∧ r.core.Waits m .commitJoint := by
  obtain ⟨e, -, he⟩ := List.any_eq_true.mp h
  simp only [Bool.and_eq_true, decide_eq_true_eq, Option.any_eq_true] at he
  obtain ⟨⟨ha, hp⟩, x, hx, hpay⟩ := he
  exact ⟨e.index, ha, hp, x, hx, hpay⟩

theorem canExit_core (h : r.canExit = true) : Exits r.core := by
  have hcases (hj : r.jointConfig.isSome = true) := (Bool.or_eq_true_iff.mp h).resolve_left (by
    simpa using Option.isSome_iff_ne_none.mp hj)
  constructor
  · intro hj hr
    have hrun := hcases hj
    split at hrun
    · exact absurd ‹_› (hr _ _ _)
    · exact waits_of_holdsExit (Bool.and_eq_true_iff.mp hrun).2
    · exact waits_of_holdsExit hrun
  · intro hj drain k e hr
    have hr : r.run = .applyEntry drain k e := hr
    have hrun := hcases hj
    simp only [hr, Bool.and_eq_true, decide_eq_true_eq] at hrun
    exact hrun.1

end Raft

variable {cl : Cluster} {w : World σ}

/-- A leader in joint mode that is not inside `applyCommitted` has the exit in its log, above
all it has applied and so above the joint entry. -/
theorem leader_holdsExit {n : ServerID} {r : Raft σ}
    (h : World.Reach cl F (fun w a ↦ w.asks Raft.leadsWithExit a = true) w)
    (hr : w.raft? n = some r) (hs : r.state = .leader) (ha : r.run.applying = false)
    (hj : r.jointConfig.isSome = true) :
    ∃ m e, r.applyIndex < m ∧ r.log.get m = some e ∧ e.payload = .configuration .commitJoint := by
  have hsplit (r : Raft σ) (s : Stimulus) (hc : r.leadsWithExit s = true) :
      r.rules s = true ∧ (s.mayLead r = true → r.canExit = true) := by
    obtain ⟨hrules, hexit⟩ := Bool.and_eq_true_iff.mp hc
    exact ⟨hrules, fun hm ↦ by simpa [hm] using hexit⟩
  have hmove (c c' : Core) (inp : Input) (out : List Effect) (hp : Paced c) (hst : c.started = true)
      (hI : c.state = .leader → Exits c)
      (hm : Move withoutRestore (ruling Exits fun _ ↦ True) inp c out c') :
      c'.state = .leader → Exits c' := by
    refine Exits.move ?_ ?_ rfl hI hp hst hm
    · exact fun _ ↦ id
    · exact fun _ _ hreq hO ↦ hO hreq
  obtain ⟨-, hexits⟩ := leader_invariant Exits _ Exits
    (fun c c' hl hr ha hj hexits ↦ hexits.of_eq hl hr ha hj) (fun r s hc ↦ (hsplit r s hc).1)
    (fun r s hc hm ↦ Raft.canExit_core ((hsplit r s hc).2 hm))
    (fun _ _ _ _ _ ↦ trivial) hmove h hr hs
  obtain ⟨m, hm, -, e, he, hp⟩ := hexits.waits hj fun drain k e hrun ↦ by
    rw [show r.run = _ from hrun] at ha
    cases ha
  exact ⟨m, e, hm, he, hp⟩

end Run

section Example

open Action (boot timeout turns)

/-- A is elected, logs that C shall become a server and commits this with B. -/
def jointCommitted : List Action :=
  boot "A" ++ boot "B" ++ timeout "A" 3 ++ [.deliver 0, .reply 0] ++ turns "A" 3 ++
    [.op "A" (.addServer "C" ""), .op "A" (.replicate "B"), .deliver 1, .reply 1,
      .op "A" (.replicate "B"), .deliver 2, .reply 2]

/-- A applies the joint entry and logs the exit. -/
def jointLed : List Action := jointCommitted ++ .op "A" .commitNotify :: turns "A" 10

theorem leader_holdsExit_jointLed : ∃ (w : World (List Bytes)) (r : Raft (List Bytes)),
    World.Reach twoVoters .keeping (fun w a ↦ w.asks Raft.leadsWithExit a = true) w ∧
      w.raft? "A" = some r ∧ r.state = .leader ∧ r.run.applying = false ∧
      r.jointConfig.isSome = true ∧
      ∃ m e, r.applyIndex < m ∧ r.log.get m = some e ∧ e.payload = .configuration .commitJoint := by
  obtain ⟨w, r, hreach, hr, hs, ha, hj⟩ := World.exists_checked_raft twoVoters .keeping
    (·.asks Raft.leadsWithExit) jointLed "A" (fun r ↦ r.state = .leader ∧ r.run.applying = false ∧
      r.jointConfig.isSome = true) (by decide +kernel)
  exact ⟨w, r, hreach, hr, hs, ha, hj, leader_holdsExit hreach hr hs ha hj⟩

/-- B learns of the commit and applies the joint entry before A does; then it is elected. -/
def jointInherited : List Action :=
  jointCommitted ++ [.op "A" (.replicate "B"), .op "A" (.tick 0 0 ["B"]), .op "A" (.replicate "B"),
    .deliver 3, .op "B" .commitNotify] ++ turns "B" 9 ++ timeout "B" 3 ++ [.deliver 4, .reply 4] ++
    turns "B" 3

/-- B leads in joint mode, has applied all that is committed, and no exit is in its log. -/
theorem leader_without_exit : ∃ (w : World (List Bytes)) (r : Raft (List Bytes)),
    World.Reach twoVoters .keeping (fun _ _ ↦ True) w ∧ w.raft? "B" = some r ∧ r.state = .leader ∧
      r.run.applying = false ∧ r.applyIndex = r.commitIndex ∧ r.jointConfig.isSome = true ∧
      ∀ m e, r.log.get m = some e → e.payload ≠ .configuration .commitJoint := by
  obtain ⟨w, r, hw, hr, hs, ha, hk, hj, hlog⟩ := World.exists_reached_raft twoVoters .keeping
    jointInherited "B" (fun r ↦ r.state = .leader ∧ r.run.applying = false ∧
      r.applyIndex = r.commitIndex ∧ r.jointConfig.isSome = true ∧
      ∀ e ∈ r.log.entries, e.payload ≠ .configuration .commitJoint) (by decide +kernel)
  exact ⟨w, r, hw, hr, hs, ha, hk, hj, fun m e he ↦ hlog e (get_mem he)⟩

end Example

end RaftConsensus
