import RaftConsensus.Single.Commit

namespace RaftConsensus

open LogStore

variable {σ : Type} {F : FSM σ} {R : Rules} {L : Warrant} {inp : Input} {c c' : Core}
  {out : List Effect}

namespace Core

def Holds (c : Core) (i : ℕ) (data : ConfigurationData) : Prop :=
  ∃ e, c.log.get i = some e ∧ e.payload = .configuration data

variable {data : ConfigurationData} {i : ℕ}

theorem Holds.of_append {e : LogEntry}
    (hg : c'.log = c.log.append e) (h : c'.Holds i data) :
    c.Holds i data ∨ i = e.index ∧ e.payload = .configuration data := by
  obtain ⟨x, hx, hp⟩ := h
  rw [hg] at hx
  have hi := get_index hx
  rcases get_append_cases hx with hx | rfl
  · exact .inl ⟨x, hx, hp⟩
  · exact .inr ⟨hi.symm, hp⟩

theorem Holds.append {e : LogEntry} (h : c.Holds i data)
    (hg : c'.log = c.log.append e) (hne : i ≠ e.index) : c'.Holds i data := by
  obtain ⟨x, hx, hp⟩ := h
  refine ⟨x, ?_, hp⟩
  rw [hg, LogStore.get_append _ _ _ (get_pos hx), if_neg hne]
  exact hx

theorem progress_turn {pc : RunPC} (h : Paced c) (hR : R.restore = false) (hturn : Turn R L c pc)
    (hs : c.state ≠ .shutdown) : c.progress ≤ ({ c with run := pc } : Core).progress := by
  have hend (drain : Bool) : ({ c with run := .endOf drain } : Core).progress = c.applyIndex := by
    cases drain <;> rfl
  cases hturn with
  | @entry drain k a e hr ha he =>
    have hi := get_index he
    simp only [progress, hr]
    omega
  | done hr ha =>
    rw [hend]
    simp only [progress, hr]
    exact h.loop _ _ _ hr
  | ran hr hran =>
    simp only [progress, hr]
    exact Nat.sub_le _ _
  | panicked hr hs' => exact absurd hs' hs
  | halted hr =>
    rw [hend]
    simp only [progress, hr]
    exact le_rfl
  | @snapshotting k pc hr hp =>
    have h₁ : c.progress = c.applyIndex := by
      unfold progress
      split <;> simp_all [RunPC.snapshot?]
    have h₂ : ({ c with run := pc } : Core).progress = c.applyIndex := by
      unfold progress
      split <;> simp_all [RunPC.snapshot?]
    rw [h₁, h₂]
  | @snapshotted k hr =>
    have h₁ : c.progress = c.applyIndex := by
      unfold progress
      split <;> simp_all [RunPC.snapshot?]
    rw [h₁]
    rfl
  | restoring future hr hR' =>
    rw [hR] at hR'
    cases hR'
  | restored hr => exact absurd hr (h.calm _)
  | begin drain hr | flush hr | flushed hr | loop hr | next hr ha | checked hr | stopped hr | off hr
  | snapshot config data hr hR =>
    simp only [progress, hr]
    exact le_rfl

theorem progress_afterConfiguration (c : Core) (drain : Bool) (k : ℕ) (e : LogEntry)
    (data : ConfigurationData) (h : c'.run = c.afterConfiguration drain k e data) :
    c'.progress = e.index := by
  unfold afterConfiguration at h
  split at h <;> simp only [progress, h]

def Waits (c : Core) (i : ℕ) (data : ConfigurationData) : Prop := c.progress < i ∧ c.Holds i data

end Core

theorem Paced.get_append (h : Paced c) {e x : LogEntry} (hi : e.index = c.lastIndex + 1)
    (hx : c.log.get x.index = some x) : (c.log.append e).get x.index = some x := by
  have hle := h.log _ x hx
  rw [LogStore.get_append _ _ _ (get_pos hx), if_neg (by omega)]
  exact hx

/-- What is asked of a node that is about to lead, and of a leader that is about to log a
membership change; and a leader takes no entries or snapshot of its own term. -/
def ruling (lead change : Core → Prop) : Warrant :=
  { keepingCommit.open with
    lead := lead
    obey := fun c req ↦ req.fromLeader = true → c.state ≠ .leader
    change := change }

namespace Raft

def rivals (r : Raft σ) : Stimulus → Bool
  | .request (.appendEntries req) _ => r.state = .leader && req.term = r.term
  | .request (.installSnapshot req) _ => r.state = .leader && req.term = r.term
  | _ => false

def rules (r : Raft σ) (s : Stimulus) : Bool := r.keepsCommit s && !r.rivals s

variable {r r' : Raft σ} {s : Stimulus} {lead change : Core → Prop}

theorem not_leader_of_heard (h : r.rivals s = false) {req : Request} {t : ℕ}
    (hi : s.input = .request req) (hreq : req.fromLeader = true) (hb : s.input.Brings t)
    (hh : r.core.Heard t c') : c'.state ≠ .leader := by
  intro hs
  obtain ⟨-, ⟨-, hf, -⟩ | ⟨ht, -, hsame⟩⟩ := hh
  · rw [hs] at hf
    cases hf
  · have hl : r.state = .leader := by
      rcases hsame with hsame | ⟨-, hf⟩
      · exact hsame.symm.trans hs
      · rw [hs] at hf
        cases hf
    cases s with
    | request req' rnd =>
      cases hi
      cases req with
      | appendEntries req | installSnapshot req =>
        have hterm : req.term = r.term := hb.trans ht.symm
        simp [rivals, hl, hterm] at h
      | _ => cases hreq
    | op o => cases o <;> cases hi
    | reply => cases hi
    | failed => cases hi

/-- Under the rules a step is made of moves that the warrant covers. -/
theorem does_ruling (hsame : ∀ c c' : Core, c'.log = c.log → c'.run = c.run →
      c'.applyIndex = c.applyIndex → c'.jointConfig = c.jointConfig → lead c → lead c')
    (hc : r.rules s = true) (hlead : s.mayLead r = true → lead r.core)
    (hchange : ∀ o, s = .op o → o.changes = true → r.configChangePending = false → change r.core)
    (hw : s.Contiguous) (ht : r.take F s = some r') :
    Does withoutRestore (ruling lead change) s.input r r' := by
  obtain ⟨hk, hriv⟩ := Bool.and_eq_true_iff.mp hc
  have hriv : r.rivals s = false := by simpa using hriv
  refine does_take (keepsCommit_allowed hk) hw ?_ ?_ (fun o ho ↦ ?_) ht
  · refine ⟨fun hm now _ ↦ hsame r.core _ rfl rfl rfl rfl (hlead hm),
      fun hm id _ _ _ ↦ hsame r.core _ rfl rfl rfl rfl (hlead hm), fun req hi c' hk' ↦ ?_,
      fun _ _ _ _ _ _ _ ↦ trivial⟩
    have hf := keepsCommit_follows hk hi
    rw [← show c'.commitIndex = r.commitIndex from hk'] at hf
    exact hf
  · exact ⟨trivial, fun _ _ ↦ ⟨trivial, trivial⟩,
      fun req hi t c' hb hh hreq ↦ not_leader_of_heard hriv hi hreq hb hh⟩
  · exact ⟨hchange o ho, fun _ _ _ _ ↦ trivial, fun _ _ _ _ _ ↦ trivial, fun _ _ _ ↦ trivial,
      fun _ _ _ _ _ _ _ _ _ ↦ trivial, fun _ _ _ _ _ _ _ _ _ ↦ trivial, fun _ _ _ ↦ trivial⟩

end Raft

/-- What a node has when it is about to lead, and what the moves of a leader keep, holds of
every leader in every run whose steps meet the rules. -/
theorem leader_invariant (lead change I : Core → Prop) {cond : Raft σ → Stimulus → Bool}
    {cl : Cluster} {w : World σ} {n : ServerID} {r : Raft σ}
    (hsame : ∀ c c' : Core, c'.log = c.log → c'.run = c.run → c'.applyIndex = c.applyIndex →
      c'.jointConfig = c.jointConfig → lead c → lead c')
    (hrules : ∀ r s, cond r s = true → r.rules s = true)
    (hlead : ∀ r s, cond r s = true → s.mayLead r = true → lead r.core)
    (hchange : ∀ r o, cond r (.op o) = true → o.changes = true → r.configChangePending = false →
      change r.core)
    (hmove : ∀ c c' inp out, Paced c → c.started = true → (c.state = .leader → I c) →
      Move withoutRestore (ruling lead change) inp c out c' → c'.state = .leader → I c')
    (h : World.Reach cl F (fun w a ↦ w.asks cond a = true) w) (hr : w.raft? n = some r)
    (hs : r.state = .leader) : Paced r.core ∧ I r.core := by
  have hkeeps (r : Raft σ) (s : Stimulus) (hc : cond r s = true) : r.keepsCommit s = true :=
    (Bool.and_eq_true_iff.mp (hrules r s hc)).1
  have hpath (c c' : Core) (inp : Input) (out : List Effect)
      (hp : Path withoutRestore (ruling lead change) inp c out c') (hst : c.started = true)
      (hI : Paced c ∧ (c.state = .leader → I c)) : Paced c' ∧ (c'.state = .leader → I c') := by
    induction hp with
    | refl => exact hI
    | tail hp hm ih =>
      have hst' := hp.started hst
      exact ⟨(ih.1.move (fun _ _ ↦ id) rfl hst' hm).2, hmove _ _ _ _ ih.1 hst' ih.2 hm⟩
  have hboot (cfg : Config) (n : ServerID) (d : Disk) (state : RaftState) (lastTerm : ℕ)
      (hst : state = .follower ∨ state = .learner) :
      Paced ((Core.fresh cfg n d).boot state lastTerm) ∧
        (((Core.fresh cfg n d).boot state lastTerm).state = .leader →
          I ((Core.fresh cfg n d).boot state lastTerm)) := by
    refine ⟨Paced.boot cfg n d state lastTerm, fun hl ↦ ?_⟩
    rw [show ((Core.fresh cfg n d).boot state lastTerm).state = state from rfl] at hl
    rcases hst with rfl | rfl <;> cases hl
  have hstep (r : Raft σ) (s : Stimulus) (r' : Raft σ) (hc : cond r s = true) (hw : s.Contiguous)
      (hst : r.started = true) (ht : r.take F s = some r')
      (hI : Paced r.core ∧ (r.core.state = .leader → I r.core)) :
      Paced r'.core ∧ (r'.core.state = .leader → I r'.core) := by
    have hd := Raft.does_ruling hsame (hrules r s hc) (hlead r s hc)
      (fun o ho ↦ hchange r o (ho ▸ hc)) hw ht
    obtain ⟨out, -, hp⟩ := hd.path
    exact hpath _ _ _ _ hp hst hI
  rcases World.Reach.started (I := fun c ↦ Paced c ∧ (c.state = .leader → I c))
      (fun r s hc ↦ Raft.keepsCommit_finds (hkeeps r s hc)) hboot hstep h hr
    with ⟨-, hp, hI⟩ | ⟨_, _, hf⟩
  · exact ⟨hp, hI hs⟩
  · rw [show r.state = .shutdown from congrArg Core.state hf] at hs
    cases hs

end RaftConsensus
