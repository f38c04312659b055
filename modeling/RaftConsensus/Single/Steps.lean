import RaftConsensus.Conditions

namespace RaftConsensus

variable {σ : Type}

inductive Stimulus
  | op (op : Raft.Op)
  | request (req : Request) (rnd : ℕ)
  | reply (id : ServerID) (now : ℤ) (req : Request) (resp : Response)
  | failed (id : ServerID) (req : Request)
deriving DecidableEq

namespace Stimulus

def input : Stimulus → Input
  | op (.readIndex id) => .op id
  | op _ => .op 0
  | request req _ => .request req
  | reply id _ req resp => .reply id req resp 0
  | failed _ _ => .op 0

def mayLead (r : Raft σ) : Stimulus → Bool
  | op o => o.mayLead r
  | request req _ => req = .timeoutNow
  | reply _ _ req _ => req.mayLead r
  | failed _ _ => false

def allowed (R : Rules) : Stimulus → Bool
  | op o => o.allowed R
  | _ => true

def turns : Stimulus → Bool
  | op o => o.turns
  | _ => false

def Contiguous : Stimulus → Prop
  | request req _ => req.Contiguous
  | _ => True

def finds (r : Raft σ) : Stimulus → Bool
  | request _ _ => r.started
  | _ => true

instance (req : Request) : Decidable req.Contiguous := by
  cases req
  case appendEntries req =>
    exact inferInstanceAs (Decidable (Raft.contiguous (req.prevLogIndex + 1) req.entries = true))
  all_goals exact inferInstanceAs (Decidable True)

instance (s : Stimulus) : Decidable s.Contiguous := by
  cases s
  case request req rnd => exact inferInstanceAs (Decidable req.Contiguous)
  all_goals exact inferInstanceAs (Decidable True)

theorem allowed_anyKind (s : Stimulus) : s.allowed anyKind = true := by
  cases s with
  | op o => cases o <;> rfl
  | _ => rfl

end Stimulus

namespace Raft

def take (F : FSM σ) (r : Raft σ) : Stimulus → Option (Raft σ)
  | .op o => r.exec F o
  | .request req rnd => some (r.handle F rnd req).1
  | .reply id now req resp => r.receive id now req resp
  | .failed id req => r.callFailed id req

def rest (r : Raft σ) : Raft σ := { r with outbox := [], journal := [] }

def Next (F : FSM σ) (P : Raft σ → Stimulus → Prop) (r r' : Raft σ) : Prop :=
  ∃ s r₁, P r s ∧ r.take F s = some r₁ ∧ r' = r₁.rest

def Steps (F : FSM σ) (P : Raft σ → Stimulus → Prop) : Raft σ → Raft σ → Prop :=
  Relation.ReflTransGen (Next F P)

variable {F : FSM σ} {R : Rules} {L : Warrant} {r r' : Raft σ} {s : Stimulus}

theorem does_take_of (hop : s.allowed R = true) (hw : s.Contiguous)
    (hL : L.toLicence.Covers (s.mayLead r = true) s.input r.core) (hT : s.turns = true → L.turn)
    (hS : s.mayLead r = true → ∀ now, ({ r.core with clock := now } : Core).Stands L)
    (hO : ∀ req, s.input = .request req → ∀ t c, s.input.Brings t → r.core.Heard t c → L.obey c req)
    (hA : ∀ o, s = .op o → L.Allows F r o) (h : r.take F s = some r') :
    Does R L s.input r r' := by
  cases s with
  | op o =>
    have hin : ∃ k, (Stimulus.op o).input = .op k ∧ o.namedAt k = true := by
      cases o
      case readIndex id => exact ⟨id, rfl, decide_eq_true rfl⟩
      all_goals exact ⟨0, rfl, rfl⟩
    obtain ⟨k, hi, hk⟩ := hin
    exact r.does_exec F hi hk hop hL hT hS (hA o rfl) h
  | request req rnd =>
    simp only [Stimulus.mayLead, decide_eq_true_eq] at hL hS
    cases h
    exact (r.does_handle F rnd rfl hw hL hS (hO req rfl)).1
  | reply id now req resp => exact r.does_receive rfl hL hS h
  | failed id req => exact r.does_callFailed h

theorem does_take (hop : s.allowed R = true) (hw : s.Contiguous)
    (hL : L.toLicence.Covers (s.mayLead r = true) s.input r.core)
    (hS : L.Serves (s.mayLead r = true) s.input r.core)
    (hA : ∀ o, s = .op o → L.Allows F r o) (h : r.take F s = some r') :
    Does R L s.input r r' :=
  does_take_of hop hw hL (fun _ ↦ hS.turn) hS.stand hS.obey hA h

theorem started_take (hw : s.Contiguous) (h : r.take F s = some r') (hst : r.started = true) :
    r'.started = true := by
  have hd : Does anyKind Licence.free.open s.input r r' :=
    does_take s.allowed_anyKind hw (Licence.free_covers _ _ _) (Licence.open_serves _ _ _ _)
      (fun o _ ↦ Licence.open_allows _ F r o) h
  obtain ⟨out, -, hp⟩ := hd.path
  exact hp.started hst

theorem take_fresh {cfg : Config} {n : ServerID} (hf : r.core = .fresh cfg n r.disk)
    (hs : s.finds r = true) (h : r.take F s = some r') :
    (∃ rnd, s = .op (.start rnd) ∧ r' = r.start rnd) ∨
      r'.core = r.core ∧ r'.journal = r.journal := by
  have hstate : r.state = .shutdown := congrArg Core.state hf
  have hrepl : r.inflightReplication = ∅ := congrArg Core.inflightReplication hf
  cases s with
  | op o =>
    refine (exec_fresh F hf h).imp ?_ fun hidle ↦ ⟨hidle.core, hidle.journal⟩
    rintro ⟨rnd, rfl, hr⟩
    exact ⟨rnd, rfl, hr⟩
  | request req rnd =>
    rw [Stimulus.finds, show r.started = false from congrArg Core.started hf] at hs
    cases hs
  | reply id now req resp =>
    refine .inr ?_
    have h : r.receive id now req resp = some r' := h
    unfold receive at h
    split at h
    · cases h
      split
      · simp [sendPreVoteReply, hstate]
      · simp [sendVoteReply, hstate]
    · simp [hrepl] at h
    · simp [hrepl] at h
    · cases h
      exact ⟨rfl, rfl⟩
    · cases h
  | failed id req =>
    refine .inr ?_
    cases req with
    | requestVote req =>
      cases h
      exact ⟨rfl, rfl⟩
    | appendEntries req => simp [take, callFailed, hrepl] at h
    | installSnapshot req => simp [take, callFailed, hrepl] at h
    | timeoutNow =>
      cases h
      exact ⟨rfl, rfl⟩

variable {P : Raft σ → Stimulus → Prop}

theorem Steps.invariant {I : Raft σ → Prop}
    (h : Steps F P r r') (hr : I r)
    (hstep : ∀ r s r', P r s → r.take F s = some r' → I r → I r'.rest) : I r' := by
  induction h with
  | refl => exact hr
  | tail _ hn ih =>
    obtain ⟨s, r₁, hP, ht, rfl⟩ := hn
    exact hstep _ s r₁ hP ht ih

def checkedSteps (F : FSM σ) (p : Raft σ → Stimulus → Bool) :
    Raft σ → List Stimulus → Option (Raft σ) :=
  Script.run (Script.guarded p fun r s ↦ (r.take F s).map rest)

theorem steps_of_checkedSteps {p : Raft σ → Stimulus → Bool}
    (hP : ∀ r s, p r s = true → P r s) {script : List Stimulus}
    (h : r.checkedSteps F p script = some r') : Steps F P r r' := by
  refine Script.reflTransGen (fun r s r' hs ↦ ?_) h
  obtain ⟨hp, hs⟩ := Script.of_guarded hs
  obtain ⟨r₁, ht, rfl⟩ := Option.map_eq_some_iff.mp hs
  exact ⟨s, r₁, hP r s hp, ht, rfl⟩

end Raft

namespace World

variable {cl : Cluster} {F : FSM σ} {w w' : World σ} {t : Trigger}

def stimulus (w : World σ) : Trigger → Option (Raft σ × Stimulus)
  | .op n o => (w.raft? n).map fun r ↦ (r, .op o)
  | .deliver i rnd => w.net[i]?.bind fun p ↦ (w.raft? p.dst).map fun r ↦ (r, .request p.req rnd)
  | .reply j now => w.replies[j]?.bind fun a ↦ w.net[a.call]?.bind fun p ↦
      (w.raft? p.src).map fun r ↦ (r, .reply p.dst now p.req a.resp)
  | .fail i => w.net[i]?.bind fun p ↦ (w.raft? p.src).map fun r ↦ (r, .failed p.dst p.req)

def asks (w : World σ) (cond : Raft σ → Stimulus → Bool) : Action → Bool
  | .run t _ => (w.stimulus t).all fun x ↦ cond x.1 x.2
  | _ => true

theorem raft?_of_hosts {n : ServerID} {r : Raft σ} {calls : List ℕ} (h : w.hosts n = .up r calls) :
    w.raft? n = some r := by
  simp only [raft?, h]

theorem fire_take {n : ServerID} {r' : Raft σ} {calls' : List ℕ} {reply : Option Reply}
    (h : w.fire F t = some (n, r', calls', reply)) :
    ∃ r s, w.raft? n = some r ∧ w.stimulus t = some (r, s) ∧ r.take F s = some r' := by
  obtain ⟨r, calls, hf⟩ := fires_of_fire h
  have hr := raft?_of_hosts hf.hosts
  cases hf with
  | @op _ o _ _ _ _ _ hx => exact ⟨r, .op o, hr, by simp [stimulus, hr], hx⟩
  | @deliver _ rnd p _ _ hp _ => exact ⟨r, .request p.req rnd, hr, by simp [stimulus, hp, hr], rfl⟩
  | @reply _ now a p _ _ _ ha hp _ _ hx =>
    exact ⟨r, .reply p.dst now p.req a.resp, hr, by simp [stimulus, ha, hp, hr], hx⟩
  | @fail _ p _ _ _ hp _ _ hx => exact ⟨r, .failed p.dst p.req, hr, by simp [stimulus, hp, hr], hx⟩

inductive Brings (w : World σ) : Trigger → Raft σ → Stimulus → Prop
  | op {n : ServerID} {o : Raft.Op} {r : Raft σ} (hr : w.raft? n = some r) :
      Brings w (.op n o) r (.op o)
  | request {i rnd : ℕ} {p : Packet} {r : Raft σ} (hp : w.net[i]? = some p)
      (hr : w.raft? p.dst = some r) : Brings w (.deliver i rnd) r (.request p.req rnd)
  | reply {j : ℕ} {now : ℤ} {a : Reply} {p : Packet} {r : Raft σ} (ha : w.replies[j]? = some a)
      (hp : w.net[a.call]? = some p) (hr : w.raft? p.src = some r) :
      Brings w (.reply j now) r (.reply p.dst now p.req a.resp)
  | failed {i : ℕ} {p : Packet} {r : Raft σ} (hp : w.net[i]? = some p)
      (hr : w.raft? p.src = some r) : Brings w (.fail i) r (.failed p.dst p.req)

theorem brings_of_stimulus {r : Raft σ} {s : Stimulus} (h : w.stimulus t = some (r, s)) :
    Brings w t r s := by
  cases t with
  | op n o =>
    obtain ⟨r, hr, heq⟩ := Option.map_eq_some_iff.mp h
    cases heq
    exact .op hr
  | deliver i rnd =>
    obtain ⟨p, hp, h⟩ := Option.bind_eq_some_iff.mp h
    obtain ⟨r, hr, heq⟩ := Option.map_eq_some_iff.mp h
    cases heq
    exact .request hp hr
  | reply j now =>
    obtain ⟨a, ha, h⟩ := Option.bind_eq_some_iff.mp h
    obtain ⟨p, hp, h⟩ := Option.bind_eq_some_iff.mp h
    obtain ⟨r, hr, heq⟩ := Option.map_eq_some_iff.mp h
    cases heq
    exact .reply ha hp hr
  | fail i =>
    obtain ⟨p, hp, h⟩ := Option.bind_eq_some_iff.mp h
    obtain ⟨r, hr, heq⟩ := Option.map_eq_some_iff.mp h
    cases heq
    exact .failed hp hr

theorem stimulus_contiguous {r : Raft σ} {s : Stimulus} (hw : ∀ p ∈ w.net, p.req.Contiguous)
    (h : w.stimulus t = some (r, s)) : s.Contiguous := by
  cases brings_of_stimulus h with
  | @request _ _ p _ hp _ => exact hw p (List.mem_of_getElem? hp)
  | _ => trivial

theorem raft?_setHost (w : World σ) (n m : ServerID) (h : Host σ) :
    (w.setHost n h).raft? m = if m = n then
      match h with
      | .down _ => none
      | .up r _ => some r
    else w.raft? m := by
  by_cases hm : m = n
  · subst hm
    rw [if_pos rfl]
    cases h <;> simp only [raft?, setHost, Function.update_self]
  · simp only [raft?, setHost, Function.update_of_ne hm, if_neg hm]

variable {cond : Raft σ → Stimulus → Bool} {m : ServerID}

theorem run_raft? (h : w.step cl F (.run t none) = some w') {r' : Raft σ}
    (hm : w'.raft? m = some r') : w.raft? m = some r' ∨
      ∃ r s r₁, w.raft? m = some r ∧ w.stimulus t = some (r, s) ∧ r.take F s = some r₁ ∧
        r' = r₁.rest := by
  cases goes_of_step h with
  | @run _ n r₁ calls reply hf =>
    obtain ⟨r, s, hr, hs, ht⟩ := fire_take hf
    have hm : (w.settle n r₁ calls).raft? m = some r' := hm
    rw [settle, raft?_setHost] at hm
    split at hm
    · rename_i heq
      subst heq
      cases hm
      exact .inr ⟨r, s, r₁, hr, hs, ht, rfl⟩
    · exact .inl hm

/-- How a step of the world changes the objects that run: one is created from a disk, one is
lost, or one takes a stimulus. -/
theorem step_raft? {a : Action} (h : w.step cl F a = some w') {r' : Raft σ}
    (hm : w'.raft? m = some r') : w.raft? m = some r' ∨
      (∃ cfg d, cl.config m = some cfg ∧ Raft.newRaft F cfg m d = some r') ∨
      ∃ t k r s r₁, a = .run t k ∧ w.raft? m = some r ∧ w.stimulus t = some (r, s) ∧
        r.take F s = some r₁ ∧ r' = r₁.rest := by
  have hlost {w : World σ} {n : ServerID} {d : Disk}
      (hm : (w.setHost n (.down d)).raft? m = some r') : w.raft? m = some r' := by
    rw [raft?_setHost] at hm
    split at hm
    · cases hm
    · exact hm
  cases goes_of_step h with
  | @create n c d r hd hc hr =>
    rw [raft?_setHost] at hm
    split at hm
    · rename_i heq
      subst heq
      cases hm
      exact .inr (.inl ⟨c, d, hc, hr⟩)
    · exact .inl hm
  | crash hh => exact .inl (hlost hm)
  | run hf =>
    rcases run_raft? h hm with hm | ⟨r, s, r₁, hr, hs, ht, heq⟩
    · exact .inl hm
    · exact .inr (.inr ⟨_, none, r, s, r₁, rfl, hr, hs, ht, heq⟩)
  | torn hf hd => exact .inl (hlost hm)

theorem Reach.wired {P : World σ → Action → Prop} (h : Reach cl F P w) :
    ∀ p ∈ w.net, p.req.Contiguous := by
  have hfree (w : World σ) (a : Action) (_ : P w a) : w.Permits anyKind .free a :=
    permits_free (w.within_anyKind a)
  exact (steps_micros hfree tidy_init (Nat.zero_le _) h).2.wired

/-- What every new object meets, and every step of a node keeps, holds of every node of every
world that is reached. -/
theorem Reach.each {J : Raft σ → Prop}
    (hnew : ∀ cfg n d r, Raft.newRaft F cfg n d = some r → J r)
    (htake : ∀ r s r', cond r s = true → s.Contiguous → r.take F s = some r' → J r → J r'.rest)
    (h : Reach cl F (fun w a ↦ w.asks cond a = true) w) {n : ServerID} {r : Raft σ}
    (hr : w.raft? n = some r) : J r := by
  induction h generalizing n r with
  | refl => cases hr
  | @tail w₁ w₂ hw hs ih =>
    obtain ⟨a, ha, hstep⟩ := hs
    rcases step_raft? hstep hr with
      hr | ⟨cfg, d, -, hnewr⟩ | ⟨t, k, r₀, s, r₁, rfl, hr₀, hst, ht, rfl⟩
    · exact ih hr
    · exact hnew cfg n d r hnewr
    · have hc : cond r₀ s = true := by simpa [asks, hst] using ha
      exact htake r₀ s r₁ hc (stimulus_contiguous (Reach.wired hw) hst) ht (ih hr₀)

/-- The same for started nodes, when no request finds another one. -/
theorem Reach.started {I : Core → Prop}
    (hfinds : ∀ r s, cond r s = true → s.finds r = true)
    (hboot : ∀ cfg n d state lastTerm, state = .follower ∨ state = .learner →
      I ((Core.fresh cfg n d).boot state lastTerm))
    (hstep : ∀ r s r', cond r s = true → s.Contiguous → r.started = true → r.take F s = some r' →
      I r.core → I r'.core)
    (h : Reach cl F (fun w a ↦ w.asks cond a = true) w) {n : ServerID} {r : Raft σ}
    (hr : w.raft? n = some r) :
    r.started = true ∧ I r.core ∨ ∃ cfg n, r.core = .fresh cfg n r.disk := by
  refine Reach.each (J := fun r ↦ r.started = true ∧ I r.core ∨
    ∃ cfg n, r.core = .fresh cfg n r.disk) (fun cfg n d r hnew ↦ ?_)
    (fun r s r' hc hw ht hJ ↦ ?_) h hr
  · obtain ⟨c', -, rfl⟩ := Option.map_eq_some_iff.mp hnew
    exact .inr ⟨c', n, rfl⟩
  · rcases hJ with ⟨hst, hI⟩ | ⟨cfg, n, hf⟩
    · have hst' : r'.started = true := Raft.started_take hw ht hst
      exact .inl ⟨hst', hstep r s r' hc hw hst ht hI⟩
    · rcases Raft.take_fresh hf (hfinds r s hc) ht with ⟨rnd, -, rfl⟩ | ⟨hcore, -⟩
      · obtain ⟨lastTerm, hcore, -⟩ := r.start_spec rnd (congrArg Core.state hf)
        refine .inl ⟨congrArg Core.started hcore, ?_⟩
        rw [show (r.start rnd).rest.core = (r.start rnd).core from rfl, hcore, hf]
        refine hboot cfg n _ _ _ ?_
        split
        · exact .inr rfl
        · exact .inl rfl
      · refine .inr ⟨cfg, n, hcore.trans (hf.trans ?_)⟩
        rw [show r'.rest.disk = r.disk from congrArg Core.disk hcore]

end World

end RaftConsensus
