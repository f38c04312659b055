import RaftConsensus.Scheme

namespace RaftConsensus

variable {σ : Type}

def Input.isReply : Input → Bool
  | .reply _ _ _ _ => true
  | _ => false

def Raft.mayLead (r : Raft σ) : Trigger → Input → Bool
  | .op _ op, _ => op.mayLead r
  | _, .request req => req = .timeoutNow
  | _, .reply _ req _ _ => req.mayLead r
  | _, _ => false

namespace World

def raft? (w : World σ) (n : ServerID) : Option (Raft σ) :=
  match w.hosts n with
  | .down _ => none
  | .up r _ => some r

def takes (w : World σ) : Trigger → Option (Raft σ × Input)
  | .op n _ =>
    match w.hosts n with
    | .down _ => none
    | .up r _ => some (r, .op w.history.length)
  | .deliver i _ =>
    match w.net[i]? with
    | none => none
    | some p =>
      match w.hosts p.dst with
      | .down _ => none
      | .up r _ => some (r, .request p.req)
  | .reply j _ =>
    match w.replies[j]? with
    | none => none
    | some a =>
      match w.net[a.call]? with
      | none => none
      | some p =>
        match w.hosts p.src with
        | .down _ => none
        | .up r _ => some (r, .reply p.dst p.req a.resp a.stamp)
  | .fail _ => none

def checks (w : World σ) (cond : Raft σ → Trigger → Input → Bool) : Action → Bool
  | .run t _ => (w.takes t).all fun x ↦ cond x.1 t x.2
  | _ => true

def within (w : World σ) (R : Rules) : Action → Bool
  | .run (.op _ op) _ => op.allowed R
  | .run (.deliver i rnd) _ => (w.takes (.deliver i rnd)).all fun x ↦ x.1.started || R.early
  | _ => true

def admits (w : World σ) (R : Rules) (cond : Raft σ → Trigger → Input → Bool) (a : Action) : Bool :=
  w.within R a && w.checks cond a

variable {w w' : World σ} {cl : Cluster} {F : FSM σ} {R : Rules} {L : Licence} {a : Action}

theorem hosts_of_raft? {n : ServerID} {r : Raft σ} (h : w.raft? n = some r) :
    ∃ calls, w.hosts n = .up r calls := by
  unfold raft? at h
  split at h <;> cases h
  exact ⟨_, ‹_›⟩

theorem hosts_of_takes {t : Trigger} {r : Raft σ} {inp : Input} (h : w.takes t = some (r, inp)) :
    ∃ n calls, w.hosts n = .up r calls := by
  cases t with
  | op n op =>
    simp only [takes] at h
    split at h <;> cases h
    exact ⟨_, _, ‹_›⟩
  | deliver i rnd =>
    simp only [takes] at h
    split at h
    · cases h
    · split at h <;> cases h
      exact ⟨_, _, ‹_›⟩
  | reply j now =>
    simp only [takes] at h
    split at h
    · cases h
    · split at h
      · cases h
      · split at h <;> cases h
        exact ⟨_, _, ‹_›⟩
  | fail i => cases h

theorem permits_of {cond : Raft σ → Trigger → Input → Bool} (ha : w.admits R cond a = true)
    (h : ∀ r t inp, w.takes t = some (r, inp) → cond r t inp = true →
      (∀ req, inp = .request req → r.started = true ∨ R.early = true) →
      L.Covers (r.mayLead t inp = true) inp r.core) : w.Permits R L a := by
  obtain ⟨hR, hc⟩ := Bool.and_eq_true_iff.mp ha
  cases a with
  | create n => trivial
  | crash n => trivial
  | run t k =>
    cases t with
    | op n op =>
      refine ⟨hR, fun r calls hh ↦ ?_⟩
      have ht : w.takes (.op n op) = some (r, .op w.history.length) := by simp only [takes, hh]
      rw [checks, ht] at hc
      exact h r _ _ ht hc nofun
    | deliver i rnd =>
      intro p r calls hp hh
      have ht : w.takes (.deliver i rnd) = some (r, .request p.req) := by simp only [takes, hp, hh]
      rw [checks, ht] at hc
      simp only [within, ht, Option.all_some, Bool.or_eq_true] at hR
      have hcov := h r _ _ ht hc fun _ _ ↦ hR
      simp only [Raft.mayLead, decide_eq_true_eq] at hcov
      exact ⟨hR, hcov⟩
    | reply j now =>
      intro b p r calls hb hp hh
      have ht : w.takes (.reply j now) = some (r, .reply p.dst p.req b.resp b.stamp) := by
        simp only [takes, hb, hp, hh]
      rw [checks, ht] at hc
      exact h r _ _ ht hc nofun
    | fail i => trivial

/-- What holds in every state reached may be assumed of the states in which steps begin. -/
theorem Steps.and_invariant {P : World σ → Action → Prop} {Q : World σ → Prop}
    (hQ : ∀ w₁, Steps cl F P w w₁ → Q w₁) (h : Steps cl F P w w') :
    Steps cl F (fun w a ↦ P w a ∧ Q w) w w' := by
  induction h with
  | refl => exact .refl
  | @tail w₁ w₂ hw hs ih =>
    obtain ⟨a, hP, hstep⟩ := hs
    exact ih.tail ⟨a, ⟨hP, hQ w₁ hw⟩, hstep⟩

def checkedSteps (cl : Cluster) (F : FSM σ) (p : World σ → Action → Bool) :
    World σ → List Action → Option (World σ) :=
  Script.run (Script.guarded p (step cl F))

theorem steps_of_checkedSteps {p : World σ → Action → Bool} {acts : List Action}
    (h : w.checkedSteps cl F p acts = some w') : Steps cl F (fun w a ↦ p w a = true) w w' :=
  Script.reflTransGen (fun _ a _ hs ↦ ⟨a, Script.of_guarded hs⟩) h

theorem steps_of_steps {acts : List Action} (h : w.steps cl F acts = some w') :
    Steps cl F (fun _ _ ↦ True) w w' :=
  Script.reflTransGen (fun _ a _ hs ↦ ⟨a, trivial, hs⟩) h

/-- What a script that keeps to `p` arrives at is reached under `p`. -/
theorem exists_checked (cl : Cluster) (F : FSM σ) (p : World σ → Action → Bool)
    (acts : List Action) (P : World σ → Prop) [DecidablePred P]
    (h : (init.checkedSteps cl F p acts).any (fun w ↦ P w) = true) :
    ∃ w, Reach cl F (fun w a ↦ p w a = true) w ∧ P w := by
  obtain ⟨w, hw, hP⟩ := (Option.any_eq_true _ _).mp h
  exact ⟨w, steps_of_checkedSteps hw, of_decide_eq_true hP⟩

theorem exists_reached (cl : Cluster) (F : FSM σ) (acts : List Action) (P : World σ → Prop)
    [DecidablePred P] (h : (init.steps cl F acts).any (fun w ↦ P w) = true) :
    ∃ w, Reach cl F (fun _ _ ↦ True) w ∧ P w := by
  obtain ⟨w, hw, hP⟩ := (Option.any_eq_true _ _).mp h
  exact ⟨w, steps_of_steps hw, of_decide_eq_true hP⟩

/-- The same for what holds of a running node. -/
theorem exists_checked_raft (cl : Cluster) (F : FSM σ) (p : World σ → Action → Bool)
    (acts : List Action) (n : ServerID) (P : Raft σ → Prop) [DecidablePred P]
    (h : (init.checkedSteps cl F p acts).any (fun w ↦ (w.raft? n).any fun r ↦ P r) = true) :
    ∃ w r, Reach cl F (fun w a ↦ p w a = true) w ∧ w.raft? n = some r ∧ P r := by
  obtain ⟨w, hw, h⟩ := (Option.any_eq_true _ _).mp h
  obtain ⟨r, hr, hP⟩ := (Option.any_eq_true _ _).mp h
  exact ⟨w, r, steps_of_checkedSteps hw, hr, of_decide_eq_true hP⟩

theorem exists_reached_raft (cl : Cluster) (F : FSM σ) (acts : List Action) (n : ServerID)
    (P : Raft σ → Prop) [DecidablePred P]
    (h : (init.steps cl F acts).any (fun w ↦ (w.raft? n).any fun r ↦ P r) = true) :
    ∃ w r, Reach cl F (fun _ _ ↦ True) w ∧ w.raft? n = some r ∧ P r := by
  obtain ⟨w, hw, h⟩ := (Option.any_eq_true _ _).mp h
  obtain ⟨r, hr, hP⟩ := (Option.any_eq_true _ _).mp h
  exact ⟨w, r, steps_of_steps hw, hr, of_decide_eq_true hP⟩

end World

def anyKind : Rules := ⟨true, true, true, true⟩

theorem World.within_anyKind (w : World σ) (a : Action) : w.within anyKind a = true := by
  cases a with
  | create => rfl
  | crash => rfl
  | run t k =>
    cases t with
    | op n op => cases op <;> rfl
    | deliver i rnd => simp [World.within, anyKind]
    | reply => rfl
    | fail => rfl

def Licence.free : Licence := ⟨fun _ ↦ True, fun _ _ ↦ True, fun _ _ _ ↦ True⟩

theorem Licence.free_covers (may : Prop) (inp : Input) (c : Core) : Licence.free.Covers may inp c :=
  ⟨fun _ _ _ ↦ trivial, fun _ _ _ _ _ ↦ trivial, fun _ _ _ _ ↦ trivial, fun _ _ _ _ _ _ _ ↦ trivial⟩

theorem World.admits_of_within {w : World σ} {R : Rules} {a : Action} (h : w.within R a = true) :
    w.admits R (fun _ _ _ ↦ true) a = true := by
  refine Bool.and_eq_true_iff.mpr ⟨h, ?_⟩
  cases a with
  | run t k => simp [checks]
  | _ => rfl

theorem World.permits_free {w : World σ} {R : Rules} {a : Action} (h : w.within R a = true) :
    w.Permits R .free a :=
  permits_of (admits_of_within h) fun _ _ _ _ _ _ ↦ Licence.free_covers _ _ _

def Cluster.ofList (l : List Config) : Cluster where
  config n := l.find? (fun c ↦ c.localID = n)
  localID_eq n c h := by simpa using List.find?_some h

/-- The least settings that pass `validate`: an election timeout of three ticks and one
entry per request. -/
def Config.least (localID : ServerID) (initial : Configuration) : Config where
  localID := localID
  electionTick := 3
  heartbeatTick := 1
  maxSizePerMsg := 1
  maxInflight := 4
  snapshotInterval := 0
  snapshotThreshold := 0
  trailingLogs := 0
  fsyncInterval := 0
  preVote := false
  checkQuorum := false
  leaseReads := false
  maxClockDrift := 0
  initialConfiguration := initial
  startAsLearner := false

def FSM.keeping : FSM (List Bytes) where
  init := []
  apply s d := (s ++ [d], .ok [])
  snapshot s := some s.flatten
  restore d := some [d]

def Configuration.ofVoters (ids : List ServerID) : Configuration := ⟨ids.map (⟨·, "", false⟩)⟩

namespace Action

def op (n : ServerID) (o : Raft.Op) : Action := .run (.op n o) none

def deliver (i : ℕ) : Action := .run (.deliver i 0) none

def reply (j : ℕ) : Action := .run (.reply j 0) none

def boot (n : ServerID) : List Action := [.create n, .op n (.start 0)]

/-- `k` steps of the `run` goroutine. From one `select` to the next it takes three, and three
more for every entry that is applied. -/
def turns (n : ServerID) (k : ℕ) : List Action := List.replicate k (.op n (.runStep 0))

def timeout (n : ServerID) (k : ℕ) : List Action :=
  let tick := Action.op n (.tick 0 0 [])
  tick :: turns n k ++ tick :: turns n 3 ++ [tick]

end Action

def ab : Configuration := .ofVoters ["A", "B"]

def twoVoters : Cluster := .ofList [.least "A" ab, .least "B" ab]

def abc : Configuration := .ofVoters ["A", "B", "C"]

def threeVoters : Cluster := .ofList [.least "A" abc, .least "B" abc, .least "C" abc]

open Action in
/-- All three start, and A is elected with the vote of B. -/
def electA : List Action :=
  boot "A" ++ boot "B" ++ boot "C" ++ timeout "A" 3 ++ [.deliver 0, .reply 0]

end RaftConsensus
