import RaftConsensus.Single.Steps

/-! Runs of a world next to which a record is kept. -/

namespace RaftConsensus

namespace World

variable {σ γ : Type} {cl : Cluster} {F : FSM σ} {w w' : World σ}

section Stimuli

variable {t : Trigger} {r : Raft σ}

theorem op_of_stimulus {o : Raft.Op} (h : w.stimulus t = some (r, .op o)) :
    ∃ m, t = .op m o ∧ w.raft? m = some r := by
  cases brings_of_stimulus h with
  | op hr => exact ⟨_, rfl, hr⟩

theorem request_of_stimulus {req : Request} {rnd : ℕ}
    (h : w.stimulus t = some (r, .request req rnd)) :
    ∃ i p, t = .deliver i rnd ∧ w.net[i]? = some p ∧ w.raft? p.dst = some r ∧ p.req = req := by
  cases brings_of_stimulus h with
  | request hp hr => exact ⟨_, _, rfl, hp, hr, rfl⟩

theorem reply_of_stimulus {id : ServerID} {now : ℤ} {req : Request} {resp : Response}
    (h : w.stimulus t = some (r, .reply id now req resp)) :
    ∃ j a p, t = .reply j now ∧ w.replies[j]? = some a ∧ w.net[a.call]? = some p ∧
      w.raft? p.src = some r ∧ p.dst = id ∧ p.req = req ∧ a.resp = resp := by
  cases brings_of_stimulus h with
  | reply ha hp hr => exact ⟨_, _, _, rfl, ha, hp, hr, rfl, rfl, rfl⟩

end Stimuli

theorem Reach.tidy {P : World σ → Action → Prop} (h : Reach cl F P w) : w.Tidy cl anyKind := by
  have hfree (w : World σ) (a : Action) (_ : P w a) : w.Permits anyKind .free a :=
    permits_free (w.within_anyKind a)
  exact (steps_micros hfree tidy_init (Nat.zero_le _) h).2

theorem Reach.outbox {P : World σ → Action → Prop} (h : Reach cl F P w) {n : ServerID} {r : Raft σ}
    (hr : w.raft? n = some r) : r.outbox = [] := by
  obtain ⟨calls, hh⟩ := hosts_of_raft? hr
  exact (h.tidy.clear n r calls hh).1

theorem Reach.journal {P : World σ → Action → Prop} (h : Reach cl F P w) {n : ServerID} {r : Raft σ}
    (hr : w.raft? n = some r) : r.journal = [] := by
  obtain ⟨calls, hh⟩ := hosts_of_raft? hr
  exact (h.tidy.clear n r calls hh).2

/-- The worlds with their records that are reached by steps that meet `P`. -/
inductive Recorded (cl : Cluster) (F : FSM σ) (next : World σ → Action → World σ → γ → γ)
    (start : γ) (P : World σ → γ → Action → Prop) : World σ → γ → Prop
  | init : Recorded cl F next start P .init start
  | step {w w' : World σ} {g : γ} {a : Action} (h : Recorded cl F next start P w g) (hP : P w g a)
      (hs : w.step cl F a = some w') : Recorded cl F next start P w' (next w a w' g)

variable {next : World σ → Action → World σ → γ → γ} {start g : γ} {P : World σ → γ → Action → Prop}

theorem Recorded.reach (h : Recorded cl F next start P w g) : Reach cl F (fun _ _ ↦ True) w := by
  induction h with
  | init => exact .refl
  | step _ _ hs ih => exact ih.tail ⟨_, trivial, hs⟩

theorem Recorded.mono {Q : World σ → γ → Action → Prop} (h : Recorded cl F next start P w g)
    (hPQ : ∀ w g a, P w g a → Q w g a) : Recorded cl F next start Q w g := by
  induction h with
  | init => exact .init
  | step _ hP hs ih => exact ih.step (hPQ _ _ _ hP) hs

def checkedRecord (cl : Cluster) (F : FSM σ) (next : World σ → Action → World σ → γ → γ)
    (p : World σ → γ → Action → Bool) (w : World σ) (g : γ) : List Action → Option (World σ × γ) :=
  Script.run (Script.guarded (fun x a ↦ p x.1 x.2 a) fun x a ↦
    (x.1.step cl F a).map fun w' ↦ (w', next x.1 a w' x.2)) (w, g)

theorem Recorded.of_checkedRecord {p : World σ → γ → Action → Bool} {acts : List Action} {g' : γ}
    (h₀ : Recorded cl F next start (fun w g a ↦ p w g a = true) w g)
    (h : w.checkedRecord cl F next p g acts = some (w', g')) :
    Recorded cl F next start (fun w g a ↦ p w g a = true) w' g' := by
  refine Script.invariant (I := fun x ↦ Recorded cl F next start _ x.1 x.2)
    (fun x a y hs hx ↦ ?_) h h₀
  obtain ⟨hp, hs⟩ := Script.of_guarded hs
  obtain ⟨w₁, hw, rfl⟩ := Option.map_eq_some_iff.mp hs
  exact hx.step hp hw

end World

end RaftConsensus
