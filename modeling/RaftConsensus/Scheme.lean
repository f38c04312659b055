import RaftConsensus.Runs

namespace RaftConsensus

variable {cl : Cluster} {R : Rules} {L : Licence} {since : ℕ}

structure Scheme where
  up : Trace → ServerID → Core → List ℕ → Prop
  down : Trace → ServerID → Disk → Prop
  all : Trace → Prop

namespace Scheme

def site (I : Scheme) (t : Trace) (n : ServerID) : Site → Prop
  | .down d => I.down t n d
  | .up c calls => I.up t n c calls

structure Holds (I : Scheme) (v : View) : Prop where
  site : ∀ n, I.site v.toTrace n (v.sites n)
  all : I.all v.toTrace

/-- What one step has to keep of a scheme: something else may have been recorded by another
node, and the machine of the step has changed. -/
structure Kept (I : Scheme) (cl : Cluster) (R : Rules) (L : Licence) (since : ℕ) : Prop where
  frame : ∀ t m n out s, m ≠ n → I.site t n s → I.site (t.publish m out) n s
  replied : ∀ t n s a, I.site t n s → I.site (t.addReply a) n s
  move : ∀ t n c c' calls inp out, I.all t → I.up t n c calls → (c.started = true ∨ R.early) →
    t.Offers since n calls inp → Move R L.open inp c out c' →
    I.up (t.publish n out) n c' (calls ++ t.newCalls n out) ∧ I.all (t.publish n out)
  boot : ∀ t n c calls state lastTerm, I.all t → I.up t n c calls → c.started = false →
    c.state = .shutdown → (state = .follower ∨ state = .learner) →
    (c.snapshot.snapshots = [] → lastTerm = c.endTerm) →
    I.up t n (c.boot state lastTerm) calls
  idle : ∀ t n c calls e, I.all t → I.up t n c calls → c.started = false →
    Event.idle e = true → I.up (t.publish n [.note e]) n c calls ∧ I.all (t.publish n [.note e])
  create : ∀ t n d cfg, I.all t → I.down t n d → cl.config n = some cfg → n ≠ "" →
    I.up t n (.fresh cfg n d) []
  crash : ∀ t n c calls, I.up t n c calls → I.down t n c.disk
  drop : ∀ t n c calls calls', I.up t n c calls → calls' ⊆ calls → I.up t n c calls'
  answer : ∀ t n c calls i p resp stamp, I.all t → I.up t n c calls →
    (c.started = true ∨ R.early) → t.net[i]? = some p → p.dst = n → stamp ≤ t.history.length →
    c.Promises (fun e ↦ (n, e) ∈ t.history) p.req resp → I.all (t.addReply ⟨i, resp, stamp⟩)

variable {I : Scheme} {v v' : View}

theorem Holds.up {n : ServerID} {c : Core} {calls : List ℕ}
    (h : I.Holds v) (hs : v.sites n = .up c calls) : I.up v.toTrace n c calls := by
  have hsite := h.site n
  rw [hs] at hsite
  exact hsite

theorem Holds.down {n : ServerID} {d : Disk} (h : I.Holds v)
    (hs : v.sites n = .down d) : I.down v.toTrace n d := by
  have hsite := h.site n
  rw [hs] at hsite
  exact hsite

theorem Holds.put {n : ServerID} {s : Site} {t : Trace}
    (h : ∀ m, m ≠ n → I.site t m (v.sites m)) (hs : I.site t n s) (ha : I.all t) :
    I.Holds ⟨t, (v.put n s).sites⟩ := by
  refine ⟨fun m ↦ ?_, ha⟩
  by_cases hm : m = n
  · subst hm
    rw [show (v.put m s).sites m = s from Function.update_self ..]
    exact hs
  · rw [show (v.put n s).sites m = v.sites m from Function.update_of_ne hm ..]
    exact h m hm

/-- The rule of invariants: what every step keeps machine by machine is an invariant. -/
theorem Kept.micro (hI : I.Kept cl R L since)
    (h : Micro cl R L since v v') (hv : I.Holds v) : I.Holds v' := by
  cases h with
  | @move n c c' calls inp out hs hst ho hm =>
    have hup := hv.up hs
    obtain ⟨hup', hall⟩ := hI.move _ n c c' calls inp out hv.all hup hst ho hm
    exact .put (fun m hne ↦ hI.frame _ n m out _ hne.symm (hv.site m)) hup' hall
  | @boot n c calls state lastTerm hs hn hsd hst hl =>
    have hup := hv.up hs
    exact .put (fun m _ ↦ hv.site m)
      (hI.boot _ n c calls state lastTerm hv.all hup hn hsd hst hl) hv.all
  | @idle n c calls e hs hn he =>
    have hup := hv.up hs
    obtain ⟨hup', hall⟩ := hI.idle _ n c calls e hv.all hup hn he
    refine ⟨fun m ↦ ?_, hall⟩
    by_cases hm : m = n
    · subst hm
      rw [show (v.publish m [.note e]).sites m = .up c calls from hs]
      exact hup'
    · exact hI.frame _ n m _ _ (Ne.symm hm) (hv.site m)
  | @create n d cfg hs hc hn =>
    exact .put (fun m _ ↦ hv.site m) (hI.create _ n d cfg hv.all (hv.down hs) hc hn) hv.all
  | @crash n c calls hs =>
    have hup := hv.up hs
    exact .put (fun m _ ↦ hv.site m) (hI.crash _ n c calls hup) hv.all
  | @drop n c calls calls' hs hsub =>
    have hup := hv.up hs
    exact .put (fun m _ ↦ hv.site m) (hI.drop _ n c calls calls' hup hsub) hv.all
  | @answer n c calls i p resp stamp hs hst hp hd hk hpr =>
    have hup := hv.up hs
    exact ⟨fun m ↦ hI.replied _ m _ _ (hv.site m),
      hI.answer _ n c calls i p resp stamp hv.all hup hst hp hd hk hpr⟩

theorem Kept.reach {σ : Type} {F : FSM σ} {P : World σ → Action → Prop} {w : World σ}
    (hI : I.Kept cl R L 0) (hP : ∀ w a, P w a → w.Permits R L a)
    (hinit : I.Holds (World.init : World σ).view) (h : World.Reach cl F P w) : I.Holds w.view :=
  World.Reach.invariant hP h hinit fun _ _ ↦ hI.micro

end Scheme

end RaftConsensus
