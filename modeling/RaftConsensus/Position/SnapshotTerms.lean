import RaftConsensus.Position.Truthful

namespace RaftConsensus

variable {σ : Type} {cl : Cluster} {F : FSM σ}

theorem Disk.recalled_empty : Disk.empty.Recalled (fun _ ↦ none) where
  entry i e he := by simp [Disk.empty, LogStore.get] at he
  snapshot s hs := by simp [Disk.empty, SnapshotStore.latest] at hs

def Host.Recalled (g : ℕ → Option ℕ) : Host σ → Prop
  | .down d => d.Recalled g
  | .up r _ => (∃ cfg n, r.core = .fresh cfg n r.disk) ∧ r.disk.Recalled g ∨
      r.started = true ∧ Paced r.core ∧ Placed r.core ∧ RaftConsensus.Recalled g r.core

variable {x : Host σ}

theorem Host.Recalled.disk {g : ℕ → Option ℕ} (h : x.Recalled g) : x.disk.Recalled g := by
  cases x with
  | down d => exact h
  | up r calls =>
    rcases h with ⟨-, h⟩ | ⟨-, -, -, h⟩
    · exact h
    · exact h.disk

theorem Host.Recalled.same {g : ℕ → Option ℕ} (h : x.Recalled g) :
    x.Recalled (remember g none x.disk.log) := by
  cases x with
  | down d => exact Disk.Recalled.same h
  | up r calls =>
    rcases h with ⟨hf, h⟩ | ⟨hst, hp, hpl, h⟩
    · exact .inl ⟨hf, h.same⟩
    · exact .inr ⟨hst, hp, hpl, h.next hp hpl hpl nofun (.inl rfl) fun _ _ _ _ _ _ ↦ .inl rfl⟩

namespace World

variable {w w' : World σ} {g : ServerID → ℕ → Option ℕ} {n m : ServerID} {r r' : Raft σ}
  {a : Action} {t : Trigger} {s : Stimulus} {calls : List ℕ} {reply : Option Reply} {k : Option ℕ}

/-- What the step tells node `n` of the entry at the index of a snapshot. -/
def told (w : World σ) (n : ServerID) : Action → Option (ℕ × ℕ)
  | .run (.deliver i rnd) _ => w.net[i]?.bind fun p ↦
    if p.dst = n then (w.raft? n).bind fun r ↦ r.told (.request p.req rnd) else none
  | _ => none

/-- The term of the entry that each node has, or had before it was compacted, at each index. -/
def terms (w : World σ) (a : Action) (w' : World σ) (g : ServerID → ℕ → Option ℕ) (n : ServerID) :
    ℕ → Option ℕ :=
  remember (g n) (w.told n a) (w'.hosts n).disk.log

def AllRecalled (w : World σ) (g : ServerID → ℕ → Option ℕ) : Prop :=
  ∀ n, (w.hosts n).Recalled (g n)

theorem fire_deliver {i rnd : ℕ} (h : w.fire F (.deliver i rnd) = some (n, r', calls, reply)) :
    ∃ p, w.net[i]? = some p ∧ p.dst = n := by
  obtain ⟨_, _, hf⟩ := fires_of_fire h
  cases hf with
  | deliver hp hh => exact ⟨_, hp, rfl⟩

theorem told_own (hr : w.raft? n = some r) (hs : w.stimulus t = some (r, s))
    (hf : w.fire F t = some (n, r', calls, reply)) : w.told n (.run t k) = r.told s := by
  cases t with
  | op m o =>
    obtain ⟨_, -, heq⟩ := Option.map_eq_some_iff.mp hs
    cases heq
    rfl
  | deliver i rnd =>
    obtain ⟨p, hp, hdst⟩ := fire_deliver hf
    obtain ⟨p', hp', hs⟩ := Option.bind_eq_some_iff.mp hs
    obtain ⟨_, -, heq⟩ := Option.map_eq_some_iff.mp hs
    cases hp.symm.trans hp'
    cases heq
    simp [told, hp, hdst, hr]
  | reply j now =>
    obtain ⟨_, -, hs⟩ := Option.bind_eq_some_iff.mp hs
    obtain ⟨_, -, hs⟩ := Option.bind_eq_some_iff.mp hs
    obtain ⟨_, -, heq⟩ := Option.map_eq_some_iff.mp hs
    cases heq
    rfl
  | fail i =>
    obtain ⟨_, -, hs⟩ := Option.bind_eq_some_iff.mp hs
    obtain ⟨_, -, heq⟩ := Option.map_eq_some_iff.mp hs
    cases heq
    rfl

theorem told_other (hf : w.fire F t = some (n, r', calls, reply)) (hm : m ≠ n) :
    w.told m (.run t k) = none := by
  cases t with
  | deliver i rnd =>
    obtain ⟨p, hp, hdst⟩ := fire_deliver hf
    have hne : p.dst ≠ m := fun heq ↦ hm (heq.symm.trans hdst)
    simp [told, hp, hne]
  | _ => rfl

theorem keepsTerms_asks (hc : w.asks (Raft.keepsTerms F) (.run t k) = true)
    (hs : w.stimulus t = some (r, s)) : r.keepsTerms F s = true := by
  simpa [asks, hs] using hc

variable {gn : ℕ → Option ℕ}

theorem recalled_fresh (calls : List ℕ) {cfg : Config}
    (hf : r.core = .fresh cfg n r.disk) (hd : r.disk.Recalled gn) (hj : r.journal = [])
    (hc : r.keepsTerms F s = true) (ht : r.take F s = some r') :
    (Host.up r'.rest calls).Recalled (remember gn (r.told s) r'.log) ∧ r'.journal = [] := by
  have hpos : r.keepsPosition F s = true := (Bool.and_eq_true_iff.mp hc).1
  have hfinds := Raft.keepsCommit_finds (Bool.and_eq_true_iff.mp hpos).1
  have htold : r.told s = none := by
    refine Raft.told_of_ne fun req rnd heq ↦ ?_
    rw [heq, Stimulus.finds, show r.started = false from congrArg Core.started hf] at hfinds
    cases hfinds
  rw [htold]
  rcases Raft.take_fresh hf hfinds ht with ⟨rnd, rfl, rfl⟩ | ⟨hcore, hj'⟩
  · obtain ⟨lastTerm, hcore, -, -, hj'⟩ := r.start_spec rnd (congrArg Core.state hf)
    refine ⟨.inr ⟨congrArg Core.started hcore, ?_, ?_, ?_, ?_⟩, hj'.trans hj⟩
    · change Paced (r.start rnd).core
      rw [hcore, hf]
      exact Paced.boot cfg n r.disk _ lastTerm
    · exact Raft.placed_start hf rnd (Bool.and_eq_true_iff.mp hpos).2
    · have hdisk : (r.start rnd).disk = r.disk := congrArg Core.disk hcore
      change (r.start rnd).disk.Recalled (remember gn none (r.start rnd).disk.log)
      rw [hdisk]
      exact hd.same
    · intro k t cfg data hrun
      rw [show (r.start rnd).rest.core.run = .select from congrArg Core.run hcore] at hrun
      cases hrun
  · have hdisk : r'.rest.disk = r.disk := congrArg Core.disk hcore
    refine ⟨.inl ⟨⟨cfg, n, ?_⟩, ?_⟩, hj'.trans hj⟩
    · rw [hdisk]
      exact hcore.trans hf
    · have hlog : r'.log = r.disk.log := congrArg Core.log hcore
      rw [hdisk, hlog]
      exact hd.same

theorem recalled_take (h : (Host.up r calls).Recalled gn) (hj : r.journal = [])
    (hc : r.keepsTerms F s = true) (hw : s.Contiguous) (ht : r.take F s = some r') :
    (Host.up r'.rest calls).Recalled (remember gn (r.told s) r'.log) ∧
      ∀ x ∈ r'.journal, x.1.Recalled (remember gn (r.told s) x.1.log) := by
  rcases h with ⟨⟨cfg, n, hf⟩, hd⟩ | ⟨hst, hp, hpl, hg⟩
  · obtain ⟨hnext, hj'⟩ := recalled_fresh calls hf hd hj hc ht
    refine ⟨hnext, fun x hx ↦ ?_⟩
    rw [hj'] at hx
    cases hx
  · have hpos : r.keepsPosition F s = true := (Bool.and_eq_true_iff.mp hc).1
    have hk : r.keepsCommit s = true := (Bool.and_eq_true_iff.mp hpos).1
    obtain ⟨hg', htorn⟩ := Raft.recalls_take hc hw hst ht hp hpl hg
    have hst' : r'.started = true := Raft.started_take hw ht hst
    have hp' : Paced r'.core := (Raft.paced_take hk hw hst ht hp).2
    have hpl' : Placed r'.core := Raft.placed_take hpos hw hst ht hp hpl
    refine ⟨.inr ⟨hst', hp', hpl', hg'⟩, fun x hx ↦ ?_⟩
    refine (htorn x hx).resolve_left fun hx ↦ ?_
    rw [hj] at hx
    cases hx

theorem AllRecalled.step (h : w.AllRecalled g) (hR : Reach cl F (fun _ _ ↦ True) w)
    (hc : w.asks (Raft.keepsTerms F) a = true) (hs : w.step cl F a = some w') :
    w'.AllRecalled (w.terms a w' g) := by
  have hothers (n : ServerID) (x : Host σ)
      (hhosts : ∀ m, w'.hosts m = Function.update w.hosts n x m)
      (htold : ∀ m, m ≠ n → w.told m a = none)
      (hown : x.Recalled (remember (g n) (w.told n a) x.disk.log)) :
      w'.AllRecalled (w.terms a w' g) := by
    intro m
    unfold terms
    rw [hhosts m]
    by_cases hm : m = n
    · rw [hm, Function.update_self]
      exact hown
    · rw [Function.update_of_ne hm, htold m hm]
      exact (h m).same
  cases goes_of_step hs with
  | @create n cfg d r hh _ hr =>
    refine hothers n (.up r []) (fun _ ↦ rfl) (fun _ _ ↦ rfl) ?_
    have hd : d.Recalled (g n) := by
      have := h n
      rwa [hh] at this
    obtain ⟨c', -, rfl⟩ := Option.map_eq_some_iff.mp hr
    exact .inl ⟨⟨c', n, rfl⟩, hd.same⟩
  | @crash n r calls hh =>
    refine hothers n (.down r.disk) (fun _ ↦ rfl) (fun _ _ ↦ rfl) ?_
    have hd := (h n).disk
    rw [hh] at hd
    exact hd.same
  | @run t n r' calls reply hf =>
    obtain ⟨r, s, hr, hst, ht⟩ := fire_take hf
    obtain ⟨calls₀, hh⟩ := hosts_of_raft? hr
    have hn := h n
    rw [hh] at hn
    obtain ⟨hnext, -⟩ := recalled_take hn (hR.journal hr) (keepsTerms_asks hc hst)
      (stimulus_contiguous hR.wired hst) ht
    refine hothers n _ (fun _ ↦ rfl) (fun m hm ↦ told_other hf hm) ?_
    rw [told_own hr hst hf]
    exact hnext
  | @torn t k n r' calls reply d out hf hd =>
    obtain ⟨r, s, hr, hst, ht⟩ := fire_take hf
    obtain ⟨calls₀, hh⟩ := hosts_of_raft? hr
    have hn := h n
    rw [hh] at hn
    obtain ⟨-, htorn⟩ := recalled_take hn (hR.journal hr) (keepsTerms_asks hc hst)
      (stimulus_contiguous hR.wired hst) ht
    refine hothers n (.down d) (fun _ ↦ rfl) (fun m hm ↦ told_other hf hm) ?_
    rw [told_own hr hst hf]
    exact htorn (d, out) hd

/-- Every snapshot that `processSnapshot` stores has the term of the committed entry at
its index. -/
theorem snapshot_records_term {rnd : ℕ} {snap : Snapshot}
    (h : Recorded cl F terms (fun _ _ ↦ none) (fun w _ a ↦ w.asks (Raft.keepsTerms F) a = true) w g)
    (hr : w.raft? n = some r) (hs : r.runStep F rnd = some r')
    (hnew : r'.snapshot = r.snapshot.create snap) (hpos : 0 < snap.index) :
    snap.index ≤ r.commitIndex ∧ g n snap.index = some snap.term := by
  have hall : w.AllRecalled g := by
    clear hr
    induction h with
    | init => exact fun n ↦ Disk.recalled_empty
    | step hw hc hs ih => exact ih.step hw.reach hc hs
  obtain ⟨calls, hh⟩ := hosts_of_raft? hr
  have hn := hall n
  rw [hh] at hn
  rcases hn with ⟨⟨cfg, m, hf⟩, -⟩ | ⟨hst, hp, hpl, hg⟩
  · rw [Raft.runStep, show r.run = .off from congrArg Core.run hf] at hs
    cases hs
  · have hrun : r.core.run = .snapshotCreate snap.index snap.term snap.configuration snap.data :=
      Raft.run_of_stores hst hs hnew
    have hk : snap.index ≤ r.applyIndex := hp.snapshot snap.index (by rw [hrun]; rfl)
    exact ⟨hk.trans hp.apply, hg.taken _ _ _ _ hrun hpos⟩

section Example

open Action (timeout turns)

/-- The next step of A stores a snapshot of the first entry. -/
def storesFirst (w : World (List Bytes)) (term : ℕ) : Bool :=
  (w.raft? "A").any fun r ↦ (r.runStep .keeping 0).any fun r' ↦ r'.snapshot.snapshots.head?.any
    fun snap ↦ r'.snapshot = r.snapshot.create snap ∧ snap.index = 1 ∧ snap.term = term

theorem of_storesFirst {w : World (List Bytes)} {term : ℕ} (h : w.storesFirst term = true) :
    ∃ r r' snap, w.raft? "A" = some r ∧ r.runStep .keeping 0 = some r' ∧
      r'.snapshot = r.snapshot.create snap ∧ snap.index = 1 ∧ snap.term = term := by
  obtain ⟨r, hr, h⟩ := (Option.any_eq_true _ _).mp h
  obtain ⟨r', hs, h⟩ := (Option.any_eq_true _ _).mp h
  obtain ⟨snap, -, h⟩ := (Option.any_eq_true _ _).mp h
  obtain ⟨hnew, hi, ht⟩ := of_decide_eq_true h
  exact ⟨r, r', snap, hr, hs, hnew, hi, ht⟩

/-- A commits its first entry with B, and its log is compacted up to it. -/
def compactedA : List Action :=
  electA ++ [.op "A" (.replicate "B"), .deliver 2, .reply 1] ++
    turns "A" 6 ++ [.op "A" .snapshot] ++ turns "A" 7

/-- A second snapshot of the same entry finds no entry in the log. -/
def takenAgain : List Action := compactedA ++ [.op "A" .snapshot] ++ turns "A" 2

theorem snapshot_records_term_takenAgain : ∃ (w : World (List Bytes)) (g : ServerID → ℕ → Option ℕ)
    (r r' : Raft (List Bytes)) (snap : Snapshot),
    Recorded threeVoters .keeping terms (fun _ _ ↦ none)
        (fun w _ a ↦ w.asks (Raft.keepsTerms .keeping) a = true) w g ∧
      w.raft? "A" = some r ∧ r.runStep .keeping 0 = some r' ∧
      r'.snapshot = r.snapshot.create snap ∧ 0 < snap.index ∧
      snap.index ≤ r.commitIndex ∧ g "A" snap.index = some snap.term := by
  have hrun : (init.checkedRecord threeVoters .keeping terms
      (fun w _ a ↦ w.asks (Raft.keepsTerms .keeping) a) (fun _ _ ↦ none) takenAgain).any
        (fun x ↦ x.1.storesFirst 1) = true := by
    decide +kernel
  obtain ⟨⟨w, g⟩, hw, hstores⟩ := (Option.any_eq_true _ _).mp hrun
  obtain ⟨r, r', snap, hr, hs, hnew, hi, -⟩ := of_storesFirst hstores
  have hpos : 0 < snap.index := by omega
  have hrec := Recorded.init.of_checkedRecord hw
  exact ⟨w, g, r, r', snap, hrec, hr, hs, hnew, hpos, snapshot_records_term hrec hr hs hnew hpos⟩

/-- B makes A a follower; then A leads term 3 and has appended its second entry, which is not
committed, when it takes the snapshot. -/
def takenLater : List Action :=
  let tick := Action.op "A" (.tick 0 0 ["B", "C"])
  compactedA ++ timeout "B" 3 ++ [.deliver 3, tick] ++ turns "A" 3 ++ [tick] ++ turns "A" 3 ++
    [tick, .deliver 6, .reply 3] ++ turns "A" 3 ++ [.op "A" .snapshot] ++ turns "A" 2

/-- The snapshot of the first entry, which is of term 1, records term 3. -/
theorem snapshot_records_last_term : ∃ (w : World (List Bytes)) (g : ServerID → ℕ → Option ℕ)
    (r r' : Raft (List Bytes)) (snap : Snapshot),
    Recorded threeVoters .keeping terms (fun _ _ ↦ none) (fun _ _ _ ↦ True) w g ∧
      w.raft? "A" = some r ∧ r.runStep .keeping 0 = some r' ∧
      r'.snapshot = r.snapshot.create snap ∧ snap.index = 1 ∧ snap.term = 3 ∧ g "A" 1 = some 1 := by
  have hrun : (init.checkedRecord threeVoters .keeping terms (fun _ _ _ ↦ true) (fun _ _ ↦ none)
      takenLater).any (fun x ↦ x.1.storesFirst 3 && x.2 "A" 1 = some 1) = true := by
    decide +kernel
  obtain ⟨⟨w, g⟩, hw, heq⟩ := (Option.any_eq_true _ _).mp hrun
  obtain ⟨hstores, hg⟩ := Bool.and_eq_true_iff.mp heq
  obtain ⟨r, r', snap, hr, hs, hnew, hi, ht⟩ := of_storesFirst hstores
  have hrec : Recorded threeVoters .keeping terms (fun _ _ ↦ none) (fun _ _ _ ↦ True) w g :=
    (Recorded.init.of_checkedRecord hw).mono fun _ _ _ _ ↦ trivial
  exact ⟨w, g, r, r', snap, hrec, hr, hs, hnew, hi, ht, of_decide_eq_true hg⟩

end Example

end World

end RaftConsensus
