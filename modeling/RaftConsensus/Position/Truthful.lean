import RaftConsensus.Position.Recalled

namespace RaftConsensus

namespace Raft

variable {σ : Type} {F : FSM σ} {r r' : Raft σ} {s : Stimulus} {g : ℕ → Option ℕ}

def told (r : Raft σ) : Stimulus → Option (ℕ × ℕ)
  | .request (.installSnapshot req) _ =>
    (r.installs req).map fun _ ↦ (req.lastIncludedIndex, req.lastIncludedTerm)
  | _ => none

/-- Besides `keepsPosition`: where `processSnapshot` falls back on the last term, the log ends with
the snapshot that it takes. -/
def keepsTerms (F : FSM σ) (r : Raft σ) (s : Stimulus) : Bool :=
  r.keepsPosition F s && match s, r.run with
    | .op (.runStep _), .snapshotLastTerm index _ _ => r.lastIndex = index
    | _, _ => true

def Recalls (g : ℕ → Option ℕ) (told : Option (ℕ × ℕ)) (r r' : Raft σ) : Prop :=
  Recalled (remember g told r'.log) r'.core ∧
    ∀ x ∈ r'.journal, x ∈ r.journal ∨ x.1.Recalled (remember g told x.1.log)

theorem recalls_calm (hp : Paced r.core) (hpl : Placed r.core) (hpl' : Placed r'.core)
    (hg : Recalled g r.core) (hst : r.started = true)
    (hi : ∀ req, s.input ≠ .request (.installSnapshot req)) {P : Prop} {R : Rules}
    (hq : P → R.snapshot = false ∧ r.run.snapshotting = false)
    (hd : Does R (turningIf P) s.input r r') : Recalls g none r r' := by
  refine ⟨?_, fun x hx ↦ (hd.torn x hx).imp_right ?_⟩
  · obtain ⟨out, -, hpath⟩ := hd.path
    obtain ⟨hsnap, hrun, -⟩ := hpath.shelf hi hq hst
    refine hg.next hp hpl hpl' nofun (.inl hsnap) fun k t cfg data hr _ ↦ .inl ?_
    refine hrun.resolve_right fun hnot ↦ ?_
    rw [hr] at hnot
    cases hnot
  · rintro ⟨out, c, hpath, rfl⟩
    exact hg.disk.next hpl.agree nofun (.inl (hpath.shelf hi hq hst).1)

theorem recalls_goto {pc : RunPC} (heq : r' = { r with run := pc }) (hp : Paced r.core)
    (hpl : Placed r.core) (hpl' : Placed r'.core) (hg : Recalled g r.core)
    (hpc : ∀ k t cfg data, pc = .snapshotCreate k t cfg data → 0 < k → g k = some t) :
    Recalls g none r r' := by
  subst heq
  refine ⟨hg.next hp hpl hpl' nofun (.inl rfl) fun k t cfg data hr hpos ↦ ?_, fun _ hx ↦ .inl hx⟩
  exact .inr ⟨rfl, hpc k t cfg data hr hpos⟩

theorem snapshotTerm_eq (r : Raft σ) (index : ℕ) (config : Configuration) (data : Bytes) :
    ∃ pc, r.snapshotTerm index config data = { r with run := pc } ∧
      ∀ k t cfg data, pc = .snapshotCreate k t cfg data → 0 < k →
        ∃ e, r.log.get k = some e ∧ e.term = t := by
  unfold snapshotTerm
  split
  · rename_i h0
    refine ⟨_, rfl, fun k t cfg data heq hpos ↦ ?_⟩
    cases heq
    exact absurd h0 hpos.ne'
  · split
    · rename_i e he
      refine ⟨_, rfl, fun k t cfg data heq _ ↦ ?_⟩
      cases heq
      exact ⟨e, he, rfl⟩
    · exact ⟨_, rfl, nofun⟩

theorem snapshotBegin_eq (F : FSM σ) (r : Raft σ) : ∃ pc, r.snapshotBegin F = { r with run := pc } ∧
    ∀ k t cfg data, pc ≠ .snapshotCreate k t cfg data := by
  unfold snapshotBegin
  split
  · exact ⟨_, rfl, nofun⟩
  · exact ⟨_, rfl, nofun⟩

theorem recalls_snapshotCreate (hp : Paced r.core) (hpl : Placed r.core) (hg : Recalled g r.core)
    {index term : ℕ} {config : Configuration} {data : Bytes}
    (hr : r.run = .snapshotCreate index term config data) :
    Recalls g none r (r.snapshotCreate index term config data) := by
  have hpl' := placed_snapshotCreate hp hpl hr
  have hstore (hpos : 0 < index) : g index = some term := hg.taken index term config data hr hpos
  refine ⟨hg.next hp hpl hpl' nofun (.inr ⟨⟨index, term, config, data⟩, rfl, fun hpos ↦ ?_⟩) nofun,
    fun x hx ↦ ?_⟩
  · exact .inr ⟨rfl, hstore hpos⟩
  · refine (List.mem_append.mp hx).imp_right fun hx ↦ ?_
    rw [List.mem_singleton.mp hx]
    refine hg.disk.next hpl.agree nofun (.inr ⟨⟨index, term, config, data⟩, rfl, fun hpos ↦ ?_⟩)
    exact .inr ⟨rfl, hstore hpos⟩

theorem recalls_takesSnapshot (hs : r.takesSnapshot s) (hc : r.keepsTerms F s = true)
    (ht : r.take F s = some r') (hp : Paced r.core) (hpl : Placed r.core) (hg : Recalled g r.core) :
    Recalls g none r r' := by
  have hpl' := placed_takesSnapshot hs ht hp hpl
  rcases hs with rfl | ⟨hsnap, rnd, rfl⟩
  · have ht : (if r.run = .select then some (r.snapshotBegin F) else none) = some r' := ht
    split at ht
    · cases ht
      obtain ⟨pc, heq, hpc⟩ := r.snapshotBegin_eq F
      exact recalls_goto heq hp hpl hpl' hg fun k t cfg data hk ↦ absurd hk (hpc k t cfg data)
    · cases ht
  · have ht : r.runStep F rnd = some r' := ht
    unfold runStep at ht
    cases hr : r.run with
    | snapshotTerm index config data =>
      simp only [hr, Option.some.injEq] at ht
      subst ht
      obtain ⟨pc, heq, hpc⟩ := r.snapshotTerm_eq index config data
      refine recalls_goto heq hp hpl hpl' hg fun k t cfg data hk hpos ↦ ?_
      obtain ⟨e, he, rfl⟩ := hpc k t cfg data hk hpos
      exact hg.disk.entry k e he
    | snapshotLastTerm index config data =>
      simp only [hr, Option.some.injEq] at ht
      subst ht
      refine recalls_goto rfl hp hpl hpl' hg fun k t cfg data heq hpos ↦ ?_
      cases heq
      -- the log ends with the snapshot, so its last term is the one
      have hlast : r.lastIndex = index := by
        simpa [hr] using (Bool.and_eq_true_iff.mp hc).2
      rw [← hlast] at hpos ⊢
      exact hg.last hpl hpos
    | snapshotCreate index term config data =>
      simp only [hr, Option.some.injEq] at ht
      exact ht ▸ recalls_snapshotCreate hp hpl hg hr
    | snapshotCompact index =>
      simp only [hr, Option.some.injEq] at ht
      subst ht
      refine ⟨hg.next hp hpl hpl' nofun (.inl rfl) nofun, fun x hx ↦ ?_⟩
      refine (List.mem_append.mp hx).imp_right fun hx ↦ ?_
      rw [List.mem_singleton.mp hx]
      exact hg.disk.next hpl.agree nofun (.inl rfl)
    | snapshotDone index =>
      simp only [hr, Option.some.injEq] at ht
      subst ht
      exact ⟨hg.next hp hpl hpl' nofun (.inl rfl) nofun, fun x hx ↦ .inl hx⟩
    | _ =>
      rw [hr] at hsnap
      cases hsnap

theorem journal_catchUp (r : Raft σ) (t : ℕ) :
    ∀ x ∈ (r.catchUp t).journal, x ∈ r.journal ∨ x.1.snapshot = r.snapshot := by
  intro x hx
  unfold catchUp at hx
  split at hx
  · rw [failPendingFutures_eq] at hx
    rcases List.mem_append.mp hx with hx | hx
    · refine (List.mem_append.mp hx).imp_right fun hx ↦ ?_
      rw [List.mem_singleton.mp hx]
      rfl
    · rw [List.mem_singleton.mp hx]
      exact .inr rfl
  · exact .inl hx

theorem journal_reconcileLog (r : Raft σ) (index term : ℕ) :
    ∀ x ∈ (r.reconcileLog index term).journal, x ∈ r.journal ∨ x.1.snapshot = r.snapshot := by
  have hdel (lo hi : ℕ) : ∀ x ∈ ({ r with log := r.log.deleteRange lo hi }.checkpoint).journal,
      x ∈ r.journal ∨ x.1.snapshot = r.snapshot := by
    intro x hx
    refine (List.mem_append.mp hx).imp_right fun hx ↦ ?_
    rw [List.mem_singleton.mp hx]
    rfl
  intro x hx
  unfold reconcileLog at hx
  dsimp only at hx
  split_ifs at hx <;> first | exact .inl hx | exact hdel _ _ x hx

theorem journal_installSnapshot (r : Raft σ) (req : InstallSnapshotRequest) (data : Bytes) :
    ∀ x ∈ (r.installSnapshot F req data).journal, x ∈ r.journal ∨ x.1.snapshot =
      r.snapshot.create ⟨req.lastIncludedIndex, req.lastIncludedTerm, r.configuration, data⟩ := by
  have hstore (snap : Snapshot) :
      ∀ x ∈ ({ r with snapshot := r.snapshot.create snap }.checkpoint).journal,
        x ∈ r.journal ∨ x.1.snapshot = r.snapshot.create snap := by
    intro x hx
    refine (List.mem_append.mp hx).imp_right fun hx ↦ ?_
    rw [List.mem_singleton.mp hx]
    rfl
  intro x hx
  unfold installSnapshot restoreSnapshotData at hx
  cases hF : F.restore data with
  | none =>
    simp only [hF] at hx
    exact hstore _ x hx
  | some fsm =>
    simp only [hF] at hx
    rcases journal_reconcileLog _ _ _ x hx with hx | hx
    · exact hstore _ x hx
    · exact .inr hx

theorem recalls_handleInstallSnapshot {req : InstallSnapshotRequest} (hp : Paced r.core)
    (hpl : Placed r.core) (hg : Recalled g r.core) (rnd : ℕ)
    (hF : ∀ data, r.installs req = some data → (F.restore data).isSome = true) :
    Recalls g (r.told (.request (.installSnapshot req) rnd)) r
      (r.handleInstallSnapshot F req rnd).1 := by
  have hpl' := placed_handleInstallSnapshot hp hpl rnd hF
  have hcatch : (r.catchUp req.term).snapshot = r.snapshot ∧ (r.catchUp req.term).run = r.run := by
    obtain ⟨_, _, _, _, _, _, hcore⟩ := r.catchUp_frame req.term
    exact ⟨congrArg Core.snapshot hcore, congrArg Core.run hcore⟩
  rcases handleInstallSnapshot_installs F r req rnd with
    ⟨hn, r₁, hr₁, hcore, hj⟩ | ⟨data, r₁, hd, hcore, hj, heq⟩
  · have hstay : r₁.snapshot = r.snapshot ∧ r₁.run = r.run ∧
        ∀ x ∈ r₁.journal, x ∈ r.journal ∨ x.1.snapshot = r.snapshot := by
      rcases hr₁ with rfl | rfl
      · exact ⟨rfl, rfl, fun _ hx ↦ .inl hx⟩
      · exact ⟨hcatch.1, hcatch.2, r.journal_catchUp req.term⟩
    rw [told, hn, Option.map_none]
    refine ⟨hg.next hp hpl hpl' nofun ?_ fun k t cfg data _ _ ↦ .inl ?_, fun x hx ↦ ?_⟩
    · exact .inl ((congrArg Core.snapshot hcore).trans hstay.1)
    · exact (congrArg Core.run hcore).trans hstay.2.1
    · rw [hj] at hx
      exact (hstay.2.2 x hx).imp_right fun hs ↦ hg.disk.next hpl.agree nofun (.inl hs)
  · have hsnap : r₁.snapshot = r.snapshot := (congrArg Core.snapshot hcore).trans hcatch.1
    have hlt := r.lt_of_installs hd
    have hbelow (s : Snapshot) (hs : r.snapshot.latest = some s) :
        s.index < req.lastIncludedIndex := by
      have hle : r.core.snapIndex ≤ r.commitIndex := hpl.committed
      rw [Placed.snapIndex_eq (show r.core.snapshot.latest = some s from hs)] at hle
      exact hle.trans_lt hlt
    obtain ⟨snap, hsn⟩ : ∃ snap : Snapshot,
        snap = ⟨req.lastIncludedIndex, req.lastIncludedTerm, r₁.configuration, data⟩ := ⟨_, rfl⟩
    have htold : some (req.lastIncludedIndex, req.lastIncludedTerm) =
        some (snap.index, snap.term) := by
      rw [hsn]
    have hin : ∀ e, r₁.log.get req.lastIncludedIndex = some e →
        req.lastIncludedIndex ≤ r₁.lastIndex := by
      have hp₁ : Paced r₁.core := hcore ▸ paced_catchUp req.term hp
      exact fun e he ↦ hp₁.log _ e he
    have hend : (r.handleInstallSnapshot F req rnd).1.snapshot = r.snapshot.create snap ∧
        (r.handleInstallSnapshot F req rnd).1.run = r.run := by
      have hrun : r₁.run = r.run := (congrArg Core.run hcore).trans hcatch.2
      rw [heq, ← hsnap, ← hrun]
      rcases core_installSnapshot (hF data hd) hin hsn with ⟨e, lo, -, -, -, hc⟩ | hc
      · exact ⟨congrArg Core.snapshot hc, congrArg Core.run hc⟩
      · exact ⟨congrArg Core.snapshot hc, congrArg Core.run hc⟩
    rw [told, hd, Option.map_some]
    refine ⟨hg.next hp hpl hpl' (fun x hx ↦ ?_) (.inr ⟨snap, hend.1, fun _ ↦ .inl htold⟩)
      fun k t cfg data _ _ ↦ .inl hend.2, fun x hx ↦ ?_⟩
    · cases hx
      exact hlt
    · rw [heq] at hx
      have hnext (hs : x.1.snapshot = r.snapshot ∨ x.1.snapshot = r.snapshot.create snap) :
          x.1.Recalled (remember g (some (req.lastIncludedIndex, req.lastIncludedTerm))
          x.1.log) := by
        refine hg.disk.next hpl.agree (fun y hy s hs ↦ ?_)
          (hs.imp_right fun hs ↦ ⟨snap, hs, fun _ ↦ .inl htold⟩)
        cases hy
        exact hbelow s hs
      rcases journal_installSnapshot r₁ req data x hx with hx | hx
      · rw [hj] at hx
        exact (r.journal_catchUp req.term x hx).imp_right fun hs ↦ hnext (.inl hs)
      · rw [hsnap, ← hsn] at hx
        exact .inr (hnext (.inr hx))

theorem told_of_ne (h : ∀ req rnd, s ≠ .request (.installSnapshot req) rnd) : r.told s = none := by
  cases s with
  | request req rnd =>
    cases req with
    | installSnapshot req => exact absurd rfl (h req rnd)
    | _ => rfl
  | _ => rfl

theorem recalls_take (hc : r.keepsTerms F s = true) (hw : s.Contiguous) (hst : r.started = true)
    (ht : r.take F s = some r') (hp : Paced r.core) (hpl : Placed r.core) (hg : Recalled g r.core) :
    Recalls g (r.told s) r r' := by
  have hpos : r.keepsPosition F s = true := (Bool.and_eq_true_iff.mp hc).1
  by_cases hi : ∃ req rnd, s = .request (.installSnapshot req) rnd
  · obtain ⟨req, rnd, rfl⟩ := hi
    cases ht
    refine recalls_handleInstallSnapshot hp hpl hg rnd fun data hd ↦ ?_
    have hpos : (r.installs req).all (fun data ↦ (F.restore data).isSome) = true :=
      (Bool.and_eq_true_iff.mp hpos).2
    rw [hd] at hpos
    exact hpos
  · have hi' (req : InstallSnapshotRequest) (rnd : ℕ) : s ≠ .request (.installSnapshot req) rnd :=
      fun heq ↦ hi ⟨req, rnd, heq⟩
    rw [told_of_ne hi']
    by_cases hs : r.takesSnapshot s
    · exact recalls_takesSnapshot hs hc ht hp hpl hg
    · obtain ⟨P, R, hR, hq, hd⟩ := calm_take (Bool.and_eq_true_iff.mp hpos).1 hw hst ht hs
      have hpl' := placed_take hpos hw hst ht hp hpl
      refine recalls_calm hp hpl hpl' hg hst (fun req heq ↦ ?_) hq hd
      obtain ⟨rnd, rfl⟩ := request_of_input heq
      exact hi' req rnd rfl

theorem run_of_stores {rnd : ℕ} {snap : Snapshot} (hst : r.started = true)
    (hs : r.runStep F rnd = some r') (hnew : r'.snapshot = r.snapshot.create snap) :
    r.run = .snapshotCreate snap.index snap.term snap.configuration snap.data := by
  have hne : r'.snapshot ≠ r.snapshot := by
    intro heq
    have hlen := congrArg (·.snapshots.length) (hnew.symm.trans heq)
    simp [SnapshotStore.create] at hlen
  have hcalm (hrun : r.run.snapshotting = false) : r'.snapshot = r.snapshot := by
    have htake : r.take F (.op (.runStep rnd)) = some r' := hs
    have hnot : ¬ r.takesSnapshot (.op (.runStep rnd)) := by
      rintro (heq | ⟨hsnap, -⟩)
      · cases heq
      · rw [hrun] at hsnap
        cases hsnap
    have hw : (Stimulus.op (.runStep rnd)).Contiguous := trivial
    have hc : r.keepsCommit (.op (.runStep rnd)) = true := rfl
    obtain ⟨P, R, -, hq, hd⟩ := calm_take hc hw hst htake hnot
    obtain ⟨out, -, hpath⟩ := hd.path
    refine (hpath.shelf (fun req heq ↦ ?_) hq hst).1
    obtain ⟨_, heq⟩ := request_of_input heq
    cases heq
  unfold runStep at hs
  cases hr : r.run with
  | snapshotCreate index term config data =>
    simp only [hr, Option.some.injEq] at hs
    have hcreate : r.snapshot.create ⟨index, term, config, data⟩ = r.snapshot.create snap := by
      rw [← hnew, ← hs]
      rfl
    cases (List.cons.inj (congrArg SnapshotStore.snapshots hcreate)).1
    rfl
  | snapshotTerm index config data =>
    simp only [hr, Option.some.injEq] at hs
    obtain ⟨pc, heq, -⟩ := r.snapshotTerm_eq index config data
    rw [← hs, heq] at hne
    exact absurd rfl hne
  | snapshotLastTerm index config data | snapshotCompact index | snapshotDone index =>
    simp only [hr, Option.some.injEq] at hs
    rw [← hs] at hne
    exact absurd rfl hne
  | _ => exact absurd (hcalm (by rw [hr]; rfl)) hne

end Raft

end RaftConsensus
