import RaftConsensus.Single.Commit
import RaftConsensus.Single.Walk

namespace RaftConsensus

variable {σ : Type} {F : FSM σ} {G : ℕ → LogEntry}

namespace FSM

def step (F : FSM σ) (s : σ) (e : LogEntry) : σ :=
  match e.payload with
  | .normal data => if data = [] then s else (F.apply s data).1
  | .configuration _ => s

def fold (F : FSM σ) (G : ℕ → LogEntry) : ℕ → σ
  | 0 => F.init
  | i + 1 => F.step (F.fold G i) (G (i + 1))

theorem step_configuration {s : σ} {e : LogEntry} {data : ConfigurationData}
    (h : e.payload = .configuration data) : F.step s e = s := by
  simp only [step, h]

end FSM

/-- What the handlers of a leader's requests leave to the `run` goroutine. -/
structure Leaves (r r' : Raft σ) : Prop where
  fsm : r'.fsm = r.fsm
  applyIndex : r'.applyIndex = r.applyIndex
  run : r'.run = r.run
  fatalErr : r'.fatalErr = r.fatalErr

namespace Leaves

variable {a b c : Raft σ}

theorem of_machine (h : b.machine = a.machine) : Leaves a b := by
  simp only [Raft.machine, Prod.mk.injEq] at h
  exact ⟨h.1, h.2.1, h.2.2.1, h.2.2.2⟩

theorem refl (a : Raft σ) : Leaves a a := ⟨rfl, rfl, rfl, rfl⟩

theorem trans (h : Leaves a b) (h' : Leaves b c) : Leaves a c :=
  ⟨h'.fsm.trans h.fsm, h'.applyIndex.trans h.applyIndex, h'.run.trans h.run,
    h'.fatalErr.trans h.fatalErr⟩

theorem finishTransfer (a : Raft σ) (err : Option RaftError) : Leaves a (a.finishTransfer err) := by
  unfold Raft.finishTransfer
  split <;> exact ⟨rfl, rfl, rfl, rfl⟩

theorem follows : Raft.Follows (Leaves : Raft σ → Raft σ → Prop) where
  trans := .trans
  same _ hm := of_machine hm
  down _ hm _ := of_machine hm
  emit _ _ _ := ⟨rfl, rfl, rfl, rfl⟩
  finishTransfer a err _ := finishTransfer a err
  addTracker _ _ := ⟨rfl, rfl, rfl, rfl⟩

end Leaves

namespace Raft

variable (r : Raft σ)

def installs (req : InstallSnapshotRequest) : Option Bytes :=
  if req.term < r.term then none
  else (reassemble r.snapReasm req).bind fun b ↦
    if b.buf.length ≤ maxReassembledSnapshotBytes ∧ req.done ∧ r.commitIndex < req.lastIncludedIndex
    then some b.buf else none

variable {data : Bytes} {req : InstallSnapshotRequest}

theorem of_installs
    (h : r.installs req = some data) :
    r.term ≤ req.term ∧ req.done = true ∧ r.commitIndex < req.lastIncludedIndex := by
  unfold installs at h
  split at h
  · cases h
  · rename_i ht
    obtain ⟨b, -, h⟩ := Option.bind_eq_some_iff.mp h
    split at h
    · rename_i hb
      exact ⟨not_lt.mp ht, hb.2⟩
    · cases h

theorem lt_of_installs
    (h : r.installs req = some data) : r.commitIndex < req.lastIncludedIndex :=
  (r.of_installs h).2.2

theorem snapReasm_catchUp (t : ℕ) :
    (r.catchUp t).snapReasm = r.snapReasm ∧ (r.catchUp t).commitIndex = r.commitIndex := by
  unfold catchUp
  split
  · rw [failPendingFutures_eq]
    exact ⟨rfl, rfl⟩
  · exact ⟨rfl, rfl⟩

theorem restoreSnapshotData_cases (F : FSM σ) (req : InstallSnapshotRequest) (data : Bytes) :
    ((r.restoreSnapshotData F req data).2 = false → Leaves r (r.restoreSnapshotData F req data).1) ∧
      ((r.restoreSnapshotData F req data).2 = true →
        F.restore data = some (r.restoreSnapshotData F req data).1.fsm ∧
          (r.restoreSnapshotData F req data).1.run = r.run ∧
          (r.restoreSnapshotData F req data).1.fatalErr = r.fatalErr) := by
  unfold restoreSnapshotData
  dsimp only
  cases F.restore data with
  | none => exact ⟨fun _ ↦ ⟨rfl, rfl, rfl, rfl⟩, nofun⟩
  | some fsm => exact ⟨nofun, fun _ ↦ ⟨rfl, rfl, rfl⟩⟩

theorem installSnapshot_cases (F : FSM σ) (req : InstallSnapshotRequest) (data : Bytes) :
    Leaves r (r.installSnapshot F req data) ∨
      F.restore data = some (r.installSnapshot F req data).fsm ∧
        (r.installSnapshot F req data).applyIndex = req.lastIncludedIndex ∧
        (r.installSnapshot F req data).run = r.run ∧
        (r.installSnapshot F req data).fatalErr = r.fatalErr := by
  unfold installSnapshot
  have hq := r.restoreSnapshotData_cases F req data
  generalize r.restoreSnapshotData F req data = q at hq
  obtain ⟨r₁, restored⟩ := q
  cases restored with
  | false => exact .inl (hq.1 rfl)
  | true =>
    obtain ⟨hr, hrun, hf⟩ := hq.2 rfl
    have hl := Leaves.follows.reconcileLog r₁ req.lastIncludedIndex req.lastIncludedTerm
    exact .inr ⟨hr.trans (congrArg some hl.fsm.symm), rfl, hl.run.trans hrun, hl.fatalErr.trans hf⟩

theorem handleInstallSnapshot_cases (F : FSM σ) (req : InstallSnapshotRequest) (rnd : ℕ) :
    Leaves r (r.handleInstallSnapshot F req rnd).1 ∨
      ∃ data, r.installs req = some data ∧
        F.restore data = some (r.handleInstallSnapshot F req rnd).1.fsm ∧
        (r.handleInstallSnapshot F req rnd).1.applyIndex = req.lastIncludedIndex ∧
        (r.handleInstallSnapshot F req rnd).1.run = r.run ∧
        (r.handleInstallSnapshot F req rnd).1.fatalErr = r.fatalErr := by
  unfold handleInstallSnapshot installs
  dsimp only
  split
  · exact .inl (.refl r)
  · have hc := Leaves.follows.catchUp r req.term
    obtain ⟨hb, hk⟩ := r.snapReasm_catchUp req.term
    generalize r.catchUp req.term = r₁ at hc hb hk
    rw [hb, hk]
    have hidle (x : Raft σ) (hx : Leaves r₁ x) : Leaves r x := hc.trans hx
    split
    · exact .inl (hidle _ ⟨rfl, rfl, rfl, rfl⟩)
    · rename_i b hbuf
      split_ifs with hlen hdone hle
      · exact .inl (hidle _ ⟨rfl, rfl, rfl, rfl⟩)
      · exact .inl (hidle _ ⟨rfl, rfl, rfl, rfl⟩)
      · exact .inl (hidle _ ⟨rfl, rfl, rfl, rfl⟩)
      · have hdata : (some b).bind (fun b ↦ if b.buf.length ≤ maxReassembledSnapshotBytes ∧
            req.done = true ∧ r.commitIndex < req.lastIncludedIndex then some b.buf else none) =
            some b.buf :=
          if_pos ⟨not_lt.mp hlen, by simpa using hdone, not_le.mp hle⟩
        rw [hbuf, hdata]
        rcases installSnapshot_cases _ F req b.buf with hx | ⟨hr, ha, hrun, hf⟩
        · exact .inl (hidle _ { hx with })
        · exact .inr ⟨b.buf, rfl, hr, ha, hrun.trans hc.run, hf.trans hc.fatalErr⟩

end Raft

end RaftConsensus
