import RaftConsensus.Does.Apply

namespace RaftConsensus

variable {σ : Type} {R : Rules} {L : Warrant} {inp : Input}

namespace Raft

variable (r : Raft σ)

section Take

variable {index term : ℕ} {config : Configuration} {data : Bytes}

variable (hT : L.turn)

include hT

theorem does_snapshotBegin (F : FSM σ) (hR : R.snapshot) (h : r.run = .select) :
    Does R L inp r (r.snapshotBegin F) := by
  unfold snapshotBegin
  split
  · exact r.does_goto hT (.begin false h)
  · exact r.does_goto hT (.snapshot _ _ h hR)

theorem does_gotoSnapshot {pc : RunPC} {i : ℕ} (h : r.run.snapshot? = some i)
    (hp : pc.snapshot? = some i) : Does R L inp r { r with run := pc } :=
  r.does_goto hT (.snapshotting h hp)

theorem does_snapshotTerm (h : r.run = .snapshotTerm index config data) :
    Does R L inp r (r.snapshotTerm index config data) := by
  have hs : r.run.snapshot? = some index := by rw [h]; rfl
  refine .ite (fun _ ↦ r.does_gotoSnapshot hT hs rfl) fun _ ↦ ?_
  split
  · exact r.does_gotoSnapshot hT hs rfl
  · exact r.does_gotoSnapshot hT hs rfl

theorem does_snapshotCreate (h : r.run = .snapshotCreate index term config data) :
    Does R L inp r (r.snapshotCreate index term config data) := by
  have hs : r.run.snapshotting = true := by rw [h]; rfl
  have hd : Does R L inp r
      { r with snapshot := r.snapshot.create ⟨index, term, config, data⟩ }.checkpoint :=
    .write (.createSnapshot _ (.inl hs) (.inl hT)) rfl rfl
  refine hd.trans (does_gotoSnapshot _ (i := index) hT ?_ rfl)
  rw [show ({ r with snapshot := r.snapshot.create ⟨index, term, config, data⟩ } :
    Raft σ).checkpoint.run = _ from h]
  rfl

theorem does_snapshotCompact (h : r.run = .snapshotCompact index) :
    Does R L inp r (r.snapshotCompact index) := by
  have hs : r.run.snapshot? = some index := by rw [h]; rfl
  have hd : Does R L inp r { r with log := r.log.compact index }.checkpoint := by
    refine ⟨⟨[], (List.append_nil _).symm, ?_⟩, fun x hx ↦ ?_⟩
    all_goals
      have hp : Path R L inp r.core [] { r.core with log := r.log.compact index } := by
        unfold LogStore.compact
        split
        · exact .refl
        · exact .one (.compact _ _ (.inl hs) (.inl hT))
    · exact hp
    · rcases List.mem_append.mp hx with hx | hx
      · exact .inl hx
      · refine .inr ⟨[], _, hp, ?_⟩
        rw [List.mem_singleton.mp hx, List.append_nil]
        rfl
  exact hd.trans (does_gotoSnapshot _ (i := index) hT hs rfl)

theorem does_snapshotDone (h : r.run = .snapshotDone index) :
    Does R L inp r (r.snapshotDone index) := by
  have hs : r.run.snapshot? = some index := by rw [h]; rfl
  exact (r.does_goto hT (.snapshotted hs)).trans (.same rfl rfl rfl)

theorem does_restoreBegin (F : FSM σ) (future : ℕ) (data : Bytes) (hR : R.restore)
    (hL : L.refuse future) (h : r.run = .select) :
    Does R L inp r (r.restoreBegin F future data) := by
  unfold restoreBegin
  split
  · exact (r.does_goto hT (.begin false h)).trans (.emit (.refuse future _ hL))
  · exact (r.does_goto hT (.restoring future h hR)).trans (.same rfl rfl rfl)

theorem does_restoreEnd {future : ℕ} (h : r.run = .restored future) :
    Does R L inp r (r.restoreEnd future) := by
  have hd : Does R L inp r (({ r with
        applyIndex := 0, commitIndex := 0, lastIndex := 0, lastTerm := 0 } : Raft σ).respond
          future none 0 0 []) :=
    .one (.restore future h) rfl rfl
  exact (hd.trans (does_goto _ hT (.restored h))).trans (.same rfl rfl rfl)

end Take

section Send

variable {id : ServerID} (hid : id ∈ r.inflightReplication)

include hid

theorem does_sendSnapshotBegin : Does R L inp r (r.sendSnapshotBegin id) :=
  .ite (fun _ ↦ r.does_setReplicator _ (.inl hid)) fun _ ↦ r.does_setReplicator _ (.inl hid)

theorem does_sendSnapshotOpen (reqTerm : ℕ) : Does R L inp r (r.sendSnapshotOpen id reqTerm) := by
  unfold sendSnapshotOpen
  split
  · exact r.does_setReplicator _ (.inl hid)
  · exact r.does_setReplicator _ (.inl hid)

theorem does_sendSnapshotChunk {send : SnapshotSend} {n : ℕ} {done : Bool} {r' : Raft σ}
    (hR : R.snapshot) (h : r.sendSnapshotChunk id send n done = some r') : Does R L inp r r' := by
  unfold sendSnapshotChunk at h
  split at h
  · cases h
    refine (r.does_setReplicator _ (.inl hid)).trans (.emit (.sendSnapshot id _ ?_ hR))
    exact AList.mem_insert _ |>.mpr (.inl rfl)
  · cases h

theorem does_sendSnapshotReply (send : SnapshotSend) (n : ℕ) (done : Bool)
    {resp : InstallSnapshotResponse} (hb : inp.Brings resp.term) :
    Does R L inp r (r.sendSnapshotReply id send n done resp) := by
  unfold sendSnapshotReply
  refine .ite (fun ht ↦ ?_) fun _ ↦ .ite (fun _ ↦ ?_) fun _ ↦ ?_
  · refine (r.does_stepDownOnReply ht hb).trans (does_setReplicator _ _ (.inl ?_))
    rwa [inflight_stepDownOnReply]
  · exact r.does_setReplicator _ (.inl hid)
  · exact r.does_setReplicator _ (.inl hid)

theorem does_sendSnapshotEnd (send : SnapshotSend) (hR : R.snapshot) :
    Does R L inp r (r.sendSnapshotEnd id send r.clock) := by
  unfold sendSnapshotEnd
  dsimp only
  split
  · rename_i hs
    have hack : Does R L inp r { r.raiseMatch id send.lastIncludedIndex with
        heartbeatAcks := r.heartbeatAcks.insert id r.clock } :=
      .move (.ackSnapshot id _ hR) rfl rfl
    refine (hack.trans (does_advanceCommitIndex _ hs.1)).trans (does_setReplicator _ _ (.inl ?_))
    exact hid
  · exact r.does_setReplicator _ (.inl hid)

end Send

section Install

variable {req : InstallSnapshotRequest} (hi : inp = .request (.installSnapshot req))
  (hO : ∀ c : Core, c.commitIndex = r.commitIndex → c.state = r.state →
    c.pendingFutures = r.pendingFutures → L.obey c (.installSnapshot req))

include hi hO

theorem does_deleteRange (p : Prop) [Decidable p] (lo hi' : ℕ) : Does R L inp r
    (if p then { r with log := r.log.deleteRange lo hi' }.checkpoint else r) :=
  .ite (fun _ ↦ .write (.compact lo hi' (.inr ⟨req, hi, hO _ rfl rfl rfl⟩)
    (.inr ⟨req, hi⟩)) rfl rfl) fun _ ↦ .refl r

theorem does_install {lastIndex lastTerm : ℕ} (hc : r.commitIndex < req.lastIncludedIndex)
    (hl : req.lastIncludedIndex ≤ lastIndex)
    (hx : r.lastIndex ≤ lastIndex ∨ ∀ i, r.log.get i = none)
    (hs : ∃ s ∈ r.snapshot.snapshots, s.index = req.lastIncludedIndex) : Does R L inp r
      { r with
        lastIndex := lastIndex
        lastTerm := lastTerm
        commitIndex := req.lastIncludedIndex
        applyIndex := req.lastIncludedIndex }.persistCommitIndex :=
  .move (.install req lastIndex lastTerm hi hc hl hx (hO _ rfl rfl rfl) hs) rfl rfl

theorem does_reconcileLog (hc : r.commitIndex < req.lastIncludedIndex)
    (hs : ∃ s ∈ r.snapshot.snapshots, s.index = req.lastIncludedIndex) : Does R L inp r
    { r.reconcileLog req.lastIncludedIndex req.lastIncludedTerm with
      commitIndex := req.lastIncludedIndex
      applyIndex := req.lastIncludedIndex }.persistCommitIndex := by
  unfold reconcileLog
  split
  · generalize (if r.log.firstIndex = 0 then 1 else r.log.firstIndex) = first
    have hd : Does R L inp r (if first ≤ req.lastIncludedIndex then
        { r with log := r.log.deleteRange first req.lastIncludedIndex }.checkpoint else r) :=
      r.does_deleteRange hi hO _ _ _
    obtain ⟨log, hcore⟩ : ∃ log, (if first ≤ req.lastIncludedIndex then
        { r with log := r.log.deleteRange first req.lastIncludedIndex }.checkpoint else r).core =
          { r.core with log := log } := by
      split
      · exact ⟨_, rfl⟩
      · exact ⟨r.log, rfl⟩
    dsimp only
    generalize (if first ≤ req.lastIncludedIndex then
      { r with log := r.log.deleteRange first req.lastIncludedIndex }.checkpoint else r) = r₁
      at hd hcore
    have hk : r₁.commitIndex = r.commitIndex := congrArg Core.commitIndex hcore
    have hO₁ (c : Core) (hk' : c.commitIndex = r₁.commitIndex) (hs' : c.state = r₁.state)
        (hf' : c.pendingFutures = r₁.pendingFutures) : L.obey c (.installSnapshot req) :=
      hO c (hk'.trans hk) (hs'.trans (congrArg Core.state hcore))
        (hf'.trans (congrArg Core.pendingFutures hcore))
    rw [← hk] at hc
    rw [← show r₁.snapshot = r.snapshot from congrArg Core.snapshot hcore] at hs
    split
    · rename_i hlt
      exact hd.trans (r₁.does_install hi hO₁ hc le_rfl (.inl hlt.le) hs)
    · exact hd.trans (r₁.does_install hi hO₁ hc (by omega) (.inl le_rfl) hs)
  · have hd : Does R L inp r (if 0 < r.log.lastIndex ∧ r.log.firstIndex ≤ r.log.lastIndex then
        { r with log := r.log.deleteRange r.log.firstIndex r.log.lastIndex }.checkpoint else r) :=
      r.does_deleteRange hi hO _ _ _
    refine hd.trans (does_install _ hi ?_ ?_ le_rfl (.inr fun i ↦ ?_) ?_)
    · split <;> exact hO
    · split <;> exact hc
    · refine Eq.trans ?_ (r.log.get_discarded i)
      split <;> rfl
    · split <;> exact hs

theorem does_installSnapshot (F : FSM σ) (data : Bytes)
    (hc : r.commitIndex < req.lastIncludedIndex) :
    Does R L inp r (r.installSnapshot F req data) := by
  let snap : Snapshot := ⟨req.lastIncludedIndex, req.lastIncludedTerm, r.configuration, data⟩
  have hd : Does R L inp r { r with snapshot := r.snapshot.create snap }.checkpoint :=
    .write (.createSnapshot snap (.inr ⟨req, hi⟩) (.inr ⟨req, hi⟩)) rfl rfl
  unfold installSnapshot restoreSnapshotData
  dsimp only
  cases F.restore data with
  | none => exact hd
  | some fsm =>
    refine Does.trans ?_ (does_reconcileLog _ hi hO hc ⟨snap, List.mem_cons_self, rfl⟩)
    exact hd.trans (.same rfl rfl rfl)

omit hO in
theorem does_handleInstallSnapshot (F : FSM σ) (rnd : ℕ)
    (hO : ∀ c : Core, r.core.Heard req.term c → L.obey c (.installSnapshot req)) :
    Does R L inp r (r.handleInstallSnapshot F req rnd).1 := by
  unfold handleInstallSnapshot
  dsimp only
  split
  · exact .refl r
  · rename_i hlt
    have hb : inp.Brings req.term := by
      rw [hi]
      rfl
    have hd : Does R L inp r (r.catchUp req.term) := r.does_catchUp hb
    have hheard := r.heard_catchUp (not_lt.mp hlt)
    generalize r.catchUp req.term = r₁ at hd hheard
    have hO₁ (c : Core) (hk : c.commitIndex = r₁.commitIndex) (hs : c.state = r₁.state)
        (hf : c.pendingFutures = r₁.pendingFutures) : L.obey c (.installSnapshot req) := by
      refine hO c ⟨hk.trans hheard.1, ?_⟩
      rw [Core.Settled, hk, hs, hf]
      exact hheard.2
    have hd₁ : Does R L inp r { r₁ with
        leaderID := req.leaderID, electionTicks := r₁.randomElectionTickCount rnd } :=
      hd.trans (.same rfl rfl rfl)
    split
    · exact hd₁.trans (.same rfl rfl rfl)
    · split
      · exact hd₁.trans (.same rfl rfl rfl)
      · split
        · exact hd₁.trans (.same rfl rfl rfl)
        · split
          · exact hd₁.trans (.same rfl rfl rfl)
          · refine Does.trans ?_ (does_installSnapshot _ hi ?_ F _ (not_le.mp ‹_›))
            · exact hd₁.trans (.same rfl rfl rfl)
            · exact hO₁

end Install

end Raft

end RaftConsensus
