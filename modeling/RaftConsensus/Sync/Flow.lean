import RaftConsensus.Sync.Turns

namespace RaftConsensus

namespace Raft

variable {σ : Type} {r r' : Raft σ} {id : ServerID}

def callOutstanding (r : Raft σ) (id : ServerID) : Bool :=
  match r.inflightReplication.lookup id with
  | some (.waiting _) | some (.snapWaiting _ _ _) => true
  | _ => false

def openSnapshot (r : Raft σ) (id : ServerID) : Raft σ :=
  (((r.resetWindow id).setReplicator id .snapStart).sendSnapshotBegin id).sendSnapshotOpen id r.term

/-- The next `replicateOnce` sends a request: `AppendEntries`, or the first chunk of the latest
snapshot, however many bytes the reader returns. -/
def Calls (r : Raft σ) (id : ServerID) : Prop :=
  (∃ req, r.replicateOnce id = r.sendAppend id req) ∨
    r.replicateOnce id = r.setReplicator id .needSnapshot ∧ ∃ s, r.snapshot.latest = some s ∧
      ∀ n done, n ≤ snapshotChunkSize → n ≤ s.data.length → (done = true → n = s.data.length) →
        (n = 0 → done = true) → ∃ send r',
          (r.openSnapshot id).inflightReplication.lookup id = some (.snapRead send) ∧
          (r.openSnapshot id).sendSnapshotChunk id send n done = some r' ∧
          r'.outbox = r.outbox ++ [.rpc id (.installSnapshot
            ⟨r.term, r.localID, s.index, s.term, 0, s.data.take n, done⟩)]

/-- There is a snapshot when the log no longer reaches down to what the follower needs. -/
def Backed (r : Raft σ) (id : ServerID) : Prop :=
  let next := (r.nextIndex.lookup id).getD (r.lastIndex + 1)
  next < r.log.firstIndex ∨ 1 < next ∧ next ≤ r.log.firstIndex → r.snapshot.latest.isSome = true

theorem openSnapshot_spec (id : ServerID) (hs : r.state = .leader) {snap : Snapshot}
    (hsnap : r.snapshot.latest = some snap) :
    (r.openSnapshot id).inflightReplication.lookup id =
        some (.snapRead ⟨r.term, snap.index, snap.term, 0, snap.data⟩) ∧
      (r.openSnapshot id).outbox = r.outbox ∧ (r.openSnapshot id).localID = r.localID := by
  have hbegin : ((r.resetWindow id).setReplicator id .snapStart).sendSnapshotBegin id =
      ((r.resetWindow id).setReplicator id .snapStart).setReplicator id (.snapOpen r.term) :=
    if_neg (not_not.mpr hs)
  unfold openSnapshot sendSnapshotOpen
  rw [hbegin, show (((r.resetWindow id).setReplicator id .snapStart).setReplicator id
    (.snapOpen r.term)).snapshot.latest = some snap from hsnap]
  exact ⟨AList.lookup_insert _, by dsimp only [setReplicator, resetWindow],
    by dsimp only [setReplicator, resetWindow]⟩

theorem calls_needSnapshot (hs : r.state = .leader) (hb : r.snapshot.latest.isSome = true)
    (h : r.replicateOnce id = r.setReplicator id .needSnapshot) : r.Calls id := by
  obtain ⟨snap, hsnap⟩ := Option.isSome_iff_exists.mp hb
  refine .inr ⟨h, snap, hsnap, fun n done hn hlen hdone h0 ↦ ?_⟩
  obtain ⟨hread, hout, hlocal⟩ := openSnapshot_spec id hs hsnap
  refine ⟨_, _, hread, sendSnapshotChunk_eq _ id hn hlen hdone h0, ?_⟩
  rw [← hout, ← hlocal]
  rfl

theorem calls_of_open (hs : r.state = .leader) (hw : r.windowFull id = false) (hb : r.Backed id) :
    r.Calls id := by
  have hstep : r.replicateOnce id = r.replicateOnceFrom r.log.firstIndex id := rfl
  unfold Backed at hb
  dsimp only at hb
  rw [replicateOnceFrom, if_neg (not_not.mpr hs), hw, if_neg Bool.false_ne_true] at hstep
  generalize (r.nextIndex.lookup id).getD (r.lastIndex + 1) = next at hb hstep
  dsimp only at hstep
  split at hstep
  · exact calls_needSnapshot hs (hb (by omega)) hstep
  · split at hstep
    · exact .inl ⟨_, hstep⟩
    · split at hstep
      · exact .inl ⟨_, hstep⟩
      · split at hstep
        · exact calls_needSnapshot hs (hb (by omega)) hstep
        · exact .inl ⟨_, hstep⟩

end Raft

variable {σ : Type} {cl : Cluster} {F : FSM σ} {w : World σ}

theorem World.Reach.flows (h : World.Reach cl F (fun w a ↦ w.asks Raft.answersInTerm a = true) w)
    {n : ServerID} {r : Raft σ} (hr : w.raft? n = some r) : r.Flows := by
  refine World.Reach.each (J := Raft.Flows) (fun cfg n d r hnew ↦ ?_)
    (fun r s r' hc _ ht hJ ↦ ?_) h hr
  · obtain ⟨c, -, rfl⟩ := Option.map_eq_some_iff.mp hnew
    exact .down nofun
  · exact (hJ.take hc ht : r'.Flows)

/-- As long as followers answer in the leader's term, a follower that no call is out to is sent
the next request. -/
theorem window_never_wedges (h : World.Reach cl F (fun w a ↦ w.asks Raft.answersInTerm a = true) w)
    {n id : ServerID} {r : Raft σ} (hr : w.raft? n = some r) (hs : r.state = .leader)
    (hout : r.callOutstanding id = false) (hb : r.Backed id) :
    r.windowFull id = false ∧ r.Calls id := by
  have hidle : r.InFlight id [] := by
    refine h.flows hr |>.idle hs fun req hreq ↦ ?_
    rw [Raft.callOutstanding, hreq] at hout
    cases hout
  exact ⟨hidle.windowFull, Raft.calls_of_open hs hidle.windowFull hb⟩

theorem window_never_wedges_electA : ∃ (w : World (List Bytes)) (r : Raft (List Bytes)),
    World.Reach threeVoters .keeping (fun w a ↦ w.asks Raft.answersInTerm a = true) w ∧
      w.raft? "A" = some r ∧ r.state = .leader ∧ r.callOutstanding "B" = false ∧
      r.windowFull "B" = false ∧ r.Calls "B" := by
  obtain ⟨w, r, hreach, hr, hs, hout, hfirst, hnext⟩ := World.exists_checked_raft threeVoters
    .keeping (·.asks Raft.answersInTerm) electA "A" (fun r ↦ r.state = .leader ∧
      r.callOutstanding "B" = false ∧ r.log.firstIndex = 1 ∧ r.nextIndex.lookup "B" = some 1)
    (by decide +kernel)
  refine ⟨w, r, hreach, hr, hs, hout, window_never_wedges hreach hr hs hout fun hlow ↦ ?_⟩
  rw [hfirst, hnext, Option.getD_some] at hlow
  omega

open Action in
/-- A is elected twice, with a restart in between, and C hears of it only when A sends it the
entry of the second term, which C cannot place. -/
def refusedBelowTerm : List Action :=
  electA ++ [.crash "A"] ++ boot "A" ++
    timeout "A" 3 ++ [deliver 2, reply 1, op "A" (.replicate "C"), deliver 4, reply 2,
    op "A" (.replicate "C")]

/-- The refusal carries the term C had before, A ignores it, and the batch stays in the window. -/
theorem wedged_refusedBelowTerm : ∃ (w : World (List Bytes)) (r : Raft (List Bytes)),
    World.Reach threeVoters .keeping (fun _ _ ↦ True) w ∧ w.raft? "A" = some r ∧ r.state = .leader ∧
      r.callOutstanding "C" = false ∧ r.windowFull "C" = true ∧
      r.replicateOnce "C" = r.setReplicator "C" .exiting := by
  obtain ⟨w, r, hreach, hr, hs, hout, hfull⟩ := World.exists_reached_raft threeVoters .keeping
    refusedBelowTerm "A" (fun r ↦ r.state = .leader ∧ r.callOutstanding "C" = false ∧
      r.windowFull "C" = true) (by decide +kernel)
  refine ⟨w, r, hreach, hr, hs, hout, hfull, ?_⟩
  unfold Raft.replicateOnce Raft.replicateOnceFrom
  rw [if_neg (not_not.mpr hs), if_pos hfull]

end RaftConsensus
