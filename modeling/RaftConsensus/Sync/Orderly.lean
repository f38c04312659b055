import RaftConsensus.Single.Learner
import RaftConsensus.Single.Walk
import RaftConsensus.Sync.Window

namespace RaftConsensus

open AList

namespace Raft

variable {σ : Type} {r r' : Raft σ} {id : ServerID}

/-- Every window of a leader is empty, or holds the one batch its goroutine waits for. -/
def Flows (r : Raft σ) : Prop :=
  r.state = .leader → ∀ id, r.InFlight id [] ∨ ∃ req last,
    r.inflightReplication.lookup id = some (.waiting req) ∧ req.term = r.term ∧
      req.entries.getLast? = some last ∧ r.InFlight id [last.index]

def Fresh (r : Raft σ) : Prop := ∀ id, r.InFlight id []

/-- What every step but a chunk of a snapshot does to the windows and to the reassembly buffer. -/
structure Orderly (r r' : Raft σ) : Prop where
  flows : r.Flows → r'.Flows
  buffer : r'.snapReasm = r.snapReasm

theorem InFlight.of_windows {slots : List ℕ} (h : r.InFlight id slots)
    (hw : r'.inflightWindows.lookup id = r.inflightWindows.lookup id) : r'.InFlight id slots := by
  intro w hw'
  rw [hw] at hw'
  exact h w hw'

theorem Fresh.flows (h : r.Fresh) : r.Flows := fun _ id ↦ .inl (h id)

theorem Flows.down (h : r.state ≠ .leader) : r.Flows := fun h' ↦ absurd h' h

/-- A leader's windows stay, and so does every goroutine that waits. -/
theorem Flows.keep (h : r.Flows) (hl : r'.state = .leader → r.state = .leader ∧ r'.term = r.term)
    (hw : r'.inflightWindows = r.inflightWindows)
    (hr : ∀ id pc, r.inflightReplication.lookup id = some pc →
      r'.inflightReplication.lookup id = some pc) : r'.Flows := by
  intro hs id
  obtain ⟨hs, ht⟩ := hl hs
  rcases h hs id with h | ⟨req, last, hreq, hterm, hlast, h⟩
  · exact .inl (h.of_windows (by rw [hw]))
  · exact .inr ⟨req, last, hr id _ hreq, hterm.trans ht.symm, hlast, h.of_windows (by rw [hw])⟩

theorem Flows.of_books (h : r.Flows) (hb : r'.books = r.books) : r'.Flows := by
  simp only [books, Prod.mk.injEq] at hb
  refine h.keep (fun hl ↦ ?_) (by simp only [hb]) fun id pc hpc ↦ by simpa only [hb] using hpc
  exact ⟨by rw [← hl]; simp only [hb], by simp only [hb]⟩

theorem Flows.of_campaigns (h : r.state.campaigns = false) : r.Flows := by
  refine .down fun hs ↦ ?_
  rw [hs] at h
  cases h

theorem Flows.spawnReplication (h : r.Flows) (id : ServerID) : (r.spawnReplication id).Flows := by
  unfold Raft.spawnReplication
  split
  · exact h
  · rename_i hn
    refine h.keep (fun hl ↦ ⟨hl, rfl⟩) rfl fun x pc hpc ↦ ?_
    have hx : x ≠ id := by
      rintro rfl
      rw [lookup_eq_none.mpr hn] at hpc
      cases hpc
    exact (lookup_insert_ne hx).trans hpc

theorem inFlight_addTracker (r : Raft σ) (id : ServerID) : (r.addTracker id).InFlight id [] := by
  intro w hw
  change (r.inflightWindows.insert id (.new r.config.maxInflight)).lookup id = some w at hw
  rw [lookup_insert] at hw
  cases hw
  refine ⟨?_, rfl⟩
  change 0 < if r.config.maxInflight = 0 then 1 else r.config.maxInflight
  split <;> omega

variable {x : ServerID}

theorem lookup_addTracker (r : Raft σ) (hx : x ≠ id) :
    (r.addTracker id).inflightWindows.lookup x = r.inflightWindows.lookup x :=
  lookup_insert_ne hx

theorem Fresh.addTracker (h : r.Fresh) (id : ServerID) : (r.addTracker id).Fresh := by
  intro x
  by_cases hx : x = id
  · subst hx
    exact r.inFlight_addTracker x
  · exact (h x).of_windows (r.lookup_addTracker hx)

theorem Flows.addTracker (h : r.Flows) (id : ServerID) : (r.addTracker id).Flows := by
  intro hl x
  by_cases hx : x = id
  · subst hx
    exact .inl (r.inFlight_addTracker x)
  · have hw := r.lookup_addTracker hx
    rcases h hl x with h | ⟨req, last, hreq, hterm, hlast, h⟩
    · exact .inl (h.of_windows hw)
    · exact .inr ⟨req, last, hreq, hterm, hlast, h.of_windows hw⟩

theorem Flows.walks : Walks (fun r r' : Raft σ ↦ r.Flows → r'.Flows) where
  trans h h' hf := h' (h hf)
  same hb _ hf := hf.of_books hb
  down _ _ hs _ := .of_campaigns hs
  emit _ _ _ hf := hf
  finishTransfer r err _ hf := by
    unfold Raft.finishTransfer
    split <;> exact hf
  addTracker _ id hf := hf.addTracker id
  turn hb hf := hf.of_books hb
  halt _ hs _ := .of_campaigns hs
  retarget _ _ hf := hf
  spawnReplication _ id hf := hf.spawnReplication id

theorem snapReasm_of_books (h : r'.books = r.books) : r'.snapReasm = r.snapReasm := by
  simp only [books, Prod.mk.injEq] at h
  simp only [h]

namespace Orderly

theorem walks : Walks (Orderly : Raft σ → Raft σ → Prop) where
  trans h h' := ⟨fun hf ↦ h'.flows (h.flows hf), h'.buffer.trans h.buffer⟩
  same hb hm := ⟨Flows.walks.same hb hm, snapReasm_of_books hb⟩
  down hb hm hs := ⟨Flows.walks.down hb hm hs, (snapReasm_of_books hb).trans rfl⟩
  emit r _ hx := ⟨Flows.walks.emit r hx, rfl⟩
  finishTransfer r err hc := by
    refine ⟨Flows.walks.finishTransfer r err hc, ?_⟩
    unfold Raft.finishTransfer
    split <;> rfl
  addTracker r id := ⟨Flows.walks.addTracker r id, rfl⟩
  turn hb := ⟨Flows.walks.turn hb, snapReasm_of_books hb⟩
  halt hb hs := ⟨Flows.walks.halt hb hs, (snapReasm_of_books hb).trans rfl⟩
  retarget h hid := ⟨Flows.walks.retarget h hid, rfl⟩
  spawnReplication r id := by
    refine ⟨Flows.walks.spawnReplication r id, ?_⟩
    unfold Raft.spawnReplication
    split <;> rfl

theorem refl (r : Raft σ) : Orderly r r := walks.refl r

theorem trans {r'' : Raft σ} (h : Orderly r r') (h' : Orderly r' r'') : Orderly r r'' :=
  walks.trans h h'

theorem same (h : r'.books = r.books) : Orderly r r' := walks.turn h

theorem down (hb : r'.snapReasm = r.snapReasm) (h : r'.state ≠ .leader) : Orderly r r' :=
  ⟨fun _ ↦ .down h, hb⟩

theorem ite {c : Prop} [Decidable c] {a b : Raft σ} (ha : c → Orderly r a)
    (hb : ¬ c → Orderly r b) :
    Orderly r (if c then a else b) := walks.ite ha hb

end Orderly

theorem orderly_becomeLeader (r : Raft σ) : Orderly r r.becomeLeader := by
  have htrack : r.takeOver.trackAll.Fresh ∧ r.takeOver.trackAll.snapReasm = r.snapReasm := by
    have h : r.takeOver.Fresh ∧ r.takeOver.snapReasm = r.snapReasm := ⟨nofun, rfl⟩
    unfold trackAll
    generalize r.takeOver.electorate.allServers = servers
    generalize r.takeOver = r₁ at h
    induction servers generalizing r₁ with
    | nil => exact h
    | cons s servers ih =>
      refine ih _ ?_
      dsimp only
      split
      · exact h
      · exact ⟨h.1.addTracker s.id, h.2⟩
  have hlead : Orderly r.takeOver.trackAll r.becomeLeader := by
    unfold becomeLeader
    rw [appendNoop_eq]
    generalize r.takeOver.trackAll = r₁
    refine (Orderly.walks.appendEntry r₁ ⟨r₁.term, r₁.lastIndex + 1, .normal []⟩).trans ?_
    generalize r₁.appendEntry ⟨r₁.term, r₁.lastIndex + 1, .normal []⟩ = r₂
    refine (Orderly.walks.sendHeartbeat r₂).trans ?_
    exact .ite (fun _ ↦ .same rfl) fun _ ↦ .refl _
  exact ⟨fun _ ↦ hlead.flows htrack.1.flows, hlead.buffer.trans htrack.2⟩

theorem orderly_askVoters (r : Raft σ) (req : RequestVoteRequest) (h : r.state ≠ .leader) :
    Orderly r (r.askVoters req) := by
  refine .down ?_ (by rwa [state_askVoters])
  unfold askVoters
  generalize r.configuration.servers = servers
  clear h
  induction servers generalizing r with
  | nil => rfl
  | cons s servers ih =>
    refine (ih _).trans ?_
    dsimp only
    split <;> rfl

theorem orderly_runElection (r : Raft σ) (leaderTransfer : Bool) :
    Orderly r (r.runElection leaderTransfer) := by
  have hcampaign : Orderly r r.campaign := .down rfl nofun
  unfold runElection
  refine hcampaign.trans (.ite (fun _ ↦ orderly_becomeLeader _) fun _ ↦ orderly_askVoters _ _ nofun)

theorem orderly_startElectionWith (r : Raft σ) (alreadyPreVoted leaderTransfer : Bool) :
    Orderly r (r.startElectionWith alreadyPreVoted leaderTransfer) := by
  unfold startElectionWith
  refine .ite (fun _ ↦ ?_) fun _ ↦ r.orderly_runElection _
  unfold startPreVote
  dsimp only
  split
  · refine Orderly.trans ?_ (orderly_runElection _ _)
    exact .down rfl nofun
  · refine Orderly.trans ?_ (orderly_askVoters _ _ nofun)
    exact .down rfl nofun

theorem Flows.idle (h : r.Flows) (hs : r.state = .leader)
    (hn : ∀ req, r.inflightReplication.lookup id ≠ some (.waiting req)) : r.InFlight id [] := by
  rcases h hs id with h | ⟨req, last, hreq, -⟩
  · exact h
  · exact absurd hreq (hn req)

theorem orderly_setReplicator (pc : Replicator)
    (hid : r.Flows → r.state = .leader → r.InFlight id []) : Orderly r (r.setReplicator id pc) := by
  refine ⟨fun h hs x ↦ ?_, rfl⟩
  by_cases hx : x = id
  · subst hx
    exact .inl (hid h hs)
  · have hlook : (r.setReplicator id pc).inflightReplication.lookup x =
        r.inflightReplication.lookup x :=
      lookup_insert_ne hx
    rcases h hs x with h | ⟨req, last, hreq, hrest⟩
    · exact .inl h
    · exact .inr ⟨req, last, hlook.trans hreq, hrest⟩

theorem orderly_move {pc : Replicator} (hpc : r.inflightReplication.lookup id = some pc)
    (hne : ∀ req, pc ≠ .waiting req) (pc' : Replicator) : Orderly r (r.setReplicator id pc') := by
  refine orderly_setReplicator pc' fun h hs ↦ h.idle hs fun req hreq ↦ ?_
  cases hpc.symm.trans hreq
  exact hne req rfl

theorem lookup_addToWindow (r : Raft σ) (req : AppendEntriesRequest) (hx : x ≠ id) :
    (r.addToWindow id req).inflightWindows.lookup x = r.inflightWindows.lookup x := by
  unfold Raft.addToWindow
  split
  · exact lookup_insert_ne hx
  · rfl

theorem lookup_resetWindow (r : Raft σ) (hx : x ≠ id) :
    (r.resetWindow id).inflightWindows.lookup x = r.inflightWindows.lookup x := by
  unfold Raft.resetWindow
  dsimp only
  split
  · exact lookup_insert_ne hx
  · rfl

theorem lookup_recordMatch (r : Raft σ) (i : ℕ) (hx : x ≠ id) :
    (r.recordMatch id i).inflightWindows.lookup x = r.inflightWindows.lookup x := by
  unfold Raft.recordMatch
  dsimp only
  split
  · exact lookup_insert_ne hx
  · rfl

theorem Flows.update (h : r.Flows) (hs : r'.state = r.state) (ht : r'.term = r.term)
    (hw : ∀ x, x ≠ id → r'.inflightWindows.lookup x = r.inflightWindows.lookup x)
    (hr : ∀ x, x ≠ id →
      r'.inflightReplication.lookup x = r.inflightReplication.lookup x)
    (hid : r'.state = .leader → r'.InFlight id [] ∨ ∃ req last,
      r'.inflightReplication.lookup id = some (.waiting req) ∧ req.term = r'.term ∧
        req.entries.getLast? = some last ∧ r'.InFlight id [last.index]) : r'.Flows := by
  intro hl x
  by_cases hx : x = id
  · subst hx
    exact hid hl
  · rcases h (hs.symm.trans hl) x with h | ⟨req, last, hreq, hterm, hlast, h⟩
    · exact .inl (h.of_windows (hw x hx))
    · exact .inr ⟨req, last, (hr x hx).trans hreq, hterm.trans ht.symm, hlast,
        h.of_windows (hw x hx)⟩

theorem Flows.reset (h : r.Flows) (hs : r.state = .leader) (id : ServerID) :
    (r.resetWindow id).InFlight id [] := by
  rcases h hs id with h | ⟨_, _, -, -, -, h⟩
  · exact h.resetWindow
  · exact h.resetWindow

theorem orderly_resetWindow (r : Raft σ) (id : ServerID) : Orderly r (r.resetWindow id) := by
  refine ⟨fun h ↦ ?_, rfl⟩
  exact h.update rfl rfl (fun x hx ↦ r.lookup_resetWindow hx)
    (fun _ _ ↦ rfl) fun hl ↦ .inl (h.reset hl id)

theorem orderly_sendAppend {req : AppendEntriesRequest} (ht : req.term = r.term)
    (hid : r.Flows → r.state = .leader → r.InFlight id []) : Orderly r (r.sendAppend id req) := by
  have hcore := (r.quiet_addToWindow id req).core
  have hs : (r.sendAppend id req).state = r.state := congrArg Core.state hcore
  have hterm : (r.sendAppend id req).term = r.term := congrArg Core.term hcore
  have hrepl : (r.addToWindow id req).inflightReplication = r.inflightReplication :=
    congrArg Core.inflightReplication hcore
  have hbuffer : (r.addToWindow id req).snapReasm = r.snapReasm := by
    unfold addToWindow
    split <;> rfl
  refine ⟨fun h ↦ h.update hs hterm (fun x hx ↦ r.lookup_addToWindow req hx)
    (fun x hx ↦ ?_) fun hl ↦ ?_,
    hbuffer⟩
  · rw [← hrepl]
    exact lookup_insert_ne hx
  · have hempty := hid h (hs.symm.trans hl)
    cases hlast : req.entries.getLast? with
    | none =>
      refine .inl (hempty.of_windows ?_)
      change (r.addToWindow id req).inflightWindows.lookup id = r.inflightWindows.lookup id
      unfold Raft.addToWindow
      rw [hlast]
    | some last =>
      exact .inr ⟨req, last, lookup_insert _, ht.trans hterm.symm, hlast,
        hempty.addToWindow hlast⟩

theorem orderly_replicateOnce (hid : r.Flows → r.state = .leader → r.InFlight id []) :
    Orderly r (r.replicateOnce id) := by
  have hset (pc : Replicator) : Orderly r (r.setReplicator id pc) := orderly_setReplicator pc hid
  unfold replicateOnce replicateOnceFrom
  refine .ite (fun _ ↦ hset _) fun _ ↦ .ite (fun _ ↦ hset _) fun _ ↦ .ite
    (fun _ ↦ hset _) fun _ ↦ ?_
  refine .ite (fun _ ↦ orderly_sendAppend rfl hid) fun _ ↦ ?_
  split
  · exact orderly_sendAppend rfl hid
  · exact .ite (fun _ ↦ hset _) fun _ ↦ orderly_sendAppend rfl hid

theorem orderly_replicateStep (hstep : r.replicateStep id = some r') : Orderly r r' := by
  unfold replicateStep at hstep
  split at hstep
  case h_1 hpc =>
    cases hstep
    refine orderly_replicateOnce fun h hs ↦ h.idle hs fun req hreq ↦ ?_
    cases hpc.symm.trans hreq
  case h_2 hpc =>
    cases hstep
    have hpc' : (r.resetWindow id).inflightReplication.lookup id = some .needSnapshot := hpc
    exact (r.orderly_resetWindow id).trans (orderly_move hpc' nofun .snapStart)
  case h_3 hpc =>
    cases hstep
    exact .ite (fun _ ↦ orderly_move hpc nofun _) fun _ ↦ orderly_move hpc nofun _
  case h_4 reqTerm hpc =>
    cases hstep
    unfold sendSnapshotOpen
    split <;> exact orderly_move hpc nofun _
  case h_5 hpc =>
    cases hstep
    refine ⟨fun h ↦ h.update rfl rfl (fun _ _ ↦ rfl)
      (fun x hx ↦ lookup_erase_ne hx) fun hl ↦ .inl ?_,
      rfl⟩
    refine h.idle hl fun req hreq ↦ ?_
    cases hpc.symm.trans hreq
  case h_6 => cases hstep

theorem sendSnapshotChunk_eq (r : Raft σ) (id : ServerID) {send : SnapshotSend} {n : ℕ}
    {done : Bool} (hn : n ≤ snapshotChunkSize) (hlen : n ≤ send.rest.length)
    (hdone : done = true → n = send.rest.length) (h0 : n = 0 → done = true) :
    r.sendSnapshotChunk id send n done =
      some ((r.setReplicator id (.snapWaiting send n done)).emit (.rpc id (.installSnapshot
        ⟨send.reqTerm, r.localID, send.lastIncludedIndex, send.lastIncludedTerm, send.offset,
          send.rest.take n, done⟩))) :=
  if_pos ⟨hn, hlen, hdone, h0⟩

theorem orderly_acknowledge {req : AppendEntriesRequest}
    (hpc : r.inflightReplication.lookup id = some (.waiting req)) (now : ℤ) :
    Orderly r (r.acknowledge id req now) ∧ (r.Flows → (r.acknowledge id req now).state = .leader →
      (r.acknowledge id req now).InFlight id []) := by
  have hnote := Orderly.walks.noteAck r id now
  have hcore := (r.quiet_noteAck id now).core
  have hrepl : (r.noteAck id now).inflightReplication = r.inflightReplication :=
    congrArg Core.inflightReplication hcore
  unfold Raft.acknowledge
  generalize r.noteAck id now = r₁ at hnote hrepl
  rw [← hrepl] at hpc
  cases hlast : req.entries.getLast? with
  | none =>
    refine ⟨hnote, fun hf hl ↦ ?_⟩
    rcases hnote.flows hf hl id with h | ⟨req', last, hreq, -, hlast', -⟩
    · exact h
    · cases hpc.symm.trans hreq
      rw [hlast] at hlast'
      cases hlast'
  | some last =>
    have hempty (hf : r₁.Flows) (hl : r₁.state = .leader) :
        (r₁.recordMatch id last.index).InFlight id [] := by
      rcases hf hl id with h | ⟨req', last', hreq, -, hlast', h⟩
      · exact h.recordMatch (.inl rfl)
      · cases hpc.symm.trans hreq
        rw [hlast] at hlast'
        cases hlast'
        exact h.recordMatch (.inr rfl)
    have hrecord : Orderly r₁ (r₁.recordMatch id last.index) :=
      ⟨fun hf ↦ hf.update rfl rfl (fun x hx ↦ r₁.lookup_recordMatch _ hx) (fun _ _ ↦ rfl)
        fun hl ↦ .inl (hempty hf hl), rfl⟩
    exact ⟨hnote.trans hrecord, fun hf hl ↦ hempty (hnote.flows hf) hl⟩

theorem windows_backOff (r : Raft σ) (id : ServerID) (resp : AppendEntriesResponse) :
    (r.backOff id resp).inflightWindows = r.inflightWindows := by
  unfold backOff
  dsimp only
  split_ifs <;> rfl

theorem Flows.replicateOnceReply {req : AppendEntriesRequest}
    {resp : AppendEntriesResponse} {now : ℤ} (h : r.Flows)
    (hpc : r.inflightReplication.lookup id = some (.waiting req))
    (hterm : r.state = .leader → req.term = r.term → req.entries ≠ [] → ¬ resp.term < r.term) :
    (r.replicateOnceReply id req resp now).Flows := by
  -- a batch that is still counted is one of this term and has entries
  have hempty (hx : req.term ≠ r.term ∨ req.entries = []) (hs : r.state = .leader) :
      r.InFlight id [] := by
    rcases h hs id with h | ⟨req', last, hreq, ht, hlast, -⟩
    · exact h
    · cases hpc.symm.trans hreq
      rcases hx with hx | hx
      · exact absurd ht hx
      · rw [hx] at hlast
        cases hlast
  have hset (hx : req.term ≠ r.term ∨ req.entries = []) : (r.setReplicator id .exiting).Flows :=
    (orderly_setReplicator _ fun _ ↦ hempty hx).flows h
  unfold Raft.replicateOnceReply
  by_cases hs : r.state = .leader
  · rw [if_neg (not_not.mpr hs)]
    split
    · exact .down nofun
    · split
      · refine hset ?_
        by_contra hx
        rw [not_or, not_not] at hx
        have := hterm hs hx.1 hx.2
        omega
      · split
        · exact hset (.inl ‹_›)
        · split
          · obtain ⟨hack, hidle⟩ := orderly_acknowledge hpc now
            generalize r.acknowledge id req now = r₁ at hack hidle
            have hcommit : Orderly r₁ r₁.advanceCommitIndex := .same rfl
            have hflows := (hack.trans hcommit).flows h
            dsimp only
            split <;> exact (orderly_setReplicator _ fun _ ↦ hidle h).flows hflows
          · have hback := Orderly.walks.backOff (r.resetWindow id) id resp
            have hflows := ((r.orderly_resetWindow id).trans hback).flows h
            refine (orderly_setReplicator _ fun _ hl ↦ ?_).flows hflows
            exact (h.reset hs id).of_windows (by rw [windows_backOff])
  · rw [if_pos hs]
    exact .down hs

theorem snapReasm_replicateOnceReply {req : AppendEntriesRequest}
    (resp : AppendEntriesResponse) (now : ℤ)
    (hpc : r.inflightReplication.lookup id = some (.waiting req)) :
    (r.replicateOnceReply id req resp now).snapReasm = r.snapReasm := by
  unfold Raft.replicateOnceReply
  split
  · rfl
  · split
    · exact (Orderly.walks.failPendingFutures r).buffer
    · split
      · rfl
      · split
        · rfl
        · split
          · have hack := (orderly_acknowledge hpc now).1.buffer
            dsimp only
            split <;> exact hack
          · exact (Orderly.walks.backOff (r.resetWindow id) id resp).buffer

theorem orderly_replicateOnceError {req : AppendEntriesRequest}
    (hpc : r.inflightReplication.lookup id = some (.waiting req)) :
    Orderly r (r.replicateOnceError id req) := by
  unfold replicateOnceError
  split
  · rename_i hnil
    refine orderly_setReplicator _ fun h hs ↦ ?_
    rcases h hs id with h | ⟨req', last, hreq, -, hlast, -⟩
    · exact h
    · cases hpc.symm.trans hreq
      rw [hnil] at hlast
      cases hlast
  · refine ⟨fun h ↦ ?_, rfl⟩
    have hreset (hs : (r.resetWindow id).state = .leader) := h.reset hs id
    exact (orderly_setReplicator _ fun _ ↦ hreset).flows ((r.orderly_resetWindow id).flows h)

end Raft

end RaftConsensus
