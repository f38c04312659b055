import RaftConsensus.Single.Machine
import RaftConsensus.Sync.Turns

namespace RaftConsensus

open List AList

variable {σ : Type} {payload : ℕ → Bytes}

/-- The request carries a part of the snapshot its index names, and `done` only with its end. -/
def InstallSnapshotRequest.PartOf (payload : ℕ → Bytes) (req : InstallSnapshotRequest) : Prop :=
  ∃ before after, payload req.lastIncludedIndex = before ++ (req.data ++ after) ∧
    before.length = req.offset ∧ (req.done = true → after = [])

def SnapshotSend.EndOf (payload : ℕ → Bytes) (send : SnapshotSend) : Prop :=
  ∃ before, payload send.lastIncludedIndex = before ++ send.rest ∧ before.length = send.offset

/-- The requests that `sendSnapshotTo` sends from where it stands, up to any point. Between two of
them the node may have done anything else. -/
inductive Sends (id : ServerID) : SnapshotSend → List InstallSnapshotRequest → Prop
  | stop (send : SnapshotSend) : Sends id send []
  | last {r r' : Raft σ} {send : SnapshotSend} {n : ℕ} {done : Bool} {req : InstallSnapshotRequest}
      (h : r.sendSnapshotChunk id send n done = some r')
      (hreq : r'.outbox = r.outbox ++ [.rpc id (.installSnapshot req)]) : Sends id send [req]
  | more {r r' x : Raft σ} {send send' : SnapshotSend} {n : ℕ} {done : Bool}
      {req : InstallSnapshotRequest} {reqs : List InstallSnapshotRequest}
      {resp : InstallSnapshotResponse} (h : r.sendSnapshotChunk id send n done = some r')
      (hreq : r'.outbox = r.outbox ++ [.rpc id (.installSnapshot req)])
      (hgo : (x.sendSnapshotReply id send n done resp).inflightReplication.lookup id =
        some (.snapRead send')) (hs : Sends id send' reqs) : Sends id send (req :: reqs)

def Transfer (payload : ℕ → Bytes) (reqs : List InstallSnapshotRequest) : Prop :=
  ∃ (σ : Type) (r : Raft σ) (id : ServerID) (reqTerm : ℕ) (send : SnapshotSend),
    (∀ s ∈ r.snapshot.latest, s.data = payload s.index) ∧
    (r.sendSnapshotOpen id reqTerm).inflightReplication.lookup id = some (.snapRead send) ∧
    Sends (σ := σ) id send reqs

variable {done : Bool} {n : ℕ}

theorem sendSnapshotChunk_request {r r' : Raft σ} {id : ServerID} {send : SnapshotSend}
    {req : InstallSnapshotRequest} (h : r.sendSnapshotChunk id send n done = some r')
    (hreq : r'.outbox = r.outbox ++ [.rpc id (.installSnapshot req)]) :
    req = ⟨send.reqTerm, r.localID, send.lastIncludedIndex, send.lastIncludedTerm, send.offset,
      send.rest.take n, done⟩ ∧ (done = true → n = send.rest.length) := by
  unfold Raft.sendSnapshotChunk at h
  split at h
  · rename_i hc
    cases h
    have heq := append_cancel_left hreq
    cases heq
    exact ⟨rfl, hc.2.2.1⟩
  · cases h

theorem SnapshotSend.EndOf.partOf {send : SnapshotSend} (h : send.EndOf payload)
    (hdone : done = true → n = send.rest.length) (reqTerm : ℕ) (leaderID : ServerID) :
    (⟨reqTerm, leaderID, send.lastIncludedIndex, send.lastIncludedTerm, send.offset,
      send.rest.take n, done⟩ : InstallSnapshotRequest).PartOf payload := by
  obtain ⟨before, hp, hl⟩ := h
  refine ⟨before, send.rest.drop n, ?_, hl, fun hd ↦ ?_⟩
  · dsimp only
    rw [take_append_drop, hp]
  · rw [hdone hd, drop_length]

theorem SnapshotSend.EndOf.advance {send : SnapshotSend} (h : send.EndOf payload)
    (hn : n ≤ send.rest.length) :
    SnapshotSend.EndOf payload
      { send with offset := send.offset + n, rest := send.rest.drop n } := by
  obtain ⟨before, hp, hl⟩ := h
  refine ⟨before ++ send.rest.take n, ?_, ?_⟩
  · rw [append_assoc, take_append_drop]
    exact hp
  · rw [length_append, length_take, hl]
    dsimp only
    omega

theorem Sends.partOf {id : ServerID} {send : SnapshotSend} {reqs : List InstallSnapshotRequest}
    (h : Sends (σ := σ) id send reqs) (hsend : send.EndOf payload) :
    ∀ req ∈ reqs, req.PartOf payload := by
  induction h with
  | stop => nofun
  | last h hreq =>
    obtain ⟨rfl, hdone⟩ := sendSnapshotChunk_request h hreq
    intro req hmem
    cases mem_singleton.mp hmem
    exact hsend.partOf hdone _ _
  | @more r r' x send send' n done req reqs resp h hreq hgo hs ih =>
    obtain ⟨rfl, hdone⟩ := sendSnapshotChunk_request h hreq
    have hn : n ≤ send.rest.length := by
      unfold Raft.sendSnapshotChunk at h
      split at h
      · rename_i hc
        exact hc.2.1
      · cases h
    have hnext : send' = { send with offset := send.offset + n, rest := send.rest.drop n } := by
      unfold Raft.sendSnapshotReply at hgo
      split at hgo
      · cases (lookup_insert _).symm.trans hgo
      · split at hgo
        · cases (lookup_insert _).symm.trans hgo
        · have hpc := (lookup_insert _).symm.trans hgo
          cases done with
          | true => cases hpc
          | false =>
            cases hpc
            rfl
    intro req hmem
    rcases mem_cons.mp hmem with rfl | hmem
    · exact hsend.partOf hdone _ _
    · refine ih ?_ req hmem
      rw [hnext]
      exact hsend.advance hn

theorem Transfer.partOf {reqs : List InstallSnapshotRequest} (h : Transfer payload reqs) :
    ∀ req ∈ reqs, req.PartOf payload := by
  obtain ⟨σ, r, id, reqTerm, send, hsnap, hopen, hsends⟩ := h
  refine hsends.partOf ?_
  unfold Raft.sendSnapshotOpen at hopen
  split at hopen
  · cases (lookup_insert _).symm.trans hopen
  · rename_i snap hlatest
    cases (lookup_insert _).symm.trans hopen
    exact ⟨[], (hsnap snap hlatest).symm, rfl⟩

def SnapshotReassembly.Begins (payload : ℕ → Bytes) (b : SnapshotReassembly) : Prop :=
  b.buf <+: payload b.index

theorem SnapshotReassembly.Begins.reassemble {b b' : SnapshotReassembly}
    {req : InstallSnapshotRequest} (h : b.Begins payload) (hreq : req.PartOf payload)
    (hb : Raft.reassemble b req = some b') :
    b'.Begins payload ∧ (req.done = true → b'.buf = payload req.lastIncludedIndex) := by
  obtain ⟨before, after, hp, hl, hdone⟩ := hreq
  have hsplit (buf : Bytes) (hbuf : buf = before ++ req.data) :
      buf <+: payload req.lastIncludedIndex ∧
      (req.done = true → buf = payload req.lastIncludedIndex) := by
    rw [hp, hbuf, ← append_assoc]
    refine ⟨prefix_append _ _, fun hd ↦ ?_⟩
    rw [hdone hd, append_nil]
  unfold Raft.reassemble at hb
  split at hb
  · rename_i h0
    cases hb
    refine hsplit _ ?_
    rw [length_eq_zero_iff.mp (hl.trans h0), nil_append]
  · split at hb
    · rename_i hc
      cases hb
      obtain ⟨hidx, hoff⟩ := hc
      -- the buffer has as many bytes of the snapshot as precede the chunk
      have hbuf : b.buf = before := by
        have hpre : b.buf <+: before ++ (req.data ++ after) := by
          rw [← hp, ← hidx]
          exact h
        exact (prefix_of_prefix_length_le hpre (prefix_append _ _) (by omega)).eq_of_length
          (by omega)
      have := hsplit (b.buf ++ req.data) (by rw [hbuf])
      rw [← hidx] at this ⊢
      exact this
    · cases hb

namespace Raft

variable (r : Raft σ) (req : InstallSnapshotRequest) (F G : FSM σ) (rnd : ℕ)

theorem snapReasm_handleInstallSnapshot :
    (r.handleInstallSnapshot F req rnd).1.snapReasm = r.snapReasm ∨
      (r.handleInstallSnapshot F req rnd).1.snapReasm = ⟨0, []⟩ ∨
      reassemble r.snapReasm req = some (r.handleInstallSnapshot F req rnd).1.snapReasm := by
  unfold handleInstallSnapshot
  dsimp only
  split
  · exact .inl rfl
  · have hb := (r.snapReasm_catchUp req.term).1
    generalize r.catchUp req.term = r₁ at hb
    rw [hb]
    split
    · exact .inr (.inl rfl)
    · rename_i b hbuf
      split_ifs
      · exact .inr (.inl rfl)
      · exact .inr (.inr hbuf)
      · exact .inr (.inl rfl)
      · exact .inr (.inl (Orderly.walks.installSnapshot _ F req b.buf).buffer)

theorem handleInstallSnapshot_congr
    (h : ∀ b, reassemble r.snapReasm req = some b → req.done = true →
      F.restore b.buf = G.restore b.buf) :
    r.handleInstallSnapshot F req rnd = r.handleInstallSnapshot G req rnd := by
  unfold handleInstallSnapshot
  dsimp only
  split
  · rfl
  · have hb := (r.snapReasm_catchUp req.term).1
    generalize r.catchUp req.term = r₁ at hb
    rw [hb]
    cases hbuf : reassemble r.snapReasm req with
    | none => rfl
    | some b =>
      dsimp only
      split_ifs with hlen hdone hle
      · rfl
      · rfl
      · rfl
      · have heq := h b hbuf (by simpa using hdone)
        unfold installSnapshot restoreSnapshotData
        rw [heq]

end Raft

/-- The chunks that reach the node come from transfers of these snapshots. -/
def Stimulus.Delivers (payload : ℕ → Bytes) : Stimulus → Prop
  | .request (.installSnapshot req) _ => ∃ reqs, Transfer payload reqs ∧ req ∈ reqs
  | _ => True

theorem Raft.Steps.begins {F : FSM σ} {r₀ r : Raft σ}
    (h : Raft.Steps F (fun _ s ↦ s.Delivers payload) r₀ r) (h₀ : r₀.snapReasm = ⟨0, []⟩) :
    r.snapReasm.Begins payload := by
  refine h.invariant (I := fun r ↦ r.snapReasm.Begins payload) ?_ fun r s r' hs ht hI ↦ ?_
  · rw [h₀]
    exact nil_prefix
  · change r'.snapReasm.Begins payload
    by_cases hc : ∃ req rnd, s = .request (.installSnapshot req) rnd
    · obtain ⟨req, rnd, rfl⟩ := hc
      obtain ⟨reqs, htransfer, hmem⟩ := hs
      cases ht
      change (r.handleInstallSnapshot F req rnd).1.snapReasm.Begins payload
      rcases r.snapReasm_handleInstallSnapshot req F rnd with heq | heq | heq
      · rw [heq]
        exact hI
      · rw [heq]
        exact nil_prefix
      · exact (hI.reassemble (htransfer.partOf req hmem) heq).1
    · rw [Raft.snapReasm_take (fun req rnd heq ↦ hc ⟨req, rnd, heq⟩) ht]
      exact hI

/-- Whatever chunks of whatever transfers have reached the node in whatever order, the state machine
is asked to restore only the complete snapshot that the chunk names: `installs` is what the handler
passes to it, and the handler does not depend on `Restore` at any other data. -/
theorem restores_complete {F : FSM σ} {r₀ r : Raft σ} (h₀ : r₀.snapReasm = ⟨0, []⟩)
    (h : Raft.Steps F (fun _ s ↦ s.Delivers payload) r₀ r) {reqs : List InstallSnapshotRequest}
    (hreqs : Transfer payload reqs) {req : InstallSnapshotRequest} (hreq : req ∈ reqs) (rnd : ℕ) :
    (∀ data, r.installs req = some data → data = payload req.lastIncludedIndex) ∧
      ∀ G : FSM σ, G.restore (payload req.lastIncludedIndex) =
      F.restore (payload req.lastIncludedIndex) →
        r.handleInstallSnapshot G req rnd = r.handleInstallSnapshot F req rnd := by
  have hpart := hreqs.partOf req hreq
  have hbegins := Raft.Steps.begins h h₀
  refine ⟨fun data hdata ↦ ?_, fun G hG ↦ ?_⟩
  · unfold Raft.installs at hdata
    split at hdata
    · cases hdata
    · obtain ⟨b, hb, hdata⟩ := Option.bind_eq_some_iff.mp hdata
      split at hdata
      · rename_i hc
        cases hdata
        exact (hbegins.reassemble hpart hb).2 hc.2.1
      · cases hdata
  · refine r.handleInstallSnapshot_congr req G F rnd fun b hb hdone ↦ ?_
    rw [(hbegins.reassemble hpart hb).2 hdone]
    exact hG

def snapshotA : Raft (List Bytes) :=
  { Raft.new (.least "A" abc) "A" { Disk.empty with snapshot := ⟨[⟨3, 1, abc, [1, 2, 3]⟩]⟩ } [] with
    state := .leader
    term := 1 }

def twoChunks : List InstallSnapshotRequest :=
  [⟨1, "A", 3, 1, 0, [1, 2], false⟩, ⟨1, "A", 3, 1, 2, [3], true⟩]

theorem twoChunks_transfer : Transfer (fun _ ↦ [1, 2, 3]) twoChunks := by
  refine ⟨List Bytes, snapshotA, "B", 1, ⟨1, 3, 1, 0, [1, 2, 3]⟩, fun s hs ↦ ?_,
    lookup_insert _, ?_⟩
  · cases hs
    rfl
  · have hgo : (snapshotA.sendSnapshotReply "B" ⟨1, 3, 1, 0, [1, 2, 3]⟩ 2 false
        ⟨1⟩).inflightReplication.lookup "B" = some (.snapRead ⟨1, 3, 1, 2, [3]⟩) := by
      decide +kernel
    have hchunk (send : SnapshotSend) (n : ℕ) (done : Bool)
        (hn : n ≤ 2 ^ 20 ∧ n ≤ send.rest.length ∧ (done = true → n = send.rest.length) ∧
        (n = 0 → done = true)) :=
      snapshotA.sendSnapshotChunk_eq "B" hn.1 hn.2.1 hn.2.2.1 hn.2.2.2
    exact .more (hchunk _ 2 false (by decide)) rfl hgo (.last (hchunk _ 1 true (by decide)) rfl)

/-- B has the first chunk of two when the second one comes. -/
theorem restores_complete_twoChunks : ∃ r : Raft (List Bytes),
    Raft.Steps .keeping (fun _ s ↦ s.Delivers fun _ ↦ [1, 2, 3])
      (Raft.new (.least "B" abc) "B" .empty []) r ∧
    r.installs ⟨1, "A", 3, 1, 2, [3], true⟩ = some [1, 2, 3] ∧
    ∀ data, r.installs ⟨1, "A", 3, 1, 2, [3], true⟩ = some data → data = [1, 2, 3] := by
  have hstep : Raft.Steps .keeping (fun _ s ↦ s.Delivers fun _ ↦ [1, 2, 3])
      (Raft.new (.least "B" abc) "B" .empty [])
      ((Raft.new (.least "B" abc) "B" .empty ([] : List Bytes)).handleInstallSnapshot .keeping
        ⟨1, "A", 3, 1, 0, [1, 2], false⟩ 0).1.rest :=
    .single ⟨.request (.installSnapshot ⟨1, "A", 3, 1, 0, [1, 2], false⟩) 0, _,
      ⟨twoChunks, twoChunks_transfer, mem_cons_self⟩, rfl, rfl⟩
  refine ⟨_, hstep, by decide +kernel, ?_⟩
  exact (restores_complete rfl hstep twoChunks_transfer
    (mem_cons_of_mem _ mem_cons_self) 0).1

end RaftConsensus
