import RaftConsensus.Sync.Exchange

namespace RaftConsensus

open List

namespace Exchange

variable {σ : Type} {F : FSM σ} {id : ServerID} {T : ℕ} {x x' y : Exchange σ} {H : ℕ → Prop}

theorem Young.newWithin {l l' log : List LogEntry} (h : Young T l log) (hn : NewWithin log l l') :
    Young T l' log := by
  intro i e he ht
  by_contra hi
  rcases hn i (not_lt.mp hi) with hnone | hold
  · cases hnone.symm.trans he
  · exact hi (h i e (hold.symm.trans he) ht)

/-- The follower has gone beyond the term, and its answer says so; or it holds a new log, and its
answer stands for what it shares with the leader. -/
theorem Kept.handled (h : x.Kept H id T) {i rnd : ℕ} {req : Request} {c : Core} {resp : Response}
    (hq : x.net[i]? = some req) (hc : (x.follower.handle F rnd req).1.core = c)
    (hresp : (x.follower.handle F rnd req).2 = resp)
    (hcase : T < c.term ∧ (∀ H, Vouches H T req resp) ∨
      ∃ l, c.Follows l x.log ∧ Young T l x.log ∧
        (∀ i, i < l.length → c.log.get (i + 1) = none → (x.base req)[i]? = l[i]?) ∧
        ∀ H : ℕ → Prop, (∀ k, Shares l x.log k → H k) → Vouches H T req resp) :
    (x.handled F i req rnd).Kept (fun k ↦ H k ∨ (x.handled F i req rnd).Holds x.log k) id T := by
  have hmono : x.Kept (fun k ↦ H k ∨ (x.handled F i req rnd).Holds x.log k) id T :=
    h.mono fun _ ↦ .inl
  have hcore : (x.handled F i req rnd).follower.core = c := hc
  have hheld : (x.handled F i req rnd).held = c.logical (x.base req) := by
    rw [← hc]
    rfl
  have hnew : (x.handled F i req rnd).replies = x.replies ++ [(i, resp)] := by
    rw [← hresp]
    rfl
  refine ⟨h.indexed, h.positive, h.fits, fun a ha ↦ ?_, fun hle ↦ ?_, hmono.tracks⟩
  · rw [hnew] at ha
    rcases mem_append.mp ha with ha | ha
    · exact hmono.vouched a ha
    · cases mem_singleton.mp ha
      refine ⟨req, hq, ?_⟩
      rcases hcase with ⟨-, hv⟩ | ⟨l, hf, -, hbase, hv⟩
      · exact hv _
      · refine hv _ fun k hk ↦ .inr ?_
        unfold Holds
        rw [hcore, hheld, hf.carries.logical_eq hbase]
        exact ⟨hf.carries, hf.within, hk⟩
  · rcases hcase with ⟨hlt, -⟩ | ⟨l, hf, hy, hbase, -⟩
    · have hterm : (x.handled F i req rnd).follower.term = c.term := congrArg Core.term hcore
      omega
    · rw [hcore, hheld, hf.carries.logical_eq hbase]
      exact ⟨hf, hy⟩

theorem handle_appendEntries (r : Raft σ) (req : AppendEntriesRequest) (rnd : ℕ) :
    (r.handle F rnd (.appendEntries req)).1.core = (r.handleAppendEntries req rnd).1.core ∧
      (r.handle F rnd (.appendEntries req)).2 =
      .appendEntries (r.handleAppendEntries req rnd).2 := by
  dsimp only [Raft.handle]
  generalize r.handleAppendEntries req rnd = q
  exact ⟨rfl, rfl⟩

theorem handle_installSnapshot (r : Raft σ) (req : InstallSnapshotRequest) (rnd : ℕ) :
    (r.handle F rnd (.installSnapshot req)).1.core = (r.handleInstallSnapshot F req rnd).1.core ∧
      (r.handle F rnd (.installSnapshot req)).2 =
        .installSnapshot (r.handleInstallSnapshot F req rnd).2 := by
  dsimp only [Raft.handle]
  generalize r.handleInstallSnapshot F req rnd = q
  exact ⟨rfl, rfl⟩

theorem Kept.deliverAppend (h : x.Kept H id T) {i rnd : ℕ} {req : AppendEntriesRequest}
    (hq : x.net[i]? = some (.appendEntries req)) (hT : req.term = T) :
    (x.handled F i (.appendEntries req) rnd).Kept
      (fun k ↦ H k ∨ (x.handled F i (.appendEntries req) rnd).Holds x.log k) id T := by
  obtain ⟨hcore, hresp⟩ := handle_appendEntries (F := F) x.follower req rnd
  refine h.handled hq hcore hresp ?_
  rcases lt_or_ge T x.follower.term with hlt | hle
  · left
    unfold Raft.handleAppendEntries
    rw [if_pos (by omega)]
    exact ⟨hlt, fun _ _ ↦ nofun⟩
  · right
    obtain ⟨hf, hy⟩ := h.beside hle
    have hfits : req.Fits x.log := h.fits _ (mem_of_getElem? hq) (decide_eq_true hT)
    obtain ⟨l, hf', hnew, hbase, hok⟩ :=
      Raft.follows_handleAppendEntries hf h.indexed h.positive hfits rnd
    exact ⟨l, hf', hy.newWithin hnew, hbase, fun H hH _ hs ↦ hH _ (hok hs)⟩

theorem Kept.deliverChunk (h : x.Kept H id T) {i rnd : ℕ} {req : InstallSnapshotRequest}
    (hq : x.net[i]? = some (.installSnapshot req)) (hT : req.term = T)
    (hc : x.follower.completes F req = true) :
    (x.handled F i (.installSnapshot req) rnd).Kept
      (fun k ↦ H k ∨ (x.handled F i (.installSnapshot req) rnd).Holds x.log k) id T := by
  obtain ⟨hcore, hresp⟩ := handle_installSnapshot (F := F) x.follower req rnd
  refine h.handled hq hcore hresp ?_
  rcases lt_or_ge T x.follower.term with hlt | hle
  · left
    unfold Raft.handleInstallSnapshot
    rw [if_pos (by omega)]
    exact ⟨hlt, fun _ _ _ hle ↦ absurd hlt (not_lt.mpr hle)⟩
  · right
    obtain ⟨hf, hy⟩ := h.beside hle
    have hfits : req.lastIncludedIndex ≤ x.log.length :=
      h.fits _ (mem_of_getElem? hq) (decide_eq_true hT)
    obtain ⟨l, hf', hnew, hbase, hok⟩ :=
      Raft.follows_handleInstallSnapshot hf h.indexed h.positive hfits hc rnd
    exact ⟨l, hf', hy.newWithin hnew, hbase, fun H hH _ hdone _ ↦
      hH _ (hok hdone (hle.trans_eq hT.symm))⟩

theorem Shares.grow {l log log' : List LogEntry} {k : ℕ} (h : Shares l log k) (hl : log <+: log') :
    Shares l log' k := by
  obtain ⟨t, rfl⟩ := hl
  refine ⟨h.1.trans (by rw [length_append]; omega), ?_⟩
  rw [take_append_of_le_length h.1]
  exact h.2

theorem follows_grow {c : Core} {l log log' : List LogEntry} (h : c.Follows l log)
    (hy : Young T l log) (hl : log <+: log') (hT : ∀ e ∈ log'.drop log.length, e.term = T) :
    c.Follows l log' := by
  refine ⟨h.carries, h.within.mono hl, fun i a b ha hb hab ↦ ?_, Shares.grow h.commit hl⟩
  rcases lt_or_ge i log.length with hi | hi
  · obtain ⟨t, rfl⟩ := hl
    rw [getElem?_append_left hi] at hb
    exact Shares.grow (h.matching i a b ha hb hab) (prefix_append _ _)
  · have hmem : b ∈ log'.drop log.length := by
      refine mem_of_getElem? (i := i - log.length) ?_
      rw [getElem?_drop, Nat.add_sub_cancel' hi]
      exact hb
    exact absurd (hy i a ha (hab.trans (hT b hmem))) hi.not_gt

theorem Young.grow {l log log' : List LogEntry} (h : Young T l log) (hl : log <+: log') :
    Young T l log' := fun i e he ht ↦ (h i e he ht).trans_le hl.length_le

theorem Kept.leads (h : x.Kept H id T) (hl : x.Leading T) {r : Raft σ} {log : List LogEntry}
    (hr : x.Leads id T r log) : Kept H id T { x with leader := r, log := log } := by
  have ht := h.tracks hl
  refine ⟨hr.carries.indexed, hr.carries.positive, fun req hreq ho ↦ ?_, h.vouched, fun hle ↦ ?_,
    fun _ ↦ ?_⟩
  · have hfits := h.fits req hreq ho
    cases req with
    | appendEntries req => exact AppendEntriesRequest.Fits.mono hfits hr.grows
    | installSnapshot req => exact le_trans hfits hr.grows.length_le
    | requestVote req => trivial
    | timeoutNow => trivial
  · obtain ⟨hf, hy⟩ := h.beside hle
    exact ⟨follows_grow hf hy hr.grows hr.fresh, hy.grow hr.grows⟩
  · have hpc {pc : Replicator} (hp : r.inflightReplication.lookup id = some pc)
        (hn : idle pc = false) : x.leader.inflightReplication.lookup id = some pc := by
      rcases hr.replicator with heq | hloop
      · exact heq.symm.trans hp
      · cases hloop.symm.trans hp
        cases hn
    refine ⟨hr.carries, hr.within, fun send hp hT ↦ ?_, fun send n done hp hT ↦ ?_,
      fun send hp ↦ ht.sent send (hpc hp rfl), fun hpos ↦ ?_⟩
    · exact (ht.read send (hpc hp rfl) hT).trans hr.grows.length_le
    · obtain ⟨hle, hcall⟩ := ht.waiting send n done (hpc hp rfl) hT
      exact ⟨hle.trans hr.grows.length_le, hcall⟩
    · have hpos : 0 < (r.matchIndex.lookup id).getD 0 := hpos
      change H ((r.matchIndex.lookup id).getD 0)
      rcases hr.matched with heq | h0
      · rw [heq] at hpos ⊢
        exact ht.matched hpos
      · omega

theorem Kept.step {a : Act} (h : x.Kept H id T) (hc : x.completes F a = true)
    (hs : Step F id T x a x') : x'.Kept (fun k ↦ H k ∨ x'.Holds x'.log k) id T := by
  cases hs with
  | run hl ho hr => exact (h.run hl ho hr).mono fun _ ↦ .inl
  | reply hl hcall hq ha hr => exact (h.reply hl hcall hq ha hr).mono fun _ ↦ .inl
  | fail hl hcall hq hr => exact (h.fail hl hcall hq hr).mono fun _ ↦ .inl
  | @deliver i rnd req hq ho =>
    cases req with
    | appendEntries req => exact h.deliverAppend hq (of_decide_eq_true ho)
    | installSnapshot req =>
      refine h.deliverChunk hq (of_decide_eq_true ho) ?_
      simpa [completes, hq] using hc
    | requestVote req => cases ho
    | timeoutNow => cases ho
  | broken hq ho => cases hc
  | leads hl hr => exact (h.leads hl hr).mono fun _ ↦ .inl
  | follows hb =>
    exact { h.mono fun _ ↦ .inl with beside := hb }

/-- How an exchange begins: the leader has just been elected, so that nothing of its term has been
sent, and what it knows of the follower is nothing. -/
structure Begins (id : ServerID) (T : ℕ) (x : Exchange σ) : Prop where
  carries : x.leader.core.Carries x.log
  within : x.leader.core.Within x.log
  beside : Beside T x.follower x.held x.log
  net : ∀ req ∈ x.net, req.ofLeader T = false
  replies : x.replies = []
  matched : (x.leader.matchIndex.lookup id).getD 0 = 0
  replicator : ∀ pc send, x.leader.inflightReplication.lookup id = some pc →
    sending pc = some send → send.reqTerm ≠ T

theorem Begins.kept (h : x.Begins id T) : x.Kept H id T := by
  refine ⟨h.carries.indexed, h.carries.positive, fun req hreq ho ↦ ?_, ?_, h.beside, fun _ ↦
    ⟨h.carries, h.within, fun send hpc hT ↦ ?_, fun send n done hpc hT ↦ ?_, fun send hpc hT ↦ ?_,
      fun hpos ↦ ?_⟩⟩
  · cases (h.net req hreq).symm.trans ho
  · rw [h.replies]
    nofun
  · exact absurd hT (h.replicator _ send hpc rfl)
  · exact absurd hT (h.replicator _ send hpc rfl)
  · exact absurd hT (h.replicator _ send hpc rfl)
  · exact absurd h.matched hpos.ne'

/-- A leads term 2 with a snapshot of its first two entries; the second entry of B is
another one. -/
def compactedA : Exchange (List Bytes) where
  leader := { Raft.new (.least "A" abc) "A"
      { Disk.empty with log := ⟨Raft.leaderLog.drop 2⟩, snapshot := ⟨[⟨2, 2, abc, [1]⟩]⟩ }
        [[1]] with
    state := .leader
    term := 2
    lastIndex := 3
    lastTerm := 2
    nextIndex := AList.insert "B" 1 ∅
    inflightReplication := AList.insert "B" .loop ∅ }
  log := Raft.leaderLog
  follower := { Raft.staleB with term := 1 }
  held := Raft.staleLog
  net := []
  replies := []
  call := none

end Exchange

section Example

open Action

end Example

end RaftConsensus
