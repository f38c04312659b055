import RaftConsensus.Leadership.Ballots

namespace RaftConsensus

open List Option LogStore World

variable {cl : Cluster} {R : Rules} {L : Licence} {since : ℕ} {t : Trace} {n : ServerID}
  {c c' : Core} {calls : List ℕ} {inp : Input} {out : List Effect} {allowed : ℕ → Set Electorate}

variable {req : RequestVoteRequest} {who : ServerID}

theorem BallotsKept.publish_vote {term : ℕ} (h : BallotsKept L t)
    (hc : VotesCounted L (t.publish n out)) (hw : who ≠ "")
    (hold : ∀ who', (n, .voted who' term) ∈ t.history → who' = who)
    (hv : ∀ who' τ, .note (.voted who' τ) ∈ out → who' = who ∧ τ = term)
    (ha : ∀ target req, .rpc target req ∈ out →
      ∃ ask, req = .requestVote ask ∧ ask.candidateID ≠ "" ∧ ask.lastLogTerm < ask.term) :
    BallotsKept L (t.publish n out) := by
  refine h.publish hc (fun who' τ hmem ↦ ?_) (fun target req hmem _ ↦ ?_) (fun target req hmem ↦ ?_)
    fun target req hmem ↦ ?_
  · obtain ⟨rfl, rfl⟩ := hv who' τ hmem
    refine ⟨hw, fun who'' hmem' ↦ ?_⟩
    rcases mem_append.mp hmem' with hmem' | hmem'
    · exact hold who'' hmem'
    · exact (hv who'' τ (mem_eventsOf.mp hmem').2).1
  all_goals
    obtain ⟨ask, heq, hask⟩ := ha _ _ hmem
    cases heq
  exact hask

theorem NodeKeeps.votes_once (h : NodeKeeps t n c)
    (ha : BallotsKept L t) (ho : t.Offers since n calls inp)
    (hi : inp = .request (.requestVote req)) (hp : req.preVote = false) (ht : req.term = c.term)
    (hv : c.votedFor = "" ∨ c.votedFor = req.candidateID)
    (hl : req.logOK c.lastIndex c.lastTerm = true) (hmem : (n, .voted who c.term) ∈ t.history) :
    who = req.candidateID := by
  obtain ⟨p, hpmem, -, hreq⟩ := ho.request_inv hi
  have hlast := (ha.asks p hpmem req ⟨hreq, hp⟩).2
  rcases h.voted who hmem with heq | ⟨-, hend, -⟩
  · rcases hv with hempty | hcand
    · exact absurd (heq.symm.trans hempty) (ha.named n who _ hmem)
    · exact heq.symm.trans hcand
  · simp only [RequestVoteRequest.logOK, Bool.or_eq_true, Bool.and_eq_true, decide_eq_true_eq] at hl
    omega

theorem BallotsKept.candidate_named (ha : BallotsKept L t)
    (ho : t.Offers since n calls inp) (hi : inp = .request (.requestVote req))
    (hp : req.preVote = false) : req.candidateID ≠ "" := by
  obtain ⟨p, hpmem, -, hreq⟩ := ho.request_inv hi
  exact (ha.asks p hpmem req ⟨hreq, hp⟩).1

theorem DiskKeeps.sameTerm {d' : Disk} (h : DiskKeeps t n c.disk) (hn : NodeKeeps t n c)
    (ht : d'.stable.term = some c.term) (hlog : d'.log = c.log) (hs : d'.snapshot = c.snapshot)
    (hv : ∀ who, (n, .voted who c.term) ∈ t.history → d'.stable.votedFor = some who)
    (hout : ∀ who τ, .note (.voted who τ) ∈ out → τ = c.term ∧ d'.stable.votedFor = some who) :
    DiskKeeps (t.publish n out) n d' := by
  refine ⟨fun who τ hmem ↦ ⟨c.term, ht, ?_⟩, fun i e he ↦ ?_, hs ▸ h.bare⟩
  · rcases mem_append.mp hmem with hmem | hmem
    · refine ⟨h.voted_le hn hmem, fun heq ↦ hv who (heq ▸ hmem)⟩
    · obtain ⟨rfl, hvote⟩ := hout who τ (mem_eventsOf.mp hmem).2
      exact ⟨le_rfl, fun _ ↦ hvote⟩
  · rw [ht, getD_some, hn.term]
    rw [hlog] at he
    exact h.terms i e he

theorem BallotsKept.plain (ha : BallotsKept L t) (hc : VotesCounted L (t.publish n out))
    (hd : DiskKeeps t n c.disk) (hn : NodeKeeps t n c) (hdisk : c'.disk = c.disk)
    (hlast : (c'.term, c'.lastTerm, c'.votedFor) = (c.term, c.lastTerm, c.votedFor))
    (hs : c'.state = .leader → c.state = .leader) (hr : ∀ id ∈ c'.inflightReplication, id ≠ n)
    (hrun : c'.run.snapshotting = false ∧ ∀ future, c'.run ≠ .restored future)
    (hq : ∀ x ∈ out, x.quiet = true) : DiskKeeps (t.publish n out) n c'.disk ∧
      NodeKeeps (t.publish n out) n c' ∧ BallotsKept L (t.publish n out) := by
  have hnot (who : ServerID) (τ : ℕ) : .note (.voted who τ) ∉ out := fun hmem ↦ nomatch hq _ hmem
  simp only [Prod.mk.injEq] at hlast
  obtain ⟨ht, hl, hv⟩ := hlast
  refine ⟨hdisk ▸ hd.sameVote rfl rfl (fun _ _ ↦ .inl) rfl hnot,
    hn.plain ht ?_ hl hv hs hr hrun hnot, ha.publish_quiet hc hq⟩
  exact congrArg (fun d : Disk ↦ d.stable.term.getD 0) hdisk

theorem BallotsKept.append {e : LogEntry} (ha : BallotsKept L t)
    (hc : VotesCounted L (t.publish n out)) (hd : DiskKeeps t n c.disk) (hn : NodeKeeps t n c)
    (ht : e.term = c.term) (hdisk : c'.disk = { c.disk with log := c.log.append e })
    (hlast : (c'.term, c'.lastTerm, c'.votedFor) = (c.term, e.term, c.votedFor))
    (hs : c'.state = .leader → (t.publish n out).Led n c.term)
    (hr : c'.inflightReplication = c.inflightReplication)
    (hrun : c'.run.snapshotting = false ∧ ∀ future, c'.run ≠ .restored future)
    (hq : ∀ x ∈ out, x.quiet = true) : DiskKeeps (t.publish n out) n c'.disk ∧
      NodeKeeps (t.publish n out) n c' ∧ BallotsKept L (t.publish n out) := by
  have hnot (who : ServerID) (τ : ℕ) : .note (.voted who τ) ∉ out := fun hmem ↦ nomatch hq _ hmem
  simp only [Prod.mk.injEq] at hlast
  obtain ⟨hterm, hl, hv⟩ := hlast
  refine ⟨hdisk ▸ hd.sameVote rfl rfl (fun i x hx ↦ ?_) rfl hnot,
    hn.append hterm (congrArg Disk.stable hdisk) (hl.trans ht) hv hs hr hrun hnot,
    ha.publish_quiet hc hq⟩
  refine (get_append_cases hx).imp_right ?_
  rintro rfl
  exact ht.trans_le hn.term.le

section Move

variable
  (hE : ∀ term e e', e ∈ allowed term → e' ∈ allowed term → e.Meets e')
  (hR : R.snapshot = false ∧ R.restore = false)

include hE hR

theorem KeepsBallot.move (h : KeepsBallot t n c calls)
    (ha : BallotsKept (withElectorates allowed) t) (hst : c.started = true)
    (ho : t.Offers since n calls inp) (hm : Move R (withElectorates allowed).open inp c out c') :
    DiskKeeps (t.publish n out) n c'.disk ∧ NodeKeeps (t.publish n out) n c' ∧
      BallotsKept (withElectorates allowed) (t.publish n out) := by
  have hc : VotesCounted (withElectorates allowed) (t.publish n out) :=
    (h.counts.move (fun c (hl : (withElectorates allowed).lead c) ↦ hl.1) ha.counted ho hm).2
  have hn := h.node hst
  have hd := h.disk
  have hle (who : ServerID) (term : ℕ) (hv : (n, .voted who term) ∈ t.history) : term ≤ c.term :=
    hd.voted_le hn hv
  have hterm : c.stable.term.getD 0 = c.term := hn.term.symm
  have hname : c.localID ≠ "" := h.counts.localID ▸ h.named
  cases hm with
  | raise term who hlt =>
    refine ⟨hd.newTerm (fun who τ hv ↦ (hle who τ hv).trans_lt hlt) ?_ rfl (by simp)
      (fun _ _ ↦ .inl) rfl, hn.newTerm rfl (hn.lastTerm.trans hlt.le)
      (fun who τ hv ↦ (hle who τ hv).trans_lt hlt) (by simp) (by simp [Core.raise]) rfl rfl,
      ha.publish_quiet hc (by simp)⟩
    exact hterm.trans_le hlt.le
  | campaign asks hasks =>
    have hnote (who : ServerID) (τ : ℕ)
        (hmem : .note (.voted who τ) ∈ Effect.note (.voted c.localID (c.term + 1)) :: asks) :
        who = c.localID ∧ τ = c.term + 1 := by
      rcases mem_cons.mp hmem with heq | hmem
      · cases heq
        exact ⟨rfl, rfl⟩
      · obtain ⟨_, _, _, heq⟩ := hasks _ hmem
        cases heq
    refine ⟨hd.newTerm (fun who τ hv ↦ Nat.lt_succ_of_le (hle who τ hv)) ?_ rfl ?_
      (fun _ _ ↦ .inl) rfl, hn.newTerm rfl (hn.lastTerm.trans (Nat.le_succ _))
        (fun who τ hv ↦ Nat.lt_succ_of_le (hle who τ hv)) ?_ (by simp [Core.campaigned]) rfl rfl,
      ha.publish_vote hc hname (fun who hv ↦ absurd (hle _ _ hv) (Nat.not_succ_le_self _)) hnote ?_⟩
    · exact hterm.trans_le (Nat.le_succ _)
    · intro who τ hmem
      obtain ⟨rfl, rfl⟩ := hnote who τ hmem
      exact ⟨rfl, rfl⟩
    · intro who τ hmem
      exact (hnote who τ hmem).1.symm
    · intro target req hmem
      rcases mem_cons.mp hmem with heq | hmem
      · cases heq
      · obtain ⟨_, _, _, heq⟩ := hasks _ hmem
        cases heq
        exact ⟨_, rfl, hname, Nat.lt_succ_of_le hn.lastTerm⟩
  | crown hq hlead =>
    refine ⟨hd.newTerm (fun who τ hv ↦ Nat.lt_succ_of_le (hle who τ hv)) ?_ rfl ?_ ?_ rfl,
      hn.newTerm rfl le_rfl (fun who τ hv ↦ Nat.lt_succ_of_le (hle who τ hv)) ?_
        (fun _ ↦ ⟨rfl, c.electorate, c.log, ?_⟩) rfl rfl,
      ha.publish_vote hc hname (fun who hv ↦ absurd (hle _ _ hv)
        (Nat.not_succ_le_self _)) ?_ (by simp)⟩
    · exact hterm.trans_le (Nat.le_succ _)
    · rintro who τ hmem
      simp only [mem_cons, Effect.note.injEq, Event.voted.injEq, not_mem_nil, or_false,
        reduceCtorEq] at hmem
      obtain ⟨rfl, rfl⟩ := hmem
      exact ⟨rfl, rfl⟩
    · intro i e he
      rcases get_append_cases he with hold | rfl
      · exact .inl hold
      · exact .inr le_rfl
    · rintro who τ hmem
      simp only [mem_cons, Effect.note.injEq, Event.voted.injEq, not_mem_nil, or_false,
        reduceCtorEq] at hmem
      exact hmem.1.symm
    · exact mem_append_right _ (mem_eventsOf.mpr ⟨rfl, by simp [Core.lead, Core.campaigned]⟩)
    · simp
  | storeTerm =>
    refine ⟨hd.sameTerm hn rfl rfl rfl (fun who hmem ↦ ?_)
      (by simp), ?_, ha.publish_quiet hc (by simp)⟩
    · obtain ⟨τ, hτ, -, hvote⟩ := hd.voted who c.term hmem
      refine hvote ?_
      rw [show c.stable.term = some τ from hτ] at hterm
      exact hterm.symm
    · exact hn.plain rfl hn.term rfl rfl id hn.replicas hn.run (by simp)
  | mark req hi hp ht hv hl =>
    have hone (who : ServerID) (hmem : (n, .voted who c.term) ∈ t.history) :
        req.candidateID = who :=
      (hn.votes_once ha ho hi hp ht hv hl hmem).symm
    refine ⟨hd.sameTerm hn rfl rfl rfl (fun who hmem ↦ congrArg some (hone who hmem)) (by simp), ?_,
      ha.publish_quiet hc (by simp)⟩
    rw [Trace.publish_nil]
    exact { hn with term := rfl, voted := fun who hmem ↦ .inl (hone who hmem) }
  | vote req hi hp ht hv hs hsd hl =>
    have hone (who : ServerID) (hmem : (n, .voted who c.term) ∈ t.history) :
        who = req.candidateID :=
      hn.votes_once ha ho hi hp ht (.inr hv) hl hmem
    refine ⟨hd.sameTerm hn hs rfl rfl (fun who hmem ↦ hone who hmem ▸ hsd) ?_, ?_,
      ha.publish_vote hc (ha.candidate_named ho hi hp) hone ?_ (by simp)⟩
    · intro who τ hmem
      simp only [mem_singleton, Effect.note.injEq, Event.voted.injEq] at hmem
      obtain ⟨rfl, rfl⟩ := hmem
      exact ⟨rfl, hsd⟩
    · refine ⟨hn.term, hn.lastTerm, fun who hmem ↦ .inl ?_, fun hl ↦ ?_, hn.replicas, hn.run⟩
      · rcases mem_append.mp hmem with hmem | hmem
        · exact hv.trans (hone who hmem).symm
        · have := (mem_eventsOf.mp hmem).2
          simp only [mem_singleton, Effect.note.injEq, Event.voted.injEq] at this
          exact hv.trans this.1.symm
      · exact ⟨(hn.leader hl).1, (hn.leader hl).2.publish⟩
    · intro who τ hmem
      simpa using hmem
  | setState state hs =>
    exact ha.plain hc hd hn rfl rfl (fun hl ↦ absurd hl hs.1) hn.replicas hn.run (by simp)
  | retire data hs hat =>
    obtain ⟨hlast, hled⟩ := hn.leader hs
    refine ⟨hd.sameVote rfl rfl (fun _ _ ↦ .inl) rfl (by simp), ?_, ha.publish_quiet hc (by simp)⟩
    rw [Trace.publish_nil]
    exact ⟨hn.term, hn.lastTerm, fun who _ ↦ .inr ⟨rfl, hlast, hled⟩, by simp, hn.replicas, hn.run⟩
  | lead id hs hg hq hlead =>
    refine ha.append hc hd hn rfl rfl rfl (fun _ ↦ ⟨c.electorate, c.log, ?_⟩) rfl hn.run
      (by simp [Effect.quiet])
    exact mem_append_right _ (mem_eventsOf.mpr ⟨rfl, by simp⟩)
  | propose e hi ht hs =>
    exact ha.append hc hd hn ht rfl rfl (fun hl ↦ (hn.leader hl).2.publish) rfl hn.run (by simp)
  | exit e x drain k hi ht hp =>
    exact ha.append hc hd hn ht rfl rfl (fun hl ↦ (hn.leader hl).2.publish) rfl
      ⟨rfl, by simp⟩ (by simp)
  | configure data drain k e =>
    refine ha.plain hc hd hn rfl rfl id hn.replicas ?_ (by simp)
    dsimp only [Core.afterConfiguration]
    split <;> exact ⟨rfl, by simp⟩
  | submit e future hi ht hs hp =>
    exact ha.append hc hd hn ht rfl rfl (fun hl ↦ (hn.leader hl).2.publish) rfl hn.run (by simp)
  | change e data hi ht hs hm =>
    exact ha.append hc hd hn ht rfl rfl (fun hl ↦ (hn.leader hl).2.publish) rfl hn.run (by simp)
  | copy req e hi ht he hx hag =>
    obtain ⟨p, hp, -, hreq⟩ := ho.request_inv hi
    have hle' : e.term ≤ c.term := ht ▸ (ha.appends p hp req hreq).2.2 e he
    refine ⟨hd.sameVote rfl rfl ?_ rfl (by simp), hn.follow (ht ▸ ha.not_led hE ho hi) rfl rfl hle'
      rfl rfl rfl rfl, ha.publish_quiet hc (by simp)⟩
    intro i x hx
    refine (get_append_cases hx).imp_right ?_
    rintro rfl
    exact hle'.trans hterm.ge
  | truncate req e x lastTerm hi ht he hx hne hk hag h0 hl =>
    have hlast : lastTerm ≤ c.term := by
      rcases hag with hzero | ⟨y, hy, -⟩
      · have hpos := get_pos hx
        rw [h0 (by omega)]
        exact Nat.zero_le _
      · rw [hl y hy, hn.term]
        exact hd.terms _ y hy
    refine ⟨hd.sameVote rfl rfl ?_ rfl (by simp), hn.follow (ht ▸ ha.not_led hE ho hi) rfl rfl hlast
      rfl rfl rfl rfl, ha.publish_quiet hc (by simp)⟩
    exact fun i y hy ↦ .inl (get_of_deleteRange hy)
  | replicators m hm =>
    refine ha.plain hc hd hn rfl rfl id (fun id hid ↦ ?_) hn.run (by simp)
    rcases hm id hid with hold | hnew
    · exact hn.replicas id hold
    · exact h.counts.localID ▸ hnew
  | send target req hid hs ht hl hk hw he hp =>
    refine ⟨hd.sameVote rfl rfl (fun _ _ ↦ .inl) rfl (by simp),
      hn.plain rfl rfl rfl rfl id hn.replicas hn.run (by simp), ha.publish hc (by simp)
      (by simp) ?_ (by simp)⟩
    intro target' req' hmem
    simp only [mem_singleton, Effect.rpc.injEq, Request.appendEntries.injEq] at hmem
    obtain ⟨rfl, rfl⟩ := hmem
    refine ⟨ht ▸ (hn.leader hs).2, hn.replicas _ hid, fun e hmem ↦ ?_⟩
    rw [ht, hn.term]
    exact hd.terms _ e (he e hmem)
  | goto pc hT hturn =>
    refine ha.plain hc hd hn rfl rfl id hn.replicas ⟨?_, fun future hpc ↦ ?_⟩ (by simp)
    · by_contra hsnap
      rcases hturn.snapshotting_of (by simpa using hsnap) with hold | hnew
      · rw [hn.run.1] at hold
        cases hold
      · rw [hR.1] at hnew
        cases hnew
    · have := hturn.restore_of hpc
      rw [hR.2] at this
      cases this
  | flush k hk =>
    exact ⟨hd.sameVote rfl rfl (fun _ _ ↦ .inl) rfl (by simp),
      hn.plain rfl rfl rfl rfl id hn.replicas hn.run (by simp), ha.publish_quiet hc (by simp)⟩
  | start state lastTerm hns =>
    rw [hst] at hns
    cases hns
  | createSnapshot snap hs =>
    rcases hs with hs | ⟨req, hi⟩
    · rw [hn.run.1] at hs
      cases hs
    · exact (ha.no_install ho hi).elim
  | compact lo hi' hs =>
    rcases hs with hs | ⟨req, hi, -⟩
    · have hsnap := hn.run.1
      rw [RunPC.snapshotting, hs] at hsnap
      cases hsnap
    · exact (ha.no_install ho hi).elim
  | install req lastIndex lastTerm hi => exact (ha.no_install ho hi).elim
  | restore future hr => exact absurd hr (hn.run.2 future)
  | sendSnapshot id req hid hs =>
    rw [hR.1] at hs
    cases hs
  | ackSnapshot id k hs =>
    rw [hR.1] at hs
    cases hs
  | note e he =>
    refine ha.plain hc hd hn rfl rfl id hn.replicas hn.run fun x hx ↦ ?_
    rw [mem_singleton.mp hx]
    cases e <;> first | rfl | cases he
  | call target req hr =>
    exact ha.plain hc hd hn rfl rfl id hn.replicas hn.run (by simpa [Effect.quiet] using hr)
  | fail =>
    refine ha.plain hc hd hn rfl rfl id hn.replicas hn.run fun x hx ↦ ?_
    obtain ⟨f, -, rfl⟩ := mem_map.mp hx
    rfl
  | drain hr =>
    refine ha.plain hc hd hn rfl rfl id hn.replicas hn.run fun x hx ↦ ?_
    obtain ⟨f, -, rfl⟩ := mem_map.mp hx
    split <;> rfl
  | _ => exact ha.plain hc hd hn rfl rfl id hn.replicas hn.run (by simp [Effect.quiet])

end Move

theorem KeepsBallot.boot {state : RaftState} {lastTerm : ℕ} (h : KeepsBallot t n c calls)
    (hn : c.started = false) (hst : state = .follower ∨ state = .learner)
    (hl : c.snapshot.snapshots = [] → lastTerm = c.endTerm) :
    KeepsBallot t n (c.boot state lastTerm) calls := by
  obtain ⟨cfg, hc⟩ := h.idle hn
  have h0 : c.term = 0 ∧ c.lastTerm = 0 ∧
      c.inflightReplication = ∅ := by rw [hc]; exact ⟨rfl, rfl, rfl⟩
  have hterm : (c.boot state lastTerm).term = c.stable.term.getD 0 := by rw [← h0.1]; rfl
  refine ⟨h.counts.boot state lastTerm, h.named, { h.disk with }, nofun,
    fun _ ↦ ⟨hterm, ?_, fun who hv ↦ .inl ?_, ?_, ?_, ⟨rfl, nofun⟩⟩⟩
  · rw [hterm, show (c.boot state lastTerm).lastTerm = lastTerm from rfl, hl h.disk.bare,
      Core.endTerm]
    split
    · rename_i hpos
      obtain ⟨e, he⟩ := get_lastIndex hpos
      rw [he]
      exact h.disk.terms _ e he
    · rw [h0.2.1]
      exact Nat.zero_le _
  · obtain ⟨τ, hτ, -, hvote⟩ := h.disk.voted who _ hv
    have hτ' : c.stable.term = some τ := hτ
    have hvote' : c.stable.votedFor = some who := hvote (by rw [hterm, hτ', getD_some])
    show c.stable.votedFor.getD c.votedFor = who
    rw [hvote', getD_some]
  · intro hlead
    have hlead' : state = .leader := hlead
    rcases hst with rfl | rfl <;> cases hlead'
  · intro id hid
    rw [show (c.boot state lastTerm).inflightReplication = ∅ from h0.2.2] at hid
    exact absurd hid (AList.notMem_empty id)

theorem ballots_kept (hE : ∀ term e e', e ∈ allowed term → e' ∈ allowed term → e.Meets e')
    (hR : R.early = false ∧ R.snapshot = false ∧ R.restore = false) :
    (ballots (withElectorates allowed)).Kept cl R (withElectorates allowed) since where
  frame t m n out s hne h := by
    cases s with
    | down d => exact DiskKeeps.frame hne h
    | up c calls =>
      have h : KeepsBallot t n c calls := h
      exact ⟨h.counts.publish, h.named, h.disk.frame hne, h.idle, fun hst ↦ (h.node hst).frame hne⟩
  replied t n s a h := by
    cases s with
    | down d => exact { h with }
    | up c calls =>
      have h : KeepsBallot t n c calls := h
      exact ⟨{ h.counts with }, h.named, { h.disk with }, h.idle, fun hst ↦ { h.node hst with }⟩
  move t n c c' calls inp out ha h hst ho hm := by
    have hst : c.started = true := by simpa [hR.1] using hst
    have h : KeepsBallot t n c calls := h
    obtain ⟨hd, hn, ha'⟩ := h.move hE hR.2 ha hst ho hm
    refine ⟨⟨(h.counts.move (fun c (hl : (withElectorates allowed).lead c) ↦ hl.1)
      ha.counted ho hm).1, h.named, hd, fun hns ↦ ?_, fun _ ↦ hn⟩, ha'⟩
    rw [hm.started hst] at hns
    cases hns
  boot t n c calls state lastTerm _ h hn _ hst hl := KeepsBallot.boot h hn hst hl
  idle t n c calls e ha h hn he := by
    have h : KeepsBallot t n c calls := h
    have hquiet : ∀ x ∈ [Effect.note e], x.quiet = true ∧ x.plain = true := by
      intro x hx
      rw [mem_singleton.mp hx]
      cases e <;> first | exact ⟨rfl, rfl⟩ | cases he
    have hnot (who : ServerID) (τ : ℕ)
        (hmem : Effect.note (.voted who τ) ∈ [Effect.note e]) : False := by
      cases (hquiet _ hmem).1
    refine ⟨⟨h.counts.publish, h.named, h.disk.sameVote rfl rfl (fun _ _ ↦ .inl) rfl hnot, h.idle,
      fun hst ↦ ?_⟩, BallotsKept.publish_quiet ha
        (VotesCounted.publish_plain ha.counted fun x hx ↦ (hquiet x hx).2) fun x hx ↦
        (hquiet x hx).1⟩
    rw [hn] at hst
    cases hst
  create t n d cfg _ h _ hne := ⟨⟨rfl, .inl rfl, by simp⟩, hne, h, fun _ ↦ ⟨cfg, rfl⟩, nofun⟩
  crash t n c calls h := h.disk
  drop t n c calls calls' h hsub :=
    { h with counts := { h.counts with calls := fun i hi ↦ h.counts.calls i (hsub hi) } }
  answer t n c calls i p resp stamp ha h hst hp hd hk hpr := by
    have hvotes : (voteCounting (withElectorates allowed)).Kept cl R
        (withElectorates allowed) since :=
      voteCounting_kept fun _ hl ↦ hl.1
    have hc := hvotes.answer t n c calls i p resp stamp ha.counted h.counts hst hp hd hk hpr
    exact { ha with counted := hc }

theorem ballots_init {σ : Type} : (ballots L).Holds (init : World σ).view := by
  have hvotes : (voteCounting L).Holds (init : World σ).view := voteCounting_init
  refine ⟨fun _ ↦ ⟨?_, ?_, rfl⟩, ⟨hvotes.all, ?_, ?_, ?_, ?_, ?_⟩⟩
  · simp [view, init]
  · intro i e he
    exact absurd (get_mem he) not_mem_nil
  all_goals simp [view, init]

end RaftConsensus
