import RaftConsensus.Leadership.Votes

namespace RaftConsensus

variable {cl : Cluster} {R : Rules} {L : Licence} {since : ℕ}

def Trace.Led (t : Trace) (n : ServerID) (term : ℕ) : Prop :=
  ∃ e log, (n, .becameLeader term e log) ∈ t.history

/-- A disk keeps the last vote, and no entry of a later term. -/
structure DiskKeeps (t : Trace) (n : ServerID) (d : Disk) : Prop where
  voted : ∀ who term, (n, .voted who term) ∈ t.history → ∃ τ, d.stable.term = some τ ∧ term ≤ τ ∧
    (term = τ → d.stable.votedFor = some who)
  terms : ∀ i e, d.log.get i = some e → e.term ≤ d.stable.term.getD 0
  bare : d.snapshot.snapshots = []

/-- A started node remembers its vote. It forgets it only when it steps down as a leader
that is no longer a voter, and then its last entry is of its own term. -/
structure NodeKeeps (t : Trace) (n : ServerID) (c : Core) : Prop where
  term : c.term = c.stable.term.getD 0
  lastTerm : c.lastTerm ≤ c.term
  voted : ∀ who, (n, .voted who c.term) ∈ t.history →
    c.votedFor = who ∨ c.votedFor = "" ∧ c.lastTerm = c.term ∧ t.Led n c.term
  leader : c.state = .leader → c.lastTerm = c.term ∧ t.Led n c.term
  replicas : ∀ id ∈ c.inflightReplication, id ≠ n
  run : c.run.snapshotting = false ∧ ∀ future, c.run ≠ .restored future

structure KeepsBallot (t : Trace) (n : ServerID) (c : Core) (calls : List ℕ) : Prop where
  counts : CountsVotes t n c calls
  named : n ≠ ""
  disk : DiskKeeps t n c.disk
  idle : c.started = false → ∃ cfg, c = .fresh cfg n c.disk
  node : c.started = true → NodeKeeps t n c

structure BallotsKept (L : Licence) (t : Trace) : Prop where
  counted : VotesCounted L t
  named : ∀ n who term, (n, .voted who term) ∈ t.history → who ≠ ""
  once : ∀ n who who' term, (n, .voted who term) ∈ t.history →
    (n, .voted who' term) ∈ t.history → who = who'
  asks : ∀ p ∈ t.net, ∀ req, p.Asks req → req.candidateID ≠ "" ∧ req.lastLogTerm < req.term
  appends : ∀ p ∈ t.net, ∀ req, p.req = .appendEntries req →
    t.Led p.src req.term ∧ p.dst ≠ p.src ∧ ∀ e ∈ req.entries, e.term ≤ req.term
  bare : ∀ p ∈ t.net, ∀ req, p.req ≠ .installSnapshot req

def ballots (L : Licence) : Scheme := ⟨KeepsBallot, DiskKeeps, BallotsKept L⟩

/-- Leadership only with a vote quorum of an electorate that the term allows. -/
def withElectorates (allowed : ℕ → Set Electorate) : Licence where
  lead c := c.electorate.hasVoteQuorum c.votes = true ∧ c.electorate ∈ allowed c.term
  follow _ _ := True
  ack _ _ _ := True

section Trace

variable {t : Trace} {n m : ServerID} {c c' : Core} {calls : List ℕ} {out : List Effect}
  {allowed : ℕ → Set Electorate}

variable {term : ℕ}

theorem Trace.Led.publish (h : t.Led n term) : (t.publish m out).Led n term := by
  obtain ⟨e, log, hmem⟩ := h
  exact ⟨e, log, List.mem_append_left _ hmem⟩

theorem Trace.Led.won (h : t.Led n term) (hv : VotesCounted L t) :
    ∃ e, WonElection L t.history n term e := by
  obtain ⟨e, log, hmem⟩ := h
  obtain ⟨h₁, h₂, heq⟩ := List.append_of_mem hmem
  obtain ⟨c, hl, hn, ht, he, hq, hall⟩ := hv.leaders h₁ h₂ n term e log heq
  refine ⟨e, c, hl, hn, ht, he, hq, fun id hid ↦ ?_⟩
  rw [heq]
  exact List.mem_append_left _ (hall id hid)

theorem BallotsKept.led_unique
    (hE : ∀ term e e', e ∈ allowed term → e' ∈ allowed term → e.Meets e')
    (h : BallotsKept (withElectorates allowed) t) (hn : t.Led n term)
    (hm : t.Led m term) : n = m := by
  obtain ⟨e, c, ⟨-, hc⟩, -, rfl, rfl, hq, hall⟩ := hn.won h.counted
  obtain ⟨e', c', ⟨-, hc'⟩, -, ht, rfl, hq', hall'⟩ := hm.won h.counted
  have hmeet := hE c.term _ _ hc (ht ▸ hc')
  obtain ⟨id, hid, hid'⟩ := hmeet _ _ (Electorate.voteQuorum_of_hasVoteQuorum hq)
    (Electorate.voteQuorum_of_hasVoteQuorum hq')
  exact h.once id n m c.term (hall id hid) (hall' id hid')

theorem mem_of_publish {x : ServerID × Event} (hne : x.1 ≠ m) (h : x ∈ (t.publish m out).history) :
    x ∈ t.history := by
  rcases List.mem_append.mp h with h | h
  · exact h
  · exact absurd (mem_eventsOf.mp h).1 hne

theorem DiskKeeps.frame {d : Disk} (hne : m ≠ n) (h : DiskKeeps t n d) :
    DiskKeeps (t.publish m out) n d :=
  ⟨fun who term hv ↦ h.voted who term (mem_of_publish hne.symm hv), h.terms, h.bare⟩

theorem NodeKeeps.frame (hne : m ≠ n) (h : NodeKeeps t n c) : NodeKeeps (t.publish m out) n c where
  term := h.term
  lastTerm := h.lastTerm
  voted who hv := (h.voted who (mem_of_publish hne.symm hv)).imp_right
    fun hx ↦ ⟨hx.1, hx.2.1, hx.2.2.publish⟩
  leader hs := ⟨(h.leader hs).1, (h.leader hs).2.publish⟩
  replicas := h.replicas
  run := h.run

def Effect.quiet : Effect → Bool
  | .rpc _ req => req.silent
  | .note (.voted _ _) => false
  | .note _ => true

theorem voted_of_publish (hq : ∀ who τ, .note (.voted who τ) ∉ out) {who : ServerID}
    (h : (n, .voted who term) ∈ (t.publish m out).history) : (n, .voted who term) ∈ t.history := by
  rcases List.mem_append.mp h with h | h
  · exact h
  · exact absurd (mem_eventsOf.mp h).2 (hq _ _)

theorem BallotsKept.publish (h : BallotsKept L t) (hc : VotesCounted L (t.publish n out))
    (hv : ∀ who term, .note (.voted who term) ∈ out → who ≠ "" ∧
      ∀ who', (n, .voted who' term) ∈ (t.publish n out).history → who' = who)
    (ha : ∀ target req, .rpc target (.requestVote req) ∈ out → req.preVote = false →
      req.candidateID ≠ "" ∧ req.lastLogTerm < req.term)
    (hp : ∀ target req, .rpc target (.appendEntries req) ∈ out →
      t.Led n req.term ∧ target ≠ n ∧ ∀ e ∈ req.entries, e.term ≤ req.term)
    (hb : ∀ target req, .rpc target (.installSnapshot req) ∉ out) :
    BallotsKept L (t.publish n out) := by
  refine ⟨hc, ?_, ?_, ?_, ?_, ?_⟩
  · intro m who term hmem
    rcases List.mem_append.mp hmem with hmem | hmem
    · exact h.named m who term hmem
    · exact (hv who term (mem_eventsOf.mp hmem).2).1
  · intro m who who' term hw hw'
    rcases List.mem_append.mp hw with hold | hnew
    · rcases List.mem_append.mp hw' with hold' | hnew'
      · exact h.once m who who' term hold hold'
      · obtain ⟨rfl, hout⟩ := mem_eventsOf.mp hnew'
        exact (hv who' term hout).2 who hw
    · obtain ⟨rfl, hout⟩ := mem_eventsOf.mp hnew
      exact ((hv who term hout).2 who' hw').symm
  · intro p hmem req hreq
    rcases List.mem_append.mp hmem with hmem | hmem
    · exact h.asks p hmem req hreq
    · have hout := (mem_packetsOf.mp hmem).2
      rw [hreq.1] at hout
      exact ha _ _ hout hreq.2
  · intro p hmem req hreq
    rcases List.mem_append.mp hmem with hmem | hmem
    · obtain ⟨hled, hrest⟩ := h.appends p hmem req hreq
      exact ⟨hled.publish, hrest⟩
    · obtain ⟨hsrc, hout⟩ := mem_packetsOf.mp hmem
      rw [hreq] at hout
      obtain ⟨hled, hrest⟩ := hp _ _ hout
      rw [hsrc]
      exact ⟨hled.publish, hrest⟩
  · intro p hmem req hreq
    rcases List.mem_append.mp hmem with hmem | hmem
    · exact h.bare p hmem req hreq
    · have hout := (mem_packetsOf.mp hmem).2
      rw [hreq] at hout
      exact hb _ _ hout

theorem BallotsKept.publish_quiet (h : BallotsKept L t) (hc : VotesCounted L (t.publish n out))
    (hq : ∀ x ∈ out, x.quiet = true) : BallotsKept L (t.publish n out) := by
  refine h.publish hc (fun who term hmem ↦ ?_) (fun target req hmem hp ↦ ?_)
    (fun target req hmem ↦ ?_)
    fun target req hmem ↦ ?_
  · cases hq _ hmem
  · exact absurd (hq _ hmem) (by simp [Effect.quiet, Request.silent, hp])
  · cases hq _ hmem
  · cases hq _ hmem

end Trace

section Move

variable {t : Trace} {n : ServerID} {c c' : Core} {calls : List ℕ} {inp : Input} {out : List Effect}
  {allowed : ℕ → Set Electorate}

variable {d d' : Disk} {term : ℕ}

theorem DiskKeeps.voted_le (hd : DiskKeeps t n c.disk) (hn : NodeKeeps t n c) {who : ServerID}
    (hv : (n, .voted who term) ∈ t.history) : term ≤ c.term := by
  obtain ⟨τ, hτ, hle, -⟩ := hd.voted who term hv
  rw [hn.term, show c.stable.term = some τ from hτ]
  exact hle

theorem DiskKeeps.sameVote (h : DiskKeeps t n d) (ht : d'.stable.term = d.stable.term)
    (hv : d'.stable.votedFor = d.stable.votedFor)
    (hl : ∀ i e, d'.log.get i = some e → d.log.get i = some e ∨ e.term ≤ d.stable.term.getD 0)
    (hs : d'.snapshot = d.snapshot) (hq : ∀ who τ, .note (.voted who τ) ∉ out) :
    DiskKeeps (t.publish n out) n d' := by
  refine ⟨fun who term hmem ↦ ?_, fun i e he ↦ ?_, hs ▸ h.bare⟩
  · rw [ht, hv]
    exact h.voted who term (voted_of_publish hq hmem)
  · rw [ht]
    exact (hl i e he).elim (h.terms i e) id

theorem DiskKeeps.newTerm (h : DiskKeeps t n d)
    (hlt : ∀ who τ, (n, .voted who τ) ∈ t.history → τ < term) (hle : d.stable.term.getD 0 ≤ term)
    (ht : d'.stable.term = some term)
    (hout : ∀ who τ, .note (.voted who τ) ∈ out → τ = term ∧ d'.stable.votedFor = some who)
    (hl : ∀ i e, d'.log.get i = some e → d.log.get i = some e ∨ e.term ≤ term)
    (hs : d'.snapshot = d.snapshot) : DiskKeeps (t.publish n out) n d' := by
  refine ⟨fun who τ hmem ↦ ⟨term, ht, ?_⟩, fun i e he ↦ ?_, hs ▸ h.bare⟩
  · rcases List.mem_append.mp hmem with hmem | hmem
    · have := hlt who τ hmem
      exact ⟨this.le, fun heq ↦ by omega⟩
    · obtain ⟨rfl, hv⟩ := hout who τ (mem_eventsOf.mp hmem).2
      exact ⟨le_rfl, fun _ ↦ hv⟩
  · rw [ht, Option.getD_some]
    rcases hl i e he with hold | hnew
    · exact (h.terms i e hold).trans hle
    · exact hnew

theorem NodeKeeps.plain (h : NodeKeeps t n c) (ht : c'.term = c.term)
    (hst : c'.stable.term.getD 0 = c.stable.term.getD 0) (hl : c'.lastTerm = c.lastTerm)
    (hv : c'.votedFor = c.votedFor) (hs : c'.state = .leader → c.state = .leader)
    (hr : ∀ id ∈ c'.inflightReplication, id ≠ n)
    (hrun : c'.run.snapshotting = false ∧ ∀ future, c'.run ≠ .restored future)
    (hq : ∀ who τ, .note (.voted who τ) ∉ out) : NodeKeeps (t.publish n out) n c' where
  term := by rw [ht, hst, h.term]
  lastTerm := by rw [hl, ht]; exact h.lastTerm
  voted who hmem := by
    rw [ht] at hmem ⊢
    rw [hv, hl]
    exact (h.voted who (voted_of_publish hq hmem)).imp_right fun hx ↦ ⟨hx.1, hx.2.1, hx.2.2.publish⟩
  leader hlead := by
    rw [hl, ht]
    exact ⟨(h.leader (hs hlead)).1, (h.leader (hs hlead)).2.publish⟩
  replicas := hr
  run := hrun

theorem NodeKeeps.newTerm (h : NodeKeeps t n c) (hst : c'.stable.term = some c'.term)
    (hle : c'.lastTerm ≤ c'.term) (hlt : ∀ who τ, (n, .voted who τ) ∈ t.history → τ < c'.term)
    (hv : ∀ who τ, .note (.voted who τ) ∈ out → c'.votedFor = who)
    (hs : c'.state = .leader → c'.lastTerm = c'.term ∧ (t.publish n out).Led n c'.term)
    (hr : c'.inflightReplication = c.inflightReplication) (hrun : c'.run = c.run) :
    NodeKeeps (t.publish n out) n c' where
  term := by rw [hst]; rfl
  lastTerm := hle
  voted who hmem := by
    rcases List.mem_append.mp hmem with hmem | hmem
    · exact absurd (hlt who _ hmem) (lt_irrefl _)
    · exact .inl (hv who _ (mem_eventsOf.mp hmem).2)
  leader := hs
  replicas := hr ▸ h.replicas
  run := hrun ▸ h.run

theorem NodeKeeps.append (h : NodeKeeps t n c) (ht : c'.term = c.term) (hst : c'.stable = c.stable)
    (hl : c'.lastTerm = c.term) (hv : c'.votedFor = c.votedFor)
    (hs : c'.state = .leader → (t.publish n out).Led n c.term)
    (hr : c'.inflightReplication = c.inflightReplication)
    (hrun : c'.run.snapshotting = false ∧ ∀ future, c'.run ≠ .restored future)
    (hq : ∀ who τ, .note (.voted who τ) ∉ out) : NodeKeeps (t.publish n out) n c' where
  term := by rw [ht, hst, h.term]
  lastTerm := by rw [hl, ht]
  voted who hmem := by
    rw [ht] at hmem ⊢
    rw [hv, hl]
    exact (h.voted who (voted_of_publish hq hmem)).imp_right fun hx ↦ ⟨hx.1, rfl, hx.2.2.publish⟩
  leader hlead := by
    rw [hl, ht]
    exact ⟨rfl, hs hlead⟩
  replicas := hr ▸ h.replicas
  run := hrun

theorem NodeKeeps.follow (h : NodeKeeps t n c) (hled : ¬ t.Led n c.term) (ht : c'.term = c.term)
    (hst : c'.stable = c.stable) (hl : c'.lastTerm ≤ c.term) (hv : c'.votedFor = c.votedFor)
    (hs : c'.state = c.state) (hr : c'.inflightReplication = c.inflightReplication)
    (hrun : c'.run = c.run) : NodeKeeps (t.publish n []) n c' where
  term := by rw [ht, hst, h.term]
  lastTerm := by rw [ht]; exact hl
  voted who hmem := by
    rw [ht, Trace.publish_nil] at hmem
    rw [hv]
    exact (h.voted who hmem).imp_right fun hx ↦ absurd hx.2.2 hled
  leader hlead := absurd (h.leader (hs ▸ hlead)).2 hled
  replicas := hr ▸ h.replicas
  run := hrun ▸ h.run

theorem BallotsKept.not_led (hE : ∀ term e e', e ∈ allowed term → e' ∈ allowed term → e.Meets e')
    (h : BallotsKept (withElectorates allowed) t) (ho : t.Offers since n calls inp)
    {req : AppendEntriesRequest} (hi : inp = .request (.appendEntries req)) :
    ¬ t.Led n req.term := by
  intro hled
  obtain ⟨p, hp, hdst, hreq⟩ := ho.request_inv hi
  obtain ⟨hsrc, hne, -⟩ := h.appends p hp req hreq
  exact hne (hdst.trans (h.led_unique hE hled hsrc))

theorem BallotsKept.no_install (h : BallotsKept L t) (ho : t.Offers since n calls inp)
    {req : InstallSnapshotRequest} (hi : inp = .request (.installSnapshot req)) : False := by
  obtain ⟨p, hp, -, hreq⟩ := ho.request_inv hi
  exact h.bare p hp req hreq

end Move

end RaftConsensus
