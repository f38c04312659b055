import RaftConsensus.Agreement.Logs
import RaftConsensus.Leadership.Safety

namespace RaftConsensus

open Ledger (Committed Grows Sound)

abbrev LedgerState := Ledger.State ServerID LogEntry

def quorums (C : Configuration) : Set (Set ServerID) := {A | C.Majority (· ∈ A)}

theorem quorums_intersecting (C : Configuration) : Ledger.Intersecting (quorums C) :=
  fun _ hA _ hB ↦ hA.inter hB

structure OnDisk (g : LedgerState) (n : ServerID) (d : Disk) : Prop where
  term : d.stable.term.getD 0 = g.term n
  log : d.log.Holds (g.log n)
  commit : ∀ k, d.stable.commitIndex = some k → Committed g (g.term n) k (g.log n)

/-- The memory of a started node. Whatever it takes for committed is. -/
structure InMemory (g : LedgerState) (n : ServerID) (c : Core) : Prop where
  lastIndex : c.lastIndex = (g.log n).length
  lastTerm : c.lastTerm = Ledger.lastTerm LogEntry.term (g.log n)
  commit : Committed g (g.term n) c.commitIndex (g.log n)
  copy : ∀ k, c.run.commit? = some k → Committed g (g.term n) k (g.log n)
  entry : ∀ e, c.run.entry? = some e → 0 < e.index ∧ Committed g (g.term n) e.index (g.log n) ∧
    (g.log n)[e.index - 1]? = some e
  leader : c.state = .leader → g.leader (g.term n) = some n
  acks : c.state = .leader → ∀ id k, c.matchIndex.lookup id = some k → k ≤ g.acked id (g.term n)
  self : n ∉ c.matchIndex

/-- The request carries a segment of the list of the leader of its term. -/
structure Segment (g : LedgerState) (req : AppendEntriesRequest) : Prop where
  entries : ∀ e ∈ req.entries, 0 < e.index ∧ (g.full req.term)[e.index - 1]? = some e
  previous : req.prevLogIndex = 0 ∨ req.prevLogTerm = 0 ∨
    ∃ x, (g.full req.term)[req.prevLogIndex - 1]? = some x ∧ x.term = req.prevLogTerm
  commit : Committed g req.term req.leaderCommit (g.full req.term)

/-- What was sent, answered and recorded, as the ledger has it. -/
structure OnRecord (g : LedgerState) (t : Trace) : Prop where
  votes : ∀ n who term, g.vote n term = some who ↔ (n, .voted who term) ∈ t.history
  asks : ∀ p ∈ t.net, ∀ req, p.Asks req → ∃ l, g.bid req.candidateID req.term = some l ∧
    req.lastLogIndex = l.length ∧ req.lastLogTerm = Ledger.lastTerm LogEntry.term l
  appends : ∀ p ∈ t.net, ∀ req, p.req = .appendEntries req →
    g.leader req.term = some p.src ∧ Segment g req
  acks : ∀ a ∈ t.replies, ∃ p, t.net[a.call]? = some p ∧ ∀ req resp, p.req = .appendEntries req →
    a.resp = .appendEntries resp → resp.success = true →
    Raft.lastReqIndex req ≤ g.acked p.dst req.term
  leaders : ∀ n term e log, (n, .becameLeader term e log) ∈ t.history →
    g.leader term = some n ∧ ∃ l, log.Holds l ∧ g.base term <+: l
  applied : ∀ n e, (n, .applied e) ∈ t.history → 0 < e.index ∧
    ∃ term l, Committed g term e.index l ∧ l[e.index - 1]? = some e

structure Mirrors (C : Configuration) (v : View) (g : LedgerState) : Prop where
  ballots : (ballots (electedBy C)).Holds v
  fixed : (fixedConfiguration C).Holds v
  sound : Sound LogEntry.term (quorums C) g
  bids : ∀ n, g.bid n 0 = none
  disk : ∀ n, OnDisk g n (v.sites n).disk
  node : ∀ n c calls, v.sites n = .up c calls → c.started = true → InMemory g n c
  record : OnRecord g v.toTrace

section Mono

variable {C : Configuration} {g g' : LedgerState} {n : ServerID} {c : Core} {d : Disk} {t : Trace}
  (hs : Sound LogEntry.term (quorums C) g) (hg : Grows g g')

include hs hg

theorem OnDisk.mono (h : OnDisk g n d) (ht : g'.term n = g.term n) (hl : g'.log n = g.log n) :
    OnDisk g' n d where
  term := ht ▸ h.term
  log := hl ▸ h.log
  commit k hk := (h.commit k hk).mono hs hg ht.ge (hl ▸ List.prefix_rfl)

theorem InMemory.mono (h : InMemory g n c) (ht : g'.term n = g.term n) (hl : g'.log n = g.log n) :
    InMemory g' n c where
  lastIndex := hl ▸ h.lastIndex
  lastTerm := hl ▸ h.lastTerm
  commit := h.commit.mono hs hg ht.ge (hl ▸ List.prefix_rfl)
  copy k hk := (h.copy k hk).mono hs hg ht.ge (hl ▸ List.prefix_rfl)
  entry e he := by
    obtain ⟨hpos, hc, hget⟩ := h.entry e he
    exact ⟨hpos, hc.mono hs hg ht.ge (hl ▸ List.prefix_rfl), hl ▸ hget⟩
  leader hlead := ht ▸ hg.leader_eq (h.leader hlead)
  acks hlead id k hk := by
    rw [ht]
    exact (h.acks hlead id k hk).trans (hg.acked_le id _)
  self := h.self

theorem Segment.mono {req : AppendEntriesRequest} (h : Segment g req) : Segment g' req where
  entries e he := ⟨(h.entries e he).1,
    Ledger.getElem?_of_isPrefix (hg.full_grows _) (h.entries e he).2⟩
  previous := by
    refine h.previous.imp_right (Or.imp_right ?_)
    rintro ⟨x, hx, ht⟩
    exact ⟨x, Ledger.getElem?_of_isPrefix (hg.full_grows _) hx, ht⟩
  commit := h.commit.mono hs hg le_rfl (hg.full_grows _)

theorem OnRecord.publish {out : List Effect} (h : OnRecord g t)
    (hv : ∀ m who term, g'.vote m term = some who ↔
      g.vote m term = some who ∨ m = n ∧ .note (.voted who term) ∈ out)
    (ha : ∀ target req, .rpc target (.requestVote req) ∈ out → req.preVote = false →
      ∃ l, g'.bid req.candidateID req.term = some l ∧
        req.lastLogIndex = l.length ∧ req.lastLogTerm = Ledger.lastTerm LogEntry.term l)
    (hp : ∀ target req, .rpc target (.appendEntries req) ∈ out →
      g'.leader req.term = some n ∧ Segment g' req)
    (hl : ∀ term e log, .note (.becameLeader term e log) ∈ out →
      g'.leader term = some n ∧ ∃ l, log.Holds l ∧ g'.base term <+: l)
    (happ : ∀ e, .note (.applied e) ∈ out → 0 < e.index ∧
      ∃ term l, Committed g' term e.index l ∧ l[e.index - 1]? = some e) :
    OnRecord g' (t.publish n out) where
  votes m who term := by
    rw [hv, h.votes m who term, Trace.publish, List.mem_append, mem_eventsOf]
  asks p hmem req hreq := by
    rcases List.mem_append.mp hmem with hmem | hmem
    · obtain ⟨l, hbid, hrest⟩ := h.asks p hmem req hreq
      exact ⟨l, hg.bid_eq hbid, hrest⟩
    · have hout := (mem_packetsOf.mp hmem).2
      rw [hreq.1] at hout
      exact ha _ req hout hreq.2
  appends p hmem req hreq := by
    rcases List.mem_append.mp hmem with hmem | hmem
    · obtain ⟨hled, hseg⟩ := h.appends p hmem req hreq
      exact ⟨hg.leader_eq hled, hseg.mono hs hg⟩
    · obtain ⟨hsrc, hout⟩ := mem_packetsOf.mp hmem
      rw [hreq] at hout
      rw [hsrc]
      exact hp _ req hout
  acks a hmem := by
    obtain ⟨p, hget, hall⟩ := h.acks a hmem
    refine ⟨p, Trace.getElem?_publish hget, fun req resp hreq hresp hok ↦ ?_⟩
    exact (hall req resp hreq hresp hok).trans (hg.acked_le _ _)
  leaders m term e log hmem := by
    rcases List.mem_append.mp hmem with hmem | hmem
    · obtain ⟨hled, l, hlog, hbase⟩ := h.leaders m term e log hmem
      refine ⟨hg.leader_eq hled, l, hlog, ?_⟩
      rwa [hg.base_eq (by rw [hled]; simp)]
    · obtain ⟨hm, hout⟩ := mem_eventsOf.mp hmem
      cases hm
      exact hl term e log hout
  applied m e hmem := by
    rcases List.mem_append.mp hmem with hmem | hmem
    · obtain ⟨hpos, term, l, hc, hget⟩ := h.applied m e hmem
      exact ⟨hpos, term, l, hc.mono hs hg le_rfl List.prefix_rfl, hget⟩
    · exact happ e (mem_eventsOf.mp hmem).2

end Mono

def Effect.unrecorded : Effect → Bool
  | .rpc _ req => req.silent
  | .note (.voted _ _) | .note (.becameLeader _ _ _) | .note (.applied _) => false
  | .note _ => true

theorem OnRecord.publish_unrecorded {C : Configuration} {g g' : LedgerState} {n : ServerID}
    {t : Trace} {out : List Effect} (hs : Sound LogEntry.term (quorums C) g) (hg : Grows g g')
    (h : OnRecord g t) (hv : g'.vote = g.vote) (hout : ∀ x ∈ out, x.unrecorded = true) :
    OnRecord g' (t.publish n out) := by
  refine h.publish hs hg (fun m who term ↦ ?_) (fun target req hmem hp ↦ ?_)
    (fun target req hmem ↦ ?_)
    (fun term e log hmem ↦ ?_) fun e hmem ↦ ?_
  · rw [hv, or_iff_left]
    rintro ⟨-, hmem⟩
    cases hout _ hmem
  · exact absurd (hout _ hmem) (by simp [Effect.unrecorded, Request.silent, hp])
  · cases hout _ hmem
  · cases hout _ hmem
  · cases hout _ hmem

end RaftConsensus
