import RaftConsensus.Agreement.Relation

namespace RaftConsensus

open Ledger (Committed Grows Sound Steps)

variable {C : Configuration} {g g' : LedgerState} {t : Trace} {n : ServerID} {c c' : Core}
  {calls : List ℕ} {out : List Effect}

structure Local (C : Configuration) (g : LedgerState) (t : Trace) (n : ServerID) (c : Core)
    (calls : List ℕ) : Prop where
  started : c.started = true
  keeps : KeepsBallot t n c calls
  ballots : BallotsKept (electedBy C) t
  fixed : FixedNode C n c
  sound : Sound LogEntry.term (quorums C) g
  bids : ∀ m, g.bid m 0 = none
  disk : OnDisk g n c.disk
  node : InMemory g n c
  record : OnRecord g t

structure Followed (C : Configuration) (g g' : LedgerState) (t : Trace) (n : ServerID)
    (out : List Effect) (c' : Core) : Prop where
  steps : Steps LogEntry.term (quorums C) g g'
  others : ∀ m, m ≠ n → g'.term m = g.term m ∧ g'.log m = g.log m
  bids : ∀ m, g'.bid m 0 = none
  disk : OnDisk g' n c'.disk
  node : InMemory g' n c'
  record : OnRecord g' (t.publish n out)

section After

variable (hs : Sound LogEntry.term (quorums C) g) (hst : Steps LogEntry.term (quorums C) g g')

include hs hst

theorem OnDisk.after {d d' : Disk} (h : OnDisk g n d) (ht : d'.stable.term.getD 0 = g'.term n)
    (hl : d'.log.Holds (g'.log n)) (hc : d'.stable.commitIndex = d.stable.commitIndex) :
    OnDisk g' n d' where
  term := ht
  log := hl
  commit k hk := (h.commit k (hc ▸ hk)).log_steps hs (quorums_intersecting C) hst

theorem InMemory.after (h : InMemory g n c) (hli : c'.lastIndex = (g'.log n).length)
    (hlt : c'.lastTerm = Ledger.lastTerm LogEntry.term (g'.log n))
    (hc : c'.commitIndex = c.commitIndex) (hr : c'.run = c.run)
    (hl : c'.state = .leader → g'.leader (g'.term n) = some n)
    (hm : c'.state = .leader → ∀ id k, c'.matchIndex.lookup id = some k →
      k ≤ g'.acked id (g'.term n))
    (hself : n ∉ c'.matchIndex) : InMemory g' n c' where
  lastIndex := hli
  lastTerm := hlt
  commit := hc ▸ h.commit.log_steps hs (quorums_intersecting C) hst
  copy k hk := (h.copy k (hr ▸ hk)).log_steps hs (quorums_intersecting C) hst
  entry e he := by
    obtain ⟨hpos, hcom, hget⟩ := h.entry e (hr ▸ he)
    refine ⟨hpos, hcom.log_steps hs (quorums_intersecting C) hst, ?_⟩
    rw [hcom.getElem?_steps hs (quorums_intersecting C) hst (by omega), hget]
  leader := hl
  acks := hm
  self := hself

end After

namespace Local

variable (h : Local C g t n c calls)

include h

theorem term : c.term = g.term n := (h.keeps.node h.started).term.trans h.disk.term

theorem localID : c.localID = n := h.fixed.localID

theorem unled_zero : g.leader 0 = none := by
  cases hl : g.leader 0 with
  | none => rfl
  | some d =>
    obtain ⟨B, hB, hv⟩ := h.sound.lists.led_votes hl
    obtain ⟨v, hvB, -⟩ := quorums_intersecting C B hB B hB
    obtain ⟨l, hb⟩ := h.sound.lists.vote_bid (hv v hvB)
    rw [h.bids d] at hb
    cases hb

theorem log_eq_full (hs : c.state = .leader) : g.log n = g.full (g.term n) :=
  h.sound.lists.led_log (h.node.leader hs) rfl

theorem agree {req : AppendEntriesRequest} {i : ℕ} (hseg : Segment g req)
    (hag : req.Agrees c.log i) : (g.log n).take i = (g.full req.term).take i ∧
      i ≤ (g.log n).length ∧ i ≤ (g.full req.term).length := by
  rcases hag with rfl | ⟨x, hx, hcar⟩
  · simp
  · have hpos := LogStore.get_pos hx
    have hl : (g.log n)[i - 1]? = some x := h.disk.log.getElem? hx
    have hled := h.sound.lists.led_of_mem (h.sound.lists.log_match n) (List.mem_of_getElem? hl)
    obtain ⟨y, hy, hterm⟩ : ∃ y, (g.full req.term)[i - 1]? = some y ∧ x.term = y.term := by
      rcases hcar with ⟨rfl, hprev⟩ | ⟨e, he, rfl, het⟩
      · rcases hseg.previous with h0 | h0 | ⟨y, hy, hyt⟩
        · omega
        · rw [hprev, h0, h.unled_zero] at hled
          exact absurd rfl hled
        · exact ⟨y, hy, hprev.trans hyt.symm⟩
      · exact ⟨e, (hseg.entries e he).2, het.symm⟩
    have heq := (h.sound.lists.log_match n).agree (h.sound.lists.full_match req.term) hl hy hterm
    rw [Nat.sub_add_cancel hpos] at heq
    have hlt := (List.getElem?_eq_some_iff.mp hl).1
    have hlt' := (List.getElem?_eq_some_iff.mp hy).1
    exact ⟨heq, by omega, by omega⟩

theorem stay (hd : OnDisk g n c'.disk) (hn : InMemory g n c')
    (hout : ∀ x ∈ out, x.unrecorded = true) : ∃ g', Followed C g g' t n out c' :=
  ⟨g, .refl, fun _ _ ↦ ⟨rfl, rfl⟩, h.bids, hd, hn,
    h.record.publish_unrecorded h.sound (Grows.refl g) rfl hout⟩

end Local

end RaftConsensus
