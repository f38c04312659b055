import RaftConsensus.Single.Learner
import RaftConsensus.Single.Walk

namespace RaftConsensus

/-- What becomes of the pending call, and the answers that are given: it stays, or it is answered,
not for its caller's sake, and without an error only where `nil` holds. -/
inductive Slot (nil : Prop) (p : Option ℕ) : List (ℕ × Option RaftError) → Option ℕ → Prop
  | kept : Slot nil p [] p
  | answered (id : ℕ) (err : Option RaftError) (hp : p = some id) (hc : err ≠ some .canceled)
      (hn : err = none → nil) : Slot nil p [(id, err)] none

theorem Slot.trans {nil : Prop} {p p' p'' : Option ℕ} {l l' : List (ℕ × Option RaftError)}
    (h : Slot nil p l p') (h' : Slot nil p' l' p'') : Slot nil p (l ++ l') p'' := by
  cases h with
  | kept => exact h'
  | answered id err hp hc hn =>
    cases h' with
    | kept => exact .answered id err hp hc hn
    | answered _ _ hp' _ _ => cases hp'

theorem Slot.mono {nil nil' : Prop} {p p' : Option ℕ} {l : List (ℕ × Option RaftError)}
    (h : Slot nil p l p') (hn : nil → nil') : Slot nil' p l p' := by
  cases h with
  | kept => exact .kept
  | answered id err hp hc he => exact .answered id err hp hc fun h0 ↦ hn (he h0)

namespace Raft

variable {σ : Type} {nil : Prop} {r r' r'' : Raft σ}

def transfer? (r : Raft σ) : Option ℕ := r.leadershipTransfer.map LeadershipTransfer.id

def lines (r : Raft σ) : ServerID × Config × Bool × VoteMap × Option LeadershipTransfer :=
  (r.localID, r.config, r.inPreVote, r.preVotes, r.leadershipTransfer)

/-- A stretch of code that is not part of a campaign: the pre-vote round is left alone, and the
pending transfer stays or is answered. -/
structure Aside (nil : Prop) (r r' : Raft σ) : Prop where
  fixed : r'.localID = r.localID ∧ r'.config = r.config
  round : r'.inPreVote = r.inPreVote ∧ r'.preVotes = r.preVotes
  standing : r'.state = .candidate ∨ r'.state = .leader → r'.state = r.state ∧ r'.term = r.term
  hands : ∃ out, r'.outbox = r.outbox ++ out ∧ (∀ x ∈ out, x.asksPreVote = false) ∧
    Slot nil r.transfer? (out.filterMap Effect.transferred?) r'.transfer?

namespace Aside

theorem plain {out : List Effect} (h : r'.lines = r.lines) (ho : r'.outbox = r.outbox ++ out)
    (hx : ∀ x ∈ out, x.Aside)
    (hs : r'.state = .candidate ∨ r'.state = .leader → r'.state = r.state ∧ r'.term = r.term) :
    Aside nil r r' := by
  simp only [lines, Prod.mk.injEq] at h
  obtain ⟨hid, hc, hp, hv, ht⟩ := h
  refine ⟨⟨hid, hc⟩, ⟨hp, hv⟩, hs, out, ho, fun x hm ↦ (hx x hm).2, ?_⟩
  have hnone : out.filterMap Effect.transferred? = [] :=
    List.filterMap_eq_nil_iff.mpr fun x hm ↦ (hx x hm).1
  have hkept : r'.transfer? = r.transfer? := congrArg (Option.map LeadershipTransfer.id) ht
  rw [hnone, hkept]
  exact .kept

theorem same (h : r'.lines = r.lines) (ho : r'.outbox = r.outbox) (hs : r'.state = r.state)
    (ht : r'.term = r.term) : Aside nil r r' :=
  plain h (ho.trans (List.append_nil _).symm) nofun fun _ ↦ ⟨hs, ht⟩

theorem refl (r : Raft σ) : Aside nil r r := same rfl rfl rfl rfl

theorem down (h : r'.lines = r.lines) (ho : r'.outbox = r.outbox) (hc : r'.state ≠ .candidate)
    (hl : r'.state ≠ .leader) : Aside nil r r' :=
  plain h (ho.trans (List.append_nil _).symm) nofun fun hs ↦ by
    rcases hs with hs | hs
    · exact absurd hs hc
    · exact absurd hs hl

theorem emit {x : Effect} (hx : x.Aside) : Aside nil r (r.emit x) :=
  plain rfl rfl (fun y hy ↦ by rwa [List.mem_singleton.mp hy]) fun _ ↦ ⟨rfl, rfl⟩

theorem trans (h : Aside nil r r') (h' : Aside nil r' r'') : Aside nil r r'' := by
  refine ⟨⟨h'.fixed.1.trans h.fixed.1, h'.fixed.2.trans h.fixed.2⟩,
    ⟨h'.round.1.trans h.round.1, h'.round.2.trans h.round.2⟩, fun hs ↦ ?_, ?_⟩
  · obtain ⟨hs', ht'⟩ := h'.standing hs
    obtain ⟨hs'', ht''⟩ := h.standing (hs' ▸ hs)
    exact ⟨hs'.trans hs'', ht'.trans ht''⟩
  · obtain ⟨out, ho, hx, hslot⟩ := h.hands
    obtain ⟨out', ho', hx', hslot'⟩ := h'.hands
    refine ⟨out ++ out', by rw [ho', ho, List.append_assoc], fun x hm ↦ ?_, ?_⟩
    · exact (List.mem_append.mp hm).elim (hx x) (hx' x)
    · rw [List.filterMap_append]
      exact hslot.trans hslot'

theorem mono {nil' : Prop} (h : Aside nil r r') (hn : nil → nil') : Aside nil' r r' := by
  obtain ⟨out, ho, hx, hslot⟩ := h.hands
  exact ⟨h.fixed, h.round, h.standing, out, ho, hx, hslot.mono hn⟩

theorem of_books (h : r'.books = r.books) : Aside nil r r' := by
  simp only [books, Prod.mk.injEq] at h
  exact .same (by simp only [lines, h]) (by simp only [h]) (by simp only [h]) (by simp only [h])

theorem of_down (h : r'.books = { r with state := r'.state, term := r'.term }.books)
    (hs : r'.state.campaigns = false) : Aside nil r r' := by
  simp only [books, Prod.mk.injEq] at h
  refine .down (by simp only [lines, h]) (by simp only [h]) (fun hc ↦ ?_) fun hc ↦ ?_
  all_goals
    rw [hc] at hs
    cases hs

theorem finishTransfer (r : Raft σ) (err : Option RaftError) (hc : err ≠ some .canceled)
    (hn : err = none → nil) : Aside nil r (r.finishTransfer err) := by
  unfold Raft.finishTransfer
  split
  · exact .refl r
  · rename_i lt hlt
    refine ⟨⟨rfl, rfl⟩, ⟨rfl, rfl⟩, fun _ ↦ ⟨rfl, rfl⟩, _, rfl, fun x hx ↦ ?_, ?_⟩
    · rw [List.mem_singleton.mp hx]
      rfl
    · have hp : r.transfer? = some lt.id := by
        rw [transfer?, hlt]
        rfl
      exact .answered lt.id err hp hc hn

theorem retarget {lt lt' : LeadershipTransfer} (hlt : r.leadershipTransfer = some lt)
    (hid : lt'.id = lt.id) : Aside nil r { r with leadershipTransfer := some lt' } := by
  refine ⟨⟨rfl, rfl⟩, ⟨rfl, rfl⟩, fun _ ↦ ⟨rfl, rfl⟩, [], (List.append_nil _).symm, by simp, ?_⟩
  have hp : r.transfer? = some lt'.id := by
    rw [transfer?, hlt, hid]
    rfl
  rw [hp]
  exact .kept

theorem walks : Walks (Aside nil : Raft σ → Raft σ → Prop) where
  trans := .trans
  same h _ := of_books h
  down h _ := of_down h
  emit _ := .emit
  finishTransfer r err hc := finishTransfer r _ (by simpa using hc) (by simp)
  addTracker _ _ := .same rfl rfl rfl rfl
  turn := of_books
  halt := of_down
  retarget := retarget
  spawnReplication r id := by
    unfold Raft.spawnReplication
    split
    · exact .refl r
    · exact .same rfl rfl rfl rfl

end Aside

section Leader

variable (r)

theorem aside_resetWindow (id : ServerID) : Aside nil r (r.resetWindow id) := .same rfl rfl rfl rfl

theorem aside_setReplicator (id : ServerID) (pc : Replicator) :
    Aside nil r (r.setReplicator id pc) :=
  .same rfl rfl rfl rfl

theorem aside_stepDownOnReply (t : ℕ) : Aside nil r (r.stepDownOnReply t) := by
  refine (Aside.walks.failPendingFutures r).trans ?_
  unfold stepDownOnReply
  exact Aside.walks.halt rfl rfl

theorem aside_sendAppend (id : ServerID) (req : AppendEntriesRequest) :
    Aside nil r (r.sendAppend id req) := by
  have hwindow : Aside nil r (r.addToWindow id req) := by
    unfold addToWindow
    split <;> exact .same rfl rfl rfl rfl
  exact (hwindow.trans (aside_setReplicator _ _ _)).trans (.emit ⟨rfl, rfl⟩)

theorem aside_replicateOnce (id : ServerID) : Aside nil r (r.replicateOnce id) := by
  have hset (pc : Replicator) :
    Aside nil r (r.setReplicator id pc) := r.aside_setReplicator id pc
  unfold replicateOnce replicateOnceFrom
  refine Aside.walks.ite (fun _ ↦ hset _) fun _ ↦ Aside.walks.ite (fun _ ↦ hset _) fun _ ↦
    Aside.walks.ite (fun _ ↦ hset _) fun _ ↦ ?_
  refine Aside.walks.ite (fun _ ↦ r.aside_sendAppend _ _) fun _ ↦ ?_
  split
  · exact r.aside_sendAppend _ _
  · exact Aside.walks.ite (fun _ ↦ hset _) fun _ ↦ r.aside_sendAppend _ _

theorem aside_acknowledge (id : ServerID) (req : AppendEntriesRequest) (now : ℤ) :
    Aside nil r (r.acknowledge id req now) := by
  have hnote : Aside nil r (r.noteAck id now) := Aside.walks.noteAck r id now
  unfold acknowledge
  split
  · exact hnote.trans (.same rfl rfl rfl rfl)
  · exact hnote

theorem aside_replicateOnceReply (id : ServerID) (req : AppendEntriesRequest)
    (resp : AppendEntriesResponse) (now : ℤ) :
    Aside nil r (r.replicateOnceReply id req resp now) := by
  have hset : Aside nil r (r.setReplicator id .exiting) := r.aside_setReplicator id _
  unfold replicateOnceReply
  refine Aside.walks.ite (fun _ ↦ hset) fun _ ↦ Aside.walks.ite (fun _ ↦ ?_) fun _ ↦ Aside.walks.ite
    (fun _ ↦ hset) fun _ ↦
    Aside.walks.ite (fun _ ↦ hset) fun _ ↦ Aside.walks.ite (fun _ ↦ ?_) fun _ ↦ ?_
  · exact (r.aside_stepDownOnReply _).trans (aside_setReplicator _ _ _)
  · refine (r.aside_acknowledge id req now).trans ?_
    dsimp only
    split_ifs <;> exact .same rfl rfl rfl rfl
  · refine (r.aside_resetWindow id).trans ((Aside.walks.backOff _ id resp).trans ?_)
    exact aside_setReplicator _ _ _

end Leader

end Raft

end RaftConsensus
