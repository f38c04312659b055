import RaftConsensus.Agreement.Local

namespace RaftConsensus

open List Function

open Ledger (Committed Grows Sound Steps Step)

variable {C : Configuration} {g g' : LedgerState} {t : Trace} {n : ServerID} {c c' : Core}
  {calls : List ℕ} {inp : Input} {out : List Effect} {since : ℕ}

namespace Local

variable (h : Local C g t n c calls)

include h

variable {e : LogEntry} {req : AppendEntriesRequest}

theorem request (ho : t.Offers since n calls inp)
    (hi : inp = .request (.appendEntries req)) :
    ∃ d, g.leader req.term = some d ∧ d ≠ n ∧ Segment g req := by
  obtain ⟨p, hmem, rfl, hreq⟩ := ho.request_inv hi
  obtain ⟨hled, hseg⟩ := h.record.appends p hmem req hreq
  exact ⟨p.src, hled, (h.ballots.appends p hmem req hreq).2.1.symm, hseg⟩

theorem setLog {l : List LogEntry} (hstep : Step LogEntry.term (quorums C) g (g.setLog n l))
    (hd : c'.log.Holds l) (hst : c'.stable = c.stable) (hli : c'.lastIndex = l.length)
    (hlt : c'.lastTerm = Ledger.lastTerm LogEntry.term l) (hc : c'.commitIndex = c.commitIndex)
    (hr : c'.run = c.run) (hs : c'.state = c.state) (hm : c'.matchIndex = c.matchIndex) :
    ∃ g', Followed C g g' t n [] c' := by
  have hsteps : Steps LogEntry.term (quorums C) g (g.setLog n l) := .single hstep
  have hl : (g.setLog n l).log n = l := update_self ..
  refine ⟨g.setLog n l, hsteps, fun m hm ↦ ⟨rfl, update_of_ne hm ..⟩, h.bids,
    h.disk.after h.sound hsteps ?_ (by rw [hl]; exact hd) (congrArg StableStore.commitIndex hst),
    h.node.after h.sound hsteps (by rw [hl]; exact hli) (by rw [hl]; exact hlt) hc hr
      (fun hlead ↦ h.node.leader (hs ▸ hlead)) (fun hlead ↦ ?_) (hm ▸ h.node.self), ?_⟩
  · show c'.stable.term.getD 0 = g.term n
    rw [hst]
    exact h.disk.term
  · rw [hm]
    exact h.node.acks (hs ▸ hlead)
  · exact h.record.publish_unrecorded h.sound (hstep.grows h.sound.lists) rfl (by simp)

theorem copy (ho : t.Offers since n calls inp)
    (hi : inp = .request (.appendEntries req)) (ht : req.term = c.term) (he : e ∈ req.entries)
    (hx : e.index = c.lastIndex + 1) (hag : req.Agrees c.log c.lastIndex) :
    ∃ g', Followed C g g' t n [] (c.append e) := by
  obtain ⟨d, hled, hne, hseg⟩ := h.request ho hi
  have hterm : req.term = g.term n := ht.trans h.term
  obtain ⟨htake, -, -⟩ := h.agree hseg hag
  rw [h.node.lastIndex, take_length, hterm] at htake
  obtain ⟨-, hget⟩ := hseg.entries e he
  rw [hx, h.node.lastIndex, Nat.add_sub_cancel, hterm] at hget
  have hp : g.log n ++ [e] <+: g.full (g.term n) := by
    have hsucc : g.log n ++ [e] = (g.full (g.term n)).take ((g.log n).length + 1) := by
      rw [take_add_one, hget, ← htake]
      rfl
    rw [hsucc]
    exact take_prefix _ _
  refine h.setLog (.copy n d e (hterm ▸ hled) hne hp)
    (h.disk.log.append ?_) rfl ?_ ?_ rfl rfl rfl rfl
  · rw [hx, h.node.lastIndex]
  · rw [length_append, ← h.node.lastIndex]
    exact hx
  · rw [lastTerm_concat]
    rfl

theorem truncate {x : LogEntry} {lastTerm : ℕ}
    (ho : t.Offers since n calls inp) (hi : inp = .request (.appendEntries req))
    (ht : req.term = c.term) (he : e ∈ req.entries) (hx : c.log.get e.index = some x)
    (hne : x.term ≠ e.term) (h0 : e.index = 1 → lastTerm = 0)
    (hl : ∀ y, c.log.get (e.index - 1) = some y → lastTerm = y.term) :
    ∃ g', Followed C g g' t n [] (c.truncate (e.index - 1) lastTerm) := by
  obtain ⟨d, hled, hned, hseg⟩ := h.request ho hi
  have hterm : req.term = g.term n := ht.trans h.term
  have hold := h.disk.log.getElem? hx
  obtain ⟨hpos, hnew⟩ := hseg.entries e he
  rw [hterm] at hnew
  have hlt := (List.getElem?_eq_some_iff.mp hold).1
  have hlen : ((g.log n).take (e.index - 1)).length = e.index - 1 := by
    rw [length_take]
    omega
  refine h.setLog (.cut n d (e.index - 1) x e (hterm ▸ hled) hned hold hnew hne) ?_ rfl hlen.symm ?_
    rfl rfl rfl rfl
  · show (c.log.deleteRange (e.index - 1 + 1) (c.lastIndex + 1)).Holds _
    rw [h.node.lastIndex]
    exact h.disk.log.truncate _
  · show lastTerm = _
    rcases Nat.eq_or_lt_of_le hpos with h1 | h1
    · rw [h0 h1.symm, ← h1]
      rfl
    · have hy : (g.log n)[e.index - 1 - 1]? = some (g.log n)[e.index - 1 - 1] :=
        getElem?_eq_getElem (by omega)
      rw [hl _ (h.disk.log.get (by omega) hy), lastTerm_getElem]
      rw [hlen, getElem?_take_of_lt (by omega), hy]

theorem propose (hs : c.state = .leader) (hx : e.index = c.lastIndex + 1)
    (ht : e.term = c.term) : ∃ g', Followed C g g' t n [] (c.append e) := by
  have hled := h.node.leader hs
  have hstep : Step LogEntry.term (quorums C) g (g.propose n e) :=
    .propose n e hled (ht.trans h.term)
  have hst : Steps LogEntry.term (quorums C) g (g.propose n e) := .single hstep
  have hl : (g.propose n e).log n = g.log n ++ [e] := update_self ..
  refine ⟨g.propose n e, hst, fun m hm ↦ ⟨rfl, update_of_ne hm ..⟩, h.bids,
    h.disk.after h.sound hst h.disk.term ?_ rfl,
    h.node.after h.sound hst ?_ ?_ rfl rfl h.node.leader h.node.acks h.node.self, ?_⟩
  · rw [hl]
    exact h.disk.log.append (by rw [hx, h.node.lastIndex])
  · rw [hl, length_append, ← h.node.lastIndex]
    exact hx
  · rw [hl, lastTerm_concat]
    rfl
  · exact h.record.publish_unrecorded h.sound (hstep.grows h.sound.lists) rfl (by simp)

theorem send {id : ServerID} (hs : c.state = .leader)
    (ht : req.term = c.term) (hk : req.leaderCommit = c.commitIndex)
    (he : ∀ e ∈ req.entries, c.log.get e.index = some e)
    (hp : req.prevLogIndex = 0 ∨ req.prevLogTerm = 0 ∨
      ∃ x, c.log.get req.prevLogIndex = some x ∧ x.term = req.prevLogTerm) :
    ∃ g', Followed C g g' t n [.rpc id (.appendEntries req)] c := by
  have hterm : req.term = g.term n := ht.trans h.term
  have hfull := h.log_eq_full hs
  have hseg : Segment g req := by
    refine ⟨fun e hmem ↦ ⟨LogStore.get_pos (he e hmem), ?_⟩, ?_, ?_⟩
    · rw [hterm, ← hfull]
      exact h.disk.log.getElem? (he e hmem)
    · refine hp.imp_right (Or.imp_right ?_)
      rintro ⟨x, hx, hxt⟩
      refine ⟨x, ?_, hxt⟩
      rw [hterm, ← hfull]
      exact h.disk.log.getElem? hx
    · rw [hterm, hk, ← hfull]
      exact h.node.commit
  refine ⟨g, .refl, fun _ _ ↦ ⟨rfl, rfl⟩, h.bids, h.disk, h.node, ?_⟩
  refine h.record.publish h.sound (Grows.refl g) (by simp) (by simp) (fun target req' hmem ↦ ?_)
    (by simp) (by simp)
  simp only [mem_singleton, Effect.rpc.injEq, Request.appendEntries.injEq] at hmem
  obtain ⟨-, rfl⟩ := hmem
  exact ⟨hterm ▸ h.node.leader hs, hseg⟩

theorem commit {k : ℕ} (hs : c.state = .leader) (he : c.log.get k = some e)
    (ht : e.term = c.term) (hq : c.configuration.quorumSize = 1 ∨
      c.electorate.commitQuorum c.localID c.matchIndex k = true) :
    ∃ g', Followed C g g' t n [] { c with commitIndex := k } := by
  have hled := h.node.leader hs
  have hfull := h.log_eq_full hs
  have hpos := LogStore.get_pos he
  have hget := h.disk.log.getElem? he
  have hlt := (List.getElem?_eq_some_iff.mp hget).1
  rw [hfull] at hget hlt
  have hbase := (h.sound.lists.full_term_iff hget).mp (ht.trans h.term)
  -- the leader confirms its own list first
  have hack : Step LogEntry.term (quorums C) g (g.ack n k) := by
    refine .ack n n k hled (by omega) ?_
    rw [hfull]
    exact take_prefix _ _
  have hacked (id : ServerID) (hid : HeldBy n c.matchIndex k id) :
      k ≤ (g.ack n k).acked id (g.term n) := by
    rw [Ledger.acked_ack]
    split
    · exact le_max_left _ _
    · rename_i hne
      rcases hid with rfl | ⟨m, hm, hkm⟩
      · exact absurd ⟨rfl, rfl⟩ hne
      · exact (of_decide_eq_true hkm).trans (h.node.acks hs id m hm)
  have hC : c.configuration = C := h.fixed.active h.started
  have hmaj : C.Majority (HeldBy n c.matchIndex k) := by
    rcases hq with hone | hcount
    · exact (majority_self h.fixed.voter (hC ▸ hone)).mono fun id hid ↦ .inl hid
    · rw [h.localID, Electorate.commitQuorum,
        show c.electorate.jointConfig = none from h.fixed.joint,
        show c.electorate.configuration = C from hC] at hcount
      exact majority_of_count (fun _ hv ↦ hv) h.node.self (of_decide_eq_true hcount)
  have hcommit : Step LogEntry.term (quorums C) (g.ack n k) ((g.ack n k).commit (g.term n) k) :=
    .commit n k {id | k ≤ (g.ack n k).acked id (g.term n)} (hmaj.mono hacked) hled
      (show (g.base (g.term n)).length < k by omega) (show k ≤ (g.full (g.term n)).length by omega)
      fun v hv ↦ hv
  have hst : Steps LogEntry.term (quorums C) g ((g.ack n k).commit (g.term n) k) :=
    .tail (.single hack) hcommit
  have hg := h.sound.grows (quorums_intersecting C) hst
  have hnode : InMemory ((g.ack n k).commit (g.term n) k) n c :=
    h.node.after h.sound hst h.node.lastIndex h.node.lastTerm rfl rfl h.node.leader
      (fun hl id m hm ↦ (h.node.acks hl id m hm).trans (hg.acked_le _ _)) h.node.self
  refine ⟨_, hst, fun _ _ ↦ ⟨rfl, rfl⟩, h.bids, h.disk.after h.sound hst h.disk.term h.disk.log rfl,
    { hnode with commit := ?_ }, h.record.publish_unrecorded h.sound hg rfl (by simp)⟩
  refine ⟨g.term n, le_rfl, ?_, ?_⟩
  · show k ≤ (update g.committed (g.term n) _) (g.term n)
    rw [update_self]
    exact le_max_left _ _
  · show (g.full (g.term n)).take k <+: g.log n
    rw [hfull]
    exact take_prefix _ _

theorem follow (ho : t.Offers since n calls inp)
    (hi : inp = .request (.appendEntries req)) (ht : req.term = c.term)
    (hag : req.Agrees c.log (Raft.lastReqIndex req)) : ∃ g', Followed C g g' t n []
      { c with commitIndex := min req.leaderCommit (Raft.lastReqIndex req) } := by
  obtain ⟨d, -, -, hseg⟩ := h.request ho hi
  obtain ⟨htake, -, -⟩ := h.agree hseg hag
  refine h.stay h.disk { h.node with commit := ?_ } (by simp)
  have hcom := (hseg.commit.of_le (min_le_left _ (Raft.lastReqIndex req)))
  rw [ht, h.term] at hcom htake
  refine hcom.congr ((take_prefix_take_left (min_le_right _ _)).trans ?_)
  rw [← htake]
  exact take_prefix _ _

theorem ack {id : ServerID} {resp : AppendEntriesResponse} {stamp : ℕ}
    {last : LogEntry} (ho : t.Offers since n calls inp)
    (hi : inp = .reply id (.appendEntries req) (.appendEntries resp) stamp)
    (ht : req.term = c.term) (hr : resp.success = true) (hl : req.entries.getLast? = some last) :
    ∃ g', Followed C g g' t n [] { c with
      matchIndex := c.matchIndex.insert id
        (max last.index ((c.matchIndex.lookup id).getD 0)) } := by
  obtain ⟨a, hmem, p, -, hget, hsrc, rfl, hreq, hresp, -⟩ := ho.reply_inv hi
  obtain ⟨p', hget', hall⟩ := h.record.acks a hmem
  cases hget.symm.trans hget'
  have hack := hall req resp hreq hresp hr
  rw [Raft.lastReqIndex, hl, ht, h.term] at hack
  have hne := (h.ballots.appends p (mem_of_getElem? hget) req hreq).2.1
  rw [hsrc] at hne
  refine h.stay h.disk { h.node with acks := fun hlead id k hk ↦ ?_, self := ?_ } (by simp)
  · by_cases hid : id = p.dst
    · subst hid
      rw [AList.lookup_insert, Option.some.injEq] at hk
      rw [← hk]
      refine max_le hack ?_
      cases hm : c.matchIndex.lookup p.dst with
      | none => exact Nat.zero_le _
      | some m => exact h.node.acks hlead _ _ hm
    · rw [AList.lookup_insert_ne hid] at hk
      exact h.node.acks hlead id k hk
  · rw [AList.mem_insert]
    exact not_or.mpr ⟨hne.symm, h.node.self⟩

end Local

end RaftConsensus
