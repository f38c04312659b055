import RaftConsensus.Agreement.Local

namespace RaftConsensus

open List Function

open Ledger (Committed Grows Sound Steps Step)

variable {C : Configuration} {g g' : LedgerState} {t : Trace} {n : ServerID} {c c' : Core}
  {calls : List ℕ} {inp : Input} {out : List Effect} {since : ℕ}

theorem quorum_of_lead {S : Set ServerID} (hL : (electedBy C).lead c)
    (hv : ∀ id, c.votes.lookup id = some true → id ∈ S) : S ∈ quorums C := by
  obtain ⟨hq, he⟩ := hL
  have hvq := Electorate.voteQuorum_of_hasVoteQuorum hq
  rw [show c.electorate = ⟨C, none⟩ from he] at hvq
  exact Configuration.Majority.mono hvq hv

namespace Local

variable (h : Local C g t n c calls)

include h

theorem raise {term : ℕ} {who : Option ServerID} (hlt : c.term < term) :
    ∃ g', Followed C g g' t n [] (c.raise term who) := by
  have hstep : Step LogEntry.term (quorums C) g (g.adopt n term) := .adopt n term (h.term ▸ hlt)
  have hst : Steps LogEntry.term (quorums C) g (g.adopt n term) := .single hstep
  have ht : (g.adopt n term).term n = term := update_self ..
  refine ⟨g.adopt n term, hst, fun m hm ↦ ⟨update_of_ne hm .., rfl⟩, h.bids,
    h.disk.after h.sound hst ht.symm h.disk.log rfl,
    h.node.after h.sound hst h.node.lastIndex h.node.lastTerm rfl rfl nofun nofun h.node.self, ?_⟩
  exact h.record.publish_unrecorded h.sound (hstep.grows h.sound.lists) rfl (by simp)

theorem campaign_vote (m who : ServerID) (term : ℕ) : (g.campaign n).vote m term = some who ↔
    g.vote m term = some who ∨ m = n ∧ who = n ∧ term = c.term + 1 := by
  rw [Ledger.vote_campaign, h.term]
  split
  · rename_i hm
    obtain ⟨rfl, rfl⟩ := hm
    have hnone : g.vote m (g.term m + 1) = none := h.sound.lists.vote_none (Nat.lt_succ_self _)
    simp [hnone, eq_comm]
  · rename_i hm
    rw [or_iff_left]
    rintro ⟨rfl, -, ht⟩
    exact hm ⟨rfl, ht⟩

theorem campaign_bids (m : ServerID) : (g.campaign n).bid m 0 = none := by
  rw [Ledger.bid_campaign, if_neg (by omega)]
  exact h.bids m

theorem campaign {asks : List Effect}
    (hasks : ∀ x ∈ asks, ∃ target leaderTransfer, target ≠ c.localID ∧
      x = .rpc target (.requestVote
        ⟨c.term + 1, c.localID, c.lastIndex, c.lastTerm, false, leaderTransfer⟩)) :
    ∃ g', Followed C g g' t n (.note (.voted c.localID (c.term + 1)) :: asks) c.campaigned := by
  have hstep : Step LogEntry.term (quorums C) g (g.campaign n) := .campaign n
  have hst : Steps LogEntry.term (quorums C) g (g.campaign n) := .single hstep
  have ht : (g.campaign n).term n = c.term + 1 := by rw [h.term]; exact update_self ..
  refine ⟨g.campaign n, hst, fun m hm ↦ ⟨update_of_ne hm .., rfl⟩, h.campaign_bids,
    h.disk.after h.sound hst ht.symm h.disk.log rfl,
    h.node.after h.sound hst h.node.lastIndex h.node.lastTerm rfl rfl nofun nofun h.node.self, ?_⟩
  have hout (x : Effect) (hx : x ∈ Effect.note (.voted c.localID (c.term + 1)) :: asks) :
      x = .note (.voted n (c.term + 1)) ∨ ∃ target leaderTransfer, x = .rpc target (.requestVote
        ⟨c.term + 1, n, c.lastIndex, c.lastTerm, false, leaderTransfer⟩) := by
    rw [← h.localID]
    rcases mem_cons.mp hx with rfl | hx
    · exact .inl rfl
    · obtain ⟨target, leaderTransfer, -, heq⟩ := hasks x hx
      exact .inr ⟨target, leaderTransfer, heq⟩
  refine h.record.publish h.sound (hstep.grows h.sound.lists) (fun m who term ↦ ?_)
    (fun target req hmem hp ↦ ?_) (fun target req hmem ↦ ?_)
    (fun term e log hmem ↦ ?_) fun e hmem ↦ ?_
  · rw [h.campaign_vote]
    refine or_congr_right (and_congr_right fun _ ↦ ⟨?_, fun hmem ↦ ?_⟩)
    · rintro ⟨rfl, rfl⟩
      rw [← h.localID]
      exact mem_cons_self
    · rcases hout _ hmem with heq | ⟨_, _, heq⟩
      · cases heq
        exact ⟨rfl, rfl⟩
      · cases heq
  · rcases hout _ hmem with heq | ⟨_, _, heq⟩
    · cases heq
    · cases heq
      refine ⟨g.log n, ?_, h.node.lastIndex, h.node.lastTerm⟩
      rw [Ledger.bid_campaign, if_pos ⟨rfl, by rw [h.term]⟩]
  all_goals rcases hout _ hmem with heq | ⟨_, _, heq⟩ <;> cases heq

theorem takes_over {g₁ : LedgerState} (hst₁ : Steps LogEntry.term (quorums C) g g₁)
    (hlog : g₁.log = g.log) (ht₁ : ∀ m, m ≠ n → g₁.term m = g.term m)
    (hbids : ∀ m, g₁.bid m 0 = none) {B : Set ServerID} (hB : B ∈ quorums C)
    (hv : ∀ v ∈ B, g₁.vote v (g₁.term n) = some n) (ht : c'.term = g₁.term n)
    (hst' : c'.stable.term.getD 0 = g₁.term n) (hk : c'.stable.commitIndex = c.stable.commitIndex)
    (hc : c'.commitIndex = c.commitIndex) (hr : c'.run = c.run) (hl : c'.log = c.log)
    (hli : c'.lastIndex = c.lastIndex) (hout : ∀ m who term, g₁.vote m term = some who ↔
      g.vote m term = some who ∨ m = n ∧ .note (.voted who term) ∈ out)
    (hrpc : ∀ target req, .rpc target req ∉ out)
    (hlead : ∀ term e log, .note (.becameLeader term e log) ∈ out → term = c'.term ∧ log = c.log)
    (happ : ∀ e, .note (.applied e) ∉ out) : ∃ g', Followed C g g' t n out c'.lead := by
  have hs₁ := h.sound.steps (quorums_intersecting C) hst₁
  obtain ⟨g', hst₂, hterm, hlog', hvote, hbid, hled, hbase⟩ :=
    hs₁.take_over (e := ⟨c'.term, c'.lastIndex + 1, .normal []⟩) (quorums_intersecting C) hB hv ht
  have hst := hst₁.trans hst₂
  have hn : g'.log n = g.log n ++ [⟨c'.term, c'.lastIndex + 1, .normal []⟩] := by
    rw [hlog', update_self, hlog]
  refine ⟨g', hst, fun m hm ↦ ⟨?_, ?_⟩, fun m ↦ by rw [hbid]; exact hbids m,
    h.disk.after h.sound hst ?_ ?_ hk,
    h.node.after h.sound hst ?_ ?_ hc hr (fun _ ↦ ?_) (fun _ id k hid ↦ ?_)
    (AList.notMem_empty n), ?_⟩
  · rw [hterm]
    exact ht₁ m hm
  · rw [hlog', update_of_ne hm, hlog]
  · rw [hterm]
    exact hst'
  · rw [hn]
    show (c'.log.append _).Holds _
    rw [hl]
    exact h.disk.log.append (by rw [hli, h.node.lastIndex])
  · rw [hn, length_append, ← h.node.lastIndex, ← hli]
    rfl
  · rw [hn, lastTerm_concat]
    rfl
  · rw [hterm]
    exact hled
  · cases hid
  · refine h.record.publish h.sound (h.sound.grows (quorums_intersecting C) hst)
      (by rw [hvote]; exact hout) (fun target req hmem ↦ absurd hmem (hrpc _ _))
      (fun target req hmem ↦ absurd hmem (hrpc _ _)) (fun term e log hmem ↦ ?_)
      fun e hmem ↦ absurd hmem (happ e)
    obtain ⟨rfl, rfl⟩ := hlead term e log hmem
    exact ⟨ht ▸ hled, g.log n, h.disk.log, ht ▸ hlog ▸ hbase⟩

theorem crown (hL : (electedBy C).lead c.campaigned) :
    ∃ g', Followed C g g' t n [.note (.voted c.localID (c.term + 1)),
      .note (.becameLeader (c.term + 1) c.electorate c.log)] c.campaigned.lead := by
  have hst : Steps LogEntry.term (quorums C) g (g.campaign n) := .single (.campaign n)
  have ht : (g.campaign n).term n = c.term + 1 := by rw [h.term]; exact update_self ..
  have hB : {id | id = n} ∈ quorums C := by
    refine quorum_of_lead hL fun id hid ↦ ?_
    by_contra hne
    have hne' : id ≠ c.localID := fun heq ↦ hne (heq.trans h.localID)
    rw [show c.campaigned.votes = (∅ : VoteMap).insert c.localID true from rfl,
      AList.lookup_insert_ne hne'] at hid
    cases hid
  refine h.takes_over hst rfl (fun m hm ↦ update_of_ne hm ..) h.campaign_bids hB
    (fun v hv ↦ ?_) ht.symm ht.symm rfl rfl rfl rfl rfl (fun m who term ↦ ?_) (by simp)
    (fun term e log hmem ↦ ?_) (by simp)
  · cases hv
    rw [h.campaign_vote]
    exact .inr ⟨rfl, rfl, ht⟩
  · rw [h.campaign_vote]
    simp [h.localID]
  · simp only [mem_cons, Effect.note.injEq, reduceCtorEq, Event.becameLeader.injEq,
      not_mem_nil, or_false, false_or] at hmem
    exact ⟨hmem.1, hmem.2.2⟩

theorem lead {id : ServerID} (ho : t.Offers since n calls inp) (hi : inp.IsGrant id c.term)
    (hL : (electedBy C).lead c) :
    ∃ g', Followed C g g' t n [.note (.becameLeader c.term c.electorate c.log)] c.lead := by
  have hvotes := (h.keeps.counts.grant h.ballots.counted ho hi).2
  have hB : {id | g.vote id (g.term n) = some n} ∈ quorums C := by
    refine quorum_of_lead hL fun v hv ↦ ?_
    exact (h.record.votes v n _).mpr (h.term ▸ hvotes v hv)
  refine h.takes_over .refl rfl (fun _ _ ↦ rfl) h.bids hB
    (fun v hv ↦ hv) h.term h.disk.term rfl rfl rfl
    rfl rfl (by simp) (by simp) (fun term e log hmem ↦ ?_) (by simp)
  simp only [mem_singleton, Effect.note.injEq, Event.becameLeader.injEq] at hmem
  exact ⟨hmem.1, hmem.2.2⟩

theorem vote {req : RequestVoteRequest} (ho : t.Offers since n calls inp)
    (hi : inp = .request (.requestVote req)) (hp : req.preVote = false) (ht : req.term = c.term)
    (hv : c.votedFor = req.candidateID) (hl : req.logOK c.lastIndex c.lastTerm = true) :
    ∃ g', Followed C g g' t n [.note (.voted req.candidateID c.term)] c := by
  obtain ⟨p, hmem, -, hreq⟩ := ho.request_inv hi
  obtain ⟨l, hbid, hlen, hlast⟩ := h.record.asks p hmem req ⟨hreq, hp⟩
  have hone (d : ServerID) (hd : g.vote n (g.term n) = some d) : d = req.candidateID := by
    refine (h.keeps.node h.started).votes_once h.ballots ho hi hp ht (.inr hv) hl ?_
    rw [h.term]
    exact (h.record.votes n d _).mp hd
  have hup : Ledger.UpToDate LogEntry.term l (g.log n) := by
    simp only [RequestVoteRequest.logOK, Bool.or_eq_true, Bool.and_eq_true, decide_eq_true_eq] at hl
    rw [h.node.lastIndex, h.node.lastTerm, hlen, hlast] at hl
    exact hl.imp_right fun hx ↦ ⟨hx.1.symm, hx.2⟩
  have hstep : Step LogEntry.term (quorums C) g (g.setVote n (g.term n) req.candidateID) := by
    refine .grant n req.candidateID l ?_ hone hup
    rw [← h.term, ← ht]
    exact hbid
  have hst : Steps LogEntry.term (quorums C) g (g.setVote n (g.term n) req.candidateID) :=
    .single hstep
  refine ⟨g.setVote n (g.term n) req.candidateID, hst, fun _ _ ↦ ⟨rfl, rfl⟩, h.bids,
    h.disk.after h.sound hst h.disk.term h.disk.log rfl,
    h.node.after h.sound hst h.node.lastIndex h.node.lastTerm rfl rfl h.node.leader h.node.acks
      h.node.self, ?_⟩
  refine h.record.publish h.sound (hstep.grows h.sound.lists) (fun m who term ↦ ?_)
    (by simp) (by simp)
    (by simp) (by simp)
  rw [Ledger.vote_setVote]
  simp only [mem_singleton, Effect.note.injEq, Event.voted.injEq]
  split
  · rename_i hm
    obtain ⟨rfl, rfl⟩ := hm
    rw [Option.some.injEq, h.term]
    refine ⟨fun heq ↦ .inr ⟨rfl, heq.symm, rfl⟩, ?_⟩
    rintro (hold | ⟨-, heq, -⟩)
    · exact (hone who hold).symm
    · exact heq.symm
  · rename_i hm
    rw [or_iff_left]
    rintro ⟨rfl, -, rfl⟩
    exact hm ⟨rfl, h.term⟩

end Local

end RaftConsensus
