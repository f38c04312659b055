import RaftConsensus.Scheme
import RaftConsensus.Quorums

namespace RaftConsensus

open List World

variable {cl : Cluster} {R : Rules} {L : Licence} {since : ℕ}

def Packet.Asks (p : Packet) (req : RequestVoteRequest) : Prop :=
  p.req = .requestVote req ∧ req.preVote = false

def Effect.plain : Effect → Bool
  | .rpc _ (.requestVote req) => req.preVote
  | .note (.voted _ _) | .note (.becameLeader _ _ _) => false
  | _ => true

/-- Every vote a node holds was given in answer to a call of the process that is still
running, as long as such a call is open. -/
structure CountsVotes (t : Trace) (n : ServerID) (c : Core) (calls : List ℕ) : Prop where
  localID : c.localID = n
  stored : c.term = 0 ∨ c.stable.term = some c.term
  calls : ∀ i ∈ calls, ∃ p, t.net[i]? = some p ∧ ∀ req, p.Asks req →
    req.candidateID = n ∧ req.term ≤ c.term ∧
      (req.term = c.term → ∀ id, c.votes.lookup id = some true → (id, .voted n c.term) ∈ t.history)

def WonElection (L : Licence) (h : List (ServerID × Event)) (n : ServerID) (term : ℕ)
    (e : Electorate) : Prop :=
  ∃ c : Core, L.lead c ∧ c.localID = n ∧ c.term = term ∧ c.electorate = e ∧
    e.hasVoteQuorum c.votes = true ∧ ∀ id, c.votes.lookup id = some true → (id, .voted n term) ∈ h

structure VotesCounted (L : Licence) (t : Trace) : Prop where
  replies : ∀ a ∈ t.replies, ∃ p, t.net[a.call]? = some p ∧ ∀ req resp, p.Asks req →
    a.resp = .requestVote resp → resp.voteGranted = true →
    resp.term = req.term ∧ (p.dst, .voted req.candidateID req.term) ∈ t.history
  leaders : ∀ h₁ h₂ n term e log, t.history = h₁ ++ (n, .becameLeader term e log) :: h₂ →
    WonElection L h₁ n term e

def voteCounting (L : Licence) : Scheme := ⟨CountsVotes, fun _ _ _ ↦ True, VotesCounted L⟩

section Trace

variable {t : Trace} {n m : ServerID} {c : Core} {calls : List ℕ} {out : List Effect}

theorem CountsVotes.publish (h : CountsVotes t n c calls) :
    CountsVotes (t.publish m out) n c calls := by
  refine ⟨h.localID, h.stored, fun i hi ↦ ?_⟩
  obtain ⟨p, hp, hall⟩ := h.calls i hi
  refine ⟨p, Trace.getElem?_publish hp, fun req hreq ↦ ?_⟩
  obtain ⟨hc, ht, hv⟩ := hall req hreq
  exact ⟨hc, ht, fun heq id hid ↦ mem_append_left _ (hv heq id hid)⟩

theorem append_eq_split {α : Type} {l l' h₁ h₂ : List α} {x : α} (h : l ++ l' = h₁ ++ x :: h₂) :
    (∃ h₂', l = h₁ ++ x :: h₂') ∨ ∃ e₁, l' = e₁ ++ x :: h₂ ∧ h₁ = l ++ e₁ := by
  rcases append_eq_append_iff.mp h with ⟨a, rfl, rfl⟩ | ⟨a, rfl, ha⟩
  · exact .inr ⟨a, rfl, rfl⟩
  · cases a with
    | nil => exact .inr ⟨[], by simpa using ha.symm, by simp⟩
    | cons y a =>
      rw [cons_append, List.cons.injEq] at ha
      obtain ⟨rfl, -⟩ := ha
      exact .inl ⟨a, rfl⟩

theorem VotesCounted.publish (h : VotesCounted L t)
    (hl : ∀ e₁ e₂ term e log, eventsOf n out = e₁ ++ (n, .becameLeader term e log) :: e₂ →
      WonElection L (t.history ++ e₁) n term e) : VotesCounted L (t.publish n out) := by
  refine ⟨fun a ha ↦ ?_, fun h₁ h₂ m term e log heq ↦ ?_⟩
  · obtain ⟨p, hp, hall⟩ := h.replies a ha
    refine ⟨p, Trace.getElem?_publish hp, fun req resp hreq hresp hg ↦ ?_⟩
    obtain ⟨ht, hv⟩ := hall req resp hreq hresp hg
    exact ⟨ht, mem_append_left _ hv⟩
  · rcases append_eq_split heq with ⟨h₂', hold⟩ | ⟨e₁, hnew, rfl⟩
    · exact h.leaders _ _ _ _ _ _ hold
    · obtain rfl : m = n := by
        have hmem : (m, Event.becameLeader term e log) ∈ eventsOf n out := by simp [hnew]
        exact (mem_eventsOf.mp hmem).1
      exact hl e₁ h₂ term e log hnew

theorem VotesCounted.publish_plain (h : VotesCounted L t) (hp : ∀ x ∈ out, x.plain = true) :
    VotesCounted L (t.publish n out) := by
  refine h.publish fun e₁ e₂ term e log heq ↦ ?_
  have hmem : (n, Event.becameLeader term e log) ∈ eventsOf n out := by simp [heq]
  cases hp _ (mem_eventsOf.mp hmem).2

theorem CountsVotes.extend {c' : Core} (h : CountsVotes t n c calls) (hid : c'.localID = c.localID)
    (hs : c'.term = 0 ∨ c'.stable.term = some c'.term) (ht : c.term ≤ c'.term)
    (hv : c'.term = c.term → ∀ id, c'.votes.lookup id = some true →
      c.votes.lookup id = some true ∨ (id, .voted n c.term) ∈ (t.publish n out).history)
    (hp : ∀ p ∈ packetsOf n out, ∀ req, p.Asks req →
      req.candidateID = n ∧ req.term ≤ c'.term ∧ (req.term = c'.term →
        ∀ id, c'.votes.lookup id = some true →
          (id, .voted n c'.term) ∈ (t.publish n out).history)) :
    CountsVotes (t.publish n out) n c' (calls ++ t.newCalls n out) := by
  refine ⟨hid.trans h.localID, hs, fun i hi ↦ ?_⟩
  rcases mem_append.mp hi with hi | hi
  · obtain ⟨p, hp, hall⟩ := h.calls i hi
    refine ⟨p, Trace.getElem?_publish hp, fun req hreq ↦ ?_⟩
    obtain ⟨hc, hle, hvotes⟩ := hall req hreq
    refine ⟨hc, hle.trans ht, fun heq id hid ↦ ?_⟩
    have hterm : c'.term = c.term := by omega
    rw [hterm]
    rcases hv hterm id hid with hold | hnew
    · exact mem_append_left _ (hvotes (heq.trans hterm) id hold)
    · exact hnew
  · obtain ⟨p, hmem, hget⟩ := Trace.mem_newCalls hi
    exact ⟨p, hget, hp p hmem⟩

theorem CountsVotes.plain {c' : Core} (h : CountsVotes t n c calls) (hid : c'.localID = c.localID)
    (ht : c'.term = c.term) (hv : c'.votes = c.votes) (hs : c'.stable.term = c.stable.term)
    (hp : ∀ x ∈ out, x.plain = true) :
    CountsVotes (t.publish n out) n c' (calls ++ t.newCalls n out) := by
  refine h.extend hid (ht ▸ hs ▸ h.stored) ht.ge
    (fun _ id hid ↦ .inl (hv ▸ hid)) fun p hmem req hreq ↦ ?_
  have hplain := hp _ (mem_packetsOf.mp hmem).2
  rw [hreq.1] at hplain
  exact absurd hplain (by simp [Effect.plain, hreq.2])

end Trace

section Kept

variable {t : Trace} {n : ServerID} {c c' : Core} {calls : List ℕ} {inp : Input} {out : List Effect}

/-- A vote that is being counted was given by the node that sent the reply, and all votes
counted before it belong to the same term. -/
theorem CountsVotes.grant {id : ServerID} (h : CountsVotes t n c calls) (ha : VotesCounted L t)
    (ho : t.Offers since n calls inp) (hg : inp.IsGrant id c.term) :
    (id, .voted n c.term) ∈ t.history ∧
      ∀ id, c.votes.lookup id = some true → (id, .voted n c.term) ∈ t.history := by
  obtain ⟨req, resp, stamp, hi, hpre, hgrant, hterm⟩ := hg
  obtain ⟨a, hmem, p, hcall, hnet, hsrc, rfl, hreq, hresp, -⟩ := ho.reply_inv hi
  obtain ⟨p', hp', hall⟩ := ha.replies a hmem
  obtain ⟨p'', hp'', hopen⟩ := h.calls a.call hcall
  cases hnet.symm.trans hp'
  cases hnet.symm.trans hp''
  obtain ⟨hrt, hvote⟩ := hall req resp ⟨hreq, hpre⟩ hresp hgrant
  obtain ⟨hcand, -, hvotes⟩ := hopen req ⟨hreq, hpre⟩
  rw [hcand, ← hrt, hterm] at hvote
  exact ⟨hvote, hvotes (hrt.symm.trans hterm)⟩

theorem CountsVotes.boot (h : CountsVotes t n c calls) (state : RaftState) (lastTerm : ℕ) :
    CountsVotes t n (c.boot state lastTerm) calls := by
  have hle : c.term ≤ (c.boot state lastTerm).term ∧ ((c.boot state lastTerm).term = 0 ∨
      c.stable.term = some (c.boot state lastTerm).term) := by
    rcases h.stored with h0 | hs
    · cases hst : c.stable.term <;> simp [Core.boot, hst, h0]
    · simp [Core.boot, hs]
  refine ⟨h.localID, hle.2, fun i hi ↦ ?_⟩
  obtain ⟨p, hp, hall⟩ := h.calls i hi
  refine ⟨p, hp, fun req hreq ↦ ?_⟩
  obtain ⟨hc, ht, hv⟩ := hall req hreq
  refine ⟨hc, ht.trans hle.1, fun heq id hid ↦ ?_⟩
  have hterm : (c.boot state lastTerm).term = c.term := by omega
  rw [hterm]
  exact hv (by omega) id hid

theorem CountsVotes.move (hL : ∀ c, L.lead c → c.electorate.hasVoteQuorum c.votes = true)
    (h : CountsVotes t n c calls) (ha : VotesCounted L t) (ho : t.Offers since n calls inp)
    (hm : Move R L.open inp c out c') :
    CountsVotes (t.publish n out) n c' (calls ++ t.newCalls n out) ∧
      VotesCounted L (t.publish n out) := by
  have hself (v : ServerID) (hv : ((∅ : VoteMap).insert c.localID true).lookup v = some true) :
      v = n := by
    rw [← h.localID]
    by_contra hne
    rw [AList.lookup_insert_ne hne] at hv
    cases hv
  cases hm with
  | raise term who hlt =>
    refine ⟨h.extend rfl (.inr rfl) hlt.le (fun heq ↦ absurd heq hlt.ne') ?_, ha.publish_plain ?_⟩
    · simp [packetsOf]
    · simp
  | campaign asks hasks =>
    refine ⟨h.extend rfl (.inr rfl) (Nat.le_succ _) (fun heq ↦ absurd heq (Nat.succ_ne_self _)) ?_,
      ha.publish fun e₁ e₂ term e log heq ↦ ?_⟩
    · intro p hp req hreq
      rcases mem_cons.mp (mem_packetsOf.mp hp).2 with hx | hx
      · cases hx
      · obtain ⟨target, transfer, -, heq⟩ := hasks _ hx
        cases (hreq.1.symm.trans (Effect.rpc.inj heq).2)
        refine ⟨h.localID, le_rfl, fun _ id hid ↦ ?_⟩
        rw [hself id hid]
        exact mem_append_right _ (mem_eventsOf.mpr ⟨rfl, by simp [h.localID, Core.campaigned]⟩)
    · have hmem : (n, Event.becameLeader term e log) ∈
          eventsOf n (.note (.voted c.localID (c.term + 1)) :: asks) := by simp [heq]
      rcases mem_cons.mp (mem_eventsOf.mp hmem).2 with hx | hx
      · cases hx
      · obtain ⟨_, _, _, hrpc⟩ := hasks _ hx
        cases hrpc
  | crown hq hlead =>
    refine ⟨h.extend rfl (.inr rfl) (Nat.le_succ _) (fun heq ↦ absurd heq (Nat.succ_ne_self _)) ?_,
      ha.publish fun e₁ e₂ term e log heq ↦ ?_⟩
    · simp [packetsOf]
    · rcases e₁ with _ | ⟨x, _ | ⟨y, e₁⟩⟩
      · simp [eventsOf] at heq
      · simp only [eventsOf, filterMap_cons, filterMap_nil, cons_append,
          nil_append, List.cons.injEq, Prod.mk.injEq, Event.becameLeader.injEq, true_and] at heq
        obtain ⟨rfl, ⟨rfl, rfl, rfl⟩, -⟩ := heq
        refine ⟨c.campaigned, hlead, h.localID, rfl, rfl, hL _ hlead, fun id hid ↦ ?_⟩
        rw [hself id hid, h.localID]
        simp
      · simp [eventsOf] at heq
  | storeTerm =>
    refine ⟨h.extend rfl (.inr rfl) le_rfl (fun _ _ hid ↦ .inl hid) ?_, ha.publish_plain ?_⟩
    · simp [packetsOf]
    · simp
  | mark req hi hp ht hv hl =>
    refine ⟨h.extend rfl (.inr rfl) le_rfl (fun _ _ hid ↦ .inl hid) ?_, ha.publish_plain ?_⟩
    · simp [packetsOf]
    · simp
  | vote req hi hp ht hv hs hd hl =>
    refine ⟨h.extend rfl (.inr hs) le_rfl (fun _ _ hid ↦ .inl hid) ?_,
      ha.publish fun e₁ e₂ term e log heq ↦ ?_⟩
    · simp [packetsOf]
    · have hmem : (n, Event.becameLeader term e log) ∈
          eventsOf n [.note (.voted req.candidateID c.term)] := by simp [heq]
      simp [eventsOf] at hmem
  | tally id hs hg =>
    obtain ⟨hvote, -⟩ := h.grant ha ho hg
    refine ⟨h.extend rfl h.stored le_rfl (fun _ v hv ↦ ?_) ?_, ha.publish_plain ?_⟩
    · by_cases hv' : v = id
      · subst hv'
        exact .inr (mem_append_left _ hvote)
      · exact .inl (by rwa [AList.lookup_insert_ne hv'] at hv)
    · simp [packetsOf]
    · simp
  | lead id hs hg hq hlead =>
    refine ⟨h.extend rfl h.stored le_rfl (fun _ _ hid ↦ .inl hid) ?_,
      ha.publish fun e₁ e₂ term e log heq ↦ ?_⟩
    · simp [packetsOf]
    · rcases e₁ with _ | ⟨x, e₁⟩
      · simp only [eventsOf, filterMap_cons, filterMap_nil, nil_append,
          List.cons.injEq, Prod.mk.injEq, Event.becameLeader.injEq, true_and] at heq
        obtain ⟨⟨rfl, rfl, rfl⟩, -⟩ := heq
        rw [append_nil]
        exact ⟨c, hlead, h.localID, rfl, rfl, hq, (h.grant ha ho hg).2⟩
      · simp [eventsOf] at heq
  | start state lastTerm hn hsd hs hl =>
    rw [Trace.publish_nil]
    exact ⟨by simpa [Trace.newCalls, packetsOf] using h.boot state lastTerm, ha⟩
  | note e he =>
    refine ⟨h.plain rfl rfl rfl rfl ?_, ha.publish_plain ?_⟩
    all_goals
      intro x hx
      rw [mem_singleton.mp hx]
      cases e <;> first | rfl | cases he
  | call target req hr =>
    refine ⟨h.plain rfl rfl rfl rfl ?_, ha.publish_plain ?_⟩
    all_goals
      intro x hx
      rw [mem_singleton.mp hx]
      cases req <;> first | rfl | exact hr
  | fail =>
    refine ⟨h.plain rfl rfl rfl rfl ?_, ha.publish_plain ?_⟩
    all_goals
      intro x hx
      obtain ⟨f, -, rfl⟩ := mem_map.mp hx
      rfl
  | drain hr =>
    refine ⟨h.plain rfl rfl rfl rfl ?_, ha.publish_plain ?_⟩
    all_goals
      intro x hx
      obtain ⟨f, -, rfl⟩ := mem_map.mp hx
      split <;> rfl
  | _ =>
    refine ⟨h.plain rfl rfl rfl rfl ?_, ha.publish_plain ?_⟩
    all_goals simp [Effect.plain]

theorem voteCounting_kept (hL : ∀ c, L.lead c → c.electorate.hasVoteQuorum c.votes = true) :
    (voteCounting L).Kept cl R L since where
  frame t m n out s _ h := by
    cases s with
    | down d => trivial
    | up c calls => exact CountsVotes.publish h
  replied t n s a h := by
    cases s with
    | down d => trivial
    | up c calls => exact { h with }
  move t n c c' calls inp out ha h _ ho hm := CountsVotes.move hL h ha ho hm
  boot t n c calls state lastTerm _ h _ _ _ _ := CountsVotes.boot h state lastTerm
  idle t n c calls e ha h _ he := by
    refine ⟨CountsVotes.publish h, VotesCounted.publish_plain ha fun x hx ↦ ?_⟩
    rw [mem_singleton.mp hx]
    cases e <;> first | rfl | cases he
  create t n d cfg _ _ _ _ := ⟨rfl, .inl rfl, by simp⟩
  crash _ _ _ _ _ := trivial
  drop t n c calls calls' h hsub := ⟨h.localID, h.stored, fun i hi ↦ h.calls i (hsub hi)⟩
  answer t n c calls i p resp stamp ha h _ hp hd hk hpr := by
    refine ⟨fun a hmem ↦ ?_, ha.leaders⟩
    rcases mem_append.mp hmem with hmem | hmem
    · exact ha.replies a hmem
    · rw [mem_singleton.mp hmem]
      refine ⟨p, hp, fun req resp' hreq hresp hg ↦ ?_⟩
      subst hresp
      rw [hreq.1] at hpr
      subst hd
      exact hpr hg hreq.2

theorem voteCounting_init {σ : Type} : (voteCounting L).Holds (init : World σ).view :=
  ⟨fun _ ↦ trivial, ⟨by simp [view, init], by simp [view, init]⟩⟩

end Kept

end RaftConsensus
