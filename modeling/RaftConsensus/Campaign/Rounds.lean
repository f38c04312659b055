import RaftConsensus.Campaign.Led
import RaftConsensus.Campaign.Polls

namespace RaftConsensus

open List

variable {σ : Type} {cl : Cluster} {F : FSM σ}

namespace World

variable {w w' : World σ} {began : ServerID → ℕ} {n : ServerID} {r r' : Raft σ}

def beginsRound (w : World σ) (n : ServerID) : Action → Bool
  | .run (.op m (.tick rnd now order)) _ =>
    m = n && (w.raft? n).any fun r ↦ r.config.preVote && Raft.Op.mayLead r (.tick rnd now order)
  | _ => false

def rounds (w : World σ) (a : Action) (_ : World σ) (began : ServerID → ℕ) (n : ServerID) : ℕ :=
  if w.beginsRound n a then w.net.length else began n

def Granted (w : World σ) (k : ℕ) (n : ServerID) (term : ℕ) (id : ServerID) : Prop :=
  ∃ a ∈ w.replies, ∃ req resp, k ≤ a.call ∧ w.net[a.call]? = some ⟨n, id, .requestVote req⟩ ∧
    req.preVote = true ∧ req.term = term ∧ a.resp = .requestVote resp ∧ resp.voteGranted = true

/-- A grant that a node counts in its pre-vote round is an answer to a request of this round. -/
def countsOwnRound (w : World σ) (began : ServerID → ℕ) : Action → Bool
  | .run (.reply j _) _ =>
    w.replies[j]?.all fun a ↦ w.net[a.call]?.all fun p ↦ (w.raft? p.src).all fun r ↦
      match p.req, a.resp with
      | .requestVote req, .requestVote resp =>
        !(req.preVote && r.inPreVote && r.state = .candidate && resp.voteGranted) ||
          began p.src ≤ a.call
      | _, _ => true
  | _ => true

def campaignsAlone (w : World σ) (a : Action) : Bool :=
  w.asks (fun r s ↦ !s.mayLead r || r.ownVoteSuffices) a

/-- The step starts an election of node `n` that no leader asked for. -/
def Elects (F : FSM σ) (w : World σ) (a : Action) (n : ServerID) (r r' : Raft σ) : Prop :=
  ∃ t k s calls reply, a = .run t k ∧ w.raft? n = some r ∧ w.stimulus t = some (r, s) ∧
    w.fire F t = some (n, r', calls, reply) ∧ (∀ rnd, s ≠ .request .timeoutNow rnd) ∧
    r'.term = r.term + 1 ∧ (r'.state = .candidate ∨ r'.state = .leader)

/-- What a node in its pre-vote round has: grants of this round for the next term. -/
structure InRound (w : World σ) (began : ServerID → ℕ) (n : ServerID) (r : Raft σ) : Prop where
  votes : ∀ id, r.preVotes.lookup id = some true → id = n ∨ w.Granted (began n) n (r.term + 1) id
  asks : ∀ i p req, began n ≤ i → w.net[i]? = some p → p.src = n → p.req = .requestVote req →
    req.preVote = true → req.term = r.term + 1

def RoundsKept (w : World σ) (began : ServerID → ℕ) : Prop :=
  ∀ n r, w.raft? n = some r → r.state = .candidate → r.inPreVote = true → InRound w began n r

section Frame

variable {l : List Packet} {k term : ℕ} {id : ServerID} {began' : ServerID → ℕ}

theorem Granted.extend (h : w.Granted k n term id) (hnet : w'.net = w.net ++ l)
    (hrep : w.replies ⊆ w'.replies) : w'.Granted k n term id := by
  obtain ⟨a, ha, req, resp, hk, hp, hrest⟩ := h
  refine ⟨a, hrep ha, req, resp, hk, ?_, hrest⟩
  rw [hnet, getElem?_append_left (List.getElem?_eq_some_iff.mp hp).1]
  exact hp

/-- The round goes on when the node asks for nothing more. -/
theorem InRound.extend (h : InRound w began n r) (hnet : w'.net = w.net ++ l)
    (hl : ∀ p ∈ l, p.src = n → ∀ req, p.req = .requestVote req → req.preVote = false)
    (hrep : w.replies ⊆ w'.replies) (hv : r'.preVotes = r.preVotes) (ht : r'.term = r.term)
    (hb : began' n = began n) : InRound w' began' n r' := by
  refine ⟨fun id hid ↦ ?_, fun i p req hi hp hsrc hreq hpre ↦ ?_⟩
  · rw [hv] at hid
    rw [ht, hb]
    exact (h.votes id hid).imp_right fun hg ↦ hg.extend hnet hrep
  · rw [hnet] at hp
    rw [hb] at hi
    rw [ht]
    rcases lt_or_ge i w.net.length with hlt | hge
    · rw [getElem?_append_left hlt] at hp
      exact h.asks i p req hi hp hsrc hreq hpre
    · rw [getElem?_append_right hge] at hp
      rw [hl p (mem_of_getElem? hp) hsrc req hreq] at hpre
      cases hpre

end Frame

/-- An operation is run by the node it is addressed to. -/
theorem rounds_of_ne {t : Trigger} {m : ServerID} {calls : List ℕ} {reply : Option Reply}
    {k : Option ℕ} (hf : w.fire F t = some (n, r', calls, reply)) (hm : m ≠ n) :
    w.rounds (.run t k) w' began m = began m := by
  have hnone : w.beginsRound m (.run t k) = false := by
    cases t with
    | op m' o =>
      have hn : m' = n := by
        obtain ⟨_, _, hf⟩ := fires_of_fire hf
        cases hf
        rfl
      cases o
      case tick => simp [beginsRound, hn, hm.symm]
      all_goals rfl
    | _ => rfl
  simp [rounds, hnone]

section Step

variable {t : Trigger} {s : Stimulus} {calls : List ℕ} {reply : Option Reply} {k : Option ℕ}

theorem rounds_eq (hr : w.raft? n = some r) (hs : w.stimulus t = some (r, s))
    (hf : w.fire F t = some (n, r', calls, reply))
    (h : ∀ rnd now order, s = .op (.tick rnd now order) → s.mayLead r = true →
      r.config.preVote = false) : w.rounds (.run t k) w' began n = began n := by
  have hnone : w.beginsRound n (.run t k) = false := by
    cases t with
    | op m o =>
      cases o
      case tick rnd now order =>
        obtain ⟨r₁, hr₁, heq⟩ := Option.map_eq_some_iff.mp hs
        obtain ⟨rfl, rfl⟩ := Prod.mk.inj heq
        have hpre := h rnd now order rfl
        cases hm : Raft.Op.mayLead r₁ (.tick rnd now order) with
        | false => simp [beginsRound, hr, hm]
        | true => simp [beginsRound, hr, hpre hm]
      all_goals rfl
    | _ => rfl
  simp [rounds, hnone]

theorem packetsOf_polls (hp : r.Polls r') (ho : r.outbox = []) {p : Packet}
    (hm : p ∈ packetsOf n r'.outbox) {req : RequestVoteRequest} (hreq : p.req = .requestVote req) :
    req.preVote = false := by
  obtain ⟨out, hout, hx⟩ := hp.hands
  rw [hout, ho, nil_append] at hm
  have := hx _ (mem_packetsOf.mp hm).2
  rwa [hreq] at this

theorem RoundsKept.polls {began' : ServerID → ℕ} (h : RoundsKept w began) (hr : w.raft? n = some r)
    (ho : r.outbox = []) (hnet : w'.net = w.net ++ packetsOf n r'.outbox)
    (hrep : w.replies ⊆ w'.replies) (hp : r.Polls r') (hb : began' n = began n)
    (hs : r'.state = .candidate) (hi : r'.inPreVote = true) : InRound w' began' n r'.rest := by
  obtain ⟨hs', hi', hv, ht⟩ := hp.round hs hi
  refine (h n r hr hs' hi').extend hnet (fun p hm _ req hreq ↦ ?_) hrep hv ht hb
  exact packetsOf_polls hp ho hm hreq

theorem RoundsKept.granted (h : RoundsKept w began) (hR : Reach cl F (fun _ _ ↦ True) w)
    (hc : w.countsOwnRound began (.run t k) = true) (hr : w.raft? n = some r) {id : ServerID}
    {now : ℤ} {req : RequestVoteRequest} {resp : RequestVoteResponse}
    (hst : w.stimulus t = some (r, .reply id now (.requestVote req) (.requestVote resp)))
    (hpre : req.preVote = true) (hs : r.state = .candidate) (hi : r.inPreVote = true)
    (hg : resp.voteGranted = true) : w.Granted (began n) n (r.term + 1) id := by
  obtain ⟨j, a, p, rfl, ha, hp, hsrc, rfl, hreq, hresp⟩ := reply_of_stimulus hst
  have hn : p.src = n := (hR.enrolled hsrc).localID.symm.trans (hR.enrolled hr).localID
  have hle : began n ≤ a.call := by
    rw [hn] at hsrc
    simpa [countsOwnRound, ha, hp, hsrc, hreq, hresp, hpre, hs, hi, hg, hn] using hc
  have hround := h n r hr hs hi
  refine ⟨a, mem_of_getElem? ha, req, resp, hle, ?_, hpre,
    hround.asks a.call p req hle hp hn hreq hpre, hresp, hg⟩
  rw [hp, ← hn, ← hreq]

theorem lookup_insert_true {votes : VoteMap} {id x : ServerID} {p : ServerID → Prop}
    (hv : ∀ x, votes.lookup x = some true → p x) (hid : p id)
    (hx : (votes.insert id true).lookup x = some true) : p x := by
  by_cases heq : x = id
  · exact heq ▸ hid
  · rw [AList.lookup_insert_ne heq] at hx
    exact hv x hx

theorem RoundsKept.own (h : RoundsKept w began) (hR : Reach cl F (fun _ _ ↦ True) w)
    (hc : w.countsOwnRound began (.run t none) = true) (hr : w.raft? n = some r)
    (hst : w.stimulus t = some (r, s))
    (ht : r.take F s = some r') (hf : w.fire F t = some (n, r', calls, reply))
    (hnet : w'.net = w.net ++ packetsOf n r'.outbox) (hrep : w.replies ⊆ w'.replies)
    (hs : r'.state = .candidate) (hi : r'.inPreVote = true) :
    InRound w' (w.rounds (.run t none) w' began) n r'.rest := by
  have ho := hR.outbox hr
  have hid : r.localID = n := (hR.enrolled hr).localID
  have hpolls (hp : r.Polls r') (hb : ∀ rnd now order, s = .op (.tick rnd now order) →
      s.mayLead r = true → r.config.preVote = false) :
      InRound w' (w.rounds (.run t none) w' began) n r'.rest :=
    h.polls hr ho hnet hrep hp (rounds_eq hr hst hf hb) hs hi
  cases Raft.stage_take ht with
  | aside ha hn =>
    refine hpolls (.of_aside ha) fun rnd now order heq hm ↦ ?_
    rw [hn rnd now order heq] at hm
    cases hm
  | @timeout rnd now order ticks hm =>
    cases hpre : r.config.preVote with
    | false =>
      have helect : (r.timed now ticks).startElection = (r.timed now ticks).runElection false :=
        if_neg (by simp [Raft.timed, hpre])
      have hp : r.Polls (r.timed now ticks).startElection := by
        rw [helect]
        exact Raft.polls_runElection false rfl rfl
      exact hpolls (hp.trans (.same rfl rfl rfl rfl)) fun _ _ _ _ _ ↦ hpre
    | true =>
      have hbegan : w.rounds (.run t none) w' began n = w.net.length := by
        obtain ⟨m, rfl, hm'⟩ := op_of_stimulus hst
        have hmn : m = n := (hR.enrolled hm').localID.symm.trans hid
        simp [rounds, beginsRound, hmn, hr, hpre, hm]
      have hcases := Raft.startElection_cases (r := r.timed now ticks) hpre
      rcases hcases with ⟨-, -, hover⟩ | ⟨asks, heq, hasks⟩
      · rcases hover with hover | hover
        · cases hover.symm.trans hs
        · cases hover.symm.trans hi
      · rw [heq] at hnet ⊢
        refine ⟨fun x hx ↦ ?_, fun i p req hle hp hsrc hreq hq ↦ ?_⟩
        · refine .inl (lookup_insert_true (p := (· = n)) (fun x hx ↦ ?_) hid hx)
          cases hx
        · rw [hnet, getElem?_append_right (hbegan ▸ hle)] at hp
          have hrpc := (mem_packetsOf.mp (mem_of_getElem? hp)).2
          have hout : (r.timed now ticks).outbox ++ asks = asks := by
            rw [show (r.timed now ticks).outbox = [] from ho, nil_append]
          obtain ⟨target, req', heq', hterm⟩ := hasks _ (hout ▸ hrpc)
          rw [hreq] at heq'
          cases heq'
          exact hterm
  | timeoutNow ticks => exact hpolls (Raft.polls_runElection true rfl rfl) nofun
  | preVoteReply hp =>
    rcases r.sendPreVoteReply_cases _ _ with ⟨hp', -⟩ | ⟨hs', hi', hg, heq | ⟨-, hp'⟩⟩
    · exact hpolls hp' nofun
    · -- the round goes on with one grant more
      have hgrant := (h.granted hR hc hr hst hp hs' hi' hg).extend hnet hrep
      have hb : w.rounds (.run t none) w' began n = began n := rounds_eq hr hst hf nofun
      rw [heq] at hnet ⊢
      have hround : InRound w' (w.rounds (.run t none) w' began) n r :=
        (h n r hr hs' hi').extend hnet (fun p hm _ _ _ ↦ ?_) hrep rfl rfl hb
      · refine ⟨fun x hx ↦ lookup_insert_true hround.votes (.inr ?_) hx, hround.asks⟩
        rw [hb]
        exact hgrant
      · rw [show packetsOf n _ = [] from congrArg (packetsOf n) ho] at hm
        cases hm
    · exact hpolls hp' nofun
  | voteReply hp => exact hpolls (r.polls_sendVoteReply _ _).1 nofun
  | requestLeadership id => exact hpolls (r.polls_requestLeadership id).1 nofun
  | cancelTransfer id => exact hpolls (r.polls_cancelTransfer id).1 nofun

theorem RoundsKept.of_ne {began' : ServerID → ℕ} {m : ServerID} {out : List Effect}
    (h : RoundsKept w began) (hm : w.raft? m = some r) (hne : m ≠ n)
    (hnet : w'.net = w.net ++ packetsOf n out)
    (hrep : w.replies ⊆ w'.replies) (hb : began' m = began m) (hs : r.state = .candidate)
    (hi : r.inPreVote = true) : InRound w' began' m r := by
  refine (h m r hm hs hi).extend hnet (fun p hp hsrc ↦ ?_) hrep rfl rfl hb
  exact absurd (hsrc.symm.trans (mem_packetsOf.mp hp).1) hne

theorem RoundsKept.step {a : Action} (hR : Reach cl F (fun _ _ ↦ True) w) (h : RoundsKept w began)
    (hc : w.countsOwnRound began a = true) (hstep : w.step cl F a = some w') :
    RoundsKept w' (w.rounds a w' began) := by
  have hcases (n : ServerID) (out : List Effect) (hnet : w'.net = w.net ++ packetsOf n out)
      (hrep : w.replies ⊆ w'.replies) (hb : ∀ m, m ≠ n → w.rounds a w' began m = began m)
      (hothers : ∀ m r, m ≠ n → w'.raft? m = some r → w.raft? m = some r)
      (hown : ∀ r, w'.raft? n = some r → r.state = .candidate → r.inPreVote = true →
        InRound w' (w.rounds a w' began) n r) : RoundsKept w' (w.rounds a w' began) := by
    intro m r hm hs hi
    by_cases hmn : m = n
    · rw [hmn] at hm ⊢
      exact hown r hm hs hi
    · exact h.of_ne (hothers m r hmn hm) hmn hnet hrep (hb m hmn) hs hi
  have hup (w₁ : World σ) {n m : ServerID} {x : Host σ} {r : Raft σ} (hne : m ≠ n)
      (hm : (w₁.setHost n x).raft? m = some r) : w₁.raft? m = some r := by
    rwa [raft?_setHost, if_neg hne] at hm
  cases goes_of_step hstep with
  | @create n cfg d r hh _ hr =>
    obtain ⟨cfg', -, rfl⟩ := Option.map_eq_some_iff.mp hr
    refine hcases n [] (append_nil _).symm (fun _ ↦ id) (fun _ _ ↦ rfl) (fun m r ↦ hup w)
      fun r hm ↦ ?_
    rw [raft?_setHost, if_pos rfl] at hm
    cases hm
    nofun
  | @crash n r calls hh =>
    refine hcases n [] (append_nil _).symm (fun _ ↦ id) (fun _ _ ↦ rfl) (fun m r ↦ hup w)
      fun r hm ↦ ?_
    rw [raft?_setHost, if_pos rfl] at hm
    cases hm
  | @run t n r' calls reply hf =>
    obtain ⟨r, s, hr, hst, ht⟩ := fire_take hf
    refine hcases n r'.outbox rfl (subset_append_left _ _) (fun m hm ↦ rounds_of_ne hf hm)
      (fun m r hne hm ↦ hup (w.publish n r'.outbox) hne hm) fun r₁ hm ↦ ?_
    have hm : (w.settle n r' calls).raft? n = some r₁ := hm
    rw [settle, raft?_setHost, if_pos rfl] at hm
    cases hm
    intro hs hi
    exact h.own hR hc hr hst ht hf rfl (subset_append_left _ _) hs hi
  | @torn t k n r' calls reply d out hf hd =>
    refine hcases n out rfl (fun _ ↦ id) (fun m hm ↦ rounds_of_ne hf hm)
      (fun m r hne hm ↦ hup (w.publish n out) hne hm) fun r hm ↦ ?_
    rw [crashAt, raft?_setHost, if_pos rfl] at hm
    cases hm

end Step

/-- The condition on a step: a node in pre-vote counts answers of its own round, and does not
campaign on a quorum of one that it is not. -/
def roundsApart (w : World σ) (began : ServerID → ℕ) (a : Action) : Bool :=
  w.countsOwnRound began a && w.campaignsAlone a

theorem roundsKept_recorded
    (h : Recorded cl F rounds (fun _ ↦ 0) (fun w began a ↦ w.roundsApart began a = true) w began) :
    RoundsKept w began := by
  induction h with
  | init => exact fun n r hr ↦ nomatch hr
  | step hw hP hs ih => exact ih.step hw.reach (Bool.and_eq_true_iff.mp hP).1 hs

/-- With pre-votes, a node campaigns by itself only with a vote quorum of grants for its next term
that it was given in its current pre-vote round. -/
theorem elects_by_round {a : Action}
    (h : Recorded cl F rounds (fun _ ↦ 0) (fun w began a ↦ w.roundsApart began a = true) w began)
    (ha : w.roundsApart began a = true) (he : w.Elects F a n r r')
    (hpre : r.config.preVote = true) :
    r.electorate.VoteQuorum (fun id ↦ id = n ∨ w.Granted (began n) n (r.term + 1) id) := by
  have hkept := roundsKept_recorded h
  have hR := h.reach
  obtain ⟨hc, halone⟩ := Bool.and_eq_true_iff.mp ha
  obtain ⟨t, k, s, calls, reply, rfl, hr, hst, hf, hnot, hterm, hstate⟩ := he
  have hid : r.localID = n := (hR.enrolled hr).localID
  have ht : r.take F s = some r' := by
    obtain ⟨r₁, s₁, hr₁, hst₁, ht⟩ := fire_take hf
    cases hst.symm.trans hst₁
    exact ht
  have hsame (heq : r'.state = .follower ∨ r'.term = r.term) :
      r.electorate.VoteQuorum (fun id ↦ id = n ∨ w.Granted (began n) n (r.term + 1) id) := by
    rcases heq with heq | heq
    · rw [heq] at hstate
      rcases hstate with hstate | hstate <;> cases hstate
    · omega
  cases Raft.stage_take ht with
  | aside ha _ => exact hsame (.inr (ha.standing hstate).2)
  | @timeout rnd now order ticks hm =>
    rcases Raft.startElection_cases (r := r.timed now ticks) hpre with ⟨hq, -⟩ | ⟨asks, heq, -⟩
    · -- a quorum of one, and the node is it
      have hown : r.ownVoteSuffices = true := by
        have hm : Stimulus.mayLead r (.op (.tick rnd now order)) = true := hm
        simpa [campaignsAlone, asks, hst, hm] using halone
      have hvotes := Raft.hasVoteQuorum_of_ownVoteSuffices hown hq
      refine (Electorate.voteQuorum_of_hasVoteQuorum hvotes).mono fun x hx ↦ .inl ?_
      exact lookup_insert_true (p := (· = n)) (fun x hx ↦ by cases hx) hid hx
    · refine hsame (.inr ?_)
      rw [heq]
      rfl
  | timeoutNow ticks => exact absurd rfl (hnot _)
  | @preVoteReply id now req resp hp =>
    rcases r.sendPreVoteReply_cases id resp with ⟨-, hsame'⟩ | ⟨hs, hi, hg, heq | ⟨hq, -⟩⟩
    · exact hsame hsame'
    · refine hsame (.inr ?_)
      rw [heq]
    · have hgrant := hkept.granted hR hc hr hst hp hs hi hg
      refine (Electorate.voteQuorum_of_hasVoteQuorum hq).mono fun x hx ↦ ?_
      exact lookup_insert_true (hkept n r hr hs hi).votes (.inr hgrant) hx
  | voteReply hp => exact hsame (r.polls_sendVoteReply _ _).2
  | requestLeadership id => exact hsame (.inr (r.polls_requestLeadership id).2)
  | cancelTransfer id => exact hsame (.inr (r.polls_cancelTransfer id).2)

section Example

open Action (boot timeout turns)

def preVoters : Cluster := .ofList [{ Config.least "A" abc with preVote := true },
  { Config.least "B" abc with preVote := true }, { Config.least "C" abc with preVote := true }]

def campaignsOn (w : World (List Bytes)) (n : ServerID) (j term : ℕ) : Bool :=
  (w.raft? n).any fun r ↦ (w.fire .keeping (.reply j 0)).any fun x ↦
    r.term = term ∧ r.config.preVote ∧ r.electorate = ⟨abc, none⟩ ∧ x.1 = n ∧
      x.2.1.term = term + 1 ∧ x.2.1.state = .candidate

theorem elects_of_campaignsOn {w : World (List Bytes)} {j term : ℕ}
    (h : w.campaignsOn n j term = true) :
    ∃ r r', w.Elects .keeping (.reply j) n r r' ∧ r.term = term ∧ r.config.preVote = true ∧
      r.electorate = ⟨abc, none⟩ := by
  obtain ⟨r, hr, h⟩ := (Option.any_eq_true _ _).mp h
  obtain ⟨⟨m, r', calls, reply⟩, hf, heq⟩ := (Option.any_eq_true _ _).mp h
  obtain ⟨rfl, hpre, hel, rfl, hterm, hstate⟩ := of_decide_eq_true heq
  obtain ⟨r₁, s, hr₁, hst, -⟩ := fire_take hf
  cases hr.symm.trans hr₁
  refine ⟨r, r', ⟨_, none, s, calls, reply, rfl, hr, hst, hf, fun rnd heq ↦ ?_, hterm, .inl hstate⟩,
    rfl, hpre, hel⟩
  obtain ⟨a, -, hst⟩ := Option.bind_eq_some_iff.mp hst
  obtain ⟨p, -, hst⟩ := Option.bind_eq_some_iff.mp hst
  obtain ⟨_, -, hst⟩ := Option.map_eq_some_iff.mp hst
  cases hst
  cases heq

def preVoted : List Action :=
  boot "A" ++ boot "B" ++ boot "C" ++ timeout "A" 3 ++ [.deliver 0]

theorem elects_preVoted : ∃ (w : World (List Bytes)) (began : ServerID → ℕ)
    (r r' : Raft (List Bytes)),
    Recorded preVoters .keeping rounds (fun _ ↦ 0)
        (fun w began a ↦ w.roundsApart began a = true) w began ∧
      w.Elects .keeping (.reply 0) "A" r r' ∧
      r.electorate.VoteQuorum (fun id ↦ id = "A" ∨ w.Granted (began "A") "A" (r.term + 1) id) := by
  have hrun : (init.checkedRecord preVoters .keeping rounds roundsApart (fun _ ↦ 0) preVoted).any
      (fun x ↦ x.1.roundsApart x.2 (.reply 0) && x.1.campaignsOn "A" 0 0) = true := by
    decide +kernel
  obtain ⟨⟨w, began⟩, hw, heq⟩ := (Option.any_eq_true _ _).mp hrun
  obtain ⟨ha, he⟩ := Bool.and_eq_true_iff.mp heq
  obtain ⟨r, r', he, -, hpre, -⟩ := elects_of_campaignsOn he
  have hrec := Recorded.init.of_checkedRecord hw
  exact ⟨w, began, r, r', hrec, he, elects_by_round hrec ha he hpre⟩

/-- A asks for pre-votes for term 1 and B grants, but before A learns of it C has campaigned in
term 1 and A has asked again, now for term 2. -/
def preVotedLate : List Action :=
  preVoted ++ timeout "C" 3 ++ [.deliver 2, .reply 1, .deliver 4] ++ turns "A" 3 ++ timeout "A" 3

/-- The late grant for term 1 lets A campaign in term 2, for which nobody has granted anything. -/
theorem elects_by_old_round : ∃ (w : World (List Bytes)) (began : ServerID → ℕ)
    (r r' : Raft (List Bytes)),
    Recorded preVoters .keeping rounds (fun _ ↦ 0) (fun _ _ _ ↦ True) w began ∧
      w.Elects .keeping (.reply 0) "A" r r' ∧ r.config.preVote = true ∧ r.term = 1 ∧
      (∀ id, ¬ w.Granted (began "A") "A" 2 id) ∧
      ¬ r.electorate.VoteQuorum
        (fun id ↦ id = "A" ∨ w.Granted (began "A") "A" (r.term + 1) id) := by
  have hrun : (init.checkedRecord preVoters .keeping rounds (fun _ _ _ ↦ true) (fun _ ↦ 0)
      preVotedLate).any (fun x ↦
        x.1.replies.all (fun a ↦ a.call < x.2 "A") && x.1.campaignsOn "A" 0 1) = true := by
    decide +kernel
  obtain ⟨⟨w, began⟩, hw, heq⟩ := (Option.any_eq_true _ _).mp hrun
  obtain ⟨hall, he⟩ := Bool.and_eq_true_iff.mp heq
  obtain ⟨r, r', he, hterm, hpre, hel⟩ := elects_of_campaignsOn he
  have hrec : Recorded preVoters .keeping rounds (fun _ ↦ 0) (fun _ _ _ ↦ True) w began :=
    (Recorded.init.of_checkedRecord hw).mono fun _ _ _ _ ↦ trivial
  have hnone (term : ℕ) (id : ServerID) : ¬ w.Granted (began "A") "A" term id := by
    rintro ⟨a, ha, req, resp, hle, -⟩
    have hlt : a.call < began "A" := of_decide_eq_true (all_eq_true.mp hall a ha)
    exact absurd hle hlt.not_ge
  refine ⟨w, began, r, r', hrec, he, hpre, hterm, hnone 2, fun hq ↦ ?_⟩
  rw [hel] at hq
  obtain ⟨A, -, hA, hcard⟩ : abc.Majority _ := hq
  have hsub : A ⊆ {"A"} := fun id hid ↦
    Finset.mem_singleton.mpr ((hA id hid).resolve_right (hnone _ id))
  have hle := Finset.card_le_card hsub
  have hcount : abc.voteCount = 3 := by decide
  rw [Finset.card_singleton] at hle
  omega

end Example

end World

end RaftConsensus
