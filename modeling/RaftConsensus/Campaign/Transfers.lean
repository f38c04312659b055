import RaftConsensus.Campaign.Hands
import RaftConsensus.Campaign.Led

/-! What becomes of the calls of `RequestLeadership`. -/

namespace RaftConsensus

open List

variable {σ : Type} {cl : Cluster} {F : FSM σ}

/-- A call of `RequestLeadership` that found a leader: its node and name, the leader's term, and
whether its caller's context has ended. -/
structure Ticket where
  node : ServerID
  id : ℕ
  term : ℕ
  ended : Bool
deriving DecidableEq

def Event.transferred? : Event → Option (ℕ × Option RaftError)
  | .transferred id err => some (id, err)
  | _ => none

namespace Ticket

/-- The answer for the call in what a node hands out. That its own context has ended is not an
answer. -/
def answer? (k : Ticket) (n : ServerID) (x : ℕ × Option RaftError) : Option (Option RaftError) :=
  if n = k.node ∧ x.1 = k.id ∧ x.2 ≠ some .canceled then some x.2 else none

def endsWith (k : Ticket) : Action → Bool
  | .run (.op n (.cancelTransfer id)) _ => n = k.node && id = k.id
  | _ => false

def after (k : Ticket) (a : Action) : Ticket := { k with ended := k.ended || k.endsWith a }

end Ticket

/-- No step of a node loses a pending call: no second call is made, the node does not become leader
again before the call is answered, and it hears of no other leader of a term of its own. -/
def Raft.heeds (led : List (ServerID × ℕ)) (r : Raft σ) (s : Stimulus) : Bool :=
  !r.drops s && match s with
  | .op (.requestLeadership _) => !(r.state = .leader && r.transferring)
  | .request (.appendEntries req) _ =>
    !r.transferring || req.leaderID = r.localID || (r.localID, req.term) ∉ led
  | _ => true

namespace World

variable {w w' : World σ} {tickets : List Ticket} {k : Ticket} {n m : ServerID} {r r' : Raft σ}
  {out : List Effect} {a : Action}

def answers (w : World σ) (k : Ticket) : List (Option RaftError) :=
  w.history.filterMap fun x ↦ x.2.transferred?.bind (k.answer? x.1)

def opened (w : World σ) : Action → List Ticket
  | .run (.op n (.requestLeadership id)) _ =>
    ((w.raft? n).toList.filter (·.state = .leader)).map fun r ↦ ⟨n, id, r.term, false⟩
  | _ => []

def transfers (w : World σ) (a : Action) (w' : World σ) (tickets : List Ticket) : List Ticket :=
  (tickets.map (·.after a) ++ w.opened a).filter fun k ↦ (w'.raft? k.node).isSome

/-- A call is named by a number that no call on the node had before. -/
def namesCall (w : World σ) (tickets : List Ticket) : Action → Bool
  | .run (.op n (.requestLeadership id)) _ =>
    tickets.all (fun k ↦ ¬(k.node = n ∧ k.id = id)) && (w.answers ⟨n, id, 0, false⟩).isEmpty
  | _ => true

def heedsCalls (w : World σ) (tickets : List Ticket) (a : Action) : Bool :=
  w.namesCall tickets a && w.asks (Raft.heeds w.leaders) a

structure Heeded (w : World σ) (k : Ticket) (r : Raft σ) : Prop where
  term : k.term ≤ r.term
  led : (k.node, k.term) ∈ w.leaders
  pending : r.transfer? = some k.id → w.answers k = []
  resolved : r.transfer? ≠ some k.id → (w.answers k).length = 1 ∨ k.ended = true
  once : (w.answers k).length ≤ 1
  taken : none ∈ w.answers k → ∃ m term, m ≠ k.node ∧ k.term < term ∧ (m, term) ∈ w.leaders

def AllHeeded (w : World σ) (tickets : List Ticket) : Prop :=
  ∀ k ∈ tickets, ∃ r, w.raft? k.node = some r ∧ Heeded w k r

theorem answers_eventsOf (k : Ticket) (hh : w'.history = w.history ++ eventsOf n out) :
    w'.answers k = w.answers k ++ (out.filterMap Effect.transferred?).filterMap (k.answer? n) := by
  unfold answers
  rw [hh, filterMap_append, eventsOf, filterMap_filterMap, filterMap_filterMap]
  congr 2
  funext x
  cases x with
  | rpc => rfl
  | note e => cases e <;> rfl

theorem leaders_subset {l : List (ServerID × Event)} (hh : w'.history = w.history ++ l) :
    w.leaders ⊆ w'.leaders := by
  unfold leaders
  rw [hh, filterMap_append]
  exact subset_append_left _ _

theorem answer?_of_ne {x : ℕ × Option RaftError} (h : ¬(n = k.node ∧ x.1 = k.id)) :
    k.answer? n x = none :=
  if_neg fun hx ↦ h ⟨hx.1, hx.2.1⟩

theorem Heeded.unanswered (h : Heeded w k r) (hh : w'.history = w.history ++ eventsOf n out)
    (hx : ∀ x ∈ out.filterMap Effect.transferred?, k.answer? n x = none) (ht : r.term ≤ r'.term)
    (hp : r'.transfer? = some k.id → r.transfer? = some k.id)
    (hp' : r.transfer? = some k.id → r'.transfer? = some k.id ∨ (k.after a).ended = true) :
    Heeded w' (k.after a) r' := by
  have hsame : w'.answers k = w.answers k := by
    rw [answers_eventsOf k hh, filterMap_eq_nil_iff.mpr hx, append_nil]
  have hled := leaders_subset hh
  refine ⟨h.term.trans ht, hled h.led, fun hk ↦ ?_, fun hk ↦ ?_, ?_, fun hn ↦ ?_⟩
  · exact hsame.trans (h.pending (hp hk))
  · change (w'.answers k).length = 1 ∨ _
    rw [hsame]
    by_cases hr : r.transfer? = some k.id
    · exact .inr ((hp' hr).resolve_left hk)
    · exact (h.resolved hr).imp_right fun he ↦ Bool.or_eq_true_iff.mpr (.inl he)
  · change (w'.answers k).length ≤ 1
    rw [hsame]
    exact h.once
  · change none ∈ w'.answers k at hn
    rw [hsame] at hn
    obtain ⟨m, term, hm, hterm, hl⟩ := h.taken hn
    exact ⟨m, term, hm, hterm, hled hl⟩

theorem Heeded.answered (h : Heeded w k r) (hh : w'.history = w.history ++ eventsOf k.node out)
    {err : Option RaftError} (ho : out.filterMap Effect.transferred? = [(k.id, err)])
    (hc : err ≠ some .canceled) (ht : r.term ≤ r'.term) (hp : r.transfer? = some k.id)
    (hp' : r'.transfer? = none)
    (hn : err = none → ∃ m term, m ≠ k.node ∧ k.term < term ∧ (m, term) ∈ w.leaders) :
    Heeded w' (k.after a) r' := by
  have hone : w'.answers k = [err] := by
    rw [answers_eventsOf k hh, h.pending hp, ho]
    simp [Ticket.answer?, hc]
  have hled := leaders_subset hh
  refine ⟨h.term.trans ht, hled h.led, fun hk ↦ ?_, fun _ ↦ .inl ?_, ?_, fun hmem ↦ ?_⟩
  · rw [hp'] at hk
    cases hk
  · exact congrArg length hone
  · exact (congrArg length hone).le
  · change none ∈ w'.answers k at hmem
    rw [hone] at hmem
    obtain ⟨m, term, hm, hterm, hl⟩ := hn (mem_singleton.mp hmem).symm
    exact ⟨m, term, hm, hterm, hled hl⟩

theorem Heeded.rest (h : Heeded w k r) : Heeded w k r.rest := { h with }

theorem Heeded.elsewhere (h : Heeded w k r) (hh : w'.history = w.history ++ eventsOf n out)
    (hn : n ≠ k.node) : Heeded w' (k.after a) r :=
  h.unanswered hh (fun _ _ ↦ answer?_of_ne fun hx ↦ hn hx.1) le_rfl id .inl

section Step

variable {t : Trigger} {j : Option ℕ} {s : Stimulus}

theorem mem_opened : k ∈ w.opened a ↔ ∃ n id j r, a = .run (.op n (.requestLeadership id)) j ∧
    w.raft? n = some r ∧ r.state = .leader ∧ k = ⟨n, id, r.term, false⟩ := by
  constructor
  · intro hk
    unfold opened at hk
    split at hk
    · obtain ⟨r, hr, rfl⟩ := mem_map.mp hk
      obtain ⟨hr, hl⟩ := mem_filter.mp hr
      exact ⟨_, _, _, r, rfl, Option.mem_toList.mp hr, of_decide_eq_true hl, rfl⟩
    · cases hk
  · rintro ⟨n, id, j, r, rfl, hr, hl, rfl⟩
    refine mem_map.mpr ⟨r, mem_filter.mpr ⟨?_, decide_eq_true hl⟩, rfl⟩
    exact Option.mem_toList.mpr hr

theorem heeds_of_heedsCalls (hc : w.heedsCalls tickets (.run t j) = true)
    (hs : w.stimulus t = some (r, s)) : r.heeds w.leaders s = true := by
  have hasks := (Bool.and_eq_true_iff.mp hc).2
  simpa [asks, hs] using hasks

theorem Heeded.requested {id : ℕ} (h : Heeded w k r) (ho : r.outbox = []) (hid : k.id ≠ id)
    (hc : r.heeds w.leaders (.op (.requestLeadership id)) = true)
    (hh : w'.history = w.history ++ eventsOf k.node (r.requestLeadership id).outbox) :
    Heeded w' (k.after a) (r.requestLeadership id) := by
  unfold Raft.requestLeadership at hh ⊢
  split at hh
  · rename_i hs
    rw [if_pos hs]
    refine h.unanswered hh (fun x hx ↦ answer?_of_ne fun heq ↦ hid ?_) le_rfl (fun hp ↦ hp) .inl
    simp only [Raft.emit, ho, nil_append, filterMap_cons, Effect.transferred?,
      filterMap_nil, mem_singleton] at hx
    rw [← heq.2, hx]
  · rename_i hs
    rw [if_neg hs]
    have hnone : r.transfer? = none := by
      have hl : r.state = .leader := not_not.mp hs
      have htr : r.leadershipTransfer = none := by
        simpa [Raft.heeds, Raft.transferring, hl] using (Bool.and_eq_true_iff.mp hc).2
      simp [Raft.transfer?, htr]
    refine h.unanswered hh (fun x hx ↦ ?_) le_rfl (fun hp ↦ ?_) fun hp ↦ ?_
    · simp [ho] at hx
    · exact absurd (Option.some.inj hp).symm hid
    · rw [hnone] at hp
      cases hp

theorem Heeded.canceled {id : ℕ} (h : Heeded w k r) (ho : r.outbox = [])
    (hh : w'.history = w.history ++ eventsOf k.node (r.cancelTransfer id).outbox) :
    Heeded w' (k.after (.run (.op k.node (.cancelTransfer id)) j)) (r.cancelTransfer id) := by
  have hout : (r.cancelTransfer id).outbox = [.note (.transferred id (some .canceled))] := by
    unfold Raft.cancelTransfer
    split <;> simp [Raft.emit, ho]
  have hslot : (r.cancelTransfer id).transfer? =
      if r.transfer? = some id then none else r.transfer? := by
    unfold Raft.cancelTransfer Raft.transfer?
    cases hl : r.leadershipTransfer with
    | none => simp [Raft.emit, hl]
    | some lt => by_cases hlt : lt.id = id <;> simp [Raft.emit, hl, hlt]
  have hterm : (r.cancelTransfer id).term = r.term := by
    unfold Raft.cancelTransfer
    split <;> rfl
  refine h.unanswered hh (fun x hx ↦ ?_) hterm.ge (fun hp ↦ ?_) fun hp ↦ ?_
  · rw [hout] at hx
    rw [mem_singleton.mp hx]
    exact if_neg fun hne ↦ hne.2.2 rfl
  · rw [hslot] at hp
    split at hp
    · cases hp
    · exact hp
  · rw [hslot, hp]
    by_cases hid : id = k.id
    · exact .inr (by simp [Ticket.after, Ticket.endsWith, hid])
    · exact .inl (if_neg fun heq ↦ hid (Option.some.inj heq).symm)

theorem Heeded.taken_over {req : AppendEntriesRequest} {rnd : ℕ} (h : Heeded w k r)
    (hR : Reach cl F (fun _ _ ↦ True) w) (hr : w.raft? k.node = some r)
    (hs : w.stimulus t = some (r, .request (.appendEntries req) rnd))
    (hc : r.heeds w.leaders (.request (.appendEntries req) rnd) = true)
    (hp : r.transfer? = some k.id) (hterm : r.term ≤ req.term) (hid : req.leaderID ≠ r.localID) :
    ∃ m term, m ≠ k.node ∧ k.term < term ∧ (m, term) ∈ w.leaders := by
  obtain ⟨i, p, -, hnet, -, hreq⟩ := request_of_stimulus hs
  obtain ⟨hled, hsrc⟩ := hR.leaderships.all p (mem_of_getElem? hnet) req hreq
  have hlocal : r.localID = k.node := (hR.enrolled hr).localID
  rw [hlocal] at hid
  refine ⟨p.src, req.term, fun heq ↦ hid (hsrc.trans heq), ?_, mem_leaders.mpr hled⟩
  refine lt_of_le_of_ne (h.term.trans hterm) fun heq ↦ ?_
  have hpend : r.transferring = true := by
    obtain ⟨lt, hlt, -⟩ := Option.map_eq_some_iff.mp hp
    rw [Raft.transferring, hlt]
    rfl
  have hnot : (k.node, req.term) ∉ w.leaders := by
    have := (Bool.and_eq_true_iff.mp hc).2
    simpa [hpend, hid, hlocal] using this
  exact hnot (heq ▸ h.led)

theorem Heeded.take (h : Heeded w k r) (hR : Reach cl F (fun _ _ ↦ True) w) (hk : k ∈ tickets)
    (hc : w.heedsCalls tickets (.run t j) = true) (hr : w.raft? k.node = some r)
    (hs : w.stimulus t = some (r, s)) (ht : r.take F s = some r')
    (hh : w'.history = w.history ++ eventsOf k.node r'.outbox) :
    Heeded w' (k.after (.run t j)) r' := by
  have ho := hR.outbox hr
  have hheeds := heeds_of_heedsCalls hc hs
  have hlocal : r.localID = k.node := (hR.enrolled hr).localID
  by_cases hreq : ∃ id, s = .op (.requestLeadership id)
  · obtain ⟨id, rfl⟩ := hreq
    obtain ⟨m, rfl, hm⟩ := op_of_stimulus hs
    have hmk : m = k.node := (hR.enrolled hm).localID.symm.trans hlocal
    cases ht
    refine h.requested ho (fun hid ↦ ?_) hheeds hh
    have hname := (Bool.and_eq_true_iff.mp (Bool.and_eq_true_iff.mp hc).1).1
    exact of_decide_eq_true (all_eq_true.mp hname k hk) ⟨hmk.symm, hid⟩
  · by_cases hcan : ∃ id, s = .op (.cancelTransfer id)
    · obtain ⟨id, rfl⟩ := hcan
      obtain ⟨m, rfl, hm⟩ := op_of_stimulus hs
      have hmk : m = k.node := (hR.enrolled hm).localID.symm.trans hlocal
      cases ht
      rw [hmk]
      exact h.canceled ho hh
    · have hd : r.drops s = false := by
        simpa using (Bool.and_eq_true_iff.mp hheeds).1
      have hterm : r.term ≤ r'.term :=
        Raft.term_le_take (hR.enrolled hr).stored (stimulus_contiguous hR.wired hs) ht
      obtain ⟨out, hout, hslot⟩ := Raft.hands_take hd (fun id hid ↦ hreq ⟨id, hid⟩)
        (fun id hid ↦ hcan ⟨id, hid⟩) ht
      rw [ho, nil_append] at hout
      rw [hout] at hh
      generalize hl : out.filterMap Effect.transferred? = l at hslot
      generalize hp' : r'.transfer? = p' at hslot
      cases hslot with
      | kept =>
        refine h.unanswered hh (fun x hx ↦ ?_) hterm (fun hp ↦ hp'.symm.trans hp) fun hp ↦ ?_
        · rw [hl] at hx
          cases hx
        · exact .inl (hp'.trans hp)
      | answered id err hp hcancel hn =>
        by_cases hid : id = k.id
        · subst hid
          refine h.answered hh hl hcancel hterm hp hp' fun he ↦ ?_
          obtain ⟨req, rnd, rfl, hle, hne⟩ := hn he
          exact h.taken_over hR hr hs hheeds hp hle hne
        · refine h.unanswered hh (fun x hx ↦ ?_) hterm (fun hk ↦ ?_) fun hk ↦ ?_
          · rw [hl] at hx
            refine answer?_of_ne fun hx' ↦ hid ?_
            rw [← hx'.2, mem_singleton.mp hx]
          · rw [hp'] at hk
            cases hk
          · exact absurd (Option.some.inj (hp.symm.trans hk)) hid

theorem heeded_opened (hR : Reach cl F (fun _ _ ↦ True) w) {id : ℕ}
    (hc : w.heedsCalls tickets (.run (.op n (.requestLeadership id)) j) = true)
    (hr : w.raft? n = some r) (hl : r.state = .leader)
    (hh : w'.history = w.history ++ eventsOf n (r.requestLeadership id).outbox) :
    Heeded w' ⟨n, id, r.term, false⟩ (r.requestLeadership id) := by
  have heq : r.requestLeadership id = { r with leadershipTransfer := some ⟨id, "", false, none⟩ } :=
    if_neg fun hne ↦ hne hl
  have hnone : w.answers ⟨n, id, r.term, false⟩ = [] :=
    isEmpty_iff.mp (Bool.and_eq_true_iff.mp (Bool.and_eq_true_iff.mp hc).1).2
  have hans : w'.answers ⟨n, id, r.term, false⟩ = [] := by
    rw [answers_eventsOf _ hh, hnone, heq]
    change (r.outbox.filterMap Effect.transferred?).filterMap _ = []
    rw [hR.outbox hr]
    rfl
  have hled := mem_leaders.mpr ((hR.enrolled hr).leader hl)
  rw [heq] at hh ⊢
  refine ⟨le_rfl, leaders_subset hh hled, fun _ ↦ hans, fun hp ↦ absurd rfl hp, ?_, fun hmem ↦ ?_⟩
  · rw [hans]
    exact Nat.zero_le _
  · rw [hans] at hmem
    cases hmem

theorem AllHeeded.run {calls : List ℕ} {reply : Option Reply} (h : AllHeeded w tickets)
    (hR : Reach cl F (fun _ _ ↦ True) w) (hc : w.heedsCalls tickets (.run t none) = true)
    (hr : w.raft? n = some r) (hs : w.stimulus t = some (r, s)) (ht : r.take F s = some r') :
    AllHeeded ((w.settle n r' calls).addReply reply)
      (w.transfers (.run t none) ((w.settle n r' calls).addReply reply) tickets) := by
  intro k hk
  obtain ⟨hk, -⟩ := mem_filter.mp hk
  have hraft (m : ServerID) : ((w.settle n r' calls).addReply reply).raft? m =
      if m = n then some r'.rest else w.raft? m := raft?_setHost _ n m _
  rcases mem_append.mp hk with hk | hk
  · obtain ⟨k, hmem, rfl⟩ := mem_map.mp hk
    obtain ⟨r₀, hr₀, hkept⟩ := h k hmem
    by_cases hn : k.node = n
    · subst hn
      cases hr.symm.trans hr₀
      refine ⟨r'.rest, (hraft _).trans (if_pos rfl), ?_⟩
      exact (hkept.take hR hmem hc hr hs ht rfl).rest
    · exact ⟨r₀, (hraft _).trans ((if_neg hn).trans hr₀), hkept.elsewhere rfl (Ne.symm hn)⟩
  · obtain ⟨m, id, _, r₁, heq, hr₁, hl, rfl⟩ := mem_opened.mp hk
    cases heq
    have hs₁ : w.stimulus (.op m (.requestLeadership id)) =
        some (r₁, .op (.requestLeadership id)) := congrArg (Option.map _) hr₁
    cases hs.symm.trans hs₁
    have hmn : m = n := (hR.enrolled hr₁).localID.symm.trans (hR.enrolled hr).localID
    subst hmn
    cases ht
    exact ⟨_, (hraft _).trans (if_pos rfl), (heeded_opened hR hc hr hl rfl).rest⟩

theorem AllHeeded.pass (h : AllHeeded w tickets) (n : ServerID) (out : List Effect)
    (hh : w'.history = w.history ++ eventsOf n out)
    (hraft : ∀ m, m ≠ n → w'.raft? m = w.raft? m)
    (hup : ∀ k ∈ tickets, (w'.raft? n).isSome → k.node ≠ n)
    (hopen : ∀ k ∈ w.opened a, (w'.raft? k.node).isSome = false) :
    AllHeeded w' (w.transfers a w' tickets) := by
  intro k hk
  obtain ⟨hk, hsome⟩ := mem_filter.mp hk
  rcases mem_append.mp hk with hk | hk
  · obtain ⟨k, hmem, rfl⟩ := mem_map.mp hk
    obtain ⟨r, hr, hkept⟩ := h k hmem
    have hne : k.node ≠ n := fun heq ↦ hup k hmem (heq ▸ hsome) heq
    exact ⟨r, (hraft _ hne).trans hr, hkept.elsewhere hh hne.symm⟩
  · rw [hopen k hk] at hsome
    cases hsome

theorem AllHeeded.step (h : AllHeeded w tickets) (hR : Reach cl F (fun _ _ ↦ True) w)
    (hc : w.heedsCalls tickets a = true) (hs : w.step cl F a = some w') :
    AllHeeded w' (w.transfers a w' tickets) := by
  cases goes_of_step hs with
  | @create n cfg d r hh _ hr =>
    refine h.pass n [] (append_nil _).symm (fun m hm ↦ ?_) (fun k hk _ heq ↦ ?_)
      fun k hk ↦ by cases hk
    · exact (raft?_setHost _ n m _).trans (if_neg hm)
    · obtain ⟨r₀, hr₀, -⟩ := h k hk
      rw [heq, raft?, hh] at hr₀
      cases hr₀
  | @crash n r calls hh =>
    refine h.pass n [] (append_nil _).symm (fun m hm ↦ ?_) (fun k hk hup ↦ ?_)
      fun k hk ↦ by cases hk
    · exact (raft?_setHost _ n m _).trans (if_neg hm)
    · rw [raft?_setHost, if_pos rfl] at hup
      cases hup
  | run hf =>
    obtain ⟨r, s, hr, hst, ht⟩ := fire_take hf
    exact h.run hR hc hr hst ht
  | @torn t j n r' calls reply d out hf hd =>
    obtain ⟨r, s, hr, hst, -⟩ := fire_take hf
    have hdown : (w.crashAt n d out).raft? n = none := (raft?_setHost _ n n _).trans (if_pos rfl)
    refine h.pass n out rfl (fun m hm ↦ ?_) (fun k hk hup ↦ ?_) fun k hk ↦ ?_
    · exact (raft?_setHost _ n m _).trans (if_neg hm)
    · rw [hdown] at hup
      cases hup
    · obtain ⟨m, id, _, r₁, heq, hr₁, -, rfl⟩ := mem_opened.mp hk
      cases heq
      have hst₁ : w.stimulus (.op m (.requestLeadership id)) =
          some (r₁, .op (.requestLeadership id)) := congrArg (Option.map _) hr₁
      cases hst.symm.trans hst₁
      have hmn : m = n := (hR.enrolled hr₁).localID.symm.trans (hR.enrolled hr).localID
      rw [hmn, hdown]
      rfl

end Step

/-- When the pending transfer is no longer that of a call, the call has been answered once, or its
caller does not wait any more; and it is told of success only after another node led a later
term. -/
theorem transfers_answered
    (h : Recorded cl F transfers [] (fun w tickets a ↦ w.heedsCalls tickets a = true) w tickets)
    (hk : k ∈ tickets) : ∃ r, w.raft? k.node = some r ∧
      (r.transfer? ≠ some k.id → (w.answers k).length = 1 ∨ k.ended = true) ∧
      (w.answers k).length ≤ 1 ∧
      (none ∈ w.answers k → ∃ m term, m ≠ k.node ∧ k.term < term ∧ (m, term) ∈ w.leaders) := by
  have hall : AllHeeded w tickets := by
    clear hk
    induction h with
    | init => exact fun k hk ↦ nomatch hk
    | step hw hc hs ih => exact ih.step hw.reach hc hs
  obtain ⟨r, hr, hkept⟩ := hall k hk
  exact ⟨r, hr, hkept.resolved, hkept.once, hkept.taken⟩

section Example

open Action (timeout turns)

/-- A, the leader of term 1, is asked to hand over, and B campaigns in term 2. -/
def askedOnce : List Action := electA ++ [.op "A" (.requestLeadership 1)] ++ timeout "B" 3

/-- C elects B, and A hears of it. -/
def handedOver : List Action :=
  askedOnce ++ [.deliver 3, .reply 1, .op "B" (.replicate "A"), .deliver 4]

theorem transfers_handedOver : ∃ (w : World (List Bytes)) (tickets : List Ticket) (k : Ticket),
    Recorded threeVoters .keeping transfers []
        (fun w tickets a ↦ w.heedsCalls tickets a = true) w tickets ∧
      k ∈ tickets ∧ k.node = "A" ∧ none ∈ w.answers k ∧ ∃ r, w.raft? k.node = some r ∧
      (r.transfer? ≠ some k.id → (w.answers k).length = 1 ∨ k.ended = true) ∧
      (w.answers k).length ≤ 1 ∧
      (none ∈ w.answers k → ∃ m term, m ≠ k.node ∧ k.term < term ∧ (m, term) ∈ w.leaders) := by
  have hrun : (init.checkedRecord threeVoters .keeping transfers heedsCalls [] handedOver).any
      (fun x ↦ ⟨"A", 1, 1, false⟩ ∈ x.2 ∧ none ∈ x.1.answers ⟨"A", 1, 1, false⟩) = true := by
    decide +kernel
  obtain ⟨⟨w, tickets⟩, hw, heq⟩ := (Option.any_eq_true _ _).mp hrun
  obtain ⟨hk, hnil⟩ := of_decide_eq_true heq
  have hrec := Recorded.init.of_checkedRecord hw
  exact ⟨w, tickets, _, hrec, hk, rfl, hnil, transfers_answered hrec hk⟩

/-- A second call takes the place of the first. -/
def askedTwice : List Action :=
  electA ++ [.op "A" (.requestLeadership 1), .op "A" (.requestLeadership 2)]

/-- B's request for votes makes A a follower; C votes for B's rival A, which leads again. -/
def ledAgain : List Action :=
  let tick := Action.op "A" (.tick 0 0 ["B", "C"])
  askedOnce ++ [.deliver 2] ++ turns "A" 3 ++ [tick] ++ turns "A" 3 ++ [tick] ++ turns "A" 3 ++
    [tick, .deliver 5, .reply 2]

def LosesCall (acts : List Action) : Prop :=
  ∃ (w : World (List Bytes)) (tickets : List Ticket) (k : Ticket) (r : Raft (List Bytes)),
    init.checkedRecord threeVoters .keeping transfers namesCall [] acts = some (w, tickets) ∧
    Recorded threeVoters .keeping transfers []
      (fun w tickets a ↦ w.namesCall tickets a = true) w tickets ∧
    k ∈ tickets ∧ w.raft? k.node = some r ∧ r.transfer? ≠ some k.id ∧
    w.answers k = [] ∧ k.ended = false

theorem losesCall_of_any {acts : List Action}
    (hrun : (init.checkedRecord threeVoters .keeping transfers namesCall [] acts).any
      (fun x ↦ ⟨"A", 1, 1, false⟩ ∈ x.2 ∧ x.1.answers ⟨"A", 1, 1, false⟩ = [] ∧
        (x.1.raft? "A").any (·.transfer? ≠ some 1)) = true) : LosesCall acts := by
  obtain ⟨⟨w, tickets⟩, hw, heq⟩ := (Option.any_eq_true _ _).mp hrun
  obtain ⟨hk, hans, hslot⟩ := of_decide_eq_true heq
  obtain ⟨r, hr, hslot⟩ := (Option.any_eq_true _ _).mp hslot
  exact ⟨w, tickets, _, r, hw, Recorded.init.of_checkedRecord hw, hk, hr,
    of_decide_eq_true hslot, hans, rfl⟩

theorem losesCall_twice_again : LosesCall askedTwice ∧ LosesCall ledAgain := by
  constructor
  · exact losesCall_of_any (by decide +kernel)
  · exact losesCall_of_any (by decide +kernel)

end Example

end World

end RaftConsensus
