import RaftConsensus.Sync.Follower
import RaftConsensus.Sync.Window
import RaftConsensus.Single.Learner

namespace RaftConsensus

open AList

namespace Raft

variable {σ : Type} {r : Raft σ} {l log : List LogEntry} {id : ServerID} {n : ℕ}
  {req : AppendEntriesRequest} {resp : AppendEntriesResponse}

theorem Keeps.replicateOnce (h : r.Keeps log) (hs : r.state = .leader)
    (hw : r.windowFull id = false) (hn : r.nextIndex.lookup id = some n) (h1 : 1 ≤ n)
    (hle : n ≤ log.length) :
    ∃ req : AppendEntriesRequest, r.replicateOnce id = r.sendAppend id req ∧ req.CutFrom log ∧
      req.term = r.term ∧ req.prevLogIndex = n - 1 ∧ req.entries ≠ [] := by
  have hget {i : ℕ} (hi : i < log.length) : r.log.get (i + 1) = some log[i] := by
    rw [h.holds i, List.getElem?_eq_getElem hi]
  have hfirst : r.log.firstIndex ≤ 1 := LogStore.firstIndex_le (hget (i := 0) (by omega))
  have hcut (t : ℕ) (ht : ∀ i e, n - 1 = i + 1 → log[i]? = some e → t = e.term) :
      (r.appendRequest n t).CutFrom log := by
    refine ⟨?_, ht, r.collectEntries_initial (fun i e ↦ h.holds.getElem?) _ _ _ _⟩
    change n - 1 ≤ log.length
    omega
  have hne (t : ℕ) : (r.appendRequest n t).entries ≠ [] := by
    rw [r.appendRequest_nonempty t (hle.trans_eq h.lastIndex.symm)]
    have hsome := hget (i := n - 1) (by omega)
    rw [Nat.sub_add_cancel h1] at hsome
    rw [hsome]
    rfl
  unfold Raft.replicateOnce replicateOnceFrom
  rw [if_neg (not_not.mpr hs), hw, if_neg Bool.false_ne_true, hn]
  dsimp only [Option.getD_some]
  rw [if_neg (by omega)]
  by_cases hone : n ≤ 1
  · rw [if_pos hone]
    exact ⟨_, rfl, hcut 0 (by omega), rfl, rfl, hne 0⟩
  · obtain ⟨i, hi⟩ : ∃ i, n - 1 = i + 1 := ⟨n - 2, by omega⟩
    have hi' : i < log.length := by omega
    have hprev : r.log.get (n - 1) = some log[i] := by
      rw [hi]
      exact hget hi'
    rw [if_neg hone, hprev]
    refine ⟨_, rfl, hcut _ fun j e hj he ↦ ?_, rfl, rfl, hne _⟩
    obtain rfl : i = j := by omega
    rw [List.getElem?_eq_getElem hi'] at he
    cases he
    rfl

theorem replicateOnceReply_success {last : LogEntry} (now : ℤ) (hs : r.state = .leader)
    (ht : resp.term = r.term) (hq : req.term = r.term) (hok : resp.success = true)
    (hl : req.entries.getLast? = some last) {m : ℕ}
    (hm : max last.index ((r.matchIndex.lookup id).getD 0) = m) :
    ∃ r' : Raft σ, r.replicateOnceReply id req resp now =
        r'.setReplicator id (if m + 1 ≤ r.lastIndex then .loop else .exiting) ∧
      r'.state = .leader ∧ r'.term = r.term ∧ r'.log = r.log ∧ r'.lastIndex = r.lastIndex ∧
      r'.matchIndex.lookup id = some m ∧ r'.nextIndex.lookup id = some (m + 1) ∧
      r'.inflightWindows = (r.recordMatch id last.index).inflightWindows := by
  obtain ⟨acks, lease, hnote⟩ : ∃ acks lease, r.noteAck id now =
      { r with heartbeatAcks := acks, leaseExpiry := lease } := by
    unfold noteAck extendLease
    dsimp only
    split_ifs <;> exact ⟨_, _, rfl⟩
  have hack : r.acknowledge id req now = (r.noteAck id now).recordMatch id last.index := by
    unfold acknowledge
    rw [hl]
  have hnext : ((r.acknowledge id req now).advanceCommitIndex.nextIndex.lookup id) =
      some (m + 1) := by
    rw [hack, hnote, ← hm]
    exact lookup_insert _
  have hlast : (r.acknowledge id req now).advanceCommitIndex.lastIndex = r.lastIndex := by
    rw [hack, hnote]
    rfl
  refine ⟨(r.acknowledge id req now).advanceCommitIndex, ?_, ?_, ?_, ?_, hlast, ?_, hnext, ?_⟩
  · unfold Raft.replicateOnceReply
    rw [if_neg (not_not.mpr hs), if_neg (by omega), if_neg (not_not.mpr ht),
      if_neg (not_not.mpr hq),
      if_pos hok]
    dsimp only
    rw [hnext, hlast, Option.getD_some]
    split <;> rfl
  · rw [hack, hnote]
    exact hs
  · rw [hack, hnote]
    rfl
  · rw [hack, hnote]
    rfl
  · rw [hack, hnote, ← hm]
    exact lookup_insert _
  · rw [hack, hnote]
    rfl

theorem replicateOnceReply_reject (now : ℤ) (hs : r.state = .leader) (ht : resp.term = r.term)
    (hq : req.term = r.term) (hno : resp.success = false) (hn : r.nextIndex.lookup id = some n)
    (h1 : 1 < n) :
    ∃ n', 1 ≤ n' ∧ n' < n ∧ r.replicateOnceReply id req resp now =
      ({ r.resetWindow id with nextIndex := r.nextIndex.insert id n' }).setReplicator id .loop := by
  have hreply : r.replicateOnceReply id req resp now =
      ((r.resetWindow id).backOff id resp).setReplicator id .loop := by
    unfold Raft.replicateOnceReply
    rw [if_neg (not_not.mpr hs), if_neg (by omega), if_neg (not_not.mpr ht),
      if_neg (not_not.mpr hq),
      if_neg (by rw [hno]; nofun)]
  have hcur : ((r.resetWindow id).nextIndex.lookup id).getD 0 = n := by
    rw [show (r.resetWindow id).nextIndex = r.nextIndex from rfl, hn]
    rfl
  rw [hreply]
  unfold backOff
  rw [hcur]
  by_cases hlt : (r.resetWindow id).nextProbe n resp < n
  · refine ⟨(r.resetWindow id).nextProbe n resp, ?_, hlt, ?_⟩
    · exact le_max_right _ _
    · dsimp only
      rw [if_pos hlt]
      rfl
  · refine ⟨n - 1, by omega, by omega, ?_⟩
    dsimp only
    rw [if_neg hlt, if_pos h1]
    rfl

theorem Keeps.accepts (h : r.Keeps l) (hlog : Indexed log) (hm : Matching l log)
    (hreq : req.CutFrom log) (ht : req.term = r.term) (hc : Shares l log r.commitIndex) (rnd : ℕ) :
    (r.handleAppendEntries req rnd).1.term = r.term ∧
      (r.handleAppendEntries req rnd).2.term = r.term ∧
      ((r.handleAppendEntries req rnd).2.success = true ↔ Shares l log req.prevLogIndex) := by
  obtain ⟨hkeeps, hcommit⟩ := h.heardFromLeader req rnd
  have hterm : (r.heardFromLeader req rnd).term = r.term :=
    (r.term_heardFromLeader req rnd ht.ge).trans ht
  unfold Raft.handleAppendEntries
  dsimp only
  rw [if_neg (by omega)]
  rw [← hcommit] at hc
  generalize r.heardFromLeader req rnd = r₁ at hkeeps hterm hc
  have hiff := hkeeps.prevLogConflict_iff hm hreq
  cases hp : r₁.prevLogConflict req with
  | some q =>
    refine ⟨hterm, rfl, nofun, fun hs ↦ ?_⟩
    rw [hiff.mpr hs] at hp
    cases hp
  | none =>
    have hs := hiff.mp hp
    obtain ⟨l', -, -, -, -, hok⟩ := hkeeps.storeEntries hlog hm hs hreq.entries
    have hstand : (r₁.storeEntries req.entries).1.term = r₁.term :=
      r₁.storeEntries_rel (P := fun a b ↦ b.term = a.term) (fun _ ↦ rfl) (fun h h' ↦ h'.trans h)
        (fun _ _ ↦ rfl) (fun r index h ↦ congrArg Core.term (r.truncateLog_spec index h).1) _
    have hnone := hok hc
    generalize r₁.storeEntries req.entries = q at hstand hnone
    obtain ⟨r₂, early⟩ := q
    cases hnone
    have hterm₂ : r₂.term = r.term := hstand.trans hterm
    have hfollow : (r₂.followCommit req).term = r.term := (r₂.followCommit_frame req).1.trans hterm₂
    exact ⟨hfollow, hfollow, fun _ ↦ hs, fun _ ↦ rfl⟩

end Raft

structure Link (σ : Type) where
  leader : Raft σ
  follower : Raft σ

namespace Link

variable {σ : Type} {k : Link σ} {id : ServerID} {l log : List LogEntry}

/-- One turn of the loop in `replicateTo` when the call succeeds and nothing else happens, with
the random draw of the follower's handler and the leader's clock reading, and the answer. -/
def turn (k : Link σ) (id : ServerID) (x : ℕ × ℤ) : Link σ × Option AppendEntriesResponse :=
  let r := k.leader.replicateOnce id
  match r.inflightReplication.lookup id with
  | some (.waiting req) =>
    let (f, resp) := k.follower.handleAppendEntries req x.1
    (⟨r.replicateOnceReply id req resp x.2, f⟩, some resp)
  | _ => (⟨r, k.follower⟩, none)

def turns (k : Link σ) (id : ServerID) (xs : ℕ → ℕ × ℤ) : ℕ → Link σ
  | 0 => k
  | n + 1 => ((k.turns id xs n).turn id (xs n)).1

def again (k : Link σ) (id : ServerID) : Prop := k.leader.inflightReplication.lookup id = some .loop

def rejected (k : Link σ) (id : ServerID) (x : ℕ × ℤ) : Bool :=
  (k.turn id x).2.any fun resp ↦ !resp.success

/-- Where the loop may find the two. The leader has the log `log` and the follower `l`, both from
index one on. -/
structure Ready (id : ServerID) (log l : List LogEntry) (k : Link σ) : Prop where
  leads : k.leader.state = .leader
  leader : k.leader.Keeps log
  window : k.leader.InFlight id []
  next : ∃ n, k.leader.nextIndex.lookup id = some n ∧ 1 ≤ n ∧ n ≤ log.length
  follower : k.follower.Keeps l
  matching : Matching l log
  term : k.follower.term = k.leader.term
  committed : Shares l log k.follower.commitIndex
  matched : Shares l log ((k.leader.matchIndex.lookup id).getD 0)

/-- The request that a turn sends, and the answer of the follower. -/
theorem Ready.answered (h : Ready id log l k) (x : ℕ × ℤ) {n : ℕ}
    (hn : k.leader.nextIndex.lookup id = some n) :
    ∃ (r : Raft σ) (req : AppendEntriesRequest) (last : LogEntry) (f : Raft σ)
      (resp : AppendEntriesResponse) (l' : List LogEntry),
      k.turn id x = (⟨r.replicateOnceReply id req resp x.2, f⟩, some resp) ∧
      (req.term = r.term ∧ req.prevLogIndex = n - 1 ∧ req.entries.getLast? = some last ∧
        n ≤ last.index) ∧
      (r.state = .leader ∧ r.Keeps log ∧ r.InFlight id [last.index] ∧
        r.nextIndex = k.leader.nextIndex ∧ r.matchIndex = k.leader.matchIndex) ∧
      f.term = r.term ∧ resp.term = r.term ∧ (resp.success = true ↔ Shares l log (n - 1)) ∧
      f.Keeps l' ∧ Matching l' log ∧ (∀ m, Shares l log m → Shares l' log m) ∧
      (resp.success = true → Shares l' log last.index) ∧ Shares l' log f.commitIndex := by
  obtain ⟨n₀, hn₀, h1, hle⟩ := h.next
  cases hn₀.symm.trans hn
  have hlog := h.leader.indexed
  obtain ⟨req, hsend, hcut, hterm, hprev, hne⟩ :=
    h.leader.replicateOnce h.leads h.window.windowFull hn h1 hle
  have hcore := (k.leader.quiet_addToWindow id req).core
  have hrt : (k.leader.sendAppend id req).term = k.leader.term := congrArg Core.term hcore
  have hnext : (k.leader.addToWindow id req).nextIndex = k.leader.nextIndex := by
    unfold Raft.addToWindow
    split <;> rfl
  have hlast := List.getLast?_eq_getLast_of_ne_nil hne
  have hwait : (k.leader.sendAppend id req).inflightReplication.lookup id = some (.waiting req) :=
    lookup_insert _
  have hidx : Raft.lastReqIndex req = (req.entries.getLast hne).index := by
    unfold Raft.lastReqIndex
    rw [hlast]
  have hreach : n ≤ (req.entries.getLast hne).index := by
    have hlen := hlog.lastReqIndex_eq hcut.entries
    have hpos := List.length_pos_iff.mpr hne
    omega
  obtain ⟨hfterm, hrterm, hiff⟩ := h.follower.accepts hlog h.matching hcut (hterm.trans h.term.symm)
    h.committed x.1
  obtain ⟨l', hfollower, hmatching, hmono, hacked, hcommitted⟩ :=
    h.follower.handleAppendEntries hlog h.matching hcut x.1
  rw [hprev] at hiff
  rw [hidx] at hacked
  refine ⟨k.leader.sendAppend id req, req, req.entries.getLast hne, _, _, l', ?_,
    ⟨hterm.trans hrt.symm, hprev, hlast, hreach⟩,
    ⟨(congrArg Core.state hcore).trans h.leads,
      h.leader.of_core (congrArg Core.log hcore) (congrArg Core.lastIndex hcore),
      h.window.addToWindow hlast, hnext, congrArg Core.matchIndex hcore⟩,
    hfterm.trans (h.term.trans hrt.symm), hrterm.trans (h.term.trans hrt.symm), hiff, hfollower,
    hmatching, hmono, hacked, hcommitted h.committed⟩
  unfold Link.turn
  rw [hsend]
  dsimp only
  rw [hwait]

/-- A request that begins beyond what is shared is rejected, and `nextIndex` goes down. -/
theorem Ready.reject (h : Ready id log l k) (x : ℕ × ℤ) {n : ℕ}
    (hn : k.leader.nextIndex.lookup id = some n) (hs : ¬ Shares l log (n - 1)) :
    (k.turn id x).1.again id ∧ ∃ l' n',
    (k.turn id x).1.leader.nextIndex.lookup id = some n' ∧ n' < n ∧
      Ready id log l' (k.turn id x).1 := by
  obtain ⟨n₀, hn₀, h1, hle⟩ := h.next
  cases hn₀.symm.trans hn
  have h2 : 1 < n := by
    by_contra hlt
    obtain rfl : n = 1 := by omega
    exact hs (.zero l log)
  obtain ⟨r, req, last, f, resp, l', hturn, ⟨hqterm, -, -, -⟩, ⟨hrs, hkeeps, hwin, hnext, hmatch⟩,
    hfterm, hrterm, hiff, hfollower, hmatching, hmono, -, hcommitted⟩ := h.answered x hn
  rw [hturn]
  have hno : resp.success = false := Bool.eq_false_iff.mpr fun hok ↦ hs (hiff.mp hok)
  obtain ⟨n', hpos, hlt, hreply⟩ := Raft.replicateOnceReply_reject (r := r) (n := n) x.2 hrs hrterm
    hqterm hno (by rw [hnext]; exact hn) h2
  rw [hreply]
  refine ⟨lookup_insert _, l', n', lookup_insert _, hlt, ?_⟩
  exact {
    leads := hrs
    leader := hkeeps.of_core rfl rfl
    window := hwin.resetWindow
    next := ⟨n', lookup_insert _, hpos, by omega⟩
    follower := hfollower
    matching := hmatching
    term := hfterm
    committed := hcommitted
    matched := by
      refine hmono _ ?_
      change Shares l log ((r.matchIndex.lookup id).getD 0)
      rw [hmatch]
      exact h.matched }

/-- A request that begins within what is shared is accepted; the match index reaches its end. -/
theorem Ready.accept (h : Ready id log l k) (x : ℕ × ℤ) {n : ℕ}
    (hn : k.leader.nextIndex.lookup id = some n) (hs : Shares l log (n - 1)) :
    (∃ resp, (k.turn id x).2 = some resp ∧ resp.success = true) ∧
      (k.turn id x).1.leader.Keeps log ∧
      ∃ l' m, n ≤ m ∧ m ≤ log.length ∧ Shares l' log m ∧ (k.turn id x).1.follower.Keeps l' ∧
        (k.turn id x).1.leader.matchIndex.lookup id = some m ∧
        (k.turn id x).1.leader.nextIndex.lookup id = some (m + 1) ∧
        (k.turn id x).1.leader.inflightReplication.lookup id =
          some (if m + 1 ≤ log.length then .loop else .exiting) ∧
        (m + 1 ≤ log.length → Ready id log l' (k.turn id x).1) := by
  obtain ⟨r, req, last, f, resp, l', hturn, ⟨hqterm, -, hlast, hreach⟩,
      ⟨hrs, hkeeps, hwin, -, hmatch⟩,
    hfterm, hrterm, hiff, hfollower, hmatching, hmono, hacked, hcommitted⟩ := h.answered x hn
  rw [hturn]
  have hok := hiff.mpr hs
  obtain ⟨m, hm⟩ : ∃ m, max last.index ((r.matchIndex.lookup id).getD 0) = m := ⟨_, rfl⟩
  have hshare : Shares l' log m := by
    rw [← hm, hmatch]
    rcases max_choice last.index ((k.leader.matchIndex.lookup id).getD 0) with heq | heq
    · rw [heq]
      exact hacked hok
    · rw [heq]
      exact hmono _ h.matched
  obtain ⟨r', hreply, hs', ht', hlog', hlast', hmatch', hnext', hwin'⟩ :=
    Raft.replicateOnceReply_success (r := r) x.2 hrs hrterm hqterm hok hlast hm
  have hwindow : r'.InFlight id [] := by
    intro w hw
    rw [hwin'] at hw
    exact hwin.recordMatch (.inr rfl) w hw
  rw [hreply, hkeeps.lastIndex]
  refine ⟨⟨resp, rfl, hok⟩, hkeeps.of_core hlog' hlast', l', m, by omega, hshare.1,
    hshare, hfollower, hmatch', hnext', lookup_insert _, fun hle' ↦ ?_⟩
  exact {
    leads := hs'
    leader := hkeeps.of_core hlog' hlast'
    window := hwindow
    next := ⟨m + 1, hnext', by omega, hle'⟩
    follower := hfollower
    matching := hmatching
    term := hfterm.trans ht'.symm
    committed := hcommitted
    matched := by
      change Shares l' log ((r'.matchIndex.lookup id).getD 0)
      rw [hmatch']
      exact hshare }

/-- The turns left: at most one for every index, and while requests are rejected one more for
every index below. -/
def Settles (id : ServerID) (log : List LogEntry) (k : Link σ) (xs : ℕ → ℕ × ℤ) (j : ℕ) : Prop :=
  ∃ j' > j, (∀ i, j < i → i < j' → (k.turns id xs i).again id) ∧
    (∀ i, j ≤ i → i < j' → (k.turns id xs i).rejected id (xs i) = true →
      ∃ n n', (k.turns id xs i).leader.nextIndex.lookup id = some n ∧
        (k.turns id xs (i + 1)).leader.nextIndex.lookup id = some n' ∧ n' < n) ∧
    (k.turns id xs j').leader.inflightReplication.lookup id = some .exiting ∧
    (k.turns id xs j').leader.matchIndex.lookup id = some log.length ∧
    (k.turns id xs j').leader.Keeps log ∧
    ∃ l, (k.turns id xs j').follower.Keeps l ∧ Shares l log log.length

variable {j : ℕ} {xs : ℕ → ℕ × ℤ}

theorem Settles.cons (h : Settles id log k xs (j + 1))
    (hagain : (k.turns id xs (j + 1)).again id)
    (hdown : (k.turns id xs j).rejected id (xs j) = true →
      ∃ n n', (k.turns id xs j).leader.nextIndex.lookup id = some n ∧
        (k.turns id xs (j + 1)).leader.nextIndex.lookup id = some n' ∧ n' < n) :
    Settles id log k xs j := by
  obtain ⟨j', hj, hloop, hrej, hexit, hmatch, hend⟩ := h
  refine ⟨j', by omega, fun i hi hi' ↦ ?_, fun i hi hi' ↦ ?_, hexit, hmatch, hend⟩
  · rcases Nat.lt_or_ge (j + 1) i with hlt | hge
    · exact hloop i hlt hi'
    · obtain rfl : i = j + 1 := by omega
      exact hagain
  · rcases Nat.lt_or_ge j i with hlt | hge
    · exact hrej i hlt hi'
    · obtain rfl : i = j := by omega
      exact hdown

theorem Ready.settles_shared {n : ℕ} (h : Ready id log l (k.turns id xs j))
    (hn : (k.turns id xs j).leader.nextIndex.lookup id = some n) (hs : Shares l log (n - 1)) :
    Settles id log k xs j := by
  obtain ⟨d, hd⟩ : ∃ d, log.length - n = d := ⟨_, rfl⟩
  induction d using Nat.strong_induction_on generalizing j n l with
  | _ d ih =>
    obtain ⟨⟨resp, hresp, hok⟩, hlog, l', m, hnm, hmle, hshare, hkeeps, hmatch, hnext,
        hpc, hready⟩ :=
      h.accept (xs j) hn hs
    have hrej : (k.turns id xs j).rejected id (xs j) = true → False := by
      unfold rejected
      rw [hresp]
      simp [hok]
    by_cases hle : m + 1 ≤ log.length
    · rw [if_pos hle] at hpc
      refine Settles.cons (ih (log.length - (m + 1)) (by omega) (hready hle) hnext hshare rfl) hpc
        fun hr ↦ (hrej hr).elim
    · rw [if_neg hle] at hpc
      obtain rfl : m = log.length := by omega
      refine ⟨j + 1, by omega, by omega, fun i hi hi' hr ↦ ?_, hpc, hmatch, hlog, l',
        hkeeps, hshare⟩
      obtain rfl : i = j := by omega
      exact (hrej hr).elim

theorem Ready.settles {n : ℕ} (h : Ready id log l (k.turns id xs j))
    (hn : (k.turns id xs j).leader.nextIndex.lookup id = some n) : Settles id log k xs j := by
  induction n using Nat.strong_induction_on generalizing j l with
  | _ n ih =>
    by_cases hs : Shares l log (n - 1)
    · exact h.settles_shared hn hs
    · obtain ⟨hagain, l', n', hn', hlt, hready⟩ := h.reject (xs j) hn hs
      exact (ih n' hlt (j := j + 1) hready hn').cons hagain fun _ ↦ ⟨n, n', hn, hn', hlt⟩

/-- The `replicateTo` loop ends; every rejection on the way lowers `nextIndex`, and at the end the
follower has the whole log of the leader, and the leader knows it. -/
theorem replicateTo_converges (h : Ready id log l k) (xs : ℕ → ℕ × ℤ) :
    ∃ j > 0, (∀ i, 0 < i → i < j → (k.turns id xs i).again id) ∧
      (k.turns id xs j).leader.inflightReplication.lookup id = some .exiting ∧
      (∀ i < j, (k.turns id xs i).rejected id (xs i) = true →
        ∃ n n', (k.turns id xs i).leader.nextIndex.lookup id = some n ∧
          (k.turns id xs (i + 1)).leader.nextIndex.lookup id = some n' ∧ n' < n) ∧
      (k.turns id xs j).leader.lastIndex = k.leader.lastIndex ∧
      (∀ i, 0 < i → i ≤ k.leader.lastIndex →
        (k.turns id xs j).leader.log.get i = k.leader.log.get i ∧
          (k.turns id xs j).follower.log.get i = k.leader.log.get i) ∧
      (k.turns id xs j).leader.matchIndex.lookup id = some k.leader.lastIndex := by
  obtain ⟨n, hn, -⟩ := h.next
  have h₀ : Ready id log l (k.turns id xs 0) := h
  obtain ⟨j, hj, hloop, hrej, hexit, hmatch, hleader, l', hkeeps, hshare⟩ := h₀.settles hn
  rw [h.leader.lastIndex]
  refine ⟨j, hj, hloop, hexit, fun i hi ↦ hrej i (Nat.zero_le i) hi, hleader.lastIndex,
    fun i hi hle ↦ ?_, hmatch⟩
  obtain ⟨i, rfl⟩ := Nat.exists_eq_succ_of_ne_zero hi.ne'
  rw [Nat.succ_eq_add_one, hkeeps.holds i, h.leader.holds i, hleader.holds i]
  exact ⟨rfl, hshare.getElem? (by omega)⟩

/-- A leads term 2 and takes B to have its log up to index 2, where B has an entry of term 1. -/
def divergedB : Link (List Bytes) where
  leader := { Raft.new (.least "A" abc) "A" { Disk.empty with log := ⟨Raft.leaderLog⟩ } [] with
    state := .leader
    term := 2
    lastIndex := 3
    lastTerm := 2
    nextIndex := AList.insert "B" 3 ∅
    inflightWindows := AList.insert "B" (.new 4) ∅ }
  follower := { Raft.staleB with term := 2 }

theorem divergedB_converges : ∃ j > 0,
    (∀ i, 0 < i → i < j → (divergedB.turns "B" (fun _ ↦ (0, 0)) i).again "B") ∧
      (divergedB.turns "B" (fun _ ↦ (0, 0)) j).leader.inflightReplication.lookup "B" =
      some .exiting := by
  have hready : Ready "B" Raft.leaderLog Raft.staleLog divergedB := {
    leads := rfl
    leader := ⟨Raft.leaderLog_indexed.holds, rfl⟩
    window := fun w hw ↦ by
      cases hw
      exact ⟨by decide, rfl⟩
    next := ⟨3, rfl, by decide, by decide⟩
    follower := ⟨Raft.staleLog_indexed.holds, by decide +kernel⟩
    matching := Raft.staleLog_matching
    term := rfl
    committed := by
      rw [show divergedB.follower.commitIndex = 0 by decide +kernel]
      exact .zero _ _
    matched := .zero _ _ }
  obtain ⟨j, hj, hloop, hexit, -⟩ := replicateTo_converges hready fun _ ↦ (0, 0)
  exact ⟨j, hj, hloop, hexit⟩

/-- The first request is rejected and the second accepted. -/
example : divergedB.rejected "B" (0, 0) = true ∧
    ((divergedB.turn "B" (0, 0)).1.rejected "B" (0, 0)) = false := by
  decide +kernel

end Link

end RaftConsensus
