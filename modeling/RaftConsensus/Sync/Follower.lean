import RaftConsensus.Agreement.Logs
import RaftConsensus.Conditions

namespace RaftConsensus

open List

section Logs

variable {l log : List LogEntry} {k m : ℕ}

def Indexed (log : List LogEntry) : Prop :=
  ∀ (i : ℕ) (e : LogEntry), log[i]? = some e → e.index = i + 1

def Shares (l log : List LogEntry) (m : ℕ) : Prop := m ≤ log.length ∧ log.take m <+: l

/-- Log matching: two entries of the same index and term have the same log up to them. -/
def Matching (l log : List LogEntry) : Prop :=
  ∀ (i : ℕ) (a b : LogEntry), l[i]? = some a → log[i]? = some b → a.term = b.term →
    Shares l log (i + 1)

theorem Shares.getElem? (h : Shares l log m) {i : ℕ} (hi : i < m) : l[i]? = log[i]? := by
  obtain ⟨hm, t, ht⟩ := h
  rw [← ht, getElem?_append_left (by rw [length_take]; omega), getElem?_take, if_pos hi]

theorem Shares.le (h : Shares l log m) : m ≤ l.length := by
  have := h.2.length_le
  rw [length_take] at this
  have := h.1
  omega

theorem Shares.mono (h : Shares l log m) (hk : k ≤ m) : Shares l log k :=
  ⟨hk.trans h.1, (take_prefix_take_left hk).trans h.2⟩

theorem Shares.zero (l log : List LogEntry) : Shares l log 0 := ⟨Nat.zero_le _, nil_prefix⟩

theorem Shares.take_eq (h : Shares l log m) : l.take m = log.take m := by
  obtain ⟨hm, t, rfl⟩ := h
  rw [take_append_of_le_length (by rw [length_take]; omega), take_take, Nat.min_self]

theorem Shares.of_initial (h : l <+: log) : Shares l log l.length :=
  ⟨h.length_le, by rw [← prefix_iff_eq_take.mp h]⟩

theorem Matching.of_initial (h : l <+: log) : Matching l log := by
  intro i a b ha _ _
  exact (Shares.of_initial h).mono (List.getElem?_eq_some_iff.mp ha).1

theorem Indexed.contiguous (h : Indexed log) {es : List LogEntry} (hes : es <+: log.drop k) :
    Raft.contiguous (k + 1) es = true := by
  induction es generalizing k with
  | nil => rfl
  | cons e es ih =>
    obtain ⟨t, ht⟩ := hes
    have he : log[k]? = some e := by
      rw [← head?_drop, ← ht]
      rfl
    have hrest : es <+: log.drop (k + 1) := by
      refine ⟨t, ?_⟩
      rw [← tail_drop, ← ht]
      rfl
    rw [Raft.contiguous_cons]
    exact ⟨h k e he, ih hrest⟩

theorem Indexed.batch (h : Indexed log) {e : LogEntry} {es : List LogEntry}
    (hes : e :: es <+: log.drop k) : e.index = k + 1 ∧ log[k]? = some e ∧ es <+: log.drop (k + 1) ∧
      log.take k ++ e :: es <+: log ∧ (log.take k ++ e :: es).length = k + (e :: es).length := by
  have hcont := h.contiguous hes
  rw [Raft.contiguous_cons] at hcont
  obtain ⟨t, ht⟩ := hes
  have he : log[k]? = some e := by
    rw [← head?_drop, ← ht]
    rfl
  refine ⟨hcont.1, he, ⟨t, ?_⟩, ⟨t, ?_⟩, ?_⟩
  · rw [← tail_drop, ← ht]
    rfl
  · rw [append_assoc, ht, take_append_drop]
  · have := (List.getElem?_eq_some_iff.mp he).1
    rw [length_append, length_take]
    omega

theorem Indexed.holds (h : Indexed log) : (⟨log⟩ : LogStore).Holds log := by
  intro i
  unfold LogStore.get
  rw [if_neg (Nat.succ_ne_zero i)]
  dsimp only
  cases hi : log[i]? with
  | some e =>
    obtain ⟨hlt, he⟩ := List.getElem?_eq_some_iff.mp hi
    refine find?_eq_some_iff_getElem.mpr ⟨by simp [h i e hi], i, hlt, he, fun j hj ↦ ?_⟩
    have hidx := h j log[j] (getElem?_eq_getElem (hj.trans hlt))
    simp only [hidx, Bool.not_eq_true', decide_eq_false_iff_not]
    omega
  | none =>
    refine find?_eq_none.mpr fun e he ↦ ?_
    obtain ⟨j, hj⟩ := mem_iff_getElem?.mp he
    have hlt := (List.getElem?_eq_some_iff.mp hj).1
    have hle := List.getElem?_eq_none_iff.mp hi
    simp only [h j e hj, decide_eq_true_eq]
    omega

theorem Indexed.lastReqIndex_eq (hlog : Indexed log) {req : AppendEntriesRequest}
    (hreq : req.entries <+: log.drop req.prevLogIndex) :
    Raft.lastReqIndex req = req.prevLogIndex + req.entries.length := by
  unfold Raft.lastReqIndex
  cases hlast : req.entries.getLast? with
  | none => rw [getLast?_eq_none_iff.mp hlast, length_nil, Nat.add_zero]
  | some e =>
    have hpos : 0 < req.entries.length := by
      rw [length_pos_iff]
      intro hnil
      rw [hnil] at hlast
      cases hlast
    rw [getLast?_eq_getElem?] at hlast
    obtain ⟨t, ht⟩ := hreq
    have he : log[req.prevLogIndex + (req.entries.length - 1)]? = some e := by
      rw [← getElem?_drop, ← ht, getElem?_append_left (by omega), hlast]
    dsimp only
    rw [hlog _ e he]
    omega

end Logs

/-- The request is one that a leader with this log may send. -/
structure AppendEntriesRequest.CutFrom (req : AppendEntriesRequest)
    (log : List LogEntry) : Prop where
  prev_le : req.prevLogIndex ≤ log.length
  prevLogTerm : ∀ i e, req.prevLogIndex = i + 1 → log[i]? = some e → req.prevLogTerm = e.term
  entries : req.entries <+: log.drop req.prevLogIndex

namespace AppendEntriesRequest.CutFrom

variable {req : AppendEntriesRequest} {l log : List LogEntry}

theorem mono (h : req.CutFrom l) (hl : l <+: log) : req.CutFrom log := by
  obtain ⟨t, rfl⟩ := hl
  refine ⟨?_, fun i e hi he ↦ ?_, ?_⟩
  · rw [length_append]
    exact h.prev_le.trans (Nat.le_add_right _ _)
  · refine h.prevLogTerm i e hi ?_
    have := h.prev_le
    rwa [getElem?_append_left (by omega)] at he
  · rw [drop_append_of_le_length h.prev_le]
    exact h.entries.trans (prefix_append _ _)

end AppendEntriesRequest.CutFrom

namespace Raft

variable {σ : Type} {r r' : Raft σ} {l : List LogEntry}

structure Keeps (r : Raft σ) (l : List LogEntry) : Prop where
  holds : r.log.Holds l
  lastIndex : r.lastIndex = l.length

theorem Keeps.persistLog {es : List LogEntry} (h : r.Keeps l) (hp : r.persistLog es = some r') :
    r'.Keeps (l ++ es) := by
  obtain ⟨hc, rfl⟩ := r.persistLog_some hp
  clear hp
  induction es generalizing r l with
  | nil => rwa [append_nil]
  | cons e es ih =>
    rw [contiguous_cons] at hc
    have he : e.index = l.length + 1 := by rw [hc.1, h.lastIndex]
    have hnext : (r.appendEntry e).Keeps (l ++ [e]) := by
      refine ⟨h.holds.append he, ?_⟩
      rw [length_append, length_singleton]
      exact he
    have hc' : contiguous ((r.appendEntry e).lastIndex + 1) es = true := by
      rw [show (r.appendEntry e).lastIndex = r.lastIndex + 1 from hc.1]
      exact hc.2
    have hall := ih hnext hc'
    rwa [append_assoc] at hall

theorem Keeps.truncateLog {index : ℕ} (h : r.Keeps l) (hi : index ≤ l.length)
    (hc : r.commitIndex ≤ index) :
    (r.truncateLog index).1.Keeps (l.take index) ∧ (r.truncateLog index).2 = true := by
  obtain ⟨hcore, -, -⟩ := r.truncateLog_spec index hc
  refine ⟨⟨?_, ?_⟩, ?_⟩
  · rw [show (r.truncateLog index).1.log = _ from congrArg Core.log hcore]
    change (r.log.deleteRange (index + 1) (r.lastIndex + 1)).Holds (l.take index)
    rw [h.lastIndex]
    exact h.holds.truncate index
  · rw [show (r.truncateLog index).1.lastIndex = index from congrArg Core.lastIndex hcore,
      length_take]
    omega
  · unfold Raft.truncateLog
    dsimp only [checkpoint]
    rcases Nat.eq_zero_or_pos index with rfl | hpos
    · rfl
    · have hx : index - 1 < l.length := by omega
      have hget := h.holds.get hpos (getElem?_eq_getElem hx)
      rw [if_pos hpos, LogStore.get_deleteRange, if_neg (by omega), hget]

theorem Keeps.of_core {r' : Raft σ} (h : r.Keeps l) (hlog : r'.log = r.log)
    (hlast : r'.lastIndex = r.lastIndex) : r'.Keeps l := by
  refine ⟨?_, hlast.trans h.lastIndex⟩
  rw [hlog]
  exact h.holds

theorem Keeps.indexed (h : r.Keeps l) : Indexed l := by
  intro i e he
  rw [← h.holds i] at he
  exact LogStore.get_index he

/-- What the loop over the entries of a request does to a log that shares the leader's log up to
where they begin. -/
theorem Keeps.storeEntries {log es : List LogEntry} {k : ℕ} (h : r.Keeps l) (hlog : Indexed log)
    (hm : Matching l log) (hs : Shares l log k) (hes : es <+: log.drop k) :
    ∃ l', (r.storeEntries es).1.Keeps l' ∧ Matching l' log ∧
      (∀ m, Shares l log m → Shares l' log m) ∧
      ((r.storeEntries es).2 = none → Shares l' log (k + es.length)) ∧
      (Shares l log r.commitIndex → (r.storeEntries es).2 = none) := by
  induction es generalizing k with
  | nil => exact ⟨l, h, hm, fun _ hs ↦ hs, fun _ ↦ hs, fun _ ↦ rfl⟩
  | cons e es ih =>
    have hcont := hlog.contiguous hes
    obtain ⟨hidx, he, hrest, hbatch, hlen⟩ := hlog.batch hes
    have hklog : k < log.length := (List.getElem?_eq_some_iff.mp he).1
    have happend (r₁ : Raft σ) (hk : r₁.Keeps (log.take k)) :
        ∃ r₂, r₁.persistLog (e :: es) = some r₂ ∧ r₂.Keeps (log.take k ++ e :: es) := by
      have hl : r₁.lastIndex = k := by
        rw [hk.lastIndex, length_take]
        omega
      have hp : r₁.persistLog (e :: es) = some ((e :: es).foldl appendEntry r₁) := by
        rw [Raft.persistLog, hl, if_pos hcont]
      exact ⟨_, hp, hk.persistLog hp⟩
    have hget : r.log.get e.index = l[k]? := by rw [hidx, h.holds k]
    unfold Raft.storeEntries
    rw [hget]
    cases hx : l[k]? with
    | none =>
      have hle : l.length ≤ k := List.getElem?_eq_none_iff.mp hx
      have hl : l = log.take k := by
        have := hs.le
        rw [← hs.take_eq, take_of_length_le hle]
      obtain ⟨r₂, hp, hk₂⟩ := happend r (hl ▸ h)
      dsimp only
      rw [hp]
      refine ⟨_, hk₂, .of_initial hbatch, fun m hm ↦ ?_, fun _ ↦ ?_, fun _ ↦ rfl⟩
      · have := hm.le
        exact (Shares.of_initial hbatch).mono (by omega)
      · rw [← hlen]
        exact .of_initial hbatch
    | some x =>
      -- a shared entry cannot conflict
      have hbelow (hterm : x.term ≠ e.term) (m : ℕ) (hm : Shares l log m) : m ≤ k := by
        by_contra hlt
        have heq := hm.getElem? (not_le.mp hlt)
        rw [hx, he] at heq
        cases heq
        exact hterm rfl
      dsimp only
      split_ifs with hterm hcommit
      · obtain ⟨l', hk', hm', hmono, hend, hok⟩ := ih (hm k x e hx he hterm) hrest
        refine ⟨l', hk', hm', hmono, fun hn ↦ ?_, hok⟩
        rw [length_cons, Nat.add_comm es.length, ← Nat.add_assoc]
        exact hend hn
      · refine ⟨l, h, hm, fun _ hs ↦ hs, by simp, fun hc ↦ ?_⟩
        have := hbelow hterm _ hc
        omega
      · have hcut : e.index - 1 = k := by omega
        rw [hcut]
        obtain ⟨hk₁, hok⟩ := h.truncateLog hs.le (by omega)
        rw [hs.take_eq] at hk₁
        generalize r.truncateLog k = q at hk₁ hok
        obtain ⟨r₁, ok⟩ := q
        cases hok
        obtain ⟨r₂, hp, hk₂⟩ := happend r₁ hk₁
        dsimp only
        rw [hp]
        refine ⟨_, hk₂, .of_initial hbatch, fun m hm ↦ ?_, fun _ ↦ ?_, fun _ ↦ rfl⟩
        · have := hbelow hterm m hm
          exact (Shares.of_initial hbatch).mono (by omega)
        · rw [← hlen]
          exact .of_initial hbatch

theorem Keeps.prevLogConflict_iff {req : AppendEntriesRequest} {log : List LogEntry} (h : r.Keeps l)
    (hm : Matching l log) (hreq : req.CutFrom log) :
    r.prevLogConflict req = none ↔ Shares l log req.prevLogIndex := by
  rw [r.prevLogConflict_none_iff]
  constructor
  · rintro (h0 | ⟨e, he, ht⟩)
    · rw [h0]
      exact .zero l log
    · obtain ⟨i, hi⟩ := Nat.exists_eq_succ_of_ne_zero (LogStore.get_pos he).ne'
      rw [hi, Nat.succ_eq_add_one] at he ⊢
      have hlt : i < log.length := by
        have := hreq.prev_le
        omega
      have hterm := hreq.prevLogTerm i log[i] hi (getElem?_eq_getElem hlt)
      rw [h.holds i] at he
      exact hm i e log[i] he (getElem?_eq_getElem hlt) (ht.trans hterm)
  · intro hs
    refine or_iff_not_imp_left.mpr fun h0 ↦ ?_
    obtain ⟨i, hi⟩ := Nat.exists_eq_succ_of_ne_zero h0
    have hlt : i < log.length := by
      have := hs.1
      omega
    have hlog := getElem?_eq_getElem hlt
    refine ⟨log[i], ?_, (hreq.prevLogTerm i log[i] hi hlog).symm⟩
    rw [hi, Nat.succ_eq_add_one, h.holds i, hs.getElem? (by omega), hlog]

theorem commitIndex_storeEntries (r : Raft σ) (es : List LogEntry) :
    (r.storeEntries es).1.commitIndex = r.commitIndex :=
  r.storeEntries_rel (P := fun a b ↦ b.commitIndex = a.commitIndex) (fun _ ↦ rfl)
    (fun h h' ↦ h'.trans h) (fun _ _ ↦ rfl)
    (fun r index h ↦ congrArg Core.commitIndex (r.truncateLog_spec index h).1) es

theorem Keeps.followCommit (h : r.Keeps l) (req : AppendEntriesRequest) :
    (r.followCommit req).Keeps l := by
  unfold Raft.followCommit
  split_ifs
  · exact ⟨h.holds, h.lastIndex⟩
  · exact h

theorem commitIndex_followCommit (r : Raft σ) (req : AppendEntriesRequest) :
    (r.followCommit req).commitIndex ≤ max r.commitIndex (lastReqIndex req) := by
  unfold Raft.followCommit
  split_ifs
  · exact (min_le_right _ _).trans (le_max_right _ _)
  · exact le_max_left _ _

theorem Keeps.heardFromLeader (h : r.Keeps l) (req : AppendEntriesRequest) (rnd : ℕ) :
    (r.heardFromLeader req rnd).Keeps l ∧
      (r.heardFromLeader req rnd).commitIndex = r.commitIndex := by
  obtain ⟨_, _, _, _, _, _, hcore⟩ := r.heardFromLeader_frame req rnd
  exact ⟨h.of_core (congrArg Core.log hcore) (congrArg Core.lastIndex hcore),
    congrArg Core.commitIndex hcore⟩

theorem Keeps.handleAppendEntries {req : AppendEntriesRequest} {log : List LogEntry} (h : r.Keeps l)
    (hlog : Indexed log) (hm : Matching l log) (hreq : req.CutFrom log) (rnd : ℕ) :
    ∃ l', (r.handleAppendEntries req rnd).1.Keeps l' ∧ Matching l' log ∧
      (∀ m, Shares l log m → Shares l' log m) ∧
      ((r.handleAppendEntries req rnd).2.success = true → Shares l' log (lastReqIndex req)) ∧
      (Shares l log r.commitIndex → Shares l' log
        (r.handleAppendEntries req rnd).1.commitIndex) := by
  obtain ⟨hkeeps, hcommit⟩ := h.heardFromLeader req rnd
  unfold Raft.handleAppendEntries
  dsimp only
  split_ifs with hstale
  · exact ⟨l, h, hm, fun _ hs ↦ hs, nofun, id⟩
  · rw [← hcommit]
    generalize r.heardFromLeader req rnd = r₁ at hkeeps
    cases hp : r₁.prevLogConflict req with
    | some q => exact ⟨l, hkeeps, hm, fun _ hs ↦ hs, nofun, id⟩
    | none =>
      have hs := (hkeeps.prevLogConflict_iff hm hreq).mp hp
      obtain ⟨l', hk', hm', hmono, hend, -⟩ := hkeeps.storeEntries hlog hm hs hreq.entries
      have hc := r₁.commitIndex_storeEntries req.entries
      generalize r₁.storeEntries req.entries = q at hk' hend hc
      obtain ⟨r₂, early⟩ := q
      cases early with
      | some i =>
        refine ⟨l', hk', hm', hmono, nofun, fun hs ↦ ?_⟩
        rw [show r₂.commitIndex = r₁.commitIndex from hc]
        exact hmono _ hs
      | none =>
        have hshare : Shares l' log (lastReqIndex req) := by
          rw [hlog.lastReqIndex_eq hreq.entries]
          exact hend rfl
        refine ⟨l', hk'.followCommit req, hm', hmono, fun _ ↦ hshare, fun hs ↦ ?_⟩
        rcases le_max_iff.mp (r₂.commitIndex_followCommit req) with hle | hle
        · rw [show r₂.commitIndex = r₁.commitIndex from hc] at hle
          exact (hmono _ hs).mono hle
        · exact hshare.mono hle

def handleAll (r : Raft σ) (reqs : List (AppendEntriesRequest × ℕ)) : Raft σ :=
  reqs.foldl (fun r x ↦ (r.handleAppendEntries x.1 x.2).1) r

theorem Keeps.handleAll {log : List LogEntry} {reqs : List (AppendEntriesRequest × ℕ)}
    (h : r.Keeps l) (hlog : Indexed log) (hm : Matching l log)
    (hreqs : ∀ x ∈ reqs, x.1.CutFrom log) :
    ∃ l', (r.handleAll reqs).Keeps l' ∧ Matching l' log ∧ ∀ m, Shares l log m →
    Shares l' log m := by
  induction reqs generalizing r l with
  | nil => exact ⟨l, h, hm, fun _ hs ↦ hs⟩
  | cons x reqs ih =>
    obtain ⟨l₁, hk, hm₁, hmono, -, -⟩ := h.handleAppendEntries hlog hm (hreqs x mem_cons_self) x.2
    obtain ⟨l₂, hk₂, hm₂, hmono₂⟩ := ih hk hm₁ fun y hy ↦ hreqs y (mem_cons_of_mem x hy)
    exact ⟨l₂, hk₂, hm₂, fun m hs ↦ hmono₂ m (hmono m hs)⟩

/-- What the follower has acknowledged it keeps, as the leader has it, whatever requests of the
leader's term come later. The log of the leader has grown to `log` in the end. -/
theorem acknowledged_kept {log : List LogEntry} (hlog : Indexed log) (h : r.Keeps l)
    (hm : Matching l log) {before later : List (AppendEntriesRequest × ℕ)}
    {x : AppendEntriesRequest × ℕ}
    (hreqs : ∀ y ∈ before ++ x :: later, ∃ l₀, l₀ <+: log ∧ y.1.CutFrom l₀)
    (hs : ((r.handleAll before).handleAppendEntries x.1 x.2).2.success = true) {i : ℕ} (hi : 0 < i)
    (hle : i ≤ lastReqIndex x.1) :
    ∃ e, log[i - 1]? = some e ∧ (r.handleAll (before ++ x :: later)).log.get i = some e := by
  have hcut (y) (hy : y ∈ before ++ x :: later) : y.1.CutFrom log := by
    obtain ⟨t, ht, hc⟩ := hreqs y hy
    exact hc.mono ht
  obtain ⟨l₁, hk₁, hm₁, -⟩ := h.handleAll hlog hm fun y hy ↦ hcut y (mem_append_left _ hy)
  obtain ⟨l₂, hk₂, hm₂, -, hshare, -⟩ := hk₁.handleAppendEntries hlog hm₁
    (hcut x (mem_append_right _ mem_cons_self)) x.2
  obtain ⟨l₃, hk₃, -, hmono⟩ := hk₂.handleAll hlog hm₂ fun y hy ↦
    hcut y (mem_append_right _ (mem_cons_of_mem x hy))
  have hshared := hmono _ (hshare hs)
  have hlt : i - 1 < log.length := by
    have := hshared.1
    omega
  refine ⟨log[i - 1], getElem?_eq_getElem hlt, ?_⟩
  rw [handleAll, foldl_append, foldl_cons]
  refine hk₃.holds.get hi ?_
  rw [hshared.getElem? (by omega), getElem?_eq_getElem hlt]

def staleLog : List LogEntry := [⟨1, 1, .normal [1]⟩, ⟨1, 2, .normal [2]⟩]

def staleB : Raft (List Bytes) :=
  (Raft.new (.least "B" abc) "B" { Disk.empty with log := ⟨staleLog⟩ } []).start 0

def leaderLog : List LogEntry := [⟨1, 1, .normal [1]⟩, ⟨2, 2, .normal []⟩, ⟨2, 3, .normal [3]⟩]

theorem staleLog_indexed : Indexed staleLog := by
  intro i e he
  obtain ⟨hi, rfl⟩ := List.getElem?_eq_some_iff.mp he
  revert i
  decide +kernel

theorem staleB_keeps : staleB.Keeps staleLog := ⟨staleLog_indexed.holds, by decide +kernel⟩

theorem leaderLog_indexed : Indexed leaderLog := by
  intro i e he
  obtain ⟨hi, rfl⟩ := List.getElem?_eq_some_iff.mp he
  revert i
  decide +kernel

theorem staleLog_matching : Matching staleLog leaderLog := by
  intro i a b ha hb ht
  obtain ⟨hi, rfl⟩ := List.getElem?_eq_some_iff.mp ha
  obtain ⟨hi', rfl⟩ := List.getElem?_eq_some_iff.mp hb
  unfold Shares
  revert i
  decide +kernel

/-- The request that replaces the stale entry comes before an old, shorter one. -/
theorem staleB_acknowledged :
    ((staleB.handleAll []).handleAppendEntries ⟨2, "A", 1, 1, leaderLog.drop 1, 0⟩ 0).2.success =
    true ∧
      ∃ e, leaderLog[3 - 1]? = some e ∧
        (staleB.handleAll ([] ++ (⟨2, "A", 1, 1, leaderLog.drop 1, 0⟩, 0) ::
          [(⟨2, "A", 0, 0, leaderLog.take 1, 0⟩, 0)])).log.get 3 = some e := by
  have hs : ((staleB.handleAll []).handleAppendEntries
      ⟨2, "A", 1, 1, leaderLog.drop 1, 0⟩ 0).2.success = true := by
    decide +kernel
  refine ⟨hs, acknowledged_kept leaderLog_indexed staleB_keeps staleLog_matching ?_ hs (by decide)
    (by decide +kernel)⟩
  intro y hy
  refine ⟨leaderLog, prefix_rfl, ?_⟩
  rcases mem_cons.mp hy with rfl | hy
  · refine ⟨by decide, fun i e hi he ↦ ?_, prefix_rfl⟩
    cases hi
    cases he
    rfl
  · rw [mem_singleton.mp hy]
    exact ⟨by decide, nofun, take_prefix _ _⟩

end Raft

end RaftConsensus
