import RaftConsensus.Conditions
import RaftConsensus.Wal.Operations

namespace RaftConsensus

open List

namespace Wal

def view (w : Wal) : LogStore := ⟨w.index.keys.filterMap w.get⟩

theorem Holds.get_view {w : Wal} {log : List LogEntry} {s : ℕ} (h : Holds w log s) (i : ℕ) :
    w.view.get i = w.get i := by
  have hself {x : LogEntry} (hx : x ∈ w.index.keys.filterMap w.get) : w.get x.index = some x := by
    obtain ⟨j, -, hj⟩ := mem_filterMap.mp hx
    rw [(h.get_spec hj).1]
    exact hj
  unfold view LogStore.get
  split
  · rename_i h0
    exact (if_pos (.inl h0)).symm
  · cases hf : (w.index.keys.filterMap w.get).find? (fun e ↦ e.index = i) with
    | some x =>
      have hx : x.index = i := by simpa using find?_some hf
      rw [← hx, hself (mem_of_find?_eq_some hf)]
    | none =>
      refine (Option.eq_none_iff_forall_ne_some.mpr fun e he ↦ ?_).symm
      have hmem := mem_filterMap.mpr ⟨i, AList.mem_keys.mp (Holds.mem_of_get he), he⟩
      have hne := find?_eq_none.mp hf e hmem
      exact hne (decide_eq_true (h.get_spec he).1)

end Wal

/-- What a leader keeps on disk, with every entry it ever appended and the index of its latest
snapshot. -/
structure Archive where
  wal : Wal
  log : List LogEntry
  snapshot : ℕ
  lastIndex : ℕ
deriving DecidableEq

namespace Archive

inductive Op
  | append (e : LogEntry)
  | snapshot (index : ℕ)
  | compact
  | restart

/-- A snapshot is durable before the log is compacted; a restart takes the last index from both. -/
def step (a : Archive) : Op → Option Archive
  | .append e =>
    if e.index = a.lastIndex + 1 ∧ 0 < e.term then
      some { a with wal := a.wal.appendEntry e, log := a.log ++ [e], lastIndex := e.index }
    else none
  | .snapshot index =>
    if a.snapshot ≤ index ∧ index ≤ a.lastIndex then some { a with snapshot := index } else none
  | .compact => some { a with wal := a.wal.compact a.snapshot }
  | .restart =>
    a.wal.reopen.map fun w ↦ { a with wal := w, lastIndex := max w.lastIndex a.snapshot }

def steps : Archive → List Op → Option Archive := Script.run step

def empty : Archive := ⟨.empty, [], 0, 0⟩

structure Sound (a : Archive) : Prop where
  wal : a.wal.Holds a.log a.snapshot
  last : a.lastIndex = a.log.length
  snapshot : a.snapshot ≤ a.log.length
  term : ∀ e ∈ a.log, 0 < e.term

theorem sound_empty : empty.Sound := ⟨.empty, rfl, le_rfl, nofun⟩

theorem Sound.step {a a' : Archive} {op : Op} (h : a.Sound) (hs : a.step op = some a') :
    a'.Sound := by
  have hlast := h.last
  have hsnap := h.snapshot
  cases op with
  | append e =>
    simp only [Archive.step] at hs
    split_ifs at hs with hc
    cases hs
    refine ⟨h.wal.appendEntry (by omega), ?_, ?_, fun x hx ↦ ?_⟩
    · rw [length_append, length_singleton, hc.1, hlast]
    · rw [length_append]
      exact hsnap.trans (Nat.le_add_right _ _)
    · rcases mem_append.mp hx with hx | hx
      · exact h.term x hx
      · cases mem_singleton.mp hx
        exact hc.2
  | snapshot index =>
    simp only [Archive.step] at hs
    split_ifs at hs with hc
    cases hs
    exact ⟨h.wal.mono hc.1, hlast, hc.2.trans_eq hlast, h.term⟩
  | compact =>
    cases hs
    exact ⟨h.wal.compact.mono (max_self _).le, hlast, hsnap, h.term⟩
  | restart =>
    have hholds := h.wal.rebuilt
    simp only [Archive.step, h.wal.reopen, Option.map_some] at hs
    cases hs
    exact ⟨hholds, hholds.max_last hsnap, hsnap, h.term⟩

theorem Sound.steps {a a' : Archive} {ops : List Op} (h : a.Sound) (hs : a.steps ops = some a') :
    a'.Sound :=
  Script.invariant (fun _ _ _ hs h ↦ h.step hs) hs h

variable {σ : Type} (a : Archive)

def host (r : Raft σ) : Raft σ := { r with log := a.wal.view, lastIndex := a.lastIndex }

def replicateOnce (r : Raft σ) (id : ServerID) : Raft σ := r.replicateOnceFrom a.wal.firstIndex id

def termAt (i : ℕ) : ℕ := if i = 0 then 0 else ((a.log[i - 1]?).map LogEntry.term).getD 0

/-- A request that continues the logical log at `next`, or a snapshot where an entry that is
needed for such a request is gone. -/
def Faithful (next : ℕ) : Replicator → Prop
  | .waiting req => req.prevLogIndex = next - 1 ∧ req.prevLogTerm = a.termAt (next - 1) ∧
    req.entries <+: a.log.drop (next - 1) ∧ (next ≤ a.lastIndex → req.entries ≠ [])
  | .needSnapshot => ∃ i, (i = next ∨ i + 1 = next) ∧ 0 < i ∧ i ≤ a.snapshot ∧ a.wal.get i = none
  | _ => False

def streams (next : ℕ) : Bool :=
  0 < a.wal.firstIndex && (next < a.wal.firstIndex || (1 < next && next = a.wal.firstIndex))

def serves (next : ℕ) : Bool :=
  (next = 1 || (a.wal.get (next - 1)).isSome) && (a.lastIndex < next || (a.wal.get next).isSome)

variable {a} {r : Raft σ} {id : ServerID} {next : ℕ}

theorem Sound.log_of_get (h : a.Sound) {i : ℕ} {e : LogEntry} (hg : a.wal.get i = some e) :
    0 < i ∧ a.log[i - 1]? = some e := (h.wal.get_spec hg).2

theorem Sound.covered (h : a.Sound) {i : ℕ} (hle : i ≤ a.lastIndex)
    (hg : a.wal.get i = none) : i ≤ a.snapshot := by
  by_contra hlt
  obtain ⟨e, he, -⟩ := h.wal.get_of_mem (h.wal.live i (by omega) (h.last ▸ hle))
  rw [hg] at he
  cases he

theorem Sound.none_of_lt (h : a.Sound) {i : ℕ} (hi : i < a.wal.firstIndex) :
    a.wal.get i = none := by
  refine Option.eq_none_iff_forall_ne_some.mpr fun e he ↦ ?_
  have := h.wal.firstIndex_le (Wal.Holds.mem_of_get he)
  omega

theorem Sound.termAt_pos (h : a.Sound) {i : ℕ} (hi : 0 < i) (hle : i ≤ a.lastIndex) :
    0 < a.termAt i := by
  have hlt : i - 1 < a.log.length := by
    have := h.last
    omega
  rw [termAt, if_neg hi.ne', getElem?_eq_getElem hlt]
  exact h.term _ (getElem_mem hlt)

theorem Sound.collectEntries_initial (h : a.Sound) (maxSize n idx : ℕ) (total : Option ℕ) :
    (a.host r).collectEntries maxSize n idx total <+: a.log.drop (idx - 1) := by
  refine (a.host r).collectEntries_initial (fun i e hi ↦ ?_) maxSize n idx total
  have hget : (a.host r).log.get i = a.wal.get i := h.wal.get_view i
  rw [hget] at hi
  exact (h.log_of_get hi).2

theorem Sound.appendRequest_nonempty (h : a.Sound) (prevLogTerm : ℕ) :
    (next ≤ a.lastIndex → ((a.host r).appendRequest next prevLogTerm).entries ≠ []) ↔
      (a.lastIndex < next ∨ (a.wal.get next).isSome = true) := by
  rw [← not_le, ← imp_iff_not_or]
  refine imp_congr_right fun hle ↦ ?_
  have hget : (a.host r).log.get next = a.wal.get next := h.wal.get_view next
  rw [← hget]
  exact (a.host r).appendRequest_nonempty prevLogTerm hle

theorem Sound.faithful_append (h : a.Sound) (prevLogTerm : ℕ) :
    a.Faithful next (.waiting ((a.host r).appendRequest next prevLogTerm)) ↔
      prevLogTerm = a.termAt (next - 1) ∧
      (a.lastIndex < next ∨ (a.wal.get next).isSome = true) := by
  rw [← h.appendRequest_nonempty (r := r) prevLogTerm]
  exact ⟨fun hf ↦ ⟨hf.2.1, hf.2.2.2⟩,
    fun hf ↦ ⟨rfl, hf.1, h.collectEntries_initial _ _ _ _, hf.2⟩⟩

theorem lookup_sendAppend (r : Raft σ) (id : ServerID) (req : AppendEntriesRequest) :
    (r.sendAppend id req).inflightReplication.lookup id = some (.waiting req) :=
  AList.lookup_insert _

theorem lookup_replicateOnce_full (hs : r.state = .leader) (hw : r.windowFull id = true) :
    (a.replicateOnce (a.host r) id).inflightReplication.lookup id = some .exiting := by
  unfold replicateOnce Raft.replicateOnceFrom
  rw [if_neg (not_not.mpr hs : ¬ (a.host r).state ≠ .leader),
    if_pos (show (a.host r).windowFull id = true from hw)]
  exact AList.lookup_insert _

/-- What `replicateOnce` decides on. -/
theorem Sound.lookup_replicateOnce (h : a.Sound) (hs : r.state = .leader)
    (hw : r.windowFull id = false) (hn : (r.nextIndex.lookup id).getD (a.lastIndex + 1) = next)
    (h1 : 1 ≤ next) :
    (a.replicateOnce (a.host r) id).inflightReplication.lookup id = some (if a.streams next then
      .needSnapshot else .waiting ((a.host r).appendRequest next
        (((a.wal.get (next - 1)).map LogEntry.term).getD 0))) := by
  have hget : (a.host r).log.get (next - 1) = a.wal.get (next - 1) := h.wal.get_view (next - 1)
  have hnext : ((a.host r).nextIndex.lookup id).getD ((a.host r).lastIndex + 1) = next := hn
  have hstreams : a.streams next = true ↔ 0 < a.wal.firstIndex ∧
      (next < a.wal.firstIndex ∨ 1 < next ∧ next = a.wal.firstIndex) := by
    simp [streams]
  unfold replicateOnce Raft.replicateOnceFrom
  rw [if_neg (not_not.mpr hs : ¬ (a.host r).state ≠ .leader),
    if_neg (by rw [show (a.host r).windowFull id = false from hw]; nofun), hnext]
  dsimp only
  by_cases hlow : 0 < a.wal.firstIndex ∧ next < a.wal.firstIndex
  · rw [if_pos hlow, if_pos (hstreams.mpr ⟨hlow.1, .inl hlow.2⟩)]
    exact AList.lookup_insert _
  · rw [if_neg hlow]
    by_cases hone : next ≤ 1
    · obtain rfl : next = 1 := by omega
      have hns : ¬ a.streams 1 = true := by
        rw [hstreams]
        omega
      have hzero : a.wal.get (1 - 1) = none := if_pos (.inl rfl)
      rw [if_pos hone, lookup_sendAppend, if_neg hns, hzero]
      rfl
    · rw [if_neg hone, hget]
      cases hg : a.wal.get (next - 1) with
      | some e =>
        have hle := h.wal.firstIndex_le (Wal.Holds.mem_of_get hg)
        have hns : ¬ a.streams next = true := by
          rw [hstreams]
          omega
        rw [if_neg hns]
        exact lookup_sendAppend _ _ _
      | none =>
        dsimp only
        by_cases hprev : 0 < a.wal.firstIndex ∧ next - 1 < a.wal.firstIndex
        · rw [if_pos hprev, if_pos (hstreams.mpr ⟨hprev.1, by omega⟩)]
          exact AList.lookup_insert _
        · have hns : ¬ a.streams next = true := by
            rw [hstreams]
            omega
          rw [if_neg hprev, if_neg hns]
          exact lookup_sendAppend _ _ _

theorem Sound.faithful_needSnapshot (h : a.Sound) (h1 : 1 ≤ next) (hle : next ≤ a.lastIndex + 1)
    (hs : a.streams next = true) : a.Faithful next .needSnapshot := by
  have hf : 0 < a.wal.firstIndex ∧
      (next < a.wal.firstIndex ∨ 1 < next ∧ next = a.wal.firstIndex) := by
    simpa [streams] using hs
  have hbase := h.wal.firstIndex_base_le
  have hlast := h.last
  rcases hf.2 with hlt | ⟨h2, heq⟩
  · have hnone := h.none_of_lt hlt
    exact ⟨next, .inl rfl, by omega, h.covered (by omega) hnone, hnone⟩
  · have hnone := h.none_of_lt (show next - 1 < a.wal.firstIndex by omega)
    exact ⟨next - 1, .inr (by omega), by omega, h.covered (by omega) hnone, hnone⟩

theorem Sound.prevLogTerm_iff (h : a.Sound) (h1 : 1 ≤ next) (hle : next ≤ a.lastIndex + 1) :
    ((a.wal.get (next - 1)).map LogEntry.term).getD 0 = a.termAt (next - 1) ↔
      next = 1 ∨ (a.wal.get (next - 1)).isSome = true := by
  by_cases hone : next = 1
  · subst hone
    have hzero : a.wal.get (1 - 1) = none := if_pos (.inl rfl)
    rw [hzero]
    exact ⟨fun _ ↦ .inl rfl, fun _ ↦ rfl⟩
  · have hpos := h.termAt_pos (i := next - 1) (by omega) (by omega)
    cases hg : a.wal.get (next - 1) with
    | none =>
      simp only [Option.map_none, Option.getD_none, Option.isSome_none,
        Bool.false_eq_true, or_false]
      omega
    | some e =>
      obtain ⟨hi, hlog⟩ := h.log_of_get hg
      rw [termAt, if_neg hi.ne', hlog]
      simp

theorem sendSnapshotEnd_spec (id : ServerID) {send : SnapshotSend} (now : ℤ)
    (hs : r.state = .leader) (ht : r.term = send.reqTerm) :
    ((a.host r).sendSnapshotEnd id send now).state = .leader ∧
      ((a.host r).sendSnapshotEnd id send now).windowFull id = r.windowFull id ∧
      ((a.host r).sendSnapshotEnd id send now).nextIndex.lookup id =
        some (max send.lastIncludedIndex ((r.matchIndex.lookup id).getD 0) + 1) ∧
      a.host ((a.host r).sendSnapshotEnd id send now) = (a.host r).sendSnapshotEnd id send now := by
  unfold Raft.sendSnapshotEnd
  rw [if_pos (⟨hs, ht⟩ : (a.host r).state = .leader ∧ (a.host r).term = send.reqTerm)]
  exact ⟨hs, rfl, AList.lookup_insert _, rfl⟩

variable {ops : List Op}

/-- The leader's next request to a follower is faithful to its logical log exactly when the
write-ahead log serves what it needs, or has a first segment that tells that it does not; and
the request after a snapshot goes on from there exactly when the first segment does not ask for
the snapshot again. -/
theorem replicateOnce_faithful_iff (ha : empty.steps ops = some a) (hs : r.state = .leader) :
    (∀ next, 1 ≤ next → next ≤ a.lastIndex + 1 →
      (r.nextIndex.lookup id).getD (a.lastIndex + 1) = next →
      ((∃ pc, (a.replicateOnce (a.host r) id).inflightReplication.lookup id = some pc ∧
          a.Faithful next pc) ↔
        r.windowFull id = false ∧ (a.streams next = true ∨ a.serves next = true))) ∧
    ∀ (send : SnapshotSend) (now : ℤ), r.term = send.reqTerm →
      ((∃ req, (a.replicateOnce ((a.host r).sendSnapshotEnd id send now)
            id).inflightReplication.lookup id = some (.waiting req) ∧
          req.prevLogIndex = send.lastIncludedIndex) ↔
        r.windowFull id = false ∧ (r.matchIndex.lookup id).getD 0 ≤ send.lastIncludedIndex ∧
          a.streams (send.lastIncludedIndex + 1) = false) := by
  have h := sound_empty.steps ha
  refine ⟨fun next h1 hle hn ↦ ?_, fun send now ht ↦ ?_⟩
  · cases hw : r.windowFull id with
    | true =>
      rw [lookup_replicateOnce_full hs hw]
      exact ⟨fun ⟨pc, hpc, hf⟩ ↦ by cases hpc; exact hf.elim, fun hc ↦ (nomatch hc.1)⟩
    | false =>
      rw [h.lookup_replicateOnce hs hw hn h1]
      by_cases hst : a.streams next = true
      · rw [if_pos hst]
        exact ⟨fun _ ↦ ⟨rfl, .inl hst⟩, fun _ ↦ ⟨_, rfl, h.faithful_needSnapshot h1 hle hst⟩⟩
      · rw [if_neg hst]
        simp only [Option.some.injEq, exists_eq_left', hst, h.faithful_append,
          h.prevLogTerm_iff h1 hle]
        simp [serves]
  · obtain ⟨hs', hw', hn', hhost⟩ := sendSnapshotEnd_spec (a := a) id now hs ht
    rw [← hhost]
    cases hw : r.windowFull id with
    | true =>
      rw [lookup_replicateOnce_full hs' (hw'.trans hw)]
      exact ⟨fun ⟨_, hreq, _⟩ ↦ (nomatch hreq), fun hc ↦ (nomatch hc.1)⟩
    | false =>
      rw [h.lookup_replicateOnce hs' (hw'.trans hw) (by rw [hn']; rfl) (Nat.succ_pos _)]
      by_cases hm : (r.matchIndex.lookup id).getD 0 ≤ send.lastIncludedIndex
      · rw [max_eq_left hm]
        cases a.streams (send.lastIncludedIndex + 1) with
        | true => exact ⟨fun ⟨_, hreq, _⟩ ↦ (nomatch hreq), fun hc ↦ (nomatch hc.2.2)⟩
        | false => exact ⟨fun _ ↦ ⟨rfl, hm, rfl⟩, fun _ ↦ ⟨_, rfl, rfl⟩⟩
      · rw [max_eq_right (by omega)]
        refine ⟨fun ⟨req, hreq, hprev⟩ ↦ ?_, fun hc ↦ absurd hc.2.1 hm⟩
        split at hreq
        · cases hreq
        · cases hreq
          exact absurd hprev.le hm

def leaderA : Raft (List Bytes) :=
  { Raft.new (.least "A" abc) "A" .empty [] with
    state := .leader
    term := 1
    nextIndex := AList.insert "B" 3 ∅ }

def threeAppended : List Op :=
  [.append ⟨1, 1, .normal [1]⟩, .append ⟨1, 2, .normal [2]⟩, .append ⟨1, 3, .normal [3]⟩]

theorem replicateOnce_faithful_threeAppended : ∃ a : Archive, empty.steps threeAppended = some a ∧
    leaderA.state = .leader ∧ (leaderA.nextIndex.lookup "B").getD (a.lastIndex + 1) = 3 ∧
    a.lastIndex = 3 ∧
    ∃ pc, (a.replicateOnce (a.host leaderA) "B").inflightReplication.lookup "B" = some pc ∧
      a.Faithful 3 pc := by
  have hrun : (empty.steps threeAppended).map (fun a ↦ (a.lastIndex, a.serves 3)) =
      some (3, true) := by
    decide +kernel
  obtain ⟨a, ha, h⟩ := Option.map_eq_some_iff.mp hrun
  simp only [Prod.mk.injEq] at h
  refine ⟨a, ha, rfl, rfl, h.1, ?_⟩
  refine ((replicateOnce_faithful_iff ha ?_).1 3 (by omega) (by omega) ?_).mpr ⟨?_, .inr h.2⟩
  · rfl
  · rfl
  · rfl

/-- After a snapshot at index 2 the request that goes on from there has a wrong term. -/
theorem request_after_compaction : ∃ (a : Archive) (req : AppendEntriesRequest),
    empty.steps (threeAppended ++ [.snapshot 2, .compact]) = some a ∧ leaderA.state = .leader ∧
      leaderA.windowFull "B" = false ∧ leaderA.nextIndex.lookup "B" = some 3 ∧ a.lastIndex = 3 ∧
      (a.replicateOnce (a.host leaderA) "B").inflightReplication.lookup "B" = some (.waiting req) ∧
      req.prevLogIndex = 2 ∧ req.prevLogTerm = 0 ∧ a.termAt 2 = 1 := by
  have hrun : (empty.steps (threeAppended ++ [.snapshot 2, .compact])).map (fun a ↦
      ((a.replicateOnce (a.host leaderA) "B").inflightReplication.lookup "B", a.lastIndex,
      a.termAt 2)) = some (some (.waiting ⟨1, "A", 2, 0, [⟨1, 3, .normal [3]⟩], 0⟩), 3, 1) := by
    decide +kernel
  obtain ⟨a, ha, h⟩ := Option.map_eq_some_iff.mp hrun
  simp only [Prod.mk.injEq] at h
  exact ⟨a, _, ha, rfl, rfl, rfl, h.2.1, h.1, rfl, rfl, h.2.2⟩

end Archive

end RaftConsensus
