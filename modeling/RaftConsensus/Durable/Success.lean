import RaftConsensus.Durable.Append
import RaftConsensus.Conditions

namespace RaftConsensus

structure WalNode (σ : Type) where
  raft : Raft σ
  wal : UnsureWal

/-- How the calls to the files end while a request is handled. Bytes of a write that failed can
make records unreadable, so `reads` says which can be read. -/
structure FileCalls where
  reads : ℕ → Bool
  append : AppendCalls

namespace WalNode

variable {σ : Type} {n n' : WalNode σ} {s : ℕ} {o : FileCalls} {es : List LogEntry}
  {req : AppendEntriesRequest}

def get (n : WalNode σ) (o : FileCalls) (idx : ℕ) : Option LogEntry :=
  if o.reads idx then n.wal.wal.get idx else none

def persistLog (n : WalNode σ) (o : FileCalls) (entries : List LogEntry) : WalNode σ × Bool :=
  if !Raft.contiguous (n.raft.lastIndex + 1) entries then (n, false)
  else
    match n.wal.append entries o.append with
    | (wal, false) => ({ n with wal := wal }, false)
    | (wal, true) =>
      (⟨entries.foldl (fun r e ↦ { r with lastIndex := e.index, lastTerm := e.term }) n.raft, wal⟩,
        true)

def truncateLog (n : WalNode σ) (o : FileCalls) (index : ℕ) : WalNode σ × Bool :=
  let n : WalNode σ :=
    ⟨{ n.raft with lastIndex := index }, n.wal.deleteRange (index + 1) (n.raft.lastIndex + 1)⟩
  let cap (r : Raft σ) : Raft σ :=
    if r.lastIndex < r.commitIndex then
      { r with commitIndex := r.lastIndex }.persistCommitIndex else r
  if 0 < index then
    match n.get o index with
    | none => (n, false)
    | some e => ({ n with raft := cap { n.raft with lastTerm := e.term } }, true)
  else ({ n with raft := cap { n.raft with lastTerm := 0 } }, true)

def conflictStart (n : WalNode σ) (o : FileCalls) (term : ℕ) : ℕ → ℕ
  | 0 => 0
  | 1 => 1
  | k + 2 =>
    match n.get o (k + 1) with
    | some e => if e.term = term then n.conflictStart o term (k + 1) else k + 2
    | none => k + 2

def prevLogConflict (n : WalNode σ) (o : FileCalls) (req : AppendEntriesRequest) :
    Option (ℕ × ℕ) :=
  if req.prevLogIndex = 0 then none
  else if n.wal.wal.lastIndex < req.prevLogIndex then some (n.wal.wal.lastIndex + 1, 0)
  else
    match n.get o req.prevLogIndex with
    | none => some (req.prevLogIndex, 0)
    | some e =>
      if e.term = req.prevLogTerm then none
      else some (n.conflictStart o e.term req.prevLogIndex, e.term)

def storeEntries (n : WalNode σ) (o : FileCalls) : List LogEntry → WalNode σ × Option ℕ
  | [] => (n, none)
  | e :: rest =>
    match n.get o e.index with
    | none =>
      match n.persistLog o (e :: rest) with
      | (n, true) => (n, none)
      | (n, false) => (n, some 0)
    | some existing =>
      if existing.term = e.term then n.storeEntries o rest
      else if e.index ≤ n.raft.commitIndex then (n, some (n.raft.commitIndex + 1))
      else
        match n.truncateLog o (e.index - 1) with
        | (n, false) => (n, some 0)
        | (n, true) =>
          match n.persistLog o (e :: rest) with
          | (n, true) => (n, none)
          | (n, false) => (n, some 0)

def handleAppendEntries (n : WalNode σ) (o : FileCalls) (req : AppendEntriesRequest) (rnd : ℕ) :
    WalNode σ × AppendEntriesResponse :=
  let resp : AppendEntriesResponse := ⟨n.raft.term, false, 0, 0⟩
  if req.term < n.raft.term then (n, resp)
  else
    let n := { n with raft := n.raft.heardFromLeader req rnd }
    match n.prevLogConflict o req with
    | some (index, conflictTerm) => (n, { resp with index := index, conflictTerm := conflictTerm })
    | none =>
      match n.storeEntries o req.entries with
      | (n, some index) => (n, { resp with index := index })
      | (n, none) =>
        let n := { n with raft := n.raft.followCommit req }
        (n, ⟨n.raft.term, true, n.raft.lastIndex, 0⟩)

def Intact (n : WalNode σ) (s : ℕ) : Prop := n.wal.Intact s n.raft.lastIndex

variable {i : ℕ}

theorem mem_of_get {e : LogEntry} (h : n.get o i = some e) : i ∈ n.wal.wal.index := by
  unfold get at h
  split at h
  · exact Wal.Holds.mem_of_get h
  · cases h

theorem Intact.le_of_get {e : LogEntry} (h : n.Intact s) (hg : n.get o i = some e) :
    i ≤ n.raft.lastIndex :=
  h.indexed.mem_le (mem_of_get hg)

theorem lastIndex_foldl (r : Raft σ) (es : List LogEntry) {k : ℕ} (hk : r.lastIndex = k)
    (hc : Raft.contiguous (k + 1) es) :
    (es.foldl (fun r e ↦ { r with lastIndex := e.index, lastTerm := e.term }) r).lastIndex =
      k + es.length := by
  induction es generalizing r k with
  | nil => exact hk
  | cons e rest ih =>
    rw [Raft.contiguous_cons] at hc
    rw [List.foldl_cons, ih { r with lastIndex := e.index, lastTerm := e.term } hc.1 hc.2,
      List.length_cons]
    omega

theorem getLast_contiguous {k : ℕ} {e : LogEntry} (hc : Raft.contiguous (k + 1) es)
    (hl : es.getLast? = some e) : e.index = k + es.length := by
  induction es generalizing k with
  | nil => cases hl
  | cons x rest ih =>
    rw [Raft.contiguous_cons] at hc
    cases rest with
    | nil =>
      cases hl
      exact hc.1
    | cons y rest =>
      have := ih hc.2 (by simpa using hl)
      rw [List.length_cons, this]
      omega

theorem Intact.persistLog_ok (h : n.Intact s) (hp : n.persistLog o es = (n', true)) :
    n'.Intact s ∧ ∀ e, es.getLast? = some e → e.index ≤ n'.raft.lastIndex := by
  unfold persistLog at hp
  split at hp
  · cases hp
  · rename_i hc
    have hc : Raft.contiguous (n.raft.lastIndex + 1) es = true := by simpa using hc
    generalize ha : n.wal.append es o.append = q at hp
    obtain ⟨wal, _ | _⟩ := q
    · cases hp
    · cases hp
      have hlast := lastIndex_foldl n.raft es rfl hc
      have hi := UnsureWal.Intact.append_ok h hc ha
      rw [← hlast] at hi
      refine ⟨hi, fun e he ↦ ?_⟩
      rw [getLast_contiguous hc he]
      exact hlast.ge

theorem Intact.persistLog_clean (h : n.Intact s) (hc : o.append.clean es.length = true)
    (hp : n.persistLog o es = (n', false)) : n'.Intact s := by
  unfold persistLog at hp
  split at hp
  · cases hp
    exact h
  · generalize ha : n.wal.append es o.append = q at hp
    obtain ⟨wal, _ | _⟩ := q
    · cases hp
      rw [UnsureWal.append_clean hc ha]
      exact h
    · cases hp

theorem Intact.truncateLog {b : Bool} {e : LogEntry} (h : n.Intact s)
    (hg : n.get o i = some e) (hi : 0 < i) (ht : n.truncateLog o (i - 1) = (n', b)) :
    n'.Intact s := by
  have hle := h.le_of_get hg
  have hd := UnsureWal.Intact.deleteRange h hi (by omega)
  have hone : i - 1 + 1 = i := by omega
  unfold WalNode.truncateLog at ht
  rw [hone] at ht
  dsimp only at ht
  split at ht
  · split at ht
    · cases ht
      exact hd
    · cases ht
      unfold Intact
      dsimp only
      split <;> exact hd
  · cases ht
    unfold Intact
    dsimp only
    split <;> exact hd

theorem get_pos {e : LogEntry} (h : n.get o i = some e) : 0 < i := by
  unfold get Wal.get at h
  split at h
  · split at h
    · cases h
    · omega
  · cases h

/-- The loop keeps the log intact unless an append fails half-way, and when it ends without an
early return the last of the entries is there. -/
theorem Intact.storeEntries {res : Option ℕ} (h : n.Intact s) (hs : n.storeEntries o es = (n', res))
    (hc : res = none ∨ o.append.clean es.length = true) :
    n'.Intact s ∧ (res = none → ∀ e, es.getLast? = some e → e.index ≤ n'.raft.lastIndex) := by
  -- an append of a suffix of the request, whether or not the log was cut before
  have happend {n : WalNode σ} {es : List LogEntry} (h : n.Intact s)
      (hs : (match n.persistLog o es with
        | (n, true) => (n, none)
        | (n, false) => (n, some 0)) = (n', res))
      (hc : res = none ∨ o.append.clean es.length = true) :
      n'.Intact s ∧ (res = none → ∀ e, es.getLast? = some e → e.index ≤ n'.raft.lastIndex) := by
    generalize hp : n.persistLog o es = q at hs
    obtain ⟨n₁, _ | _⟩ := q
    · cases hs
      exact ⟨h.persistLog_clean (hc.resolve_left nofun) hp, nofun⟩
    · cases hs
      exact (h.persistLog_ok hp).imp_right fun hl _ ↦ hl
  induction es generalizing n with
  | nil =>
    cases hs
    exact ⟨h, nofun⟩
  | cons e rest ih =>
    unfold WalNode.storeEntries at hs
    split at hs
    · exact happend h hs hc
    · rename_i existing hg
      split at hs
      · obtain ⟨hi, hl⟩ := ih h hs (hc.imp_right AppendCalls.clean_tail)
        refine ⟨hi, fun hres x hx ↦ ?_⟩
        cases rest with
        | nil =>
          cases hx
          cases hs
          exact h.le_of_get hg
        | cons y rest => exact hl hres x (by simpa using hx)
      · split at hs
        · cases hs
          exact ⟨h, nofun⟩
        · generalize ht : n.truncateLog o (e.index - 1) = q at hs
          obtain ⟨n₁, b⟩ := q
          have h₁ := h.truncateLog hg (get_pos hg) ht
          cases b with
          | false =>
            cases hs
            exact ⟨h₁, nofun⟩
          | true => exact happend h₁ hs hc

theorem lastIndex_heardFromLeader (r : Raft σ) (req : AppendEntriesRequest) (rnd : ℕ) :
    (r.heardFromLeader req rnd).lastIndex = r.lastIndex := by
  obtain ⟨_, _, _, _, _, _, hcore⟩ := r.heardFromLeader_frame req rnd
  exact congrArg Core.lastIndex hcore

theorem lastIndex_followCommit (r : Raft σ) (req : AppendEntriesRequest) :
    (r.followCommit req).lastIndex = r.lastIndex := by
  unfold Raft.followCommit
  split <;> rfl

theorem Intact.prev_le (h : n.Intact s) (hp : n.prevLogConflict o req = none) :
    req.prevLogIndex ≤ n.raft.lastIndex := by
  unfold prevLogConflict at hp
  split at hp
  · omega
  · split at hp
    · cases hp
    · split at hp
      · cases hp
      · rename_i e he
        exact h.le_of_get he

/-- A request keeps the log intact unless an append of it fails half-way, and an answer of success
says that the log reaches the last index that the request covers. -/
theorem Intact.handleAppendEntries (h : n.Intact s) (rnd : ℕ)
    (hc : (n.handleAppendEntries o req rnd).2.success = true ∨
      o.append.clean req.entries.length = true) :
    (n.handleAppendEntries o req rnd).1.Intact s ∧
      ((n.handleAppendEntries o req rnd).2.success = true →
        Raft.lastReqIndex req ≤ (n.handleAppendEntries o req rnd).1.raft.lastIndex) := by
  unfold WalNode.handleAppendEntries at hc ⊢
  dsimp only at hc ⊢
  split_ifs at hc ⊢
  · exact ⟨h, nofun⟩
  · generalize hn : ({ n with raft := n.raft.heardFromLeader req rnd } : WalNode σ) = n₁ at hc ⊢
    have h₁ : n₁.Intact s := by
      rw [← hn, Intact, lastIndex_heardFromLeader]
      exact h
    cases hp : n₁.prevLogConflict o req with
    | some q => exact ⟨h₁, nofun⟩
    | none =>
      rw [hp] at hc
      dsimp only at hc ⊢
      generalize hs : n₁.storeEntries o req.entries = q at hc ⊢
      obtain ⟨n₂, _ | index⟩ := q
      · obtain ⟨h₂, hl⟩ := h₁.storeEntries hs (.inl rfl)
        dsimp only
        rw [Intact, lastIndex_followCommit]
        refine ⟨h₂, fun _ ↦ ?_⟩
        unfold Raft.lastReqIndex
        split
        · rename_i e he
          exact hl rfl e he
        · rename_i hnone
          rw [List.getLast?_eq_none_iff.mp hnone] at hs
          cases hs
          exact h₁.prev_le hp
      · obtain ⟨h₂, -⟩ := h₁.storeEntries hs (.inr (hc.resolve_left nofun))
        exact ⟨h₂, nofun⟩

end WalNode

structure Round where
  req : AppendEntriesRequest
  rnd : ℕ
  calls : FileCalls

/-- In the append of this request no call but the first write fails. -/
def Round.clean (x : Round) : Bool := x.calls.append.clean x.req.entries.length

namespace WalNode

variable {σ : Type} {n : WalNode σ} {s : ℕ}

def take (n : WalNode σ) (x : Round) : WalNode σ × AppendEntriesResponse :=
  n.handleAppendEntries x.calls x.req x.rnd

def after (n : WalNode σ) (rounds : List Round) : WalNode σ :=
  rounds.foldl (fun n x ↦ (n.take x).1) n

theorem Intact.after {rounds : List Round} (h : n.Intact s)
    (hc : ∀ x ∈ rounds, x.clean = true) : (n.after rounds).Intact s := by
  induction rounds generalizing n with
  | nil => exact h
  | cons x rest ih =>
    have hx := (h.handleAppendEntries x.rnd (.inr (hc x List.mem_cons_self))).1
    exact ih hx fun y hy ↦ hc y (List.mem_cons_of_mem x hy)

/-- Where no append fails once a record of it has been written, an answer of success means that
every entry up to the last one the request covers is durable, and that the log of the node reaches
that far. -/
theorem success_durable (rounds : List Round) (x : Round) (h : n.Intact s)
    (hc : ∀ y ∈ rounds, y.clean = true) (hs : ((n.after rounds).take x).2.success = true) :
    Raft.lastReqIndex x.req ≤ ((n.after rounds).take x).1.raft.lastIndex ∧
      ∀ i, s < i → i ≤ Raft.lastReqIndex x.req →
        ((n.after rounds).take x).1.wal.durable i = true := by
  obtain ⟨hi, hl⟩ := (h.after hc).handleAppendEntries x.rnd (.inl hs)
  have hle := hl hs
  exact ⟨hle, fun i hsi him ↦ UnsureWal.Intact.durable hi hsi (him.trans hle)⟩

/-- The last index stays the end of the log under the same condition on the file calls. -/
theorem Intact.mem_index_iff {rounds : List Round} {i : ℕ} (h : n.Intact s)
    (hc : ∀ x ∈ rounds, x.clean = true) (hi : s < i) :
    i ∈ (n.after rounds).wal.wal.index ↔ i ≤ (n.after rounds).raft.lastIndex :=
  ⟨(h.after hc).indexed.mem_le, (h.after hc).indexed.live i hi⟩

def followerB : WalNode (List Bytes) :=
  ⟨(Raft.new (.least "B" abc) "B" .empty []).start 0, .empty⟩

theorem intact_followerB : followerB.Intact 0 := .empty

/-- The leader sends the entry 1. The flags say whether the write and the fsync succeed. -/
def firstEntry (write fsync : Bool) : Round where
  req := ⟨1, "A", 0, 0, [⟨1, 1, .normal [7]⟩], 0⟩
  rnd := 0
  calls := ⟨fun _ ↦ true, fun _ ↦ ⟨write, true, true, 0⟩, fsync⟩

/-- The write of the entry fails, and the leader sends it again. -/
theorem success_durable_firstEntry : (firstEntry false true).clean = true ∧
    ((followerB.after [firstEntry false true]).take (firstEntry true true)).2.success = true ∧
      1 ≤ ((followerB.after [firstEntry false true]).take (firstEntry true true)).1.raft.lastIndex ∧
      ((followerB.after [firstEntry false true]).take (firstEntry true true)).1.wal.durable 1 =
        true := by
  have hs : ((followerB.after [firstEntry false true]).take (firstEntry true true)).2.success =
      true := by decide +kernel
  have hc : ∀ y ∈ [firstEntry false true], y.clean = true := by
    intro y hy
    cases List.mem_singleton.mp hy
    rfl
  obtain ⟨hl, hd⟩ := success_durable [firstEntry false true] (firstEntry true true)
    intact_followerB hc hs
  exact ⟨rfl, hs, hl, hd 1 Nat.one_pos le_rfl⟩

/-- The fsync fails, and the leader sends the entry again: B finds it in the index and answers with
success. The entry is not on the disk, and the log of B is empty for B itself. -/
theorem success_lost_firstEntry :
    (followerB.take (firstEntry true false)).2.success = false ∧
      ((followerB.after [firstEntry true false]).take (firstEntry true true)).2.success = true ∧
      Raft.lastReqIndex (firstEntry true true).req = 1 ∧
      ((followerB.after [firstEntry true false]).take (firstEntry true true)).1.raft.lastIndex = 0 ∧
      ((followerB.after [firstEntry true false]).take (firstEntry true true)).1.wal.durable 1 =
        false := by
  decide +kernel

end WalNode

end RaftConsensus
