import RaftConsensus.Single.Learner

namespace RaftConsensus

structure Ballot where
  term : Option ℕ
  votedFor : Option ServerID
deriving DecidableEq

/-- How a `Set` ends: whether it reports an error, whether after an error the value can be read
all the same, and whether it has reached the disk yet. -/
structure SetCall where
  err : Bool
  live : Bool
  disk : Bool

/-- How a `Sync` ends, and which keys have reached the disk when it reports an error. -/
structure SyncCall where
  err : Bool
  term : Bool
  votedFor : Bool

structure Calls where
  setTerm : SetCall
  setVotedFor : SetCall
  sync : SyncCall

def Calls.failed (o : Calls) : Bool := o.setTerm.err || o.setVotedFor.err || o.sync.err

def Calls.fine : Calls := ⟨⟨false, true, false⟩, ⟨false, true, false⟩, ⟨false, true, true⟩⟩

/-- A stable store whose calls may fail: what `Get` returns, and what a crash leaves. -/
structure UnsureStore where
  live : Ballot
  disk : Ballot
deriving DecidableEq

namespace UnsureStore

variable {s : UnsureStore} {b : Ballot} {o : Calls}

def set (s : UnsureStore) (write : Ballot → Ballot) (c : SetCall) : UnsureStore where
  live := if c.err && !c.live then s.live else write s.live
  disk := if c.disk then write s.disk else s.disk

def sync (s : UnsureStore) (c : SyncCall) : UnsureStore where
  live := s.live
  disk := if c.err then
      ⟨if c.term then s.live.term else s.disk.term,
        if c.votedFor then s.live.votedFor else s.disk.votedFor⟩
    else s.live

def persistTermAndVotedFor (s : UnsureStore) (b : Ballot) (o : Calls) : UnsureStore × Bool :=
  let s := s.set (fun x ↦ { x with term := b.term }) o.setTerm
  if o.setTerm.err then (s, false)
  else
    let s := s.set (fun x ↦ { x with votedFor := b.votedFor }) o.setVotedFor
    if o.setVotedFor.err then (s, false) else (s.sync o.sync, !o.sync.err)

theorem persisted_of_fine (h : o.failed = false) : (s.persistTermAndVotedFor b o).2 = true := by
  simp only [Calls.failed, Bool.or_eq_false_iff] at h
  obtain ⟨⟨hterm, hvote⟩, hsync⟩ := h
  simp [persistTermAndVotedFor, hterm, hvote, hsync]

theorem disk_of_persisted (h : (s.persistTermAndVotedFor b o).2 = true) :
    (s.persistTermAndVotedFor b o).1 = ⟨b, b⟩ := by
  unfold persistTermAndVotedFor at h ⊢
  dsimp only at h ⊢
  split at h
  · cases h
  · rename_i hterm
    rw [if_neg hterm]
    split at h
    · cases h
    · rename_i hvote
      have hsync : o.sync.err = false := by simpa using h
      rw [if_neg hvote]
      simp [set, sync, hterm, hvote, hsync]

end UnsureStore

def StableStore.ballot (s : StableStore) : Ballot := ⟨s.term, s.votedFor⟩

/-- A node on such a store. The field `stable` of the node is what it has meant to write. -/
structure Frail (σ : Type) where
  raft : Raft σ
  store : UnsureStore

namespace Frail

variable {σ : Type} {F : FSM σ} {n n' : Frail σ} {s : Stimulus} {o : Calls × Calls}

def logged (store : UnsureStore) (r : Raft σ) (o : Calls) : Frail σ :=
  ⟨r, (store.persistTermAndVotedFor r.stable.ballot o).1⟩

def grant (n : Frail σ) (req : RequestVoteRequest) (rnd : ℕ) (o : Calls) :
    Frail σ × RequestVoteResponse :=
  let r := { n.raft with votedFor := req.candidateID }.persistTermAndVotedFor
  match n.store.persistTermAndVotedFor r.stable.ballot o with
  | (store, false) => (⟨n.raft, store⟩, ⟨n.raft.term, false, ""⟩)
  | (store, true) =>
    let r := r.emit (.note (.voted req.candidateID r.term))
    (⟨{ r with electionTicks := r.randomElectionTickCount rnd }, store⟩, ⟨r.term, true, ""⟩)

def voteOn (n : Frail σ) (req : RequestVoteRequest) (rnd oldTerm : ℕ) (o : Calls) :
    Frail σ × RequestVoteResponse :=
  if n.raft.votedFor ≠ "" ∧ n.raft.votedFor ≠ req.candidateID then
    (n, ⟨oldTerm, false, "already voted"⟩)
  else if !n.raft.logOK req then (n, ⟨oldTerm, false, "candidate log is not up-to-date"⟩)
  else n.grant req rnd o

def handleRequestVote (n : Frail σ) (req : RequestVoteRequest) (rnd : ℕ) (o : Calls × Calls) :
    Frail σ × RequestVoteResponse :=
  let oldTerm := n.raft.term
  if req.preVote then (n, n.raft.handlePreVote req)
  else if req.term < n.raft.term then (n, ⟨oldTerm, false, "stale term"⟩)
  else if n.raft.config.checkQuorum && !req.leaderTransfer && n.raft.heardLeaderRecently then
    (n, ⟨oldTerm, false, "recently heard from leader (disruptive-server protection)"⟩)
  else
    let n := if n.raft.term < req.term then
        logged n.store (n.raft.failPendingFutures.adoptTerm req.term) o.1 else n
    n.voteOn req rnd oldTerm o.2

/-- Everything but a vote request persists a term and a vote when it raises the term, and does not
look at the outcome. `Start` only reads them. -/
def take (F : FSM σ) (n : Frail σ) (s : Stimulus) (o : Calls × Calls) : Option (Frail σ) :=
  match s with
  | .request (.requestVote req) rnd => some (n.handleRequestVote req rnd o).1
  | .op (.start rnd) => (n.raft.take F (.op (.start rnd))).map fun r ↦ ⟨r, n.store⟩
  | s => (n.raft.take F s).map fun r ↦
      if n.raft.term < r.term then logged n.store r o.1 else ⟨r, n.store⟩

def rest (n : Frail σ) : Frail σ := ⟨n.raft.rest, n.store⟩

theorem grant_fine (n : Frail σ) (req : RequestVoteRequest) (rnd : ℕ) :
    (n.grant req rnd .fine).1.raft =
      let r := { n.raft with votedFor := req.candidateID }.persistTermAndVotedFor
      let r := r.emit (.note (.voted req.candidateID r.term))
      { r with electionTicks := r.randomElectionTickCount rnd } := by
  have hok := UnsureStore.persisted_of_fine (s := n.store)
    (b := { n.raft with votedFor := req.candidateID }.persistTermAndVotedFor.stable.ballot)
    (show Calls.fine.failed = false from rfl)
  unfold grant
  dsimp only
  generalize n.store.persistTermAndVotedFor _ Calls.fine = q at hok
  obtain ⟨store, ok⟩ := q
  cases hok
  rfl

theorem handleRequestVote_fine (n : Frail σ) (req : RequestVoteRequest) (rnd : ℕ) :
    (n.handleRequestVote req rnd (.fine, .fine)).1.raft = (n.raft.handleRequestVote req rnd).1 := by
  unfold handleRequestVote Raft.handleRequestVote
  dsimp only
  split
  · rfl
  · split
    · rfl
    · split
      · rfl
      · generalize hn : (if n.raft.term < req.term then
            logged n.store (n.raft.failPendingFutures.adoptTerm req.term) .fine else n) = n₁
        have hr : (if n.raft.term < req.term then n.raft.failPendingFutures.adoptTerm req.term
            else n.raft) = n₁.raft := by
          rw [← hn]
          split <;> rfl
        rw [hr]
        unfold voteOn
        split
        · rfl
        · split
          · rfl
          · exact n₁.grant_fine req rnd

/-- On a store that never fails this is the node. -/
theorem take_fine (n : Frail σ) (s : Stimulus) :
    (n.take F s (.fine, .fine)).map Frail.raft = n.raft.take F s := by
  unfold take
  split
  · rename_i req rnd
    exact congrArg some (n.handleRequestVote_fine req rnd)
  · rw [Option.map_map]
    exact Option.map_id'
  · rw [Option.map_map]
    refine (congrArg (Option.map · _) (funext fun r ↦ ?_)).trans Option.map_id'
    simp only [Function.comp_apply]
    split <;> rfl

end Frail

end RaftConsensus
