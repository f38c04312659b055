import RaftConsensus.Does.Basic

namespace RaftConsensus

open List LogStore

variable {σ : Type} {R : Rules} {L : Warrant} {inp : Input}

/-- The first core after it has heard of a leader of the given term: a node of a lower term
has become a follower and failed its futures, one of the same term has at most given up its
candidacy. -/
def Core.Heard (c : Core) (term : ℕ) (c' : Core) : Prop :=
  c'.commitIndex = c.commitIndex ∧
    (c.term < term ∧ c'.state = .follower ∧ c'.Settled ∨
      c.term = term ∧ c'.pendingFutures = c.pendingFutures ∧
        (c'.state = c.state ∨ c.state = .candidate ∧ c'.state = .follower))

/-- The node may heed the request as long as what its futures rest on stays as it is. -/
def Core.Obeys (c : Core) (L : Warrant) (req : AppendEntriesRequest) : Prop :=
  ∀ c' : Core, c'.commitIndex = c.commitIndex → c'.state = c.state →
    c'.pendingFutures = c.pendingFutures → L.obey c' (.appendEntries req)

namespace Raft

variable (r : Raft σ)

theorem does_setReplicator {id : ServerID} (pc : Replicator)
    (h : id ∈ r.inflightReplication ∨ id ≠ r.localID) :
    Does R L inp r (r.setReplicator id pc) := by
  refine .move (.replicators _ fun x hx ↦ ?_) rfl rfl
  rcases AList.mem_insert _ |>.mp hx with rfl | hx
  · exact h
  · exact .inl hx

theorem does_spawnReplication {id : ServerID} (h : id ≠ r.localID) :
    Does R L inp r (r.spawnReplication id) :=
  .ite (fun _ ↦ .refl r) fun _ ↦ r.does_setReplicator _ (.inr h)

theorem does_sendHeartbeat : Does R L inp r r.sendHeartbeat := by
  refine (Does.foldl (fun _ ↦ True) (fun r s _ _ ↦ ⟨?_, trivial⟩) trivial).1
  exact .ite (fun _ ↦ .refl r) fun h ↦ r.does_spawnReplication h

theorem does_addTracker {id : ServerID} (h : id ≠ r.localID) : Does R L inp r (r.addTracker id) :=
  .move (.track id h) rfl rfl

theorem does_addMissingTrackers (servers : List Server) :
    Does R L inp r (r.addMissingTrackers servers) := by
  refine (Does.foldl (fun _ ↦ True) (fun r s _ _ ↦ ⟨?_, trivial⟩) trivial).1
  exact .ite (fun h ↦ r.does_addTracker h.1) fun _ ↦ .refl r

/-- The loop ends with the commit index it began with, or with a later index that holds an
entry of the current term and has a quorum. -/
theorem commitLoop_spec (n idx k : ℕ) :
    r.commitLoop n idx k = k ∨ idx ≤ r.commitLoop n idx k ∧ r.commitLoop n idx k < idx + n ∧
      (∃ e, r.log.get (r.commitLoop n idx k) = some e ∧ e.term = r.term) ∧
      r.commitQuorum (r.commitLoop n idx k) = true := by
  induction n generalizing idx k with
  | zero => exact .inl rfl
  | succ n ih =>
    simp only [commitLoop]
    split
    · exact .inl rfl
    · rename_i e he
      split
      · rename_i hq
        rcases ih (idx + 1) idx with h | ⟨hle, hlt, hlog, hquorum⟩
        · rw [h]
          exact .inr ⟨le_rfl, by omega, ⟨e, he, hq.1⟩, hq.2⟩
        · exact .inr ⟨by omega, by omega, hlog, hquorum⟩
      · rcases ih (idx + 1) k with h | ⟨hle, hlt, hlog, hquorum⟩
        · exact .inl h
        · exact .inr ⟨by omega, by omega, hlog, hquorum⟩

theorem does_advanceCommitIndex (hs : r.state = .leader) : Does R L inp r r.advanceCommitIndex := by
  rcases r.commitLoop_spec (r.lastIndex - r.commitIndex) (r.commitIndex + 1) r.commitIndex with
    h | ⟨hle, -, ⟨e, he, ht⟩, hq⟩
  · refine .same ?_ rfl rfl
    simp only [advanceCommitIndex, h]
    rfl
  · exact .move (.commit _ e hs he ht (.inl (Nat.le_of_succ_le hle)) (.inr hq)) rfl rfl

theorem does_appendEntry {e : LogEntry} (hm : Move R L inp r.core [] (r.core.append e)) :
    Does R L inp r (r.appendEntry e) := .write hm rfl rfl

theorem core_foldl_appendEntry (entries : List LogEntry) :
    (entries.foldl appendEntry r).core = entries.foldl Core.append r.core := by
  induction entries generalizing r with
  | nil => rfl
  | cons e rest ih => exact ih (r.appendEntry e)

theorem outbox_foldl_appendEntry (entries : List LogEntry) :
    (entries.foldl appendEntry r).outbox = r.outbox := by
  induction entries generalizing r with
  | nil => rfl
  | cons e rest ih => exact ih (r.appendEntry e)

variable {batch : List (ℕ × Bytes)} {c : Core} {entries : List LogEntry} {idx t term : ℕ}
  {r' : Raft σ} {req : AppendEntriesRequest}

theorem does_persistLog_propose
    (h : r.persistLog entries = some r') (ht : ∀ e ∈ entries, e.term = r.term)
    (hs : r.state = .leader) (hp : ∀ e ∈ entries, ∃ data, e.payload = .normal data) :
    Does R L inp r r' := by
  unfold persistLog at h
  split at h
  · obtain rfl := Option.some.inj h
    rename_i hc
    clear h
    induction entries generalizing r with
    | nil => exact .refl r
    | cons e rest ih =>
      rw [contiguous_cons] at hc
      have he : e ∈ e :: rest := mem_cons_self
      have hm : Move R L inp r.core [] (r.core.append e) := .propose e hc.1 (ht e he) hs (hp e he)
      refine (r.does_appendEntry hm).trans
        (ih (r.appendEntry e) (fun x hx ↦ ?_) hs (fun x hx ↦ ?_) ?_)
      · exact ht x (mem_cons_of_mem e hx)
      · exact hp x (mem_cons_of_mem e hx)
      · rw [show (r.appendEntry e).lastIndex = r.lastIndex + 1 from hc.1]
        exact hc.2
  · cases h

theorem foldl_append_frame (entries : List LogEntry) (c : Core) :
    ∃ log lastIndex lastTerm, entries.foldl Core.append c =
      { c with log := log, lastIndex := lastIndex, lastTerm := lastTerm } := by
  induction entries generalizing c with
  | nil => exact ⟨c.log, c.lastIndex, c.lastTerm, rfl⟩
  | cons e rest ih => exact ih (c.append e)

theorem foldl_append_futures (entries : List LogEntry) (c : Core)
    (futures : AList (fun _ : ℕ ↦ ℕ)) :
    entries.foldl Core.append { c with pendingFutures := futures } =
      { entries.foldl Core.append c with pendingFutures := futures } := by
  induction entries generalizing c with
  | nil => rfl
  | cons e rest ih => exact ih (c.append e)

theorem foldl_append_last {last : LogEntry}
    (hl : entries.getLast? = some last) :
    (entries.foldl Core.append c).log.get last.index =
        (if last.index = 0 then none else some last) ∧
      (entries.foldl Core.append c).lastIndex = last.index := by
  obtain ⟨init, rfl⟩ := getLast?_eq_some_iff.mp hl
  rw [foldl_append]
  refine ⟨?_, rfl⟩
  change ((init.foldl Core.append c).log.append last).get last.index = _
  rcases Nat.eq_zero_or_pos last.index with h0 | hpos
  · simp [LogStore.get, h0]
  · rw [LogStore.get_append _ _ _ hpos, if_pos rfl, if_neg hpos.ne']

theorem persistLog_some
    (h : r.persistLog entries = some r') :
    contiguous (r.lastIndex + 1) entries = true ∧ r' = entries.foldl appendEntry r := by
  unfold persistLog at h
  split at h
  · exact ⟨‹_›, (Option.some.inj h).symm⟩
  · cases h

theorem proposalEntries_spec (term idx : ℕ) (batch : List (ℕ × Bytes)) :
    contiguous idx (proposalEntries term idx batch) = true ∧
      ∀ e ∈ proposalEntries term idx batch, e.term = term ∧ ∃ data, e.payload = .normal data := by
  induction batch generalizing idx with
  | nil => simp [proposalEntries, contiguous]
  | cons p rest ih =>
    simp only [proposalEntries, contiguous, decide_true, Bool.true_and, mem_cons,
      forall_eq_or_imp, true_and]
    exact ⟨(ih (idx + 1)).1, ⟨_, rfl⟩, (ih (idx + 1)).2⟩

theorem length_proposalEntries (term idx : ℕ) (batch : List (ℕ × Bytes)) :
    (proposalEntries term idx batch).length = batch.length := by
  induction batch generalizing idx with
  | nil => rfl
  | cons p rest ih => rw [proposalEntries, length_cons, ih, length_cons]

theorem zip_proposalEntries {e : LogEntry}
    {p : ℕ × Bytes} (h : (e, p) ∈ (proposalEntries term idx batch).zip batch) :
    ∃ i, batch[i]? = some p ∧ e = ⟨term, idx + i, .normal p.2⟩ := by
  induction batch generalizing idx with
  | nil => cases h
  | cons q rest ih =>
    rcases mem_cons.mp h with heq | h
    · cases heq
      exact ⟨0, rfl, rfl⟩
    · obtain ⟨i, hi, rfl⟩ := ih h
      refine ⟨i + 1, hi, ?_⟩
      rw [Nat.add_right_comm, Nat.add_assoc]

theorem proposalEntries_ne_nil (h : batch ≠ []) :
    proposalEntries term idx batch ≠ [] := by
  cases batch with
  | nil => exact absurd rfl h
  | cons p rest => simp [proposalEntries]

theorem contiguous_le (h : contiguous idx entries = true) :
    ∀ e ∈ entries, idx ≤ e.index := by
  induction entries generalizing idx with
  | nil => simp
  | cons x rest ih =>
    rw [contiguous_cons] at h
    intro e he
    rcases mem_cons.mp he with rfl | he
    · exact h.1.ge
    · exact Nat.le_of_succ_le (ih h.2 e he)

/-- The futures of a batch are noted only after all of it was appended; each of them could
have been noted together with its entry. -/
theorem path_submit {accepted : List (ℕ × Bytes)}
    (hlen : entries.length = accepted.length)
    (hc : contiguous (c.lastIndex + 1) entries = true) (hs : c.state = .leader)
    (he : ∀ e ∈ entries, e.term = c.term ∧ ∃ data, e.payload = .normal data)
    (hL : ∀ p ∈ entries.zip accepted, L.issue p.2.1 p.1) : Path R L inp c []
      { entries.foldl Core.append c with
        pendingFutures := (entries.zip accepted).foldl
          (fun fs (p : LogEntry × ℕ × Bytes) ↦ fs.insert p.1.index p.2.1) c.pendingFutures } := by
  induction entries generalizing accepted c with
  | nil => exact .refl
  | cons e rest ih =>
    cases accepted with
    | nil => cases hlen
    | cons p accepted =>
      rw [contiguous_cons] at hc
      obtain ⟨ht, hp⟩ := he e mem_cons_self
      let c₁ : Core := { c.append e with pendingFutures := c.pendingFutures.insert e.index p.1 }
      have hm : Move R L inp c [] c₁ :=
        .submit e p.1 hc.1 ht hs hp (hL (e, p) mem_cons_self)
      have hrest : Path R L inp c₁ [] { rest.foldl Core.append c₁ with
          pendingFutures := (rest.zip accepted).foldl
            (fun fs (p : LogEntry × ℕ × Bytes) ↦ fs.insert p.1.index p.2.1)
            c₁.pendingFutures } := by
        refine ih (Nat.succ.inj hlen) ?_ hs (fun x hx ↦ he x (mem_cons_of_mem e hx))
          fun x hx ↦ hL x (mem_cons_of_mem _ hx)
        rw [show c₁.lastIndex = c.lastIndex + 1 from hc.1]
        exact hc.2
      rw [foldl_append_futures] at hrest
      exact (Path.one hm).trans hrest

theorem does_submit {accepted : List (ℕ × Bytes)} (hs : r.state = .leader)
    (h : r.persistLog (proposalEntries r.term (r.lastIndex + 1) accepted) = some r')
    (hL : ∀ i p, accepted[i]? = some p → L.issue p.1 ⟨r.term, r.lastIndex + 1 + i, .normal p.2⟩) :
    Does R L inp r { r' with
      pendingFutures := ((proposalEntries r.term (r.lastIndex + 1) accepted).zip accepted).foldl
        (fun fs (p : LogEntry × ℕ × Bytes) ↦ fs.insert p.1.index p.2.1) r'.pendingFutures } := by
  obtain ⟨hc, he⟩ := proposalEntries_spec r.term (r.lastIndex + 1) accepted
  have hd : Does R L inp r r' := r.does_persistLog_propose h (fun e hmem ↦ (he e hmem).1) hs
    fun e hmem ↦ (he e hmem).2
  obtain ⟨-, rfl⟩ := r.persistLog_some h
  have hp : Path R L inp r.core [] _ := path_submit (length_proposalEntries _ _ accepted) hc hs he
    fun x hx ↦ by
      obtain ⟨i, hi, hxe⟩ := zip_proposalEntries (p := x.2) hx
      rw [hxe]
      exact hL i x.2 hi
  rw [← core_foldl_appendEntry] at hp
  have hfs : (foldl appendEntry r
      (proposalEntries r.term (r.lastIndex + 1) accepted)).pendingFutures = r.pendingFutures := by
    change (foldl appendEntry r
      (proposalEntries r.term (r.lastIndex + 1) accepted)).core.pendingFutures = _
    obtain ⟨log, lastIndex, lastTerm, hframe⟩ :=
      foldl_append_frame (proposalEntries r.term (r.lastIndex + 1) accepted) r.core
    rw [core_foldl_appendEntry, hframe]
    rfl
  refine ⟨⟨[], ?_, ?_⟩, hd.torn⟩
  · exact (outbox_foldl_appendEntry _ _).trans (append_nil _).symm
  · rw [hfs]
    exact hp

def accepted (batch : List (ℕ × Bytes)) : List (ℕ × Bytes) :=
  if r.state = .leader ∧ r.transferring = false then
    batch.take (r.pendingFutureCap - r.pendingFutures.keys.length)
  else []

theorem does_handleProposal (batch : List (ℕ × Bytes)) (hR : ∀ p ∈ batch, L.refuse p.1)
    (hL : ∀ i p, (r.accepted batch)[i]? = some p →
      L.issue p.1 ⟨r.term, r.lastIndex + 1 + i, .normal p.2⟩) :
    Does R L inp r (r.handleProposal batch) := by
  unfold handleProposal
  dsimp only
  refine .ite (fun _ ↦ r.does_failAll _ hR) fun hs ↦ ?_
  refine .ite (fun _ ↦ r.does_failAll _ hR) fun htr ↦ ?_
  rw [not_not] at hs
  rw [accepted, if_pos ⟨hs, by simpa using htr⟩] at hL
  generalize r.pendingFutureCap - r.pendingFutures.keys.length = room at hL
  have hbusy : Does R L inp r (r.failAll .nodeBusy (batch.drop room)) :=
    r.does_failAll _ fun p hp ↦ hR p (mem_of_mem_drop hp)
  refine hbusy.trans ?_
  have hcore := r.core_failAll .nodeBusy (batch.drop room)
  generalize r.failAll .nodeBusy (batch.drop room) = r₁ at hcore
  clear hbusy
  have hs₁ : r₁.state = .leader := (congrArg Core.state hcore).trans hs
  refine .ite (fun _ ↦ .refl r₁) fun hne ↦ ?_
  have hL₁ (i : ℕ) (p : ℕ × Bytes) (hi : (batch.take room)[i]? = some p) :
      L.issue p.1 ⟨r₁.term, r₁.lastIndex + 1 + i, .normal p.2⟩ := by
    rw [show r₁.term = r.term from congrArg Core.term hcore,
      show r₁.lastIndex = r.lastIndex from congrArg Core.lastIndex hcore]
    exact hL i p hi
  split
  · exact (r₁.does_failAll _ fun p hp ↦ hR p (mem_of_mem_take hp)).trans (does_stopFatal _)
  · rename_i r₂ hr₂
    refine (r₁.does_submit hs₁ hr₂ hL₁).trans ?_
    have hspec := proposalEntries_spec r₁.term (r₁.lastIndex + 1) (batch.take room)
    have hne' : proposalEntries r₁.term (r₁.lastIndex + 1) (batch.take room) ≠ [] :=
      proposalEntries_ne_nil hne
    generalize proposalEntries r₁.term (r₁.lastIndex + 1) (batch.take room) = entries
      at hspec hne' hr₂
    obtain ⟨-, rfl⟩ := r₁.persistLog_some hr₂
    obtain ⟨last, hlast⟩ : ∃ last, entries.getLast? = some last :=
      ⟨_, getLast?_eq_some_getLast hne'⟩
    have hmem : last ∈ entries := mem_of_getLast? hlast
    have hpos : last.index ≠ 0 := by
      have := contiguous_le hspec.1 last hmem
      omega
    obtain ⟨hget, hidx⟩ := foldl_append_last (c := r₁.core) hlast
    rw [← core_foldl_appendEntry] at hget hidx
    rw [if_neg hpos, ← hidx] at hget
    obtain ⟨log, lastIndex, lastTerm, hframe⟩ := foldl_append_frame entries r₁.core
    rw [← core_foldl_appendEntry] at hframe
    have hs₂ := (congrArg Core.state hframe).trans hs₁
    have ht₂ : last.term = (entries.foldl appendEntry r₁).core.term :=
      (hspec.2 last hmem).1.trans (congrArg Core.term hframe).symm
    refine .ite (fun hone ↦ ?_) fun _ ↦ does_sendHeartbeat _
    exact .move (.commit _ last hs₂ hget ht₂ (.inr rfl) (.inl hone)) rfl rfl

section ReplicateOnce

variable {id : ServerID}

theorem collectEntries_spec (maxSize n idx : ℕ) (total : Option ℕ) :
    contiguous idx (r.collectEntries maxSize n idx total) = true ∧
      ∀ e ∈ r.collectEntries maxSize n idx total, r.log.get e.index = some e := by
  induction n generalizing idx total with
  | zero => simp [collectEntries, contiguous]
  | succ n ih =>
    simp only [collectEntries]
    split
    · simp [contiguous]
    · rename_i e he
      have hidx := get_index he
      have hget : r.log.get e.index = some e := hidx ▸ he
      have hcons (t : Option ℕ) :
          contiguous idx (e :: r.collectEntries maxSize n (idx + 1) t) = true ∧
            ∀ x ∈ e :: r.collectEntries maxSize n (idx + 1) t, r.log.get x.index = some x := by
        simp only [contiguous, hidx, decide_true, Bool.true_and, mem_cons, forall_eq_or_imp]
        exact ⟨(ih (idx + 1) t).1, he, (ih (idx + 1) t).2⟩
      split
      · exact hcons _
      · split
        · simp [contiguous]
        · exact hcons _

theorem appendRequest_contiguous (nextIdx prevLogTerm : ℕ) :
    contiguous ((r.appendRequest nextIdx prevLogTerm).prevLogIndex + 1)
      (r.appendRequest nextIdx prevLogTerm).entries = true := by
  rcases Nat.eq_zero_or_pos nextIdx with rfl | hpos
  · have hempty : (r.appendRequest 0 prevLogTerm).entries = [] := by
      simp only [appendRequest]
      cases min maxBatch (r.lastIndex + 1 - 0) with
      | zero => rfl
      | succ n => simp [collectEntries, LogStore.get]
    rw [hempty]
    rfl
  · have := (r.collectEntries_spec r.config.maxSizePerMsg
      (min maxBatch (r.lastIndex + 1 - nextIdx)) nextIdx none).1
    simpa only [appendRequest, Nat.sub_add_cancel hpos] using this

theorem collectEntries_initial {log : List LogEntry}
    (hlog : ∀ i e, r.log.get i = some e → log[i - 1]? = some e) (maxSize n idx : ℕ)
    (total : Option ℕ) : r.collectEntries maxSize n idx total <+: log.drop (idx - 1) := by
  induction n generalizing idx total with
  | zero => exact nil_prefix
  | succ n ih =>
    unfold collectEntries
    cases hg : r.log.get idx with
    | none => exact nil_prefix
    | some e =>
      obtain ⟨hlt, he⟩ := List.getElem?_eq_some_iff.mp (hlog idx e hg)
      have hpos := get_pos hg
      have hdrop : log.drop (idx - 1) = e :: log.drop (idx + 1 - 1) := by
        rw [drop_eq_getElem_cons hlt, he]
        congr 2
        omega
      rw [hdrop]
      cases total with
      | none => exact (prefix_cons_inj e).mpr (ih (idx + 1) _)
      | some t =>
        dsimp only
        split_ifs
        · exact nil_prefix
        · exact (prefix_cons_inj e).mpr (ih (idx + 1) _)

variable {nextIdx stamp : ℕ} {req : AppendEntriesRequest} {resp : AppendEntriesResponse}

theorem appendRequest_nonempty (prevLogTerm : ℕ) (hle : nextIdx ≤ r.lastIndex) :
    (r.appendRequest nextIdx prevLogTerm).entries ≠ [] ↔ (r.log.get nextIdx).isSome = true := by
  obtain ⟨n, hn⟩ : ∃ n, min maxBatch (r.lastIndex + 1 - nextIdx) = n + 1 := by
    refine Nat.exists_eq_succ_of_ne_zero ?_
    change min 100 (r.lastIndex + 1 - nextIdx) ≠ 0
    omega
  unfold appendRequest
  rw [hn]
  dsimp only
  unfold collectEntries
  cases r.log.get nextIdx <;> simp

theorem quiet_addToWindow (id : ServerID) (req : AppendEntriesRequest) :
    Quiet r (r.addToWindow id req) := by
  unfold addToWindow
  split
  · exact .same rfl rfl rfl
  · exact .refl r

theorem does_sendAppend {prevLogTerm : ℕ} (hs : r.state = .leader)
    (hid : id ∈ r.inflightReplication)
    (hp : nextIdx - 1 = 0 ∨ prevLogTerm = 0 ∨
      ∃ x, r.log.get (nextIdx - 1) = some x ∧ x.term = prevLogTerm) :
    Does R L inp r (r.sendAppend id (r.appendRequest nextIdx prevLogTerm)) := by
  have hw := r.appendRequest_contiguous nextIdx prevLogTerm
  have hlog := (r.collectEntries_spec r.config.maxSizePerMsg
    (min maxBatch (r.lastIndex + 1 - nextIdx)) nextIdx none).2
  have hq := r.quiet_addToWindow id (r.appendRequest nextIdx prevLogTerm)
  have hcore := hq.core
  refine hq.does.trans ?_
  unfold sendAppend
  generalize r.addToWindow id (r.appendRequest nextIdx prevLogTerm) = r₁ at hcore
  have hid₁ : id ∈ r₁.inflightReplication := by
    rw [show r₁.inflightReplication = r.inflightReplication from
      congrArg Core.inflightReplication hcore]
    exact hid
  refine (r₁.does_setReplicator (.waiting _) (.inl hid₁)).trans (.emit ?_)
  have hcore₂ : (r₁.setReplicator id (.waiting (r.appendRequest nextIdx prevLogTerm))).core =
      { r.core with
        inflightReplication := r₁.inflightReplication.insert id
          (.waiting (r.appendRequest nextIdx prevLogTerm)) } := by
    rw [← hcore]
    rfl
  rw [hcore₂]
  exact .send id _ ((AList.mem_insert _).mpr (.inl rfl)) hs rfl rfl rfl hw hlog hp

theorem does_replicateOnce (hid : id ∈ r.inflightReplication) :
    Does R L inp r (r.replicateOnce id) := by
  unfold replicateOnce replicateOnceFrom
  dsimp only
  refine .ite (fun _ ↦ r.does_setReplicator _ (.inl hid)) fun hs ↦ ?_
  rw [not_not] at hs
  refine .ite (fun _ ↦ r.does_setReplicator _ (.inl hid)) fun _ ↦ ?_
  refine .ite (fun _ ↦ r.does_setReplicator _ (.inl hid)) fun _ ↦ ?_
  refine .ite (fun hle ↦ r.does_sendAppend hs hid (.inl (by omega))) fun _ ↦ ?_
  split
  · rename_i e he
    exact r.does_sendAppend hs hid (.inr (.inr ⟨e, he, rfl⟩))
  · refine .ite (fun _ ↦ r.does_setReplicator _ (.inl hid)) fun _ ↦ ?_
    exact r.does_sendAppend hs hid (.inr (.inl rfl))

theorem quiet_resetWindow (id : ServerID) : Quiet r (r.resetWindow id) := .same rfl rfl rfl

theorem does_replicateOnceError (req : AppendEntriesRequest) (hid : id ∈ r.inflightReplication) :
    Does R L inp r (r.replicateOnceError id req) := by
  unfold replicateOnceError
  split
  · exact r.does_setReplicator _ (.inl hid)
  · exact (r.quiet_resetWindow id).does.trans (does_setReplicator _ _ (.inl hid))

theorem does_depose {a : Raft σ} {t : ℕ}
    (hcore : a.core = { r.failPendingFutures.core with heartbeatAcks := ∅ })
    (ho : a.outbox = r.failPendingFutures.outbox) (hj : a.journal = r.failPendingFutures.journal)
    (h : r.term < t) (hb : inp.Brings t) : Does R L inp r (a.adoptTerm t) := by
  have hclear : Does R L inp r.failPendingFutures a := .move (hcore ▸ .clearAcks) ho hj
  rw [r.core_failPendingFutures] at hcore
  refine (r.does_failPendingFutures.trans hclear).trans (does_adoptTerm _ ?_ hb (.inl ?_))
  · rwa [show a.term = r.term from congrArg Core.term hcore]
  · rw [hcore]
    exact settled_settle r.pendingFutures rfl

theorem does_stepDownOnReply {t : ℕ} (h : r.term < t) (hb : inp.Brings t) :
    Does R L inp r (r.stepDownOnReply t) := r.does_depose rfl rfl rfl h hb

theorem inflight_stepDownOnReply (t : ℕ) :
    (r.stepDownOnReply t).inflightReplication = r.inflightReplication :=
  congrArg Core.inflightReplication r.core_failPendingFutures

theorem quiet_extendLease (now : ℤ) : Quiet r (r.extendLease now) :=
  .ite (fun _ ↦ .same rfl rfl rfl) fun _ ↦ .refl r

theorem quiet_backOff (id : ServerID) (resp : AppendEntriesResponse) :
    Quiet r (r.backOff id resp) := by
  unfold backOff
  exact .ite (fun _ ↦ .same rfl rfl rfl) fun _ ↦ .ite (fun _ ↦ .same rfl rfl rfl) fun _ ↦ .refl r

theorem does_recordMatch {last : LogEntry}
    (hi : inp = .reply id (.appendEntries req) (.appendEntries resp) stamp)
    (hs : r.state = .leader) (ht : req.term = r.term) (hr : resp.success = true)
    (hl : req.entries.getLast? = some last) : Does R L inp r (r.recordMatch id last.index) :=
  .move (.ack id req resp stamp last hi hs ht hr hl) rfl rfl

theorem quiet_noteAck (id : ServerID) (now : ℤ) :
    Quiet { r with heartbeatAcks := r.heartbeatAcks.insert id now } (r.noteAck id now) :=
  .ite (fun _ ↦ quiet_extendLease _ _) fun _ ↦ .refl _

theorem does_acknowledge
    (hi : inp = .reply id (.appendEntries req) (.appendEntries resp) stamp)
    (hs : r.state = .leader) (ht : req.term = r.term) (hr : resp.success = true)
    (hL : L.ack r.core req stamp) :
    Does R L inp r (r.acknowledge id req r.clock) := by
  have hq := r.quiet_noteAck id r.clock
  have hcore := hq.core
  have hd : Does R L inp r (r.noteAck id r.clock) := by
    refine Does.trans ?_ hq.does
    exact .move (.recordAck id req resp stamp hi hs ht hr hL) rfl rfl
  unfold acknowledge
  split
  · rename_i last hl
    refine hd.trans (does_recordMatch _ hi ((congrArg Core.state hcore).trans hs) ?_ hr hl)
    exact ht.trans (congrArg Core.term hcore).symm
  · exact hd

theorem acknowledge_frame (id : ServerID) (req : AppendEntriesRequest) (now : ℤ) :
    (r.acknowledge id req now).state = r.state ∧
      (r.acknowledge id req now).inflightReplication = r.inflightReplication := by
  have hcore := (r.quiet_noteAck id now).core
  unfold acknowledge
  split
  · exact ⟨congrArg Core.state hcore, congrArg Core.inflightReplication hcore⟩
  · exact ⟨congrArg Core.state hcore, congrArg Core.inflightReplication hcore⟩

theorem does_replicateOnceReply
    (hi : inp = .reply id (.appendEntries req) (.appendEntries resp) stamp)
    (hid : id ∈ r.inflightReplication) (hL : resp.success = true → L.ack r.core req stamp) :
    Does R L inp r (r.replicateOnceReply id req resp r.clock) := by
  unfold replicateOnceReply
  refine .ite (fun _ ↦ r.does_setReplicator _ (.inl hid)) fun hs ↦ ?_
  rw [not_not] at hs
  refine .ite (fun hlt ↦ ?_) fun _ ↦ ?_
  · have hb : inp.Brings resp.term := by
      rw [hi]
      rfl
    refine (r.does_stepDownOnReply hlt hb).trans (does_setReplicator _ _ (.inl ?_))
    rw [inflight_stepDownOnReply]
    exact hid
  refine .ite (fun _ ↦ r.does_setReplicator _ (.inl hid)) fun _ ↦ ?_
  refine .ite (fun _ ↦ r.does_setReplicator _ (.inl hid)) fun ht ↦ ?_
  rw [not_not] at ht
  refine .ite (fun hr ↦ ?_) fun _ ↦ ?_
  · obtain ⟨hs', hid'⟩ := r.acknowledge_frame id req r.clock
    have hd := (r.does_acknowledge (R := R) (L := L) hi hs ht hr (hL hr)).trans
      (does_advanceCommitIndex _ (hs'.trans hs))
    have hid₁ : id ∈ (r.acknowledge id req r.clock).advanceCommitIndex.inflightReplication := by
      rw [show (r.acknowledge id req r.clock).advanceCommitIndex.inflightReplication = _ from hid']
      exact hid
    refine hd.trans (.ite (fun _ ↦ ?_) fun _ ↦ ?_)
    · exact does_setReplicator _ _ (.inl hid₁)
    · exact does_setReplicator _ _ (.inl hid₁)
  · have hq := (r.quiet_resetWindow id).trans (quiet_backOff _ id resp)
    refine hq.does.trans (does_setReplicator _ _ (.inl ?_))
    rw [show ((r.resetWindow id).backOff id resp).inflightReplication = _ from
      congrArg Core.inflightReplication hq.core]
    exact hid

end ReplicateOnce

theorem core_catchUp (t : ℕ) : (r.catchUp t).core =
    if r.term < t then { r.core.raise t (some "") with
      heartbeatAcks := ∅
      pendingFutures := settle r.commitIndex r.pendingFutures } else r.core := by
  unfold catchUp
  split
  · rw [failPendingFutures_eq]
    rfl
  · rfl

theorem does_catchUp (hb : inp.Brings t) : Does R L inp r (r.catchUp t) :=
  .ite (fun h ↦ r.does_depose rfl rfl rfl h hb) fun _ ↦ .refl r

theorem catchUp_frame (t : ℕ) : ∃ term state votedFor stable acks futures, (r.catchUp t).core =
    { r.core with
      term := term, state := state, votedFor := votedFor, stable := stable, heartbeatAcks := acks
      pendingFutures := futures } := by
  rw [core_catchUp]
  split
  · exact ⟨_, _, _, _, _, _, rfl⟩
  · exact ⟨_, _, _, _, _, _, rfl⟩

theorem heard_catchUp (h : r.term ≤ t) : r.core.Heard t (r.catchUp t).core := by
  rw [core_catchUp]
  split
  · rename_i hlt
    exact ⟨rfl, .inl ⟨hlt, rfl, settled_settle r.pendingFutures rfl⟩⟩
  · rename_i hge
    exact ⟨rfl, .inr ⟨le_antisymm h (not_lt.mp hge), rfl, .inl rfl⟩⟩

theorem core_heardFromLeader (req : AppendEntriesRequest) (rnd : ℕ) :
    (r.heardFromLeader req rnd).core = { (r.catchUp req.term).core with
      state := if (r.catchUp req.term).state = .candidate then .follower
        else (r.catchUp req.term).state } := by
  unfold heardFromLeader
  dsimp only
  generalize r.catchUp req.term = r₁
  have hstep : (if r₁.state = .candidate then { r₁ with state := .follower } else r₁).core =
      { r₁.core with state := if r₁.state = .candidate then .follower else r₁.state } := by
    split <;> rfl
  rw [← hstep]
  generalize (if r₁.state = .candidate then { r₁ with state := .follower } else r₁) = r₂
  split
  · exact (quiet_finishTransfer _ none).core
  · rfl

theorem heardFromLeader_frame (req : AppendEntriesRequest) (rnd : ℕ) :
    ∃ term state votedFor stable acks futures, (r.heardFromLeader req rnd).core = { r.core with
      term := term, state := state, votedFor := votedFor, stable := stable, heartbeatAcks := acks
      pendingFutures := futures } := by
  obtain ⟨_, _, _, _, _, _, hcatch⟩ := r.catchUp_frame req.term
  rw [core_heardFromLeader, hcatch]
  exact ⟨_, _, _, _, _, _, rfl⟩

theorem term_heardFromLeader (req : AppendEntriesRequest) (rnd : ℕ) (h : r.term ≤ req.term) :
    (r.heardFromLeader req rnd).term = req.term := by
  have hcore := r.core_heardFromLeader req rnd
  rw [core_catchUp] at hcore
  refine (congrArg Core.term hcore).trans ?_
  split
  · rfl
  · exact le_antisymm h (not_lt.mp ‹_›)

theorem heard_heardFromLeader (req : AppendEntriesRequest) (rnd : ℕ) (h : r.term ≤ req.term) :
    r.core.Heard req.term (r.heardFromLeader req rnd).core := by
  rw [core_heardFromLeader]
  obtain ⟨hk, ⟨hlt, hs, hf⟩ | ⟨ht, hf, hs⟩⟩ := r.heard_catchUp h
  · refine ⟨hk, .inl ⟨hlt, ?_, hf⟩⟩
    rw [show (r.catchUp req.term).state = .follower from hs]
    rfl
  · refine ⟨hk, .inr ⟨ht, hf, ?_⟩⟩
    have hs' : (r.catchUp req.term).state = r.state := by
      rcases hs with hs | ⟨hc, hs⟩
      · exact hs
      · have := r.core_catchUp req.term
        rw [if_neg (lt_irrefl _ <| ht ▸ ·)] at this
        exact congrArg Core.state this
    dsimp only
    rw [hs']
    split
    · rename_i hc
      exact .inr ⟨hc, rfl⟩
    · exact .inl rfl

theorem does_heardFromLeader (req : AppendEntriesRequest) (rnd : ℕ) (hb : inp.Brings req.term) :
    Does R L inp r (r.heardFromLeader req rnd) := by
  refine (r.does_catchUp hb).trans ?_
  unfold heardFromLeader
  dsimp only
  generalize r.catchUp req.term = r₁
  have hd : Does R L inp r₁ (if r₁.state = .candidate then
      { r₁ with state := .follower } else r₁) :=
    .ite (fun hc ↦ .move (.setState .follower (by simp) nofun fun _ ↦ .inr hc) rfl rfl)
      fun _ ↦ .refl r₁
  refine hd.trans ?_
  generalize (if r₁.state = .candidate then { r₁ with state := .follower } else r₁) = r₂
  refine .ite (fun _ ↦ ?_) fun _ ↦ .same rfl rfl rfl
  refine Does.trans ?_ (quiet_finishTransfer _ none).does
  exact .same rfl rfl rfl

def cutTerm (index : ℕ) : ℕ :=
  if index = 0 then 0 else
    match r.log.get index with
    | some e => e.term
    | none => r.lastTerm

/-- The commit index is never above the cut, so it is not capped. -/
theorem truncateLog_spec (index : ℕ) (h : r.commitIndex ≤ index) :
    (r.truncateLog index).1.core = r.core.truncate index (r.cutTerm index) ∧
      (r.truncateLog index).1.outbox = r.outbox ∧
      (r.truncateLog index).1.journal = r.journal ++
        [((r.truncateLog index).1.disk, (r.truncateLog index).1.outbox)] := by
  have hget : (r.log.deleteRange (index + 1) (r.lastIndex + 1)).get index = r.log.get index := by
    rw [get_deleteRange, if_neg (by omega)]
  unfold truncateLog cutTerm
  dsimp only [checkpoint]
  rw [hget]
  rcases Nat.eq_zero_or_pos index with rfl | hpos
  · simp only [lt_irrefl, if_false, if_true, not_lt.mpr h]
    exact ⟨rfl, trivial, rfl⟩
  · rw [if_pos hpos, if_neg hpos.ne']
    cases r.log.get index with
    | none => exact ⟨rfl, rfl, rfl⟩
    | some e =>
      simp only [not_lt.mpr h, if_false]
      exact ⟨rfl, trivial, rfl⟩

theorem does_truncateLog {e x : LogEntry}
    (hi : inp = .request (.appendEntries req)) (ht : req.term = r.term) (he : e ∈ req.entries)
    (hx : r.log.get e.index = some x) (hne : x.term ≠ e.term) (hc : r.commitIndex < e.index)
    (ha : req.Agrees r.log (e.index - 1)) (hO : L.obey r.core (.appendEntries req)) :
    Does R L inp r (r.truncateLog (e.index - 1)).1 := by
  obtain ⟨hcore, ho, hj⟩ := r.truncateLog_spec (e.index - 1) (by omega)
  refine .write ?_ ho hj
  rw [hcore]
  refine .truncate req e x _ hi ht he hx hne hc ha (fun h1 ↦ ?_) (fun y hy ↦ ?_) hO
  · simp [cutTerm, h1]
  · have hpos := get_pos hy
    have hy' : r.log.get (e.index - 1) = some y := hy
    simp [cutTerm, hpos.ne', hy']

/-- Entries of a request are appended one after the other, each one agreeing with the log so
far. The last index that agrees afterwards is the last one of the batch. -/
theorem does_persistLog_copy
    (h : r.persistLog entries = some r') (hi : inp = .request (.appendEntries req))
    (ht : req.term = r.term) (hsub : ∀ e ∈ entries, e ∈ req.entries)
    (ha : req.Agrees r.log r.lastIndex)
    (hO : r.core.Obeys L req) :
    Does R L inp r r' ∧ r'.term = r.term ∧ r'.commitIndex = r.commitIndex ∧
      req.Agrees r'.log r'.lastIndex ∧
      r'.lastIndex = (entries.getLast?.map LogEntry.index).getD r.lastIndex := by
  obtain ⟨hc, rfl⟩ := r.persistLog_some h
  clear h
  induction entries generalizing r with
  | nil => exact ⟨.refl r, rfl, rfl, ha, rfl⟩
  | cons e rest ih =>
    rw [contiguous_cons] at hc
    have he : e ∈ req.entries := hsub e mem_cons_self
    have hd : Does R L inp r (r.appendEntry e) :=
      r.does_appendEntry (.copy req e hi ht he hc.1 ha (hO _ rfl rfl rfl))
    have ha' : req.Agrees (r.appendEntry e).log (r.appendEntry e).lastIndex := by
      refine .inr ⟨e, ?_, .inr ⟨e, he, rfl, rfl⟩⟩
      change (r.log.append e).get e.index = some e
      rw [get_append _ _ _ (by omega), if_pos rfl]
    have hc' : contiguous ((r.appendEntry e).lastIndex + 1) rest = true := by
      rw [show (r.appendEntry e).lastIndex = r.lastIndex + 1 from hc.1]
      exact hc.2
    obtain ⟨hd', ht', hk', hag, hl⟩ := ih (r.appendEntry e) ht
      (fun x hx ↦ hsub x (mem_cons_of_mem e hx)) ha' hO hc'
    refine ⟨hd.trans hd', ht', hk', hag, hl.trans ?_⟩
    cases rest with
    | nil => rfl
    | cons y rest => simp [getLast?_cons]

/-- The loop over the entries `entries` of a request whose earlier entries agree with the log
up to index `i`. -/
theorem does_storeEntries {i : ℕ}
    (hi : inp = .request (.appendEntries req)) (ht : req.term = r.term)
    (hsub : ∀ e ∈ entries, e ∈ req.entries) (hc : contiguous (i + 1) entries = true)
    (ha : req.Agrees r.log i)
    (hO : r.core.Obeys L req) :
    Does R L inp r (r.storeEntries entries).1 ∧ (r.storeEntries entries).1.term = r.term ∧
      (r.storeEntries entries).1.commitIndex = r.commitIndex ∧
      ((r.storeEntries entries).2 = none → req.Agrees (r.storeEntries entries).1.log
        ((entries.getLast?.map LogEntry.index).getD i)) := by
  induction entries generalizing i with
  | nil => exact ⟨.refl r, rfl, rfl, fun _ ↦ ha⟩
  | cons e rest ih =>
    rw [contiguous_cons] at hc
    have he : e ∈ req.entries := hsub e mem_cons_self
    obtain ⟨last, hlast⟩ : ∃ last, (e :: rest).getLast? = some last :=
      ⟨_, getLast?_eq_some_getLast (cons_ne_nil e rest)⟩
    -- the batch is appended to a log that ends at index `i` and agrees there
    have happend (r₁ : Raft σ) (ht₁ : req.term = r₁.term) (ha₁ : req.Agrees r₁.log i)
        (hO₁ : r₁.core.Obeys L req)
        (hl₁ : contiguous (r₁.lastIndex + 1) (e :: rest) = true → r₁.lastIndex = i) :
        ∀ r₂, r₁.persistLog (e :: rest) = some r₂ → Does R L inp r₁ r₂ ∧ r₂.term = r₁.term ∧
          r₂.commitIndex = r₁.commitIndex ∧
          req.Agrees r₂.log (((e :: rest).getLast?.map LogEntry.index).getD i) := by
      intro r₂ h₂
      have hli := hl₁ (r₁.persistLog_some h₂).1
      obtain ⟨hd, ht₂, hk₂, hag, hl⟩ := r₁.does_persistLog_copy (R := R) (L := L) h₂ hi ht₁ hsub
        (by rw [hli]; exact ha₁) hO₁
      refine ⟨hd, ht₂, hk₂, ?_⟩
      rw [hlast] at hl ⊢
      rw [hl] at hag
      exact hag
    simp only [storeEntries]
    split
    · have := happend r ht ha hO fun h ↦ by
        rw [contiguous_cons] at h
        omega
      split
      · rename_i r₂ h₂
        obtain ⟨hd, ht₂, hk₂, hag⟩ := this r₂ h₂
        exact ⟨hd, ht₂, hk₂, fun _ ↦ hag⟩
      · exact ⟨.refl r, rfl, rfl, by simp⟩
    · rename_i x hx
      split
      · rename_i hterm
        have ha' : req.Agrees r.log (i + 1) := by
          refine .inr ⟨x, hc.1 ▸ hx, .inr ⟨e, he, hc.1, hterm.symm⟩⟩
        obtain ⟨hd, ht', hk', hag⟩ := ih (fun y hy ↦ hsub y (mem_cons_of_mem e hy)) hc.2 ha'
        refine ⟨hd, ht', hk', fun hn ↦ ?_⟩
        have := hag hn
        cases rest with
        | nil => simpa [hc.1] using this
        | cons y rest => simpa [getLast?_cons] using this
      · rename_i hne
        split
        · exact ⟨.refl r, rfl, rfl, by simp⟩
        · rename_i hcommit
          have hidx : e.index - 1 = i := by omega
          have hd := r.does_truncateLog (R := R) (L := L) hi ht he hx hne (by omega)
            (by rwa [hidx]) (hO _ rfl rfl rfl)
          obtain ⟨hcore, -, -⟩ := r.truncateLog_spec (e.index - 1) (by omega)
          have ht₁ : (r.truncateLog (e.index - 1)).1.term = r.term := congrArg Core.term hcore
          have hk₁ : (r.truncateLog (e.index - 1)).1.commitIndex = r.commitIndex :=
            congrArg Core.commitIndex hcore
          have hO₁ : (r.truncateLog (e.index - 1)).1.core.Obeys L req := by
            rw [hcore]
            exact hO
          have hl₁ : (r.truncateLog (e.index - 1)).1.lastIndex = e.index - 1 :=
            congrArg Core.lastIndex hcore
          have hlog : (r.truncateLog (e.index - 1)).1.log =
              r.log.deleteRange (e.index - 1 + 1) (r.lastIndex + 1) := congrArg Core.log hcore
          have ha₁ : req.Agrees (r.truncateLog (e.index - 1)).1.log i := by
            rw [hlog]
            rcases ha with h0 | ⟨y, hy, hcar⟩
            · exact .inl h0
            · refine .inr ⟨y, ?_, hcar⟩
              rw [get_deleteRange, if_neg (by omega), hy]
          generalize r.truncateLog (e.index - 1) = q at *
          obtain ⟨r₁, ok⟩ := q
          cases ok with
          | false => exact ⟨hd, ht₁, hk₁, by simp⟩
          | true =>
            have := happend r₁ (ht.trans ht₁.symm) ha₁ hO₁ fun _ ↦ hl₁.trans hidx
            dsimp only at hd ht₁ hk₁ ⊢
            split
            · rename_i r₂ h₂
              obtain ⟨hd₂, ht₂, hk₂, hag⟩ := this r₂ h₂
              exact ⟨hd.trans hd₂, ht₂.trans ht₁, hk₂.trans hk₁, fun _ ↦ hag⟩
            · exact ⟨hd, ht₁, hk₁, by simp⟩

theorem prevLogConflict_none_iff : r.prevLogConflict req = none ↔
    req.prevLogIndex = 0 ∨ ∃ e, r.log.get req.prevLogIndex = some e ∧ e.term = req.prevLogTerm := by
  unfold prevLogConflict
  split
  · rename_i h0
    exact ⟨fun _ ↦ .inl h0, fun _ ↦ rfl⟩
  · rename_i h0
    split
    · rename_i hlt
      refine ⟨nofun, fun h ↦ ?_⟩
      obtain ⟨e, he, -⟩ := h.resolve_left h0
      exact absurd (le_lastIndex he) hlt.not_ge
    · split
      · rename_i hn
        refine ⟨nofun, fun h ↦ ?_⟩
        obtain ⟨e, he, -⟩ := h.resolve_left h0
        rw [hn] at he
        cases he
      · rename_i e he
        split
        · rename_i ht
          exact ⟨fun _ ↦ .inr ⟨e, he, ht⟩, fun _ ↦ rfl⟩
        · rename_i hne
          refine ⟨nofun, fun h ↦ ?_⟩
          obtain ⟨x, hx, ht⟩ := h.resolve_left h0
          rw [he] at hx
          cases hx
          exact absurd ht hne

theorem prevLogConflict_none (h : r.prevLogConflict req = none) :
    req.Agrees r.log req.prevLogIndex := by
  rcases (r.prevLogConflict_none_iff).mp h with h0 | ⟨e, he, ht⟩
  · exact .inl h0
  · exact .inr ⟨e, he, .inl ⟨rfl, ht⟩⟩

theorem lastReqIndex_eq (req : AppendEntriesRequest) :
    lastReqIndex req = (req.entries.getLast?.map LogEntry.index).getD req.prevLogIndex := by
  unfold lastReqIndex
  cases req.entries.getLast? <;> rfl

theorem does_followCommit (hi : inp = .request (.appendEntries req))
    (ht : req.term = r.term) (ha : req.Agrees r.log (lastReqIndex req)) (hL : L.follow r.core req) :
    Does R L inp r (r.followCommit req) :=
  .ite (fun hlt ↦ .move (.follow req hi ht hlt ha hL) rfl rfl) fun _ ↦ .refl r

theorem followCommit_frame (req : AppendEntriesRequest) :
    (r.followCommit req).term = r.term ∧ (r.followCommit req).log = r.log := by
  unfold followCommit
  split <;> exact ⟨rfl, rfl⟩

section Rel

variable {P : Raft σ → Raft σ → Prop} (hrefl : ∀ r, P r r)
  (htrans : ∀ {a b c}, P a b → P b c → P a c) (happend : ∀ r e, P r (appendEntry r e))
  (htruncate : ∀ r index, commitIndex r ≤ index → P r (truncateLog r index).1)

include hrefl htrans happend htruncate

/-- What appending and truncating keep, the loop over the entries of a request keeps. -/
theorem storeEntries_rel (entries : List LogEntry) : P r (r.storeEntries entries).1 := by
  have hpersist {r r' : Raft σ} {entries : List LogEntry} (h : r.persistLog entries = some r') :
      P r r' := by
    obtain ⟨-, rfl⟩ := r.persistLog_some h
    clear h
    induction entries generalizing r with
    | nil => exact hrefl r
    | cons e rest ih => exact htrans (happend r e) ih
  induction entries with
  | nil => exact hrefl r
  | cons e rest ih =>
    unfold storeEntries
    split
    · split
      · exact hpersist ‹_›
      · exact hrefl r
    · split_ifs with hterm hcommit
      · exact ih
      · exact hrefl r
      · have hcut := htruncate r (e.index - 1) (by omega)
        generalize r.truncateLog (e.index - 1) = q at hcut
        obtain ⟨r₁, ok⟩ := q
        cases ok with
        | false => exact hcut
        | true =>
          dsimp only at hcut ⊢
          split
          · exact htrans hcut (hpersist ‹_›)
          · exact hcut

theorem handleAppendEntries_rel (rnd : ℕ) (hfollow : ∀ r, P r (followCommit r req))
    (h : ¬ req.term < r.term) :
    P (r.heardFromLeader req rnd) (r.handleAppendEntries req rnd).1 := by
  unfold handleAppendEntries
  rw [if_neg h]
  dsimp only
  generalize r.heardFromLeader req rnd = r₁
  split
  · exact hrefl r₁
  · have hstore := r₁.storeEntries_rel hrefl htrans happend htruncate req.entries
    generalize r₁.storeEntries req.entries = q at hstore
    obtain ⟨r₂, early⟩ := q
    cases early with
    | some i => exact hstore
    | none => exact htrans hstore (hfollow r₂)

end Rel

/-- A successful answer means that the log agrees with all of the request. -/
theorem does_handleAppendEntries (rnd : ℕ)
    (hi : inp = .request (.appendEntries req))
    (hw : contiguous (req.prevLogIndex + 1) req.entries = true)
    (hL : ∀ c : Core, c.commitIndex = r.commitIndex → L.follow c req)
    (hO : ∀ c : Core, r.core.Heard req.term c → L.obey c (.appendEntries req)) :
    Does R L inp r (r.handleAppendEntries req rnd).1 ∧
      ((r.handleAppendEntries req rnd).2.success = true →
        (r.handleAppendEntries req rnd).2.term = req.term ∧
        (r.handleAppendEntries req rnd).1.term = req.term ∧
        req.Agrees (r.handleAppendEntries req rnd).1.log (lastReqIndex req)) := by
  unfold handleAppendEntries
  dsimp only
  split
  · exact ⟨.refl r, by simp⟩
  · rename_i hlt
    have hb : inp.Brings req.term := by
      rw [hi]
      rfl
    have hd₁ : Does R L inp r (r.heardFromLeader req rnd) := r.does_heardFromLeader req rnd hb
    have ht₁ := r.term_heardFromLeader req rnd (not_lt.mp hlt)
    have hheard := r.heard_heardFromLeader req rnd (not_lt.mp hlt)
    generalize r.heardFromLeader req rnd = r₁ at hd₁ ht₁ hheard
    have hO₁ : r₁.core.Obeys L req := by
      intro c hk hs hf
      refine hO c ⟨hk.trans hheard.1, ?_⟩
      rw [Core.Settled, hk, hs, hf]
      exact hheard.2
    split
    · exact ⟨hd₁, by simp⟩
    · rename_i hprev
      obtain ⟨hd₂, ht₂, hk₂, hag⟩ := r₁.does_storeEntries (R := R) (L := L) hi ht₁.symm
        (fun _ ↦ id) hw (r₁.prevLogConflict_none hprev) hO₁
      generalize r₁.storeEntries req.entries = q at hd₂ ht₂ hk₂ hag
      obtain ⟨r₂, idx⟩ := q
      cases idx with
      | some i => exact ⟨hd₁.trans hd₂, by simp⟩
      | none =>
        dsimp only at hd₂ ht₂ hk₂ hag ⊢
        have hagree : req.Agrees r₂.log (lastReqIndex req) := by
          rw [lastReqIndex_eq]
          exact hag rfl
        obtain ⟨ht₃, hlog₃⟩ := r₂.followCommit_frame req
        have hd₃ : Does R L inp r₂ (r₂.followCommit req) :=
          r₂.does_followCommit hi (ht₁.symm.trans ht₂.symm) hagree (hL _ (hk₂.trans hheard.1))
        have hterm := ht₃.trans (ht₂.trans ht₁)
        exact ⟨(hd₁.trans hd₂).trans hd₃, fun _ ↦ ⟨hterm, hterm, by rwa [hlog₃]⟩⟩

end Raft

end RaftConsensus
