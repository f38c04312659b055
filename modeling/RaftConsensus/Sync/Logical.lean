import RaftConsensus.Position.Mirror
import RaftConsensus.Sync.Follower

namespace RaftConsensus

open List LogStore

/-- The list is the logical log of the node: its end is where the node takes the log to end, the
store holds entries of it only, and all of them above the latest snapshot. -/
structure Core.Carries (c : Core) (l : List LogEntry) : Prop where
  indexed : Indexed l
  positive : ∀ e ∈ l, 0 < e.term
  lastIndex : c.lastIndex = l.length
  stored : ∀ i e, c.log.get i = some e → l[i - 1]? = some e
  above : ∀ i, c.snapIndex < i → i ≤ l.length → (c.log.get i).isSome = true

def Core.Within (c : Core) (log : List LogEntry) : Prop :=
  ∀ s ∈ c.snapshot.snapshots, s.index ≤ log.length

/-- The logical log as far as the node shows it: the entries of the store, and where it has none
those of `base`. -/
def Core.logical (c : Core) (base : List LogEntry) : List LogEntry :=
  (List.range c.lastIndex).filterMap fun i ↦ (c.log.get (i + 1)).or base[i]?

theorem filterMap_range_getElem? {α : Type} (l : List α) :
    (range l.length).filterMap (l[·]?) = l := by
  induction l using reverseRecOn with
  | nil => rfl
  | append_singleton l a ih =>
    rw [length_append, length_singleton, range_succ, filterMap_append]
    have hold : (range l.length).filterMap ((l ++ [a])[·]?) = l := by
      refine (filterMap_congr fun i hi ↦ ?_).trans ih
      exact getElem?_append_left (mem_range.mp hi)
    rw [hold]
    simp

namespace Core

variable {c c' : Core} {l l' base log log' : List LogEntry} {e : LogEntry}

theorem Within.mono (h : c.Within log) (hl : log <+: log') : c.Within log' :=
  fun s hs ↦ (h s hs).trans hl.length_le

namespace Carries

theorem keep (h : c.Carries l) (hlog : c'.log = c.log) (hlast : c'.lastIndex = c.lastIndex)
    (hsnap : c'.snapshot = c.snapshot) : c'.Carries l where
  indexed := h.indexed
  positive := h.positive
  lastIndex := hlast.trans h.lastIndex
  stored := hlog ▸ h.stored
  above := by
    rw [hlog, show c'.snapIndex = c.snapIndex by rw [snapIndex, hsnap, snapIndex]]
    exact h.above

theorem get_le (h : c.Carries l) {i : ℕ} (hi : c.log.get i = some e) : 0 < i ∧ i ≤ l.length := by
  have hpos := get_pos hi
  have := (List.getElem?_eq_some_iff.mp (h.stored i e hi)).1
  exact ⟨hpos, by omega⟩

theorem logical_eq (h : c.Carries l)
    (hbase : ∀ i, i < l.length → c.log.get (i + 1) = none → base[i]? = l[i]?) :
    c.logical base = l := by
  unfold logical
  rw [h.lastIndex]
  refine (filterMap_congr fun i hi ↦ ?_).trans (filterMap_range_getElem? l)
  cases hg : c.log.get (i + 1) with
  | none => exact hbase i (mem_range.mp hi) hg
  | some e => exact (h.stored (i + 1) e hg).symm

theorem append (h : c.Carries l) (he : e.index = l.length + 1) (ht : 0 < e.term) :
    (c.append e).Carries (l ++ [e]) where
  indexed i x hx := by
    rcases lt_or_ge i l.length with hi | hi
    · rw [getElem?_append_left hi] at hx
      exact h.indexed i x hx
    · have hlt := (List.getElem?_eq_some_iff.mp hx).1
      rw [length_append, length_singleton] at hlt
      obtain rfl : i = l.length := by omega
      rw [getElem?_append_right le_rfl, Nat.sub_self] at hx
      cases hx
      exact he
  positive x hx := by
    rcases mem_append.mp hx with hx | hx
    · exact h.positive x hx
    · rwa [mem_singleton.mp hx]
  lastIndex := by
    rw [length_append, length_singleton]
    exact he
  stored i x hx := by
    have hpos := get_pos hx
    rw [show (c.append e).log.get i = _ from get_append c.log e i hpos] at hx
    split at hx
    · rename_i hi
      cases hx
      rw [hi, he, Nat.add_sub_cancel, getElem?_append_right le_rfl]
      simp
    · have hlt := (List.getElem?_eq_some_iff.mp (h.stored i x hx)).1
      rw [getElem?_append_left hlt]
      exact h.stored i x hx
  above i hs hi := by
    rw [show (c.append e).log.get i = _ from get_append c.log e i (by omega)]
    split
    · rfl
    · rename_i hne
      rw [length_append, length_singleton] at hi
      exact h.above i hs (by omega)

theorem foldl_append {es : List LogEntry} (h : c.Carries l)
    (hc : Raft.contiguous (l.length + 1) es = true) (ht : ∀ e ∈ es, 0 < e.term) {m : ℕ}
    (hm : ∀ i, m < i → i ≤ l.length → (c.log.get i).isSome = true) :
    (es.foldl Core.append c).Carries (l ++ es) ∧
      ∀ i, m < i → i ≤ (l ++ es).length → ((es.foldl Core.append c).log.get i).isSome = true := by
  induction es generalizing c l with
  | nil =>
    rw [append_nil]
    exact ⟨h, hm⟩
  | cons e es ih =>
    rw [Raft.contiguous_cons] at hc
    have hone := h.append hc.1 (ht e mem_cons_self)
    have hlen : (l ++ [e]).length = l.length + 1 := by rw [length_append, length_singleton]
    have hm' (i : ℕ) (hi : m < i) (hle : i ≤ (l ++ [e]).length) :
        ((c.append e).log.get i).isSome = true := by
      rw [show (c.append e).log.get i = _ from get_append c.log e i (by omega)]
      split
      · rfl
      · exact hm i hi (by omega)
    have hall := ih hone (by rw [hlen]; exact hc.2) (fun x hx ↦ ht x (mem_cons_of_mem e hx)) hm'
    rwa [append_assoc] at hall

theorem truncate (h : c.Carries l) {index : ℕ} (hi : index ≤ l.length) (lastTerm : ℕ) :
    (c.truncate index lastTerm).Carries (l.take index) where
  indexed i e he := by
    rw [getElem?_take] at he
    split at he
    · exact h.indexed i e he
    · cases he
  positive e he := h.positive e (mem_of_mem_take he)
  lastIndex := by
    rw [length_take]
    exact (min_eq_left hi).symm
  stored i e he := by
    rw [show (c.truncate index lastTerm).log.get i = _ from get_deleteRange ..] at he
    split at he
    · cases he
    · obtain ⟨hpos, hle⟩ := h.get_le he
      have := h.lastIndex
      rw [getElem?_take_of_lt (by omega)]
      exact h.stored i e he
  above i hs hle := by
    rw [length_take] at hle
    rw [show (c.truncate index lastTerm).log.get i = _ from get_deleteRange ..,
      if_neg (by omega)]
    exact h.above i hs (by omega)

end Carries

end Core

/-- The request carries entries of `log`. A term of zero stands for a predecessor that the sender
could not read. -/
structure AppendEntriesRequest.Fits (req : AppendEntriesRequest) (log : List LogEntry) : Prop where
  prevLogTerm : req.prevLogIndex = 0 ∨ req.prevLogTerm = 0 ∨
    ∃ e, log[req.prevLogIndex - 1]? = some e ∧ e.term = req.prevLogTerm
  entries : req.entries <+: log.drop req.prevLogIndex

theorem AppendEntriesRequest.Fits.mono {req : AppendEntriesRequest} {log log' : List LogEntry}
    (h : req.Fits log) (hl : log <+: log') : req.Fits log' := by
  obtain ⟨t, rfl⟩ := hl
  refine ⟨h.prevLogTerm.imp_right (Or.imp_right ?_), ?_⟩
  · rintro ⟨e, he, ht⟩
    refine ⟨e, ?_, ht⟩
    rw [getElem?_append_left (List.getElem?_eq_some_iff.mp he).1]
    exact he
  · rw [drop_append]
    exact h.entries.trans (prefix_append _ _)

/-- A follower next to the log of its leader: the two match, the follower's snapshots end inside it,
and what the follower takes for committed is shared. -/
structure Core.Follows (c : Core) (l log : List LogEntry) : Prop where
  carries : c.Carries l
  within : c.Within log
  matching : Matching l log
  commit : Shares l log c.commitIndex

/-- Beyond the end of `log` the new list has nothing that the old one had not. -/
def NewWithin (log l l' : List LogEntry) : Prop := ∀ i ≥ log.length, l'[i]? = none ∨ l'[i]? = l[i]?

namespace NewWithin

variable {log l l' : List LogEntry}

theorem refl (log l : List LogEntry) : NewWithin log l l := fun _ _ ↦ .inr rfl

theorem of_initial (h : l' <+: log) : NewWithin log l l' := fun _ hi ↦
  .inl (getElem?_eq_none (h.length_le.trans hi))

theorem take (l : List LogEntry) (k : ℕ) : NewWithin log l (l.take k) := by
  intro i _
  rw [getElem?_take]
  split
  · exact .inr rfl
  · exact .inl rfl

end NewWithin

namespace Raft

variable {σ : Type} {F : FSM σ} {r r' : Raft σ} {l log : List LogEntry}

theorem Keeps.carries (h : r.Keeps l) (hpos : ∀ e ∈ l, 0 < e.term) : r.core.Carries l where
  indexed := h.indexed
  positive := hpos
  lastIndex := h.lastIndex
  stored i e he := by
    have hi := get_pos he
    rw [← h.holds (i - 1), Nat.sub_add_cancel hi]
    exact he
  above i hi hle := by
    have hget := h.holds (i - 1)
    rw [Nat.sub_add_cancel (by omega), getElem?_eq_getElem (by omega)] at hget
    change (r.log.get i).isSome = true
    rw [hget]
    rfl

/-- What the loop over the entries of a request does to a log that shares the leader's log up to
where they begin. -/
theorem follows_storeEntries {es : List LogEntry} {k : ℕ} (h : r.core.Follows l log)
    (hlog : Indexed log) (hpos : ∀ e ∈ log, 0 < e.term) (hs : Shares l log k)
    (hes : es <+: log.drop k) :
    ∃ l', (r.storeEntries es).1.core.Follows l' log ∧ NewWithin log l l' ∧
      (∀ i, i < l'.length → (r.storeEntries es).1.log.get (i + 1) = none → l[i]? = l'[i]?) ∧
      ((r.storeEntries es).2 = none → Shares l' log (k + es.length)) := by
  induction es generalizing k with
  | nil => exact ⟨l, h, .refl log l, fun _ _ _ ↦ rfl, fun _ ↦ hs⟩
  | cons e es ih =>
    have hterms : ∀ x ∈ e :: es, 0 < x.term := fun x hx ↦
      hpos x (mem_of_mem_drop (hes.subset hx))
    obtain ⟨hidx, he, hrest, hbatch, -⟩ := hlog.batch hes
    -- the batch is stored behind a part of the log that ends at `k`
    have happend {r₁ r₂ : Raft σ} {l₁ : List LogEntry} (h₁ : r₁.core.Follows l₁ log) (hl : l₁ <+: l)
        (hsh : Shares l₁ log k) (hp : r₁.persistLog (e :: es) = some r₂) :
        ∃ l', r₂.core.Follows l' log ∧ NewWithin log l l' ∧
          (∀ i, i < l'.length → r₂.log.get (i + 1) = none → l[i]? = l'[i]?) ∧
          Shares l' log (k + (e :: es).length) := by
      obtain ⟨hc₁, rfl⟩ := r₁.persistLog_some hp
      have hlast : r₁.lastIndex = l₁.length := h₁.carries.lastIndex
      have hk : l₁.length = k := by
        rw [contiguous_cons] at hc₁
        omega
      have hl₁ : l₁ = log.take k := by rw [← hsh.take_eq, ← hk, take_length]
      rw [hlast] at hc₁
      obtain ⟨hcar, hnew⟩ := h₁.carries.foldl_append hc₁ hterms (m := l₁.length) fun i _ _ ↦ by
        omega
      rw [← r₁.core_foldl_appendEntry] at hcar hnew
      obtain ⟨_, _, _, hframe⟩ := foldl_append_frame (e :: es) r₁.core
      have hcore := (r₁.core_foldl_appendEntry (e :: es)).trans hframe
      have hpre : l₁ ++ e :: es <+: log := hl₁ ▸ hbatch
      have hshare : Shares (l₁ ++ e :: es) log (l₁ ++ e :: es).length := .of_initial hpre
      refine ⟨_, ⟨hcar, ?_, .of_initial hpre, ?_⟩, .of_initial hpre, fun i hi hnone ↦ ?_, ?_⟩
      · intro s hs'
        rw [hcore] at hs'
        exact h₁.within s hs'
      · rw [hcore]
        refine hshare.mono (h₁.commit.le.trans ?_)
        rw [length_append]
        exact Nat.le_add_right _ _
      · rcases lt_or_ge i l₁.length with hlt | hge
        · rw [getElem?_append_left hlt]
          obtain ⟨u, rfl⟩ := hl
          exact getElem?_append_left hlt
        · have hsome : (((e :: es).foldl appendEntry r₁).log.get (i + 1)).isSome = true :=
            hnew (i + 1) (by omega) hi
          rw [hnone] at hsome
          cases hsome
      · rw [length_append, hk] at hshare
        exact hshare
    unfold Raft.storeEntries
    cases hg : r.log.get e.index with
    | none =>
      dsimp only
      cases hp : r.persistLog (e :: es) with
      | none => exact ⟨l, h, .refl log l, fun _ _ _ ↦ rfl, by simp⟩
      | some r₂ =>
        obtain ⟨l', hf, hpre, hbase, hshare⟩ := happend h prefix_rfl hs hp
        exact ⟨l', hf, hpre, hbase, fun _ ↦ hshare⟩
    | some x =>
      have hx : l[k]? = some x := by
        have := h.carries.stored e.index x hg
        rwa [hidx, Nat.add_sub_cancel] at this
      dsimp only
      split_ifs with hterm hcommit
      · obtain ⟨l', hf, hpre, hbase, hend⟩ := ih (h.matching k x e hx he hterm) hrest
        refine ⟨l', hf, hpre, hbase, fun hn ↦ ?_⟩
        rw [length_cons, Nat.add_comm es.length, ← Nat.add_assoc]
        exact hend hn
      · exact ⟨l, h, .refl log l, fun _ _ _ ↦ rfl, by simp⟩
      · have hcut : e.index - 1 = k := by omega
        rw [hcut]
        have hspec := (r.truncateLog_spec k (by omega)).1
        have hshort : Shares (l.take k) log k := by
          rw [hs.take_eq]
          exact ⟨hs.1, prefix_rfl⟩
        have hf₁ : (r.truncateLog k).1.core.Follows (l.take k) log := by
          rw [hspec]
          refine ⟨h.carries.truncate hs.le _, h.within, ?_, hshort.mono ?_⟩
          · rw [hs.take_eq]
            exact .of_initial (List.take_prefix _ _)
          · change r.commitIndex ≤ k
            omega
        generalize r.truncateLog k = q at hf₁
        obtain ⟨r₁, ok⟩ := q
        have hstay : ∀ i, i < (l.take k).length → r₁.log.get (i + 1) = none →
            l[i]? = (l.take k)[i]? := by
          intro i hi _
          rw [length_take] at hi
          rw [getElem?_take_of_lt (by omega)]
        cases ok with
        | false => exact ⟨_, hf₁, .take l k, hstay, by simp⟩
        | true =>
          dsimp only
          cases hp : r₁.persistLog (e :: es) with
          | none => exact ⟨_, hf₁, .take l k, hstay, by simp⟩
          | some r₂ =>
            obtain ⟨l', hf, hpre, hbase, hshare⟩ := happend hf₁ (List.take_prefix _ _) hshort hp
            exact ⟨l', hf, hpre, hbase, fun _ ↦ hshare⟩

theorem follows_heardFromLeader (h : r.core.Follows l log) (req : AppendEntriesRequest) (rnd : ℕ) :
    (r.heardFromLeader req rnd).core.Follows l log := by
  obtain ⟨_, _, _, _, _, _, hcore⟩ := r.heardFromLeader_frame req rnd
  rw [hcore]
  exact { h with carries := h.carries.keep rfl rfl rfl }

variable {req : AppendEntriesRequest} {snap : Snapshot}

theorem follows_followCommit (h : r.core.Follows l log)
    (hs : Shares l log (lastReqIndex req)) : (r.followCommit req).core.Follows l log := by
  unfold followCommit
  split_ifs
  · exact ⟨h.carries.keep rfl rfl rfl, h.within, h.matching, hs.mono (min_le_right _ _)⟩
  · exact h

theorem shares_of_prevLogConflict (h : r.core.Follows l log)
    (hreq : req.Fits log) (hp : r.prevLogConflict req = none) :
    Shares l log req.prevLogIndex := by
  rcases r.prevLogConflict_none_iff.mp hp with h0 | ⟨e, he, ht⟩
  · rw [h0]
    exact .zero l log
  · have hpos := get_pos he
    have hl : l[req.prevLogIndex - 1]? = some e := h.carries.stored _ e he
    rcases hreq.prevLogTerm with h0 | h0 | ⟨x, hx, hxt⟩
    · omega
    · have := h.carries.positive e (mem_of_getElem? hl)
      omega
    · have hs := h.matching _ e x hl hx (ht.trans hxt.symm)
      rwa [Nat.sub_add_cancel hpos] at hs

/-- A request of the leader, and what an answer of success says. -/
theorem follows_handleAppendEntries (h : r.core.Follows l log)
    (hlog : Indexed log) (hpos : ∀ e ∈ log, 0 < e.term) (hreq : req.Fits log) (rnd : ℕ) :
    ∃ l', (r.handleAppendEntries req rnd).1.core.Follows l' log ∧ NewWithin log l l' ∧
      (∀ i, i < l'.length → (r.handleAppendEntries req rnd).1.log.get (i + 1) = none →
        l[i]? = l'[i]?) ∧
      ((r.handleAppendEntries req rnd).2.success = true → Shares l' log (lastReqIndex req)) := by
  unfold handleAppendEntries
  dsimp only
  split_ifs
  · exact ⟨l, h, .refl log l, fun _ _ _ ↦ rfl, nofun⟩
  · have h₁ := follows_heardFromLeader h req rnd
    generalize r.heardFromLeader req rnd = r₁ at h₁
    cases hp : r₁.prevLogConflict req with
    | some q => exact ⟨l, h₁, .refl log l, fun _ _ _ ↦ rfl, nofun⟩
    | none =>
      obtain ⟨l', h₂, hpre, hbase, hend⟩ := follows_storeEntries h₁ hlog hpos
        (shares_of_prevLogConflict h₁ hreq hp) hreq.entries
      generalize r₁.storeEntries req.entries = q at h₂ hbase hend
      obtain ⟨r₂, early⟩ := q
      cases early with
      | some i => exact ⟨l', h₂, hpre, hbase, nofun⟩
      | none =>
        have hshare : Shares l' log (lastReqIndex req) := by
          rw [hlog.lastReqIndex_eq hreq.entries]
          exact hend rfl
        have hsame : (r₂.followCommit req).log = r₂.log := by
          unfold followCommit
          split <;> rfl
        refine ⟨l', follows_followCommit h₂ hshare, hpre, fun i hi hnone ↦ hbase i hi ?_,
          fun _ ↦ hshare⟩
        rwa [hsame] at hnone

/-- The request does not leave the follower without the snapshot: it is refused, it is not the
last chunk, the snapshot is covered already, or the chunk completes it and the state machine
accepts it. -/
def completes (F : FSM σ) (r : Raft σ) (req : InstallSnapshotRequest) : Bool :=
  req.term < r.term || !req.done || req.lastIncludedIndex ≤ r.commitIndex ||
    (r.installs req).any fun data ↦ (F.restore data).isSome

theorem within_create {c : Core} (h : c.Within log) (hle : snap.index ≤ log.length) :
    ∀ s ∈ (c.snapshot.create snap).snapshots, s.index ≤ log.length := by
  intro s hs
  rcases mem_cons.mp hs with rfl | hs
  · exact hle
  · exact h s hs

theorem follows_install_inside {c : Core} {e : LogEntry} {lo : ℕ}
    (h : c.Follows l log) (hlog : Indexed log) (hpos : ∀ e ∈ log, 0 < e.term)
    (hle : snap.index ≤ log.length) (he : c.log.get snap.index = some e)
    (hlo : ∀ i < lo, c.log.get i = none) :
    Core.Follows { c with
        snapshot := c.snapshot.create snap, log := c.log.deleteRange lo snap.index,
        commitIndex := snap.index, applyIndex := snap.index }
      (log.take snap.index ++ l.drop snap.index) log := by
  obtain ⟨-, hlen⟩ := h.carries.get_le he
  have htake : (log.take snap.index).length = snap.index := by
    rw [length_take]
    exact min_eq_left hle
  have hlow {i : ℕ} (hi : i < snap.index) :
      (log.take snap.index ++ l.drop snap.index)[i]? = log[i]? := by
    rw [getElem?_append_left (by omega), getElem?_take_of_lt hi]
  have hhigh {i : ℕ} (hi : snap.index ≤ i) :
      (log.take snap.index ++ l.drop snap.index)[i]? = l[i]? := by
    rw [getElem?_append_right (by omega), htake, getElem?_drop, Nat.add_sub_cancel' hi]
  have hlast : (log.take snap.index ++ l.drop snap.index).length = l.length := by
    rw [length_append, htake, length_drop]
    omega
  have hshare : Shares (log.take snap.index ++ l.drop snap.index) log snap.index :=
    ⟨hle, prefix_append _ _⟩
  refine ⟨⟨fun i x hx ↦ ?_, fun x hx ↦ ?_, h.carries.lastIndex.trans hlast.symm, fun i x hx ↦ ?_,
    fun i hi hle' ↦ ?_⟩, within_create h.within hle, fun i a b ha hb hab ↦ ?_, hshare⟩
  · rcases lt_or_ge i snap.index with hi | hi
    · exact hlog i x (hlow hi ▸ hx)
    · exact h.carries.indexed i x (hhigh hi ▸ hx)
  · rcases mem_append.mp hx with hx | hx
    · exact hpos x (mem_of_mem_take hx)
    · exact h.carries.positive x (mem_of_mem_drop hx)
  · -- what is left of the store lies above the snapshot
    rw [show (c.log.deleteRange lo snap.index).get i = _ from get_deleteRange ..] at hx
    split at hx
    · cases hx
    · have hi : ¬ i < lo := fun hi ↦ by cases (hlo i hi).symm.trans hx
      rw [hhigh (by omega)]
      exact h.carries.stored i x hx
  · have hi' : ((c.snapshot.create snap).latest.map Snapshot.index).getD 0 < i := hi
    rw [c.snapshot.latestIndex_create, max_lt_iff] at hi'
    change ((c.log.deleteRange lo snap.index).get i).isSome = true
    rw [get_deleteRange, if_neg (by omega)]
    exact h.carries.above i hi'.1 (hlast ▸ hle')
  · rcases lt_or_ge i snap.index with hi | hi
    · exact hshare.mono hi
    · have hold := h.matching i a b (hhigh hi ▸ ha) hb hab
      have hsame : log.take snap.index ++ l.drop snap.index = l := by
        rw [← (hold.mono (by omega : snap.index ≤ i + 1)).take_eq, take_append_drop]
      rw [hsame]
      exact hold

theorem follows_install_over {c : Core} {store : LogStore} (h : c.Follows l log)
    (hlog : Indexed log) (hpos : ∀ e ∈ log, 0 < e.term) (hle : snap.index ≤ log.length)
    (hnone : ∀ i, store.get i = none) :
    Core.Follows { c with
        snapshot := c.snapshot.create snap, log := store, lastIndex := snap.index,
        lastTerm := snap.term, commitIndex := snap.index, applyIndex := snap.index }
      (log.take snap.index) log := by
  refine ⟨⟨fun i e he ↦ ?_, fun e he ↦ hpos e (mem_of_mem_take he), ?_, fun i e he ↦ ?_,
    fun i hi hi' ↦ ?_⟩, within_create h.within hle, .of_initial (List.take_prefix _ _), ?_⟩
  · rw [getElem?_take] at he
    split at he
    · exact hlog i e he
    · cases he
  · rw [length_take]
    exact (min_eq_left hle).symm
  · cases (hnone i).symm.trans he
  · have hsnap : ((c.snapshot.create snap).latest.map Snapshot.index).getD 0 < i := hi
    rw [c.snapshot.latestIndex_create, max_lt_iff] at hsnap
    rw [length_take] at hi'
    omega
  · exact ⟨hle, prefix_rfl⟩

theorem follows_catchUp (h : r.core.Follows l log) (t : ℕ) : (r.catchUp t).core.Follows l log := by
  obtain ⟨_, _, _, _, _, _, hcore⟩ := r.catchUp_frame t
  rw [hcore]
  exact { h with carries := h.carries.keep rfl rfl rfl }

/-- A chunk of a snapshot of the leader. Once the last one is handled, the follower shares the
leader's log up to the snapshot. -/
theorem follows_handleInstallSnapshot {req : InstallSnapshotRequest} (h : r.core.Follows l log)
    (hlog : Indexed log) (hpos : ∀ e ∈ log, 0 < e.term) (hreq : req.lastIncludedIndex ≤ log.length)
    (hc : r.completes F req = true) (rnd : ℕ) :
    ∃ l', (r.handleInstallSnapshot F req rnd).1.core.Follows l' log ∧ NewWithin log l l' ∧
      (∀ i, i < l'.length → (r.handleInstallSnapshot F req rnd).1.log.get (i + 1) = none →
        (if (r.installs req).isSome then
          log.take req.lastIncludedIndex ++ l.drop req.lastIncludedIndex else l)[i]? = l'[i]?) ∧
      (req.done = true → r.term ≤ req.term → Shares l' log req.lastIncludedIndex) := by
  rcases handleInstallSnapshot_installs F r req rnd with
    ⟨hn, r₀, hr₀, hcore, -⟩ | ⟨data, r₁, hd, hr₁, -, hr⟩
  · rw [hn]
    have hf : (r.handleInstallSnapshot F req rnd).1.core.Follows l log := by
      rw [hcore]
      rcases hr₀ with rfl | rfl
      · exact h
      · exact follows_catchUp h req.term
    refine ⟨l, hf, .refl log l, fun _ _ _ ↦ rfl, fun hdone hle ↦ ?_⟩
    have hk : req.lastIncludedIndex ≤ r.commitIndex := by
      unfold completes at hc
      simpa [hn, hdone, hle.not_gt] using hc
    exact h.commit.mono hk
  · have hF : (F.restore data).isSome = true := by
      obtain ⟨hle, hdone, hk⟩ := r.of_installs hd
      unfold completes at hc
      simpa [hd, hdone, hle.not_gt, hk.not_ge] using hc
    have h₁ : r₁.core.Follows l log := by
      rw [hr₁]
      exact follows_catchUp h req.term
    obtain ⟨snap, hs⟩ : ∃ snap : Snapshot,
        snap = ⟨req.lastIncludedIndex, req.lastIncludedTerm, r₁.configuration, data⟩ := ⟨_, rfl⟩
    have hidx : req.lastIncludedIndex = snap.index := by rw [hs]
    rw [hidx] at hreq
    rw [hd, hr, hidx, if_pos (show (some data).isSome = true from rfl)]
    have htake : (log.take snap.index).length = snap.index := by
      rw [length_take]
      exact min_eq_left hreq
    have hin (e : LogEntry) (he : r₁.log.get req.lastIncludedIndex = some e) :
        req.lastIncludedIndex ≤ r₁.lastIndex :=
      (h₁.carries.get_le he).2.trans_eq h₁.carries.lastIndex.symm
    rcases core_installSnapshot hF hin hs with ⟨e, lo, he, -, hlo, hcore⟩ | hcore
    · have hf := follows_install_inside h₁ hlog hpos hreq he hlo
      refine ⟨_, hcore ▸ hf, fun i hi ↦ .inr ?_, fun _ _ _ ↦ rfl, fun _ _ ↦ hf.commit⟩
      rw [getElem?_append_right (by omega), htake, getElem?_drop,
        Nat.add_sub_cancel' (by omega)]
    · have hf := follows_install_over h₁ hlog hpos hreq r₁.log.get_discarded
      refine ⟨_, hcore ▸ hf, NewWithin.of_initial (List.take_prefix _ _),
        fun i hi _ ↦ getElem?_append_left hi, fun _ _ ↦ hf.commit⟩

end Raft

end RaftConsensus
