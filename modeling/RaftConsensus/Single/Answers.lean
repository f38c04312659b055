import RaftConsensus.Single.Futures

namespace RaftConsensus

open List AList

variable {σ : Type} {F : FSM σ} {inp : Input} {c c' : Core} {out : List Effect}
  {asked answered : List ℕ} {futures rest : AList (fun _ : ℕ ↦ ℕ)}

/-- Every future waits for one entry only, and for none after its answer. -/
structure Once (asked answered : List ℕ) (futures : AList (fun _ : ℕ ↦ ℕ)) : Prop where
  nodup : answered.Nodup
  distinct : ∀ i j f, futures.lookup i = some f → futures.lookup j = some f → i = j
  fresh : ∀ i f, futures.lookup i = some f → f ∉ answered
  pending : ∀ i f, futures.lookup i = some f → f ∈ asked
  known : ∀ f ∈ answered, f ∈ asked

namespace Once

theorem answer (h : Once asked answered futures) {l : List ℕ} (hl : l.Nodup)
    (hmem : ∀ f ∈ l, ∃ i, futures.lookup i = some f ∧ rest.lookup i = none)
    (hsub : ∀ i f, rest.lookup i = some f → futures.lookup i = some f) :
    Once asked (answered ++ l) rest where
  nodup := by
    refine nodup_append'.mpr ⟨h.nodup, hl, fun f hf hf' ↦ ?_⟩
    obtain ⟨i, hi, -⟩ := hmem f hf'
    exact h.fresh i f hi hf
  distinct i j f hi hj := h.distinct i j f (hsub i f hi) (hsub j f hj)
  fresh i f hi hf := by
    rcases mem_append.mp hf with hf | hf
    · exact h.fresh i f (hsub i f hi) hf
    · obtain ⟨j, hj, hnone⟩ := hmem f hf
      rw [← h.distinct i j f (hsub i f hi) hj, hi] at hnone
      cases hnone
  pending i f hi := h.pending i f (hsub i f hi)
  known f hf := by
    rcases mem_append.mp hf with hf | hf
    · exact h.known f hf
    · obtain ⟨i, hi, -⟩ := hmem f hf
      exact h.pending i f hi

theorem nodup_entries (h : Once asked answered futures) {l : List (Σ _ : ℕ, ℕ)}
    (hl : l.Sublist futures.entries) : (l.map Sigma.snd).Nodup := by
  refine List.Nodup.map_on (fun x hx y hy hxy ↦ ?_) (futures.nodupKeys.nodup.sublist hl)
  have hx' : futures.lookup x.1 = some x.2 := mem_lookup_iff.mpr (hl.subset hx)
  have hy' : futures.lookup y.1 = some y.2 := mem_lookup_iff.mpr (hl.subset hy)
  rw [← hxy] at hy'
  exact Sigma.ext (h.distinct x.1 y.1 x.2 hx' hy') (heq_of_eq hxy)

end Once

def noProposal : Warrant :=
  { keepingCommit.open with
    refuse := fun _ ↦ False
    issue := fun _ _ ↦ False }

namespace Once

theorem move (h : Once asked answered c.pendingFutures) (hp : Paced c)
    (hm : Move withoutRestore noProposal inp c out c') :
    Once asked (answered ++ (answersOf out).map Answer.future) c'.pendingFutures := by
  have hs := hm.settles
  generalize answersOf out = answers, c'.pendingFutures = futures at hs
  cases hs with
  | keep => simpa using h
  | issue e future hi hL => exact hL.elim
  | refuse future err hL => exact hL.elim
  | fail =>
    rw [map_map]
    refine h.answer (h.nodup_entries filter_sublist) (fun f hf ↦ ?_) fun i f hf ↦ ?_
    · obtain ⟨x, hx, rfl⟩ := mem_map.mp hf
      obtain ⟨hmem, hlt⟩ := mem_filter.mp hx
      refine ⟨x.1, mem_lookup_iff.mpr hmem, ?_⟩
      rw [lookup_settle, if_pos (of_decide_eq_true hlt)]
    · rw [lookup_settle] at hf
      split at hf
      · cases hf
      · exact hf
  | resolve drain k e result future hr hf =>
    refine h.answer (nodup_singleton future) (fun f hmem ↦ ?_) fun i f hi ↦ ?_
    · cases mem_singleton.mp hmem
      exact ⟨e.index, hf, lookup_erase _ _⟩
    · by_cases hie : i = e.index
      · subst hie
        rw [lookup_erase] at hi
        cases hi
      · rwa [lookup_erase_ne hie] at hi
  | drain hL =>
    have hmap : (c.pendingFutures.entries.map fun f ↦ if f.1 ≤ c.commitIndex then
          (⟨f.2, none, f.1, ((c.log.get f.1).map LogEntry.term).getD 0, []⟩ : Answer)
        else ⟨f.2, some .notStarted, 0, 0, []⟩).map Answer.future =
        c.pendingFutures.entries.map Sigma.snd := by
      rw [map_map]
      refine map_congr_left fun f _ ↦ ?_
      simp only [Function.comp_apply]
      split <;> rfl
    rw [hmap]
    refine h.answer (h.nodup_entries (List.Sublist.refl _)) (fun f hf ↦ ?_) nofun
    obtain ⟨x, hx, rfl⟩ := mem_map.mp hf
    exact ⟨x.1, mem_lookup_iff.mpr hx, rfl⟩
  | restore future hr => exact absurd hr (hp.calm future)

theorem path (h : Once asked answered c.pendingFutures) (hp : Paced c) (hst : c.started = true)
    (hpath : Path withoutRestore noProposal inp c out c') :
    Once asked (answered ++ (answersOf out).map Answer.future) c'.pendingFutures := by
  induction hpath with
  | refl => simpa [answersOf] using h
  | tail hpath hm ih =>
    have hpaced := (hp.path (fun _ _ ↦ id) rfl hst hpath).2
    rw [answersOf, filterMap_append, map_append, ← append_assoc]
    exact ih.move hpaced hm

end Once

namespace Raft

variable (r : Raft σ)

theorem answersOf_failAll (err : RaftError) (batch : List (ℕ × Bytes)) :
    answersOf (r.failAll err batch).outbox =
      answersOf r.outbox ++ batch.map fun p ↦ ⟨p.1, some err, 0, 0, []⟩ := by
  unfold failAll
  induction batch generalizing r with
  | nil => simp
  | cons p rest ih =>
    rw [foldl_cons, ih]
    simp [respond, emit, answersOf, Effect.answer?]

theorem sendHeartbeat_futures : r.sendHeartbeat.outbox = r.outbox ∧
    r.sendHeartbeat.pendingFutures = r.pendingFutures := by
  unfold sendHeartbeat
  generalize r.electorate.allServers = servers
  induction servers generalizing r with
  | nil => exact ⟨rfl, rfl⟩
  | cons s rest ih =>
    rw [foldl_cons]
    refine (ih _).imp (fun h ↦ h.trans ?_) fun h ↦ h.trans ?_
    · unfold spawnReplication
      split_ifs <;> rfl
    · unfold spawnReplication
      split_ifs <;> rfl

theorem handleProposal_futures (batch : List (ℕ × Bytes)) : ∃ n err,
    answersOf (r.handleProposal batch).outbox =
        answersOf r.outbox ++ (batch.drop n).map (fun p ↦ ⟨p.1, some err, 0, 0, []⟩) ∧
      (r.handleProposal batch).pendingFutures =
        ((proposalEntries r.term (r.lastIndex + 1) (batch.take n)).zip (batch.take n)).foldl
          (fun fs (p : LogEntry × ℕ × Bytes) ↦ fs.insert p.1.index p.2.1) r.pendingFutures := by
  have hall (err : RaftError) : answersOf (r.failAll err batch).outbox =
        answersOf r.outbox ++ (batch.drop 0).map (fun p ↦ ⟨p.1, some err, 0, 0, []⟩) ∧
      (r.failAll err batch).pendingFutures =
        ((proposalEntries r.term (r.lastIndex + 1) (batch.take 0)).zip (batch.take 0)).foldl
          (fun fs (p : LogEntry × ℕ × Bytes) ↦ fs.insert p.1.index p.2.1) r.pendingFutures :=
    ⟨r.answersOf_failAll err batch, congrArg Core.pendingFutures (r.core_failAll err batch)⟩
  unfold handleProposal
  dsimp only
  split
  · exact ⟨0, _, hall _⟩
  split
  · exact ⟨0, _, hall _⟩
  refine ⟨r.pendingFutureCap - r.pendingFutures.keys.length, .nodeBusy, ?_⟩
  generalize r.pendingFutureCap - r.pendingFutures.keys.length = n
  have hcore := r.core_failAll .nodeBusy (batch.drop n)
  have hout := r.answersOf_failAll .nodeBusy (batch.drop n)
  generalize r.failAll .nodeBusy (batch.drop n) = r₁ at hcore hout
  have hterm : r₁.term = r.term := congrArg Core.term hcore
  have hlast : r₁.lastIndex = r.lastIndex := congrArg Core.lastIndex hcore
  have hfut : r₁.pendingFutures = r.pendingFutures := congrArg Core.pendingFutures hcore
  split
  · rename_i hnil
    rw [hnil]
    exact ⟨hout, hfut⟩
  rw [hterm, hlast]
  have hspec := (proposalEntries_spec r.term (r.lastIndex + 1) (batch.take n)).1
  generalize proposalEntries r.term (r.lastIndex + 1) (batch.take n) = entries at hspec
  split
  · rename_i hnone
    rw [persistLog, hlast, if_pos hspec] at hnone
    cases hnone
  · rename_i r₂ hr₂
    obtain ⟨-, rfl⟩ := r₁.persistLog_some hr₂
    have hfut₂ : (entries.foldl appendEntry r₁).pendingFutures = r.pendingFutures := by
      obtain ⟨log, lastIndex, lastTerm, hframe⟩ := foldl_append_frame entries r₁.core
      rw [← core_foldl_appendEntry] at hframe
      exact (congrArg Core.pendingFutures hframe).trans hfut
    have hout₂ : answersOf (entries.foldl appendEntry r₁).outbox = _ :=
      (congrArg answersOf (outbox_foldl_appendEntry _ entries)).trans hout
    rw [hfut₂]
    split
    · exact ⟨hout₂, rfl⟩
    · refine ⟨(congrArg answersOf (sendHeartbeat_futures _).1).trans hout₂, ?_⟩
      exact (sendHeartbeat_futures _).2

end Raft

theorem lookup_foldl_insert {l : List (LogEntry × ℕ × Bytes)} {i f : ℕ}
    (h : (l.foldl (fun fs (p : LogEntry × ℕ × Bytes) ↦ fs.insert p.1.index p.2.1)
      futures).lookup i = some f) : (∃ x ∈ l, x.1.index = i ∧ x.2.1 = f) ∨
      futures.lookup i = some f := by
  induction l generalizing futures with
  | nil => exact .inr h
  | cons x l ih =>
    rcases ih h with ⟨y, hy, hyi⟩ | hold
    · exact .inl ⟨y, mem_cons_of_mem x hy, hyi⟩
    · by_cases hi : i = x.1.index
      · subst hi
        rw [lookup_insert] at hold
        exact .inl ⟨x, mem_cons_self, rfl, Option.some.inj hold⟩
      · rw [lookup_insert_ne hi] at hold
        exact .inr hold

theorem Once.propose (h : Once asked answered futures) {batch : List (ℕ × Bytes)} {term last n : ℕ}
    (hnd : (batch.map Prod.fst).Nodup) (hnew : ∀ f ∈ batch.map Prod.fst, f ∉ asked) :
    Once (asked ++ batch.map Prod.fst) (answered ++ (batch.drop n).map Prod.fst)
      (((Raft.proposalEntries term (last + 1) (batch.take n)).zip (batch.take n)).foldl
        (fun fs (p : LogEntry × ℕ × Bytes) ↦ fs.insert p.1.index p.2.1) futures) := by
  have hcut : (batch.take n).map Prod.fst ++ (batch.drop n).map Prod.fst = batch.map Prod.fst := by
    rw [← map_append, take_append_drop]
  obtain ⟨htake, hdrop, hdisj⟩ := nodup_append'.mp (hcut ▸ hnd)
  have hcases (i f : ℕ)
      (hf : (((Raft.proposalEntries term (last + 1) (batch.take n)).zip (batch.take n)).foldl
        (fun fs (p : LogEntry × ℕ × Bytes) ↦ fs.insert p.1.index p.2.1) futures).lookup
        i = some f) :
      (∃ j, ((batch.take n).map Prod.fst)[j]? = some f ∧ i = last + 1 + j) ∨
        futures.lookup i = some f := by
    refine (lookup_foldl_insert hf).imp_left fun ⟨x, hx, hi, hxf⟩ ↦ ?_
    obtain ⟨j, hj, he⟩ := Raft.zip_proposalEntries (p := x.2) hx
    refine ⟨j, ?_, ?_⟩
    · rw [getElem?_map, hj, ← hxf]
      rfl
    · rw [← hi, he]
  have hpart (f : ℕ) (hf : f ∈ (batch.take n).map Prod.fst) : f ∈ batch.map Prod.fst := by
    rw [← hcut]
    exact mem_append_left _ hf
  have hpart' (f : ℕ) (hf : f ∈ (batch.drop n).map Prod.fst) : f ∈ batch.map Prod.fst := by
    rw [← hcut]
    exact mem_append_right _ hf
  refine ⟨?_, fun i j f hi hj ↦ ?_, fun i f hi hans ↦ ?_, fun i f hi ↦ ?_, fun f hf ↦ ?_⟩
  · exact nodup_append'.mpr ⟨h.nodup, hdrop, fun f hf hf' ↦ hnew f (hpart' f hf') (h.known f hf)⟩
  · rcases hcases i f hi with ⟨a, ha, rfl⟩ | hi <;> rcases hcases j f hj with ⟨b, hb, rfl⟩ | hj
    · rw [(getElem?_inj (List.getElem?_eq_some_iff.mp ha).1 htake).mp (ha.trans hb.symm)]
    · exact absurd (h.pending j f hj) (hnew f (hpart f (mem_of_getElem? ha)))
    · exact absurd (h.pending i f hi) (hnew f (hpart f (mem_of_getElem? hb)))
    · exact h.distinct i j f hi hj
  · rcases hcases i f hi with ⟨a, ha, -⟩ | hi <;> rcases mem_append.mp hans with hans | hans
    · exact hnew f (hpart f (mem_of_getElem? ha)) (h.known f hans)
    · exact hdisj (mem_of_getElem? ha) hans
    · exact h.fresh i f hi hans
    · exact hnew f (hpart' f hans) (h.pending i f hi)
  · rcases hcases i f hi with ⟨a, ha, -⟩ | hi
    · exact mem_append_right _ (hpart f (mem_of_getElem? ha))
    · exact mem_append_left _ (h.pending i f hi)
  · rcases mem_append.mp hf with hf | hf
    · exact mem_append_left _ (h.known f hf)
    · exact mem_append_right _ (hpart' f hf)

namespace Raft

def settled (r : Raft σ) : Bool := r.pendingFutures.keys.all (· ≤ r.commitIndex)

/-- Besides `keepsCommit`: entries or a snapshot of the node's own term come only when no future
waits for an uncommitted entry, and the futures are drained only when none waits for a
committed one. -/
def keepsFutures (r : Raft σ) (s : Stimulus) : Bool :=
  r.keepsCommit s && match s with
    | .request (.appendEntries req) _ => req.term ≠ r.term || r.settled
    | .request (.installSnapshot req) _ => req.term ≠ r.term || r.settled
    | .op (.runStep _) => r.run ≠ .drainFutures || r.pendingFutures.keys.all (r.commitIndex < ·)
    | _ => true

variable {r r' : Raft σ} {s : Stimulus}

theorem settled_core (h : r.settled = true) : r.core.Settled := by
  intro i hi
  exact of_decide_eq_true (all_eq_true.mp h i hi)

theorem settled_of_heard (hc : r.keepsFutures s = true) {req : Request} {t : ℕ}
    (hi : s.input = .request req) (hreq : req.fromLeader = true) (hb : s.input.Brings t)
    (hh : r.core.Heard t c') : c'.Settled := by
  obtain ⟨hk, ⟨-, -, hset⟩ | ⟨ht, hfut, -⟩⟩ := hh
  · exact hset
  · have hset : r.settled = true := by
      have hc := (Bool.and_eq_true_iff.mp hc).2
      cases s with
      | request req' rnd =>
        cases hi
        cases req with
        | appendEntries req | installSnapshot req =>
          have hterm : req.term = r.term := hb.trans ht.symm
          simpa [hterm] using hc
        | _ => cases hreq
      | op o => cases o <;> cases hi
      | reply => cases hi
      | failed => cases hi
    intro i hi
    rw [hfut] at hi
    rw [hk]
    exact settled_core hset i hi

theorem mem_issues {batch : List (ℕ × Bytes)} {i : ℕ} {p : ℕ × Bytes}
    (h : (r.accepted batch)[i]? = some p) :
    (p.1, (⟨r.term, r.lastIndex + 1 + i, .normal p.2⟩ : LogEntry)) ∈
      r.issues (.op (.propose batch)) := by
  refine mem_map.mpr ⟨(⟨r.term, r.lastIndex + 1 + i, .normal p.2⟩, p), ?_, rfl⟩
  generalize r.accepted batch = l at h
  generalize r.lastIndex + 1 = idx
  induction l generalizing idx i with
  | nil => cases h
  | cons q rest ih =>
    cases i with
    | zero =>
      cases h
      exact mem_cons_self
    | succ i =>
      have hrest := @ih i h (idx + 1)
      rw [Nat.add_assoc, Nat.add_comm 1 i] at hrest
      exact mem_cons_of_mem _ hrest

theorem issues_normal {future : ℕ} {e : LogEntry} (h : (future, e) ∈ r.issues s) :
    ∃ data, e.payload = .normal data := by
  cases s with
  | op o =>
    cases o with
    | propose batch =>
      obtain ⟨x, hx, heq⟩ := mem_map.mp h
      cases heq
      exact ((proposalEntries_spec r.term (r.lastIndex + 1) _).2 x.1 (of_mem_zip hx).1).2
    | _ => cases h
  | _ => cases h

theorem mem_committed {e : LogEntry} (h : r.log.get e.index = some e)
    (hk : e.index ≤ r.commitIndex) :
    e ∈ r.committed :=
  mem_filter.mpr ⟨LogStore.get_mem h, decide_eq_true ⟨h, hk⟩⟩

/-- A step that meets the condition is made of moves that its books vouch for. -/
theorem does_books (b : Books) (hc : r.keepsFutures s = true) (hw : s.Contiguous)
    (hp : Paced r.core) (ht : r.take F s = some r') :
    Does withoutRestore (b.after F r s r').warrant s.input r r' := by
  have hk := (Bool.and_eq_true_iff.mp hc).1
  refine does_take (keepsCommit_allowed hk) hw (covers_keepingCommit hk) ?_ (fun o ho ↦ ?_) ht
  · exact ⟨trivial, fun _ _ ↦ ⟨trivial, trivial⟩,
      fun req hi t c' hb hh hreq ↦ settled_of_heard hc hi hreq hb hh⟩
  · refine ⟨fun _ _ ↦ trivial, fun _ _ _ _ ↦ trivial, fun batch hb i p hi ↦ ?_, fun _ _ _ ↦ trivial,
      fun rnd drain k a e hrun hr ha he ↦ ?_, fun rnd drain k e data hrun hr hd hne ↦ ?_,
      fun rnd hrun hr ↦ ?_⟩
    · subst ho hb
      exact mem_append_right _ (mem_issues hi)
    · have hidx := LogStore.get_index he
      have hle : k ≤ r.commitIndex := hp.copy k (by rw [show r.core.run = _ from hr]; rfl)
      exact mem_append_right _ (mem_committed (hidx ▸ he) (by omega))
    · subst ho hrun
      refine mem_append_right _ ?_
      simp [returns, hr, hd, hne]
    · subst ho hrun
      have hall := (Bool.and_eq_true_iff.mp hc).2
      simp only [hr, ne_eq, not_true_eq_false, decide_false, Bool.false_or, all_eq_true,
        decide_eq_true_eq] at hall
      exact hall

theorem does_noProposal (hk : r.keepsCommit s = true) (hw : s.Contiguous)
    (hs : ∀ batch, s ≠ .op (.propose batch)) (ht : r.take F s = some r') :
    Does withoutRestore noProposal s.input r r' := by
  refine does_take (keepsCommit_allowed hk) hw (covers_keepingCommit hk) ?_ (fun o ho ↦ ?_) ht
  · exact ⟨trivial, fun _ _ ↦ ⟨trivial, trivial⟩, fun _ _ _ _ _ _ ↦ trivial⟩
  · refine ⟨fun _ _ ↦ trivial, fun batch hb ↦ absurd (ho.trans (congrArg _ hb)) (hs batch),
      fun batch hb ↦ absurd (ho.trans (congrArg _ hb)) (hs batch), fun future data hb ↦ ?_,
      fun _ _ _ _ _ _ _ _ _ ↦ trivial, fun _ _ _ _ _ _ _ _ _ ↦ trivial, fun _ _ _ ↦ trivial⟩
    subst ho hb
    cases hk

end Raft

namespace Books

variable {b : Books} {r r' : Raft σ} {s : Stimulus}

structure Sound (b : Books) (r : Raft σ) : Prop where
  started : r.started = true
  outbox : r.outbox = []
  paced : Paced r.core
  explains : b.Explains r.core
  once : Once b.asked (b.answers.map Answer.future) r.pendingFutures
  truthful : ∀ a ∈ b.answers, a.err = none → b.Truthful a

theorem Truthful.after {a : Answer} (h : b.Truthful a) : (b.after F r s r').Truthful a := by
  obtain ⟨e, hi, hidx, ht, hc, hres⟩ := h
  exact ⟨e, mem_append_left _ hi, hidx, ht, mem_append_left _ hc,
    hres.imp_right (mem_append_left _)⟩

theorem Explains.after (h : b.Explains c) : (b.after F r s r').Explains c where
  normal future e he := by
    rcases mem_append.mp he with he | he
    · exact h.normal future e he
    · exact Raft.issues_normal he
  pending i future hf := by
    obtain ⟨hle, e, he, hx⟩ := h.pending i future hf
    exact ⟨hle, e, mem_append_left _ he, hx⟩
  entry e future he hf := mem_append_left _ (h.entry e future he hf)
  read e he := mem_append_left _ (h.read e he)
  result drain k e result data hr hp := (h.result drain k e result data hr hp).imp_right
    (mem_append_left _)
  joint := h.joint

theorem Sound.once_after (h : b.Sound r) (hc : r.keepsFutures s = true) (hw : s.Contiguous)
    (hf : b.Fresh s) (ht : r.take F s = some r') : Once (b.asked ++ s.asks)
      (b.answers.map Answer.future ++ (answersOf r'.outbox).map Answer.future)
      r'.pendingFutures := by
  by_cases hs : ∃ batch, s = .op (.propose batch)
  · obtain ⟨batch, rfl⟩ := hs
    have hexec : r.exec F (.propose batch) = some r' := ht
    simp only [Raft.exec, Raft.selected] at hexec
    split at hexec
    · split at hexec
      · cases hexec
        obtain ⟨n, err, hout, hfut⟩ := r.handleProposal_futures batch
        have hans : (answersOf (r.handleProposal batch).outbox).map Answer.future =
            (batch.drop n).map Prod.fst := by
          rw [hout, h.outbox, map_append, map_map]
          rfl
        change Once (b.asked ++ batch.map Prod.fst)
          (_ ++ (answersOf (r.handleProposal batch).outbox).map Answer.future)
          (r.handleProposal batch).pendingFutures
        rw [hans, hfut]
        exact h.once.propose hf.1 hf.2
      · cases hexec
    · cases hexec
  · have hs (batch : List (ℕ × Bytes)) (heq : s = .op (.propose batch)) : False := hs ⟨batch, heq⟩
    have hasks : s.asks = [] := by
      cases s with
      | op o =>
        cases o with
        | propose batch => exact (hs batch rfl).elim
        | _ => rfl
      | _ => rfl
    obtain ⟨out, hout, hpath⟩ :=
      (Raft.does_noProposal (Bool.and_eq_true_iff.mp hc).1 hw hs ht).path
    rw [h.outbox, nil_append] at hout
    rw [hasks, append_nil, hout]
    exact h.once.path h.paced h.started hpath

theorem Sound.step (h : b.Sound r) (hc : r.keepsFutures s = true) (hw : s.Contiguous)
    (hf : b.Fresh s) (ht : r.take F s = some r') : (b.after F r s r').Sound r'.rest := by
  obtain ⟨out, hout, hpath⟩ := (Raft.does_books b hc hw h.paced ht).path
  rw [h.outbox, nil_append] at hout
  have hafter : (b.after F r s r').Explains r.core := h.explains.after
  obtain ⟨hexp, htrue⟩ := hafter.path h.paced h.started hpath
  have hst : r'.started = true := Raft.started_take hw ht h.started
  refine ⟨hst, rfl,
    (h.paced.path (fun _ _ ↦ id) rfl h.started hpath).2, hexp, ?_, fun a ha herr ↦ ?_⟩
  · rw [show (b.after F r s r').answers = b.answers ++ answersOf r'.outbox from rfl, map_append]
    exact h.once_after hc hw hf ht
  · rcases mem_append.mp ha with ha | ha
    · exact (h.truthful a ha herr).after
    · exact htrue a (hout ▸ ha) herr

theorem Sound.start {cfg : Config} {n : ServerID} {d : Disk} (h : Raft.newRaft F cfg n d = some r)
    (rnd : ℕ) : empty.Sound (r.start rnd).rest := by
  obtain ⟨hst, hp, -⟩ := Raft.paced_start h rnd
  obtain ⟨cfg', -, rfl⟩ := Option.map_eq_some_iff.mp h
  obtain ⟨lastTerm, hcore, -⟩ := (Raft.new cfg' n d F.init).start_spec rnd rfl
  refine ⟨hst, rfl, hp, ?_, ?_, nofun⟩
  · rw [show ((Raft.new cfg' n d F.init).start rnd).rest.core = _ from hcore]
    exact ⟨nofun, nofun, nofun, nofun, nofun, nofun⟩
  · rw [show ((Raft.new cfg' n d F.init).start rnd).rest.pendingFutures = _ from
      congrArg Core.pendingFutures hcore]
    exact ⟨nodup_nil, nofun, nofun, nofun, nofun⟩

/-- In a run of a started node whose steps all meet the condition, every future that is
resolved without an error has its own entry committed and the result of it, and no future is
resolved twice. -/
theorem futures_truthful {cfg : Config} {n : ServerID} {d : Disk} {r₀ : Raft σ} {rnd : ℕ}
    (hnew : Raft.newRaft F cfg n d = some r₀)
    (h : Steps F (fun r s ↦ s.Contiguous ∧ r.keepsFutures s = true) ((r₀.start rnd).rest, empty)
      (r, b)) :
    (∀ a ∈ b.answers, a.err = none → b.Truthful a) ∧ (b.answers.map Answer.future).Nodup := by
  have hsound : ∀ x, Steps F (fun r s ↦ s.Contiguous ∧ r.keepsFutures s = true)
      ((r₀.start rnd).rest, empty) x → x.2.Sound x.1 := by
    intro x hx
    induction hx with
    | refl => exact Sound.start hnew rnd
    | tail _ hn ih =>
      obtain ⟨s, r', ⟨hw, hc⟩, hf, ht, rfl⟩ := hn
      exact ih.step hc hw hf ht
  exact ⟨(hsound _ h).truthful, (hsound _ h).once.nodup⟩

end Books

section Example

open Action (boot timeout turns)

def Books.checkedSteps (F : FSM σ) (cond : Raft σ → Stimulus → Bool) :
    Raft σ × Books → List Stimulus → Option (Raft σ × Books) :=
  Script.run <| Script.guarded
    (fun x s ↦ s.Contiguous ∧ cond x.1 s ∧ s.asks.Nodup ∧ ∀ f ∈ s.asks, f ∉ x.2.asked)
    fun x s ↦ (x.1.take F s).map fun r' ↦ (r'.rest, x.2.after F x.1 s r')

theorem Books.steps_of_checkedSteps {cond : Raft σ → Stimulus → Bool} {script : List Stimulus}
    {x y : Raft σ × Books} (h : checkedSteps F cond x script = some y) :
    Steps F (fun r s ↦ s.Contiguous ∧ cond r s = true) x y := by
  refine Script.reflTransGen (fun x s y hs ↦ ?_) h
  obtain ⟨hc, hs⟩ := Script.of_guarded hs
  obtain ⟨hcont, hcond, hfresh⟩ := of_decide_eq_true hc
  obtain ⟨r', ht, rfl⟩ := Option.map_eq_some_iff.mp hs
  exact ⟨s, r', ⟨hcont, hcond⟩, hfresh, ht, rfl⟩

/-- A node that is alone in its configuration elects itself, takes one proposal and applies it. -/
def proposeAlone : List Stimulus :=
  let tick := Stimulus.op (.tick 0 0 [])
  let turns (k : ℕ) := List.replicate k (Stimulus.op (.runStep 0))
  tick :: turns 3 ++ tick :: turns 3 ++ tick :: turns 6 ++ .op (.propose [(7, [1, 2])]) :: turns 6

theorem proposeAlone_checked :
    (Raft.newRaft .keeping (.least "A" (.ofVoters ["A"])) "A" .empty).bind (fun r ↦
      (Books.checkedSteps .keeping Raft.keepsFutures ((r.start 0).rest, .empty) proposeAlone).map
        fun x ↦ x.2.answers) = some [⟨7, none, 2, 1, []⟩] := by
  decide +kernel

theorem futures_truthful_proposeAlone : ∃ (r₀ r : Raft (List Bytes)) (b : Books),
    Raft.newRaft .keeping (.least "A" (.ofVoters ["A"])) "A" .empty = some r₀ ∧
      Books.Steps .keeping (fun r s ↦ s.Contiguous ∧ r.keepsFutures s = true)
        ((r₀.start 0).rest, .empty) (r, b) ∧
      b.answers = [⟨7, none, 2, 1, []⟩] ∧ b.Truthful ⟨7, none, 2, 1, []⟩ := by
  obtain ⟨r₀, hnew, h⟩ := Option.bind_eq_some_iff.mp proposeAlone_checked
  obtain ⟨⟨r, b⟩, hrun, hb⟩ := Option.map_eq_some_iff.mp h
  have hsteps := Books.steps_of_checkedSteps hrun
  have hb : b.answers = [⟨7, none, 2, 1, []⟩] := hb
  refine ⟨r₀, r, b, hnew, hsteps, hb, (Books.futures_truthful hnew hsteps).1 _ ?_ rfl⟩
  rw [hb]
  exact mem_singleton_self _

/-- B leads term 1 and asks A to take over; before this arrives A is elected for term 2 and
takes a proposal. -/
def takenOver : List Action :=
  boot "A" ++ boot "B" ++ boot "C" ++ timeout "B" 3 ++ [.deliver 0, .reply 0] ++ turns "B" 3 ++
    [.op "B" (.replicate "A"), .deliver 2, .reply 1, .op "B" (.replicate "C"), .deliver 3,
      .op "B" (.requestLeadership 0), .op "B" (.tick 0 0 ["A", "C"])] ++
    timeout "A" 3 ++ [.deliver 6, .reply 3] ++ turns "A" 3 ++ [.op "A" (.propose [(7, [0, 0])])]

/-- The late request makes A a candidate of term 3, but C wins that term, replaces A's entry
by one of its own and commits it. -/
def replaced : List Action :=
  .deliver 4 :: timeout "C" 6 ++ [.deliver 10, .reply 5] ++ turns "C" 3 ++
    [.op "C" (.propose [(8, [1, 1])]), .op "C" (.replicate "A"), .deliver 11, .reply 6,
      .op "C" (.replicate "A"), .deliver 12, .reply 7, .op "C" (.replicate "A")] ++ turns "C" 9 ++
    [.op "C" (.tick 0 0 ["A", "B"]), .op "C" (.replicate "A"), .deliver 13] ++ turns "A" 12

theorem takenOver_replaced :
    (World.init.steps threeVoters .keeping takenOver).bind (fun w ↦
      (w.steps threeVoters .keeping replaced).bind fun w' ↦
        (w.raft? "A").bind fun r ↦ (w'.raft? "A").map fun r' ↦
          (r.pendingFutures.lookup 3, r.log.get 3, r'.log.get 3, r'.commitIndex,
            decide (("A", .responded 7 none 3 3 []) ∈ w'.history))) =
      some (some 7, some ⟨2, 3, .normal [0, 0]⟩, some ⟨3, 3, .normal [1, 1]⟩, 3, true) := by
  decide +kernel

/-- Future 7 waits for A's entry of term 2 and is resolved without an error by C's of term 3. -/
theorem future_of_other_entry : ∃ (w w' : World (List Bytes)) (r r' : Raft (List Bytes)),
    World.Reach threeVoters .keeping (fun _ _ ↦ True) w ∧
      World.Steps threeVoters .keeping (fun _ _ ↦ True) w w' ∧ w.raft? "A" = some r ∧
      w'.raft? "A" = some r' ∧ r.pendingFutures.lookup 3 = some 7 ∧
      r.log.get 3 = some ⟨2, 3, .normal [0, 0]⟩ ∧ r'.log.get 3 = some ⟨3, 3, .normal [1, 1]⟩ ∧
      3 ≤ r'.commitIndex ∧ ("A", .responded 7 none 3 3 []) ∈ w'.history := by
  obtain ⟨w, hw, h⟩ := Option.bind_eq_some_iff.mp takenOver_replaced
  obtain ⟨w', hw', h⟩ := Option.bind_eq_some_iff.mp h
  obtain ⟨r, hr, h⟩ := Option.bind_eq_some_iff.mp h
  obtain ⟨r', hr', h⟩ := Option.map_eq_some_iff.mp h
  simp only [Prod.mk.injEq] at h
  obtain ⟨hf, hlog, hlog', hk, hh⟩ := h
  exact ⟨w, w', r, r', World.steps_of_steps hw, World.steps_of_steps hw', hr, hr', hf, hlog, hlog',
    hk.ge, of_decide_eq_true hh⟩

end Example

end RaftConsensus
