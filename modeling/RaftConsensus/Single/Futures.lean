import RaftConsensus.Single.Commit

namespace RaftConsensus

open List AList LogStore

variable {σ : Type} {F : FSM σ} {R : Rules} {L : Warrant} {inp : Input} {c c' : Core}
  {out : List Effect}

structure Answer where
  future : ℕ
  err : Option RaftError
  index : ℕ
  term : ℕ
  result : Bytes
deriving DecidableEq

def Effect.answer? : Effect → Option Answer
  | .note (.responded future err index term result) => some ⟨future, err, index, term, result⟩
  | _ => none

def answersOf (out : List Effect) : List Answer := out.filterMap Effect.answer?

/-- What has happened at a node: the futures handed in, the entries appended for some of them,
the entries its log has held up to its commit index, the results of the state machine and the
answers. -/
structure Books where
  asked : List ℕ
  issued : List (ℕ × LogEntry)
  committed : List LogEntry
  returned : List (LogEntry × ApplyResult)
  answers : List Answer

def Stimulus.asks : Stimulus → List ℕ
  | .op (.propose batch) => batch.map Prod.fst
  | _ => []

namespace Raft

variable (r : Raft σ)

def issues : Stimulus → List (ℕ × LogEntry)
  | .op (.propose batch) =>
    ((proposalEntries r.term (r.lastIndex + 1) (r.accepted batch)).zip (r.accepted batch)).map
      fun p ↦ (p.2.1, p.1)
  | _ => []

def committed : List LogEntry :=
  r.log.entries.filter fun e ↦ r.log.get e.index = some e ∧ e.index ≤ r.commitIndex

def returns (F : FSM σ) : Stimulus → List (LogEntry × ApplyResult)
  | .op (.runStep _) =>
    match r.run with
    | .applyEntry _ _ e =>
      match e.payload with
      | .normal data => if data = [] then [] else [(e, (F.apply r.fsm data).2)]
      | .configuration _ => []
    | _ => []
  | _ => []

end Raft

namespace Books

def empty : Books := ⟨[], [], [], [], []⟩

def after (b : Books) (F : FSM σ) (r : Raft σ) (s : Stimulus) (r' : Raft σ) : Books where
  asked := b.asked ++ s.asks
  issued := b.issued ++ r.issues s
  committed := b.committed ++ r.committed
  returned := b.returned ++ r.returns F s
  answers := b.answers ++ answersOf r'.outbox

def Fresh (b : Books) (s : Stimulus) : Prop := s.asks.Nodup ∧ ∀ f ∈ s.asks, f ∉ b.asked

/-- One step of a node alone that meets `P`, with the books that are kept of it. -/
def Next (F : FSM σ) (P : Raft σ → Stimulus → Prop) (x y : Raft σ × Books) : Prop :=
  ∃ s r', P x.1 s ∧ x.2.Fresh s ∧ x.1.take F s = some r' ∧ y = (r'.rest, x.2.after F x.1 s r')

def Steps (F : FSM σ) (P : Raft σ → Stimulus → Prop) : Raft σ × Books → Raft σ × Books → Prop :=
  Relation.ReflTransGen (Next F P)

/-- The entry that was appended for the future has been committed with the index and the term
of the answer, and the result is the one that the state machine returned for it; an empty
command does not reach the state machine. -/
def Truthful (b : Books) (a : Answer) : Prop :=
  ∃ e, (a.future, e) ∈ b.issued ∧ e.index = a.index ∧ e.term = a.term ∧ e ∈ b.committed ∧
    (e.payload = .normal [] ∧ a.result = [] ∨ (e, .ok a.result) ∈ b.returned)

def warrant (b : Books) : Warrant :=
  { keepingCommit.open with
    obey := fun c req ↦ req.fromLeader = true → c.Settled
    drain := fun c ↦ ∀ i ∈ c.pendingFutures, c.commitIndex < i
    issue := fun future e ↦ (future, e) ∈ b.issued
    reads := fun e ↦ e ∈ b.committed
    returns := fun e result ↦ (e, result) ∈ b.returned }

end Books

inductive Settles (L : Warrant) (c : Core) : List Answer → AList (fun _ : ℕ ↦ ℕ) → Prop
  | keep : Settles L c [] c.pendingFutures
  | issue (e : LogEntry) (future : ℕ) (hi : e.index = c.lastIndex + 1) (hL : L.issue future e) :
      Settles L c [] (c.pendingFutures.insert e.index future)
  | refuse (future : ℕ) (err : RaftError) (hL : L.refuse future) :
      Settles L c [⟨future, some err, 0, 0, []⟩] c.pendingFutures
  | fail : Settles L c ((overdue c.commitIndex c.pendingFutures).map fun f ↦
        ⟨f.2, some .leadershipLost, 0, 0, []⟩) (settle c.commitIndex c.pendingFutures)
  | resolve (drain : Bool) (k : ℕ) (e : LogEntry) (result : ApplyResult) (future : ℕ)
      (h : c.run = .applyDone drain k e result)
      (hf : c.pendingFutures.lookup e.index = some future) :
      Settles L c [⟨future, result.err, e.index, e.term, result.out⟩]
        (c.pendingFutures.erase e.index)
  | drain (hL : L.drain c) : Settles L c (c.pendingFutures.entries.map fun f ↦
        if f.1 ≤ c.commitIndex then
          ⟨f.2, none, f.1, ((c.log.get f.1).map LogEntry.term).getD 0, []⟩
        else ⟨f.2, some .notStarted, 0, 0, []⟩) ∅
  | restore (future : ℕ) (h : c.run = .restored future) :
      Settles L c [⟨future, none, 0, 0, []⟩] c.pendingFutures

theorem answersOf_map {α : Type} {f : α → Effect} {g : α → Answer}
    (h : ∀ x, (f x).answer? = some (g x)) (l : List α) : answersOf (l.map f) = l.map g := by
  rw [answersOf, filterMap_map, ← filterMap_eq_map]
  exact filterMap_congr fun x _ ↦ h x

theorem Move.settles (hm : Move R L inp c out c') :
    Settles L c (answersOf out) c'.pendingFutures := by
  cases hm with
  | note e h =>
    cases e <;> first | exact .keep | cases h
  | campaign asks h =>
    have hnone : answersOf asks = [] := by
      refine filterMap_eq_nil_iff.mpr fun x hx ↦ ?_
      obtain ⟨_, _, -, rfl⟩ := h x hx
      rfl
    change Settles L c (answersOf asks) c.pendingFutures
    rw [hnone]
    exact .keep
  | submit e future hi ht hs hp hL => exact .issue e future hi hL
  | refuse future err hL => exact .refuse future err hL
  | fail =>
    rw [answersOf_map (g := fun f ↦ ⟨f.2, some .leadershipLost, 0, 0, []⟩) fun _ ↦ rfl]
    exact .fail
  | resolve drain k e result future h hf => exact .resolve drain k e result future h hf
  | drain h hL =>
    rw [answersOf_map (g := fun f ↦ if f.1 ≤ c.commitIndex then
          ⟨f.2, none, f.1, ((c.log.get f.1).map LogEntry.term).getD 0, []⟩
        else ⟨f.2, some .notStarted, 0, 0, []⟩) fun f ↦ by split <;> rfl]
    exact .drain hL
  | restore future h => exact .restore future h
  | _ => exact .keep

namespace Books

variable {b b' : Books}

structure Explains (b : Books) (c : Core) : Prop where
  normal : ∀ future e, (future, e) ∈ b.issued → ∃ data, e.payload = .normal data
  pending : ∀ i future, c.pendingFutures.lookup i = some future → i ≤ c.lastIndex ∧
    ∃ e, (future, e) ∈ b.issued ∧ e.index = i ∧ ∀ x, c.log.get i = some x → x = e
  entry : ∀ e future, c.run.entry? = some e → c.pendingFutures.lookup e.index = some future →
    (future, e) ∈ b.issued
  read : ∀ e, c.run.entry? = some e → e ∈ b.committed
  result : ∀ drain k e result data, c.run = .applyDone drain k e result → e.payload = .normal data →
    data = [] ∧ result = .ok [] ∨ (e, result) ∈ b.returned
  joint : ∀ drain k e, c.run = .applyJoint drain k e → ∃ data, e.payload = .configuration data

namespace Explains

theorem mono (h : b.Explains c) (hr : c'.run = c.run)
    (hsub : ∀ i future, c'.pendingFutures.lookup i = some future →
      c.pendingFutures.lookup i = some future)
    (hlast : ∀ i future, c'.pendingFutures.lookup i = some future → i ≤ c'.lastIndex)
    (hlog : ∀ i x, i ≤ c.lastIndex → c'.log.get i = some x → c.log.get i = some x) :
    b.Explains c' where
  normal := h.normal
  pending i future hf := by
    obtain ⟨hle, e, he, hi, hx⟩ := h.pending i future (hsub i future hf)
    exact ⟨hlast i future hf, e, he, hi, fun x hget ↦ hx x (hlog i x hle hget)⟩
  entry e future he hf := h.entry e future (hr ▸ he) (hsub _ _ hf)
  read e he := h.read e (hr ▸ he)
  result drain k e result data hrun := h.result drain k e result data (hr ▸ hrun)
  joint drain k e hrun := h.joint drain k e (hr ▸ hrun)

theorem append (h : b.Explains c) {e : LogEntry} (hi : e.index = c.lastIndex + 1)
    (hg : c'.log = c.log.append e) (hl : c'.lastIndex = e.index)
    (hp : c'.pendingFutures = c.pendingFutures) (hr : c'.run = c.run) : b.Explains c' := by
  refine h.mono hr (fun i future hf ↦ hp ▸ hf) (fun i future hf ↦ ?_) fun i x hle hx ↦ ?_
  · rw [hp] at hf
    have := (h.pending i future hf).1
    omega
  · rw [hg] at hx
    rcases get_append_cases hx with hx | rfl
    · exact hx
    · have := get_index hx
      omega

theorem goto (h : b.Explains c) {pc : RunPC}
    (hentry : ∀ e, pc.entry? = some e → e ∈ b.committed ∧
      ∀ future, c.pendingFutures.lookup e.index = some future → (future, e) ∈ b.issued)
    (hresult : ∀ drain k e result data, pc = .applyDone drain k e result →
      e.payload = .normal data → data = [] ∧ result = .ok [] ∨ (e, result) ∈ b.returned)
    (hjoint : ∀ drain k e, pc = .applyJoint drain k e → ∃ data, e.payload = .configuration data) :
    b.Explains { c with run := pc } :=
  ⟨h.normal, h.pending, fun e future he ↦ (hentry e he).2 future,
    fun e he ↦ (hentry e he).1, hresult, hjoint⟩

theorem turn (h : b.Explains c) {pc : RunPC} (ht : Turn withoutRestore b.warrant c pc) :
    b.Explains { c with run := pc } := by
  refine h.goto (fun e he ↦ ?_) (fun drain k e result data hpc hp ↦ ?_) fun drain k e hpc ↦ ?_
  · rcases ht.entry? he with hold | ⟨hget, -⟩
    · exact ⟨h.read e hold, fun future hf ↦ h.entry e future hold hf⟩
    · have hread : e ∈ b.committed := by
        cases ht with
        | entry hr ha hx hL =>
          cases he
          exact hL
        | ran hr hran =>
          cases he
          exact h.read e (by rw [hr]; rfl)
        | @halted drain hr | @done drain _ _ hr _ | @panicked drain _ _ _ hr _ =>
          cases drain <;> cases he
        | @snapshotting _ pc hr hp => cases pc <;> first | cases hp; done | cases he
        | _ => cases he
      refine ⟨hread, fun future hf ↦ ?_⟩
      obtain ⟨-, x, hx, -, heq⟩ := h.pending e.index future hf
      rw [heq e hget]
      exact hx
  · cases ht with
    | @ran _ _ _ _ hr hran =>
      cases hpc
      simp only [Warrant.Ran, hp] at hran
      cases data with
      | nil => exact .inl ⟨rfl, hran⟩
      | cons => exact .inr hran
    | @halted drain hr | @done drain _ _ hr _ | @panicked drain _ _ _ hr _ =>
      cases drain <;> cases hpc
    | snapshotting hr hp =>
      rw [hpc] at hp
      cases hp
    | _ => cases hpc
  · exact absurd hpc ht.ne_applyJoint

theorem move (h : b.Explains c) (hp : Paced c) (hst : c.started = true)
    (hm : Move withoutRestore b.warrant inp c out c') : b.Explains c' := by
  have hsame (i future : ℕ) (hf : c.pendingFutures.lookup i = some future) : i ≤ c.lastIndex :=
    (h.pending i future hf).1
  have hsettled (hs : c.Settled) (i future : ℕ) (hf : c.pendingFutures.lookup i = some future) :
      i ≤ c.commitIndex := hs i (lookup_isSome.mp (by rw [hf]; rfl))
  cases hm with
  | crown hq hL hS | lead who hs hi hq hL => exact h.append rfl rfl rfl rfl rfl
  | propose e hi ht hs hp | change e data hi ht hs hR hp | copy req e hi ht he hi =>
    exact h.append ‹e.index = c.lastIndex + 1› rfl rfl rfl rfl
  | exit e x drain k hi ht hpay hr =>
    have happ : b.Explains (c.append e) := h.append hi rfl rfl rfl rfl
    obtain ⟨data, hx⟩ := h.joint drain k x hr
    refine happ.goto (fun y hy ↦ ?_) (fun drain k y result data' hpc hy ↦ ?_) nofun
    · have hy' : c.run.entry? = some y := by
        rw [hr]
        exact hy
      exact ⟨h.read y hy', fun future ↦ h.entry y future hy'⟩
    · cases hpc
      rw [hx] at hy
      cases hy
  | submit e future hi ht hs hpay hL =>
    have happ : b.Explains (c.append e) := h.append hi rfl rfl rfl rfl
    have hlookup (i f : ℕ) (hf : (c.pendingFutures.insert e.index future).lookup i = some f) :
        i = e.index ∧ f = future ∨ c.pendingFutures.lookup i = some f := by
      by_cases hie : i = e.index
      · subst hie
        rw [lookup_insert] at hf
        exact .inl ⟨rfl, (Option.some.inj hf).symm⟩
      · rw [lookup_insert_ne hie] at hf
        exact .inr hf
    refine { h with pending := fun i f hf ↦ ?_, entry := fun x f hx hf ↦ ?_ }
    · rcases hlookup i f hf with ⟨rfl, rfl⟩ | hf
      · refine ⟨le_rfl, e, hL, rfl, fun x hx ↦ ?_⟩
        change (c.log.append e).get e.index = some x at hx
        rw [get_append _ _ _ (get_pos hx), if_pos rfl] at hx
        exact (Option.some.inj hx).symm
      · exact happ.pending i f hf
    · rcases hlookup _ f hf with ⟨hie, -⟩ | hf
      · have := hp.entry x hx
        have := hp.commit
        omega
      · exact h.entry x f hx hf
  | truncate req e x lastTerm hi ht he hx hne hc ha h0 hl hO =>
    refine h.mono rfl (fun _ _ hf ↦ hf) (fun i future hf ↦ ?_) fun i y _ hy ↦ get_of_deleteRange hy
    have := hsettled (hO rfl) i future hf
    change i ≤ e.index - 1
    omega
  | goto pc hT ht => exact h.turn ht
  | configure data drain k e hr hpay =>
    have hcfg : b.Explains (c.configure (c.electorate.apply data)) :=
      h.mono rfl (fun _ _ hf ↦ hf) hsame fun _ _ _ hx ↦ hx
    have hentry (y : LogEntry) (hy : y = e) : y ∈ b.committed ∧ ∀ future,
        c.pendingFutures.lookup y.index = some future → (future, y) ∈ b.issued := by
      have hrun : c.run.entry? = some y := by
        rw [hr, hy]
        rfl
      exact ⟨h.read y hrun, fun future ↦ h.entry y future hrun⟩
    unfold Core.afterConfiguration
    split
    · refine hcfg.goto (fun y hy ↦ hentry y (Option.some.inj hy).symm) nofun fun _ _ _ hpc ↦ ?_
      cases hpc
      exact ⟨data, hpay⟩
    · refine hcfg.goto (fun y hy ↦ hentry y (Option.some.inj hy).symm)
        (fun _ _ _ _ _ hpc hn ↦ ?_) nofun
      cases hpc
      rw [hpay] at hn
      cases hn
  | start state lastTerm hn =>
    rw [hst] at hn
    cases hn
  | compact lo hi =>
    exact h.mono rfl (fun _ _ hf ↦ hf) hsame fun i x _ hx ↦ get_of_deleteRange hx
  | install req lastIndex lastTerm hi hc hl hx hO =>
    refine h.mono rfl (fun _ _ hf ↦ hf) (fun i future hf ↦ ?_) fun _ _ _ hx ↦ hx
    have := hsettled (hO rfl) i future hf
    change i ≤ lastIndex
    omega
  | restore future hr => exact absurd hr (hp.calm future)
  | fail =>
    have hsub (i future : ℕ) (hf : (settle c.commitIndex c.pendingFutures).lookup i = some future) :
        c.pendingFutures.lookup i = some future := by
      rw [lookup_settle] at hf
      split at hf
      · cases hf
      · exact hf
    exact h.mono rfl hsub (fun i future hf ↦ hsame i future (hsub i future hf)) fun _ _ _ hx ↦ hx
  | resolve drain k e result future hr hf =>
    have hsub (i f : ℕ) (hf : (c.pendingFutures.erase e.index).lookup i = some f) :
        c.pendingFutures.lookup i = some f := by
      by_cases hie : i = e.index
      · subst hie
        rw [lookup_erase] at hf
        cases hf
      · rwa [lookup_erase_ne hie] at hf
    exact h.mono rfl hsub (fun i future hf ↦ hsame i future (hsub i future hf)) fun _ _ _ hx ↦ hx
  | drain hr hL => exact h.mono rfl nofun nofun fun _ _ _ hx ↦ hx
  | _ => exact h.mono rfl (fun _ _ hf ↦ hf) hsame fun _ _ _ hx ↦ hx

theorem truthful (h : b.Explains c) (hp : Paced c)
    (hm : Move withoutRestore b.warrant inp c out c') {a : Answer} (ha : a ∈ answersOf out)
    (herr : a.err = none) : b.Truthful a := by
  have hs := hm.settles
  generalize answersOf out = answers, c'.pendingFutures = futures at hs ha
  cases hs with
  | keep | issue => cases ha
  | refuse future err =>
    cases mem_singleton.mp ha
    cases herr
  | fail =>
    obtain ⟨f, -, rfl⟩ := mem_map.mp ha
    cases herr
  | resolve drain k e result future hr hf =>
    cases mem_singleton.mp ha
    have hrun : c.run.entry? = some e := by
      rw [hr]
      rfl
    have hissued := h.entry e future hrun hf
    obtain ⟨data, hdata⟩ := h.normal future e hissued
    refine ⟨e, hissued, rfl, rfl, h.read e hrun, ?_⟩
    rcases h.result drain k e result data hr hdata with ⟨rfl, rfl⟩ | hret
    · exact .inl ⟨hdata, rfl⟩
    · cases result with
      | ok res => exact .inr hret
      | error => cases herr
      | panicked => cases herr
  | drain hL =>
    obtain ⟨f, hf, rfl⟩ := mem_map.mp ha
    have hlt : c.commitIndex < f.1 := hL f.1 (mem_map_of_mem hf)
    rw [if_neg hlt.not_ge] at herr
    cases herr
  | restore future hr => exact absurd hr (hp.calm future)

theorem path (h : b.Explains c) (hp : Paced c) (hst : c.started = true)
    (hpath : Path withoutRestore b.warrant inp c out c') :
    b.Explains c' ∧ ∀ a ∈ answersOf out, a.err = none → b.Truthful a := by
  induction hpath with
  | refl => exact ⟨h, nofun⟩
  | tail hpath hm ih =>
    obtain ⟨hexp, htrue⟩ := ih
    have hpaced := (hp.path (fun _ _ ↦ id) rfl hst hpath).2
    refine ⟨hexp.move hpaced (hpath.started hst) hm, fun a ha herr ↦ ?_⟩
    rw [answersOf, filterMap_append, mem_append] at ha
    rcases ha with ha | ha
    · exact htrue a ha herr
    · exact hexp.truthful hpaced hm ha herr

end Explains

end Books

end RaftConsensus
