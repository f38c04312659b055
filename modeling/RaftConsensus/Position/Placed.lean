import RaftConsensus.Single.Commit

namespace RaftConsensus

open List Option

namespace LogStore

variable {s : LogStore} {i : ℕ} {e : LogEntry}

def lastPosition (s : LogStore) : ℕ × ℕ :=
  (s.lastIndex, ((s.get s.lastIndex).map LogEntry.term).getD 0)

theorem lastIndex_le (h : ∀ j x, s.get j = some x → j ≤ i) : s.lastIndex ≤ i := by
  rcases Nat.eq_zero_or_pos s.lastIndex with h0 | hpos
  · omega
  · obtain ⟨x, hx⟩ := get_lastIndex hpos
    exact h _ x hx

theorem lastPosition_term (he : s.get s.lastIndex = some e) : s.lastPosition.2 = e.term := by
  simp [lastPosition, he]

theorem lastPosition_empty (h : s.lastIndex = 0) : s.lastPosition.2 = 0 := by
  simp [lastPosition, h, get]

theorem lastPosition_eq (h : ∀ j x, s.get j = some x → j ≤ i) (he : s.get i = some e) :
    s.lastPosition = (i, e.term) := by
  have hi : s.lastIndex = i := Nat.le_antisymm (lastIndex_le h) (le_lastIndex he)
  simp [lastPosition, hi, he]

end LogStore

namespace SnapshotStore

theorem latest_mem {st : SnapshotStore} {s : Snapshot} (h : st.latest = some s) :
    s ∈ st.snapshots := by
  have hfold (rest : List Snapshot) (m : Snapshot) :
      rest.foldl (fun l x ↦ if l.index < x.index then x else l) m ∈ m :: rest := by
    induction rest generalizing m with
    | nil => exact mem_singleton_self m
    | cons x rest ih =>
      rw [foldl_cons]
      rcases mem_cons.mp (ih (if m.index < x.index then x else m)) with heq | hmem
      · rw [heq]
        split
        · exact mem_cons_of_mem _ mem_cons_self
        · exact mem_cons_self
      · exact mem_cons_of_mem _ (mem_cons_of_mem _ hmem)
  unfold latest at h
  split at h
  · cases h
  · rename_i m rest hl
    cases h
    rw [hl]
    exact hfold rest m

theorem latest_create (st : SnapshotStore) (snap : Snapshot) : (st.create snap).latest =
    if st.latest.any (snap.index < ·.index) then st.latest else some snap := by
  have hfold (rest : List Snapshot) (l m : Snapshot) :
      (m :: rest).foldl (fun l x ↦ if l.index < x.index then x else l) l =
        if l.index < (rest.foldl (fun l x ↦ if l.index < x.index then x else l) m).index then
          rest.foldl (fun l x ↦ if l.index < x.index then x else l) m else l := by
    induction rest generalizing l m with
    | nil => rfl
    | cons x rest ih =>
      have hm := ih m x
      rw [foldl_cons, ih, hm]
      split_ifs <;> first | rfl | omega
  obtain ⟨snapshots⟩ := st
  cases snapshots with
  | nil => rfl
  | cons m rest =>
    simp only [create, latest, hfold, any_some, decide_eq_true_eq]
    split <;> rfl

theorem latestIndex_create (st : SnapshotStore) (snap : Snapshot) :
    ((st.create snap).latest.map Snapshot.index).getD 0 =
      max ((st.latest.map Snapshot.index).getD 0) snap.index := by
  rw [latest_create]
  cases st.latest with
  | none => exact (Nat.zero_max _).symm
  | some s =>
    simp only [any_some, decide_eq_true_eq, map_some, getD_some]
    split_ifs with hlt
    · exact (max_eq_left hlt.le).symm
    · exact (max_eq_right (not_lt.mp hlt)).symm

end SnapshotStore

def Disk.logEnd (d : Disk) : ℕ × ℕ :=
  match d.snapshot.latest with
  | none => d.log.lastPosition
  | some s => if s.index < d.log.lastIndex then d.log.lastPosition else (s.index, s.term)

/-- The last index and term of a node are those of its logical log; the latest snapshot is committed
and agrees with the log, and so does the one the `run` goroutine is about to store. -/
structure Placed (c : Core) : Prop where
  term : ∀ e, c.log.get c.lastIndex = some e → e.term = c.lastTerm
  held : c.lastIndex ≠ 0 → (c.log.get c.lastIndex).isSome = true ∨ c.snapIndex = c.lastIndex
  zero : c.lastIndex = 0 → c.lastTerm = 0
  committed : c.snapIndex ≤ c.commitIndex
  snapTerm : ∀ s, c.snapshot.latest = some s → s.index = c.lastIndex → s.term = c.lastTerm
  agree : ∀ s, c.snapshot.latest = some s → ∀ e, c.log.get s.index = some e → e.term = s.term
  origin : ∀ s, c.snapshot.latest = some s → s.index = 0 → s.term = 0
  gone : ∀ k cfg data, c.run = .snapshotLastTerm k cfg data → 0 < k ∧ c.log.get k = none
  taken : ∀ k t cfg data, c.run = .snapshotCreate k t cfg data → (k = 0 → t = 0) ∧
    (∀ e, c.log.get k = some e → e.term = t) ∧ (c.lastIndex = k → c.lastTerm = t)
  stored : ∀ k, c.run = .snapshotCompact k → k ≤ c.snapIndex

namespace Placed

variable {R : Rules} {L : Warrant} {inp : Input} {c c' : Core} {out : List Effect}

theorem snapIndex_eq {s : Snapshot} (hs : c.snapshot.latest = some s) : c.snapIndex = s.index := by
  rw [Core.snapIndex, hs]
  rfl

theorem logEnd_eq (hp : Paced c) (h : Placed c) : c.disk.logEnd = (c.lastIndex, c.lastTerm) := by
  have hle : c.log.lastIndex ≤ c.lastIndex := LogStore.lastIndex_le hp.log
  have hlog (hn : c.snapIndex ≠ c.lastIndex) (h0 : c.lastIndex ≠ 0) :
      c.log.lastPosition = (c.lastIndex, c.lastTerm) := by
    obtain ⟨e, he⟩ := isSome_iff_exists.mp ((h.held h0).resolve_right hn)
    rw [LogStore.lastPosition_eq hp.log he, h.term e he]
  unfold Disk.logEnd
  cases hs : c.disk.snapshot.latest with
  | none =>
    have hsnap : c.snapIndex = 0 := by
      rw [Core.snapIndex, show c.snapshot.latest = none from hs]
      rfl
    by_cases h0 : c.lastIndex = 0
    · have hl : c.log.lastIndex = 0 := by omega
      rw [h.zero h0, h0]
      simp only [LogStore.lastPosition, show c.disk.log = c.log from rfl, hl]
      rfl
    · exact hlog (by omega) h0
  | some s =>
    have hsnap := snapIndex_eq (show c.snapshot.latest = some s from hs)
    have hlast := h.committed.trans hp.commit
    dsimp only
    split
    · rename_i hlt
      have hlt : s.index < c.log.lastIndex := hlt
      exact hlog (by omega) (by omega)
    · rename_i hge
      have hge : ¬ s.index < c.log.lastIndex := hge
      have heq : s.index = c.lastIndex := by
        by_cases h0 : c.lastIndex = 0
        · omega
        · rcases h.held h0 with hget | heq
          · obtain ⟨e, he⟩ := isSome_iff_exists.mp hget
            have := LogStore.le_lastIndex he
            omega
          · omega
      rw [heq, h.snapTerm s hs heq]

theorem idle (hr : c.run.snapshotting = false) (hk : c.snapIndex ≤ c.commitIndex)
    (hagree : ∀ s, c.snapshot.latest = some s →
      (s.index = 0 → s.term = 0) ∧ ∀ e, c.log.get s.index = some e → e.term = s.term)
    (hend : c.snapIndex ≤ c.log.lastIndex ∧ c.lastIndex = c.log.lastIndex ∧
        c.lastTerm = c.log.lastPosition.2 ∨
      ∃ s, c.snapshot.latest = some s ∧ c.log.lastIndex < s.index ∧ c.lastIndex = s.index ∧
        c.lastTerm = s.term) : Placed c := by
  have hrun {pc : RunPC} {p : Prop} (hpc : pc.snapshotting = true) (heq : c.run = pc) : p := by
    rw [heq, hpc] at hr
    cases hr
  suffices h : (∀ e, c.log.get c.lastIndex = some e → e.term = c.lastTerm) ∧
      (c.lastIndex ≠ 0 → (c.log.get c.lastIndex).isSome = true ∨ c.snapIndex = c.lastIndex) ∧
      (c.lastIndex = 0 → c.lastTerm = 0) ∧
      ∀ s, c.snapshot.latest = some s → s.index = c.lastIndex → s.term = c.lastTerm from
    ⟨h.1, h.2.1, h.2.2.1, hk, h.2.2.2, fun s hs ↦ (hagree s hs).2, fun s hs ↦ (hagree s hs).1,
      fun _ _ _ ↦ hrun rfl, fun _ _ _ _ ↦ hrun rfl, fun _ ↦ hrun rfl⟩
  rcases hend with ⟨hle, hl, ht⟩ | ⟨s, hs, hlt, hl, ht⟩
  · rw [hl, ht]
    refine ⟨fun e he ↦ (LogStore.lastPosition_term he).symm, fun h0 ↦ .inl ?_,
      LogStore.lastPosition_empty, fun s hs heq ↦ ?_⟩
    · obtain ⟨e, he⟩ := LogStore.get_lastIndex (Nat.pos_of_ne_zero h0)
      rw [he]
      rfl
    · rcases Nat.eq_zero_or_pos c.log.lastIndex with h0 | hpos
      · rw [LogStore.lastPosition_empty h0]
        exact (hagree s hs).1 (heq.trans h0)
      · obtain ⟨e, he⟩ := LogStore.get_lastIndex hpos
        rw [LogStore.lastPosition_term he]
        exact ((hagree s hs).2 e (heq ▸ he)).symm
  · rw [hl, ht]
    refine ⟨fun e he ↦ absurd (LogStore.le_lastIndex he) hlt.not_ge, fun _ ↦ .inr (snapIndex_eq hs),
      fun h0 ↦ absurd hlt (by omega), fun x hx _ ↦ ?_⟩
    cases hs.symm.trans hx
    rfl

theorem keep (h : Placed c) (hlog : c'.log = c.log) (hi : c'.lastIndex = c.lastIndex)
    (ht : c'.lastTerm = c.lastTerm) (hs : c'.snapshot = c.snapshot)
    (hk : c.commitIndex ≤ c'.commitIndex) (hr : c'.run = c.run ∨ c'.run.snapshotting = false) :
    Placed c' := by
  have hsnap : c'.snapIndex = c.snapIndex := by rw [Core.snapIndex, hs, Core.snapIndex]
  have hrun {pc : RunPC} (hpc : pc.snapshotting = true) (heq : c'.run = pc) : c.run = pc := by
    rcases hr with hr | hr
    · exact hr.symm.trans heq
    · rw [heq, hpc] at hr
      cases hr
  refine ⟨?_, ?_, ?_, hsnap ▸ h.committed.trans hk, ?_, ?_, ?_, ?_, ?_, ?_⟩
  all_goals simp only [hlog, hi, ht, hs, hsnap]
  · exact h.term
  · exact h.held
  · exact h.zero
  · exact h.snapTerm
  · exact h.agree
  · exact h.origin
  · exact fun k cfg data heq ↦ h.gone k cfg data (hrun rfl heq)
  · exact fun k t cfg data heq ↦ h.taken k t cfg data (hrun rfl heq)
  · exact fun k heq ↦ h.stored k (hrun rfl heq)

theorem append (hp : Paced c) (h : Placed c) {e : LogEntry} (hi : e.index = c.lastIndex + 1) :
    Placed (c.append e) := by
  have hget (i : ℕ) : (c.append e).log.get i = if i = e.index then some e else c.log.get i := by
    rcases Nat.eq_zero_or_pos i with rfl | hpos
    · rw [if_neg (by omega)]
      rfl
    · exact LogStore.get_append _ _ _ hpos
  have hold {i : ℕ} (hle : i ≤ c.lastIndex) : (c.append e).log.get i = c.log.get i := by
    rw [hget, if_neg (by omega)]
  have hlast : (c.append e).log.get e.index = some e := by rw [hget, if_pos rfl]
  have hsnap := h.committed.trans hp.commit
  have hpend {k : ℕ} (hk : c.run.snapshot? = some k) : k ≤ c.lastIndex :=
    ((hp.snapshot k hk).trans hp.apply).trans hp.commit
  refine ⟨fun x hx ↦ ?_, fun _ ↦ .inl ?_, fun h0 ↦ ?_, h.committed, fun s hs heq ↦ ?_,
    fun s hs x hx ↦ ?_,
    h.origin, fun k cfg data hr ↦ ?_, fun k t cfg data hr ↦ ?_, h.stored⟩
  · exact congrArg LogEntry.term (some.inj (hx.symm.trans hlast))
  · rw [show (c.append e).lastIndex = e.index from rfl, hlast]
    rfl
  · have h0 : e.index = 0 := h0
    omega
  · have := snapIndex_eq (show c.snapshot.latest = some s from hs)
    have heq : s.index = e.index := heq
    omega
  · rw [hold (snapIndex_eq hs ▸ hsnap)] at hx
    exact h.agree s hs x hx
  · obtain ⟨hpos, hnone⟩ := h.gone k cfg data hr
    refine ⟨hpos, ?_⟩
    rw [hold (hpend (by rw [show c.run = _ from hr]; rfl))]
    exact hnone
  · have hk := hpend (k := k) (by rw [show c.run = _ from hr]; rfl)
    obtain ⟨h0, hterm, -⟩ := h.taken k t cfg data hr
    refine ⟨h0, ?_, fun heq ↦ ?_⟩
    · rw [hold hk]
      exact hterm
    · have heq : e.index = k := heq
      omega

theorem truncate (h : Placed c) {index lastTerm : ℕ} (hk : c.commitIndex ≤ index)
    (hend : index = 0 ∧ lastTerm = 0 ∨ ∃ y, c.log.get index = some y ∧ lastTerm = y.term) :
    Placed (c.truncate index lastTerm) := by
  have hget (i : ℕ) : (c.truncate index lastTerm).log.get i =
      if index + 1 ≤ i ∧ i ≤ c.lastIndex + 1 then none else c.log.get i :=
    LogStore.get_deleteRange _ _ _ _
  have hold {i : ℕ} (hle : i ≤ index) : (c.truncate index lastTerm).log.get i = c.log.get i := by
    rw [hget, if_neg (by omega)]
  have hsub {i : ℕ} {x : LogEntry} (hx : (c.truncate index lastTerm).log.get i = some x) :
      c.log.get i = some x := LogStore.get_of_deleteRange hx
  have hsnap := h.committed.trans hk
  have hterm (x : LogEntry) (hx : c.log.get index = some x) : x.term = lastTerm := by
    rcases hend with ⟨rfl, -⟩ | ⟨y, hy, rfl⟩
    · cases hx
    · exact congrArg LogEntry.term (some.inj (hx.symm.trans hy))
  refine ⟨fun x hx ↦ hterm x (hsub hx), fun h0 ↦ .inl ?_, fun h0 ↦ ?_, h.committed,
    fun s hs heq ↦ ?_,
    fun s hs x hx ↦ h.agree s hs x (hsub hx), h.origin, fun k cfg data hr ↦ ?_,
    fun k t cfg data hr ↦ ?_, h.stored⟩
  · have h0 : index ≠ 0 := h0
    obtain ⟨y, hy, -⟩ := hend.resolve_left fun hz ↦ h0 hz.1
    rw [show (c.truncate index lastTerm).lastIndex = index from rfl, hold le_rfl, hy]
    rfl
  · have h0 : index = 0 := h0
    rcases hend with ⟨-, hz⟩ | ⟨y, hy, -⟩
    · exact hz
    · rw [h0] at hy
      cases hy
  · have heq : s.index = index := heq
    rcases hend with ⟨h0, rfl⟩ | ⟨y, hy, rfl⟩
    · exact h.origin s hs (heq.trans h0)
    · exact (h.agree s hs y (heq ▸ hy)).symm
  · obtain ⟨hpos, hnone⟩ := h.gone k cfg data hr
    refine ⟨hpos, ?_⟩
    rw [hget, hnone, ite_self]
  · obtain ⟨h0, ht, -⟩ := h.taken k t cfg data hr
    refine ⟨h0, fun x hx ↦ ht x (hsub hx), fun heq ↦ ?_⟩
    have heq : index = k := heq
    rcases hend with ⟨hz, rfl⟩ | ⟨y, hy, rfl⟩
    · exact (h0 (heq ▸ hz)).symm
    · exact ht y (heq ▸ hy)

/-- Outside `InstallSnapshot`, as long as the `run` goroutine stands still or takes no snapshot. -/
theorem move (hp : Paced c) (h : Placed c) (hst : c.started = true)
    (hi : ∀ req, inp ≠ .request (.installSnapshot req))
    (hq : L.turn → R.snapshot = false ∧ c.run.snapshotting = false)
    (hk : c.commitIndex ≤ c'.commitIndex) (hm : Move R L inp c out c') :
    Placed c' ∧ (L.turn → R.snapshot = false ∧ c'.run.snapshotting = false) := by
  cases hm with
  | crown hQ hL hS =>
    have hc : Paced c.campaigned := { hp with }
    exact ⟨((h.keep rfl rfl rfl rfl le_rfl (.inl rfl) : Placed c.campaigned).append hc
      (e := ⟨c.term + 1, c.lastIndex + 1, .normal []⟩) rfl).keep rfl rfl rfl rfl le_rfl
      (.inl rfl), hq⟩
  | lead who hs hg hQ hL =>
    exact ⟨(h.append hp (e := ⟨c.term, c.lastIndex + 1, .normal []⟩) rfl).keep rfl rfl
      rfl rfl le_rfl (.inl rfl), hq⟩
  | propose e hx ht hs hP => exact ⟨h.append hp hx, hq⟩
  | submit e future hx ht hs hP | change e data hx ht hs hR hP =>
    exact ⟨(h.append hp hx).keep rfl rfl rfl rfl le_rfl (.inl rfl), hq⟩
  | copy req e hin ht he hx => exact ⟨h.append hp hx, hq⟩
  | exit e x drain k hx ht hP hr =>
    exact ⟨(h.append hp hx).keep rfl rfl rfl rfl le_rfl (.inr rfl), fun hT ↦ ⟨(hq hT).1, rfl⟩⟩
  | truncate req e x lastTerm hin ht he hx hne hc ha h0 hl =>
    refine ⟨h.truncate (Nat.le_pred_of_lt hc) ?_, hq⟩
    rcases ha with hz | ⟨y, hy, -⟩
    · have := LogStore.get_pos hx
      exact .inl ⟨hz, h0 (by omega)⟩
    · exact .inr ⟨y, hy, hl y hy⟩
  | goto pc hT hturn =>
    have hpc : pc.snapshotting = false := by
      by_contra hpc
      rcases hturn.snapshotting_of (by simpa using hpc) with hr | hR
      · rw [(hq hT).2] at hr
        cases hr
      · rw [(hq hT).1] at hR
        cases hR
    exact ⟨h.keep rfl rfl rfl rfl le_rfl (.inr hpc), fun hT ↦ ⟨(hq hT).1, hpc⟩⟩
  | configure data drain k e hr hP =>
    have hpc : (c.afterConfiguration drain k e data).snapshotting = false := by
      unfold Core.afterConfiguration
      split <;> rfl
    exact ⟨h.keep rfl rfl rfl rfl le_rfl (.inr hpc), fun hT ↦ ⟨(hq hT).1, hpc⟩⟩
  | start state lastTerm hn =>
    rw [hst] at hn
    cases hn
  | createSnapshot snap hs hT =>
    rcases hs with hs | ⟨req, hin⟩
    · rcases hT with hT | ⟨req, hin⟩
      · rw [(hq hT).2] at hs
        cases hs
      · exact absurd hin (hi req)
    · exact absurd hin (hi req)
  | compact lo hi' hs hT =>
    rcases hT with hT | ⟨req, hin⟩
    · rcases hs with hs | ⟨req, hin, -⟩
      · have hsnap := (hq hT).2
        rw [RunPC.snapshotting, hs] at hsnap
        cases hsnap
      · exact absurd hin (hi req)
    · exact absurd hin (hi req)
  | install req lastIndex lastTerm hin => exact absurd hin (hi req)
  | restore future hr => exact absurd hr (hp.calm future)
  | _ => exact ⟨h.keep rfl rfl rfl rfl hk (.inl rfl), hq⟩

theorem path (hF : ∀ c req, L.follow c req →
      req.leaderCommit ≤ c.commitIndex ∨ c.commitIndex ≤ Raft.lastReqIndex req)
    (hR : R.restore = false) (hi : ∀ req, inp ≠ .request (.installSnapshot req))
    (hq : L.turn → R.snapshot = false ∧ c.run.snapshotting = false)
    (hp : Paced c) (h : Placed c) (hst : c.started = true) (hpath : Path R L inp c out c') :
    Placed c' := by
  suffices hall : Paced c' ∧ Placed c' ∧
      (L.turn → R.snapshot = false ∧ c'.run.snapshotting = false) from
    hall.2.1
  induction hpath with
  | refl => exact ⟨hp, h, hq⟩
  | tail hpre hm ih =>
    obtain ⟨hp', h', hq'⟩ := ih
    have hst' := hpre.started hst
    obtain ⟨hle, hp''⟩ := hp'.move hF hR hst' hm
    exact ⟨hp'', h'.move hp' hst' hi hq' hle hm⟩

section Install

variable {snap : Snapshot}

theorem latest_create (h : Placed c) (hk : c.commitIndex < snap.index) :
    (c.snapshot.create snap).latest = some snap := by
  rw [SnapshotStore.latest_create, if_neg]
  intro hany
  obtain ⟨s, hs, hlt⟩ := (any_eq_true _ _).mp hany
  have := snapIndex_eq hs
  have := h.committed
  have := of_decide_eq_true hlt
  omega

theorem install_inside (hp : Paced c) (h : Placed c) (hk : c.commitIndex < snap.index)
    {e : LogEntry} (he : c.log.get snap.index = some e) (ht : e.term = snap.term) (lo : ℕ) :
    Placed { c with
      snapshot := c.snapshot.create snap, log := c.log.deleteRange lo snap.index,
      commitIndex := snap.index, applyIndex := snap.index } := by
  have hlatest := h.latest_create hk
  have hsnap : ((c.snapshot.create snap).latest.map Snapshot.index).getD 0 = snap.index := by
    rw [hlatest]
    rfl
  have hsub {i : ℕ} {x : LogEntry} (hx : (c.log.deleteRange lo snap.index).get i = some x) :
      c.log.get i = some x := LogStore.get_of_deleteRange hx
  have hle := hp.log _ e he
  have hcommitted := h.committed
  refine ⟨fun x hx ↦ h.term x (hsub hx), fun h0 ↦ ?_, h.zero, hsnap.le, fun s hs heq ↦ ?_,
    fun s hs x hx ↦ ?_, fun s hs h0 ↦ ?_, fun k cfg data hr ↦ ?_, fun k t cfg data hr ↦ ?_,
    fun k hr ↦ ?_⟩
  · rcases Nat.eq_or_lt_of_le hle with heq | hlt
    · exact .inr (hsnap.trans heq)
    · refine .inl ?_
      change ((c.log.deleteRange lo snap.index).get c.lastIndex).isSome = true
      rw [LogStore.get_deleteRange, if_neg (by omega)]
      exact (h.held h0).resolve_right (by omega)
  · cases hlatest.symm.trans hs
    have heq : snap.index = c.lastIndex := heq
    rw [← ht]
    exact h.term e (heq ▸ he)
  · cases hlatest.symm.trans hs
    rw [← ht]
    exact congrArg LogEntry.term (some.inj ((hsub hx).symm.trans he))
  · cases hlatest.symm.trans hs
    omega
  · obtain ⟨hpos, hnone⟩ := h.gone k cfg data hr
    refine ⟨hpos, ?_⟩
    change (c.log.deleteRange lo snap.index).get k = none
    rw [LogStore.get_deleteRange, hnone, ite_self]
  · obtain ⟨h0, hterm, hend⟩ := h.taken k t cfg data hr
    exact ⟨h0, fun x hx ↦ hterm x (hsub hx), hend⟩
  · exact (h.stored k hr).trans (hcommitted.trans (hk.le.trans hsnap.ge))

theorem install_over (hp : Paced c) (h : Placed c) (hk : c.commitIndex < snap.index)
    {log : LogStore} (hnone : ∀ i, log.get i = none) :
    Placed { c with
      snapshot := c.snapshot.create snap, log := log, lastIndex := snap.index,
      lastTerm := snap.term, commitIndex := snap.index, applyIndex := snap.index } := by
  have hlatest := h.latest_create hk
  have hsnap : ((c.snapshot.create snap).latest.map Snapshot.index).getD 0 = snap.index := by
    rw [hlatest]
    rfl
  have habsurd {p : Prop} {i : ℕ} {x : LogEntry} (hx : log.get i = some x) : p := by
    rw [hnone i] at hx
    cases hx
  have hpos : snap.index ≠ 0 := Nat.ne_zero_of_lt hk
  refine ⟨fun x hx ↦ habsurd hx, fun _ ↦ .inr hsnap, fun h0 ↦ absurd h0 hpos, hsnap.le,
    fun s hs _ ↦ ?_, fun s _ x hx ↦ habsurd hx, fun s hs h0 ↦ ?_, fun k cfg data hr ↦ ?_,
    fun k t cfg data hr ↦ ?_, fun k hr ↦ ?_⟩
  · cases hlatest.symm.trans hs
    rfl
  · cases hlatest.symm.trans hs
    exact absurd h0 hpos
  · exact ⟨(h.gone k cfg data hr).1, hnone k⟩
  · have hle := (hp.snapshot k (by rw [show c.run = _ from hr]; rfl)).trans hp.apply
    refine ⟨(h.taken k t cfg data hr).1, fun x hx ↦ habsurd hx, fun heq ↦ ?_⟩
    have heq : snap.index = k := heq
    omega
  · exact (h.stored k hr).trans (h.committed.trans (hk.le.trans hsnap.ge))

end Install

end Placed

end RaftConsensus
