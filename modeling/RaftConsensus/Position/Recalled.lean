import RaftConsensus.Position.Mirror
import RaftConsensus.Recorded

/-! The terms of the entries of a node's log, the compacted ones included, and the snapshots that
record them. -/

namespace RaftConsensus

section Recall

variable {g : ℕ → Option ℕ} {told : Option (ℕ × ℕ)} {log : LogStore} {i t : ℕ} {e : LogEntry}

/-- The term of the entry at an index: of the one that the store holds, else as an installed
snapshot tells it, else as it was known before. -/
def remember (g : ℕ → Option ℕ) (told : Option (ℕ × ℕ)) (log : LogStore) (i : ℕ) : Option ℕ :=
  ((log.get i).map LogEntry.term).or
    ((told.bind fun x ↦ if x.1 = i then some x.2 else none).or (g i))

theorem remember_entry (h : log.get i = some e) : remember g told log i = some e.term := by
  simp [remember, h]

theorem remember_agree (h : g i = some t) (ha : ∀ e, log.get i = some e → e.term = t)
    (ht : ∀ x, told = some x → x.1 ≠ i) : remember g told log i = some t := by
  unfold remember
  cases hget : log.get i with
  | some e => simp [ha e hget]
  | none =>
    cases htold : told with
    | none => simp [h]
    | some x => simp [h, ht x htold]

theorem remember_told (ha : ∀ e, log.get i = some e → e.term = t) :
    remember g (some (i, t)) log i = some t := by
  unfold remember
  cases hget : log.get i with
  | some e => simp [ha e hget]
  | none => simp

end Recall

/-- The terms that are known are those of the stored entries, and that of the latest snapshot unless
the entry at its index is another one. -/
structure Disk.Recalled (g : ℕ → Option ℕ) (d : Disk) : Prop where
  entry : ∀ i e, d.log.get i = some e → g i = some e.term
  snapshot : ∀ s, d.snapshot.latest = some s → 0 < s.index →
    (∀ e, d.log.get s.index = some e → e.term = s.term) → g s.index = some s.term

structure Recalled (g : ℕ → Option ℕ) (c : Core) : Prop where
  disk : c.disk.Recalled g
  taken : ∀ k t cfg data, c.run = .snapshotCreate k t cfg data → 0 < k → g k = some t

namespace Disk.Recalled

variable {g : ℕ → Option ℕ} {told : Option (ℕ × ℕ)} {d d' : Disk}

theorem same (h : d.Recalled g) : d.Recalled (remember g none d.log) where
  entry _ _ he := remember_entry he
  snapshot s hs hpos ha := remember_agree (h.snapshot s hs hpos ha) ha nofun

theorem next (h : d.Recalled g)
    (ha : ∀ s, d.snapshot.latest = some s → ∀ e, d.log.get s.index = some e → e.term = s.term)
    (ht : ∀ x, told = some x → ∀ s, d.snapshot.latest = some s → s.index < x.1)
    (hs : d'.snapshot = d.snapshot ∨ ∃ snap, d'.snapshot = d.snapshot.create snap ∧
      (0 < snap.index → told = some (snap.index, snap.term) ∨
        told = none ∧ g snap.index = some snap.term)) :
    d'.Recalled (remember g told d'.log) where
  entry _ _ he := remember_entry he
  snapshot s hlatest hpos hagree := by
    have hold (hl : d.snapshot.latest = some s) : remember g told d'.log s.index = some s.term :=
      remember_agree (h.snapshot s hl hpos (ha s hl)) hagree fun x hx ↦ (ht x hx s hl).ne'
    rcases hs with hs | ⟨snap, hs, hsnap⟩
    · exact hold (hs ▸ hlatest)
    · rw [hs, SnapshotStore.latest_create] at hlatest
      split at hlatest
      · exact hold hlatest
      · cases hlatest
        rcases hsnap hpos with rfl | ⟨rfl, hg⟩
        · exact remember_told hagree
        · exact remember_agree hg hagree nofun

end Disk.Recalled

namespace Recalled

variable {g : ℕ → Option ℕ} {told : Option (ℕ × ℕ)} {c c' : Core}

theorem last (h : Recalled g c) (hp : Placed c) (hpos : 0 < c.lastIndex) :
    g c.lastIndex = some c.lastTerm := by
  rcases hp.held hpos.ne' with hsome | hsnap
  · obtain ⟨e, he⟩ := Option.isSome_iff_exists.mp hsome
    rw [h.disk.entry _ e he, hp.term e he]
  · cases hl : c.snapshot.latest with
    | none =>
      rw [Core.snapIndex, hl] at hsnap
      exact absurd hsnap.symm hpos.ne'
    | some s =>
      rw [Placed.snapIndex_eq hl] at hsnap
      rw [← hsnap, ← hp.snapTerm s hl hsnap]
      exact h.disk.snapshot s hl (hsnap ▸ hpos) (hp.agree s hl)

theorem next (h : Recalled g c) (hp : Paced c) (hpl : Placed c) (hpl' : Placed c')
    (ht : ∀ x, told = some x → c.commitIndex < x.1)
    (hs : c'.snapshot = c.snapshot ∨ ∃ snap, c'.snapshot = c.snapshot.create snap ∧
      (0 < snap.index → told = some (snap.index, snap.term) ∨
        told = none ∧ g snap.index = some snap.term))
    (hr : ∀ k t cfg data, c'.run = .snapshotCreate k t cfg data → 0 < k →
      c'.run = c.run ∨ told = none ∧ g k = some t) :
    Recalled (remember g told c'.log) c' where
  disk := by
    have hnext : c'.disk.Recalled (remember g told c'.disk.log) := by
      refine h.disk.next hpl.agree (fun x hx s hl ↦ ?_) hs
      have hle : c.snapIndex ≤ c.commitIndex := hpl.committed
      rw [Placed.snapIndex_eq hl] at hle
      exact hle.trans_lt (ht x hx)
    exact hnext
  taken k t cfg data hrun hpos := by
    have hagree := (hpl'.taken k t cfg data hrun).2.1
    rcases hr k t cfg data hrun hpos with heq | ⟨rfl, hg⟩
    · rw [hrun] at heq
      refine remember_agree (h.taken k t cfg data heq.symm hpos) hagree fun x hx ↦ ?_
      have hk : k ≤ c.applyIndex := hp.snapshot k (by rw [← heq]; rfl)
      exact ((hk.trans hp.apply).trans_lt (ht x hx)).ne'
    · exact remember_agree hg hagree nofun

end Recalled

namespace Path

variable {R : Rules} {L : Warrant} {inp : Input} {c c' : Core} {out : List Effect}

theorem shelf (hi : ∀ req, inp ≠ .request (.installSnapshot req))
    (hq : L.turn → R.snapshot = false ∧ c.run.snapshotting = false) (hst : c.started = true)
    (hpath : Path R L inp c out c') : c'.snapshot = c.snapshot ∧
      (c'.run = c.run ∨ c'.run.snapshotting = false) ∧
      (L.turn → R.snapshot = false ∧ c'.run.snapshotting = false) := by
  induction hpath with
  | refl => exact ⟨rfl, .inl rfl, hq⟩
  | @tail out₁ out₂ c₁ c₂ hpre hm ih =>
    obtain ⟨hs, hr, hq⟩ := ih
    have hkeep (hs' : c₂.snapshot = c₁.snapshot) (hr' : c₂.run = c₁.run) :
        c₂.snapshot = c.snapshot ∧ (c₂.run = c.run ∨ c₂.run.snapshotting = false) ∧
        (L.turn → R.snapshot = false ∧ c₂.run.snapshotting = false) := by
      rw [hs', hr']
      exact ⟨hs, hr, hq⟩
    have hturn (hs' : c₂.snapshot = c₁.snapshot) (hr' : c₂.run.snapshotting = false) :
        c₂.snapshot = c.snapshot ∧ (c₂.run = c.run ∨ c₂.run.snapshotting = false) ∧
        (L.turn → R.snapshot = false ∧ c₂.run.snapshotting = false) :=
      ⟨hs'.trans hs, .inr hr', fun hT ↦ ⟨(hq hT).1, hr'⟩⟩
    cases hm with
    | exit e x drain k hx ht hP hrun => exact hturn rfl rfl
    | goto pc hT ht =>
      refine hturn rfl (Bool.eq_false_iff.mpr fun hpc ↦ ?_)
      rcases ht.snapshotting_of hpc with hr | hR
      · rw [(hq hT).2] at hr
        cases hr
      · rw [(hq hT).1] at hR
        cases hR
    | configure data drain k e hrun hP =>
      refine hturn rfl ?_
      change (c₁.afterConfiguration drain k e data).snapshotting = false
      unfold Core.afterConfiguration
      split <;> rfl
    | start state lastTerm hn =>
      rw [hpre.started hst] at hn
      cases hn
    | createSnapshot snap hsnap hT =>
      rcases hT with hT | ⟨req, hin⟩
      · rcases hsnap with hsnap | ⟨req, hin⟩
        · rw [(hq hT).2] at hsnap
          cases hsnap
        · exact absurd hin (hi req)
      · exact absurd hin (hi req)
    | _ => exact hkeep rfl rfl

end Path

end RaftConsensus
