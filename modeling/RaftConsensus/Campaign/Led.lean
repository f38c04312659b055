import RaftConsensus.Recorded
import RaftConsensus.Leadership.Membership

namespace RaftConsensus

open List

variable {σ : Type} {cl : Cluster} {F : FSM σ} {R : Rules} {L : Warrant} {inp : Input}
  {t : Trace} {n m : ServerID} {c c' : Core} {out : List Effect}

structure Enrolled (t : Trace) (n : ServerID) (c : Core) : Prop where
  localID : c.localID = n
  stored : c.term ≤ c.stable.term.getD c.term
  leader : c.state = .leader → t.Led n c.term

def SentByLeaders (t : Trace) : Prop := ∀ p ∈ t.net, ∀ req, p.req = .appendEntries req →
  t.Led p.src req.term ∧ req.leaderID = p.src

def leaderships : Scheme := ⟨fun t n c _ ↦ Enrolled t n c, fun _ _ _ ↦ True, SentByLeaders⟩

theorem Enrolled.publish (h : Enrolled t n c) : Enrolled (t.publish m out) n c :=
  ⟨h.localID, h.stored, fun hs ↦ (h.leader hs).publish⟩

theorem SentByLeaders.publish (h : SentByLeaders t)
    (hout : ∀ target req, .rpc target (.appendEntries req) ∈ out →
      (t.publish n out).Led n req.term ∧ req.leaderID = n) : SentByLeaders (t.publish n out) := by
  intro p hp req hreq
  rcases mem_append.mp hp with hp | hp
  · obtain ⟨hled, hid⟩ := h p hp req hreq
    exact ⟨hled.publish, hid⟩
  · obtain ⟨hsrc, hrpc⟩ := mem_packetsOf.mp hp
    rw [hreq] at hrpc
    rw [hsrc]
    exact hout p.dst req hrpc

theorem getD_getD (o : Option ℕ) (k : ℕ) : o.getD k ≤ o.getD (o.getD k) := by
  cases o <;> exact le_rfl

theorem Move.term_le (hm : Move R L inp c out c') (h : c.term ≤ c.stable.term.getD c.term) :
    c.term ≤ c'.term ∧ c'.term ≤ c'.stable.term.getD c'.term := by
  cases hm with
  | raise t who ht hb hf => exact ⟨ht.le, le_rfl⟩
  | campaign asks _ _ => exact ⟨Nat.le_succ _, le_rfl⟩
  | crown _ _ _ => exact ⟨Nat.le_succ _, le_rfl⟩
  | storeTerm => exact ⟨le_rfl, le_rfl⟩
  | mark _ _ _ _ _ _ => exact ⟨le_rfl, le_rfl⟩
  | start _ _ _ _ _ _ _ => exact ⟨h, getD_getD _ _⟩
  | _ => exact ⟨le_rfl, h⟩

theorem Path.term_le (hp : Path R L inp c out c') (h : c.term ≤ c.stable.term.getD c.term) :
    c.term ≤ c'.term ∧ c'.term ≤ c'.stable.term.getD c'.term := by
  induction hp with
  | refl => exact ⟨le_rfl, h⟩
  | tail _ hm ih =>
    obtain ⟨hle, hst⟩ := hm.term_le ih.2
    exact ⟨ih.1.trans hle, hst⟩

theorem Enrolled.boot {state : RaftState} (h : Enrolled t n c)
    (hs : state = .follower ∨ state = .learner) (lastTerm : ℕ) :
    Enrolled t n (c.boot state lastTerm) := by
  refine ⟨h.localID, getD_getD _ _, fun hl ↦ ?_⟩
  change state = .leader at hl
  rcases hs with rfl | rfl <;> cases hl

theorem Enrolled.move (h : Enrolled t n c) (hm : Move R L inp c out c') :
    Enrolled (t.publish n out) n c' := by
  have hstored := (hm.term_le h.stored).2
  have hkept (hid : c'.localID = c.localID) (ht : c'.term = c.term)
      (hs : c'.state = .leader → c.state = .leader) : Enrolled (t.publish n out) n c' := by
    refine ⟨hid.trans h.localID, hstored, fun hl ↦ ?_⟩
    rw [ht]
    exact (h.leader (hs hl)).publish
  cases hm with
  | raise t' who ht hb hf => exact ⟨h.localID, hstored, nofun⟩
  | campaign asks _ _ => exact ⟨h.localID, hstored, nofun⟩
  | crown _ _ _ =>
    refine ⟨h.localID, hstored, fun _ ↦ ⟨c.electorate, c.log, ?_⟩⟩
    refine mem_append_right _ (mem_eventsOf.mpr ⟨rfl, ?_⟩)
    exact mem_cons_of_mem _ (mem_singleton_self _)
  | setState state hne _ _ => exact hkept rfl rfl fun hl ↦ absurd hl hne.1
  | retire _ _ _ _ => exact hkept rfl rfl nofun
  | lead _ _ _ _ _ =>
    refine ⟨h.localID, hstored, fun _ ↦ ⟨c.electorate, c.log, ?_⟩⟩
    exact mem_append_right _ (mem_eventsOf.mpr ⟨rfl, mem_singleton_self _⟩)
  | start state lastTerm _ _ hs _ _ => exact (h.boot hs lastTerm).publish
  | _ => exact hkept rfl rfl fun hl ↦ hl

theorem SentByLeaders.move (h : SentByLeaders t) (hr : Enrolled t n c)
    (hm : Move R L inp c out c') : SentByLeaders (t.publish n out) := by
  refine h.publish fun target req hrpc ↦ ?_
  cases hm with
  | call _ req' hs =>
    simp only [mem_singleton, Effect.rpc.injEq] at hrpc
    obtain ⟨-, rfl⟩ := hrpc
    cases hs
  | campaign asks ha =>
    rcases mem_cons.mp hrpc with hrpc | hrpc
    · cases hrpc
    · obtain ⟨_, _, _, heq⟩ := ha _ hrpc
      cases heq
  | send id req' hid hs ht hl hc hw he hp =>
    simp only [mem_singleton, Effect.rpc.injEq, Request.appendEntries.injEq] at hrpc
    obtain ⟨-, rfl⟩ := hrpc
    refine ⟨?_, hl.trans hr.localID⟩
    rw [ht]
    exact (hr.leader hs).publish
  | _ => simp at hrpc

theorem leaderships_kept : leaderships.Kept cl anyKind .free 0 where
  frame t m n out s _ h := by
    cases s with
    | down d => trivial
    | up c calls => exact Enrolled.publish h
  replied t n s a h := by
    cases s with
    | down d => trivial
    | up c calls => exact { h with }
  move t n c c' calls inp out hall h _ _ hm := ⟨Enrolled.move h hm, SentByLeaders.move hall h hm⟩
  boot t n c calls state lastTerm _ h _ _ hs _ := Enrolled.boot h hs lastTerm
  idle t n c calls e hall h _ _ :=
    ⟨Enrolled.publish h, SentByLeaders.publish hall fun _ _ hm ↦ by simp at hm⟩
  create t n d cfg _ _ _ _ := ⟨rfl, Nat.zero_le _, nofun⟩
  crash _ _ _ _ _ := trivial
  drop _ _ _ _ _ h _ := h
  answer _ _ _ _ _ _ _ _ hall _ _ _ _ _ _ := hall

theorem leaderships_init : leaderships.Holds (World.init : World σ).view :=
  ⟨fun _ ↦ trivial, fun p hp ↦ by cases hp⟩

namespace World

variable {w : World σ} {P : World σ → Action → Prop}

theorem Reach.leaderships (h : Reach cl F P w) : leaderships.Holds w.view :=
  leaderships_kept.reach (fun w a _ ↦ permits_free (w.within_anyKind a)) leaderships_init h

theorem Reach.enrolled (h : Reach cl F P w) {r : Raft σ} (hr : w.raft? n = some r) :
    Enrolled w.view.toTrace n r.core := by
  obtain ⟨calls, hh⟩ := hosts_of_raft? hr
  exact h.leaderships.up (congrArg site hh)

end World

theorem Raft.term_le_take {r r' : Raft σ} {s : Stimulus} (h : r.term ≤ r.stable.term.getD r.term)
    (hw : s.Contiguous) (ht : r.take F s = some r') : r.term ≤ r'.term := by
  have hd : Does anyKind Licence.free.open s.input r r' :=
    does_take s.allowed_anyKind hw (Licence.free_covers _ _ _) (Licence.open_serves _ _ _ _)
      (fun o _ ↦ Licence.open_allows _ F r o) ht
  obtain ⟨out, -, hp⟩ := hd.path
  exact (hp.term_le h).1

end RaftConsensus
