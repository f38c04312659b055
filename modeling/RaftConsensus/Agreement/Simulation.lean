import RaftConsensus.Agreement.Elections
import RaftConsensus.Agreement.Entries

namespace RaftConsensus

open AList Function

open Ledger (Committed Grows Sound Steps Step)

variable {cl : Cluster} {C : Configuration} {g g' : LedgerState} {t : Trace} {n : ServerID}
  {c c' : Core} {calls : List ℕ} {inp : Input} {out : List Effect} {since : ℕ} {v v' : View}

/-- The ledger can go along with every move of a started node. -/
theorem Local.move (h : Local C g t n c calls) (ho : t.Offers since n calls inp)
    (hm : Move fixedRules (electedBy C).open inp c out c') : ∃ g', Followed C g g' t n out c' := by
  have hrun := (h.keeps.node h.started).run
  have hd := h.disk
  have hn := h.node
  cases hm with
  | raise term who hlt => exact h.raise hlt
  | campaign asks hasks => exact h.campaign hasks
  | crown hq hL => exact h.crown hL
  | lead id hs hi hq hL => exact h.lead ho hi hL
  | vote req hi hp ht hv hs hsd hl => exact h.vote ho hi hp ht hv hl
  | propose e hi ht hs => exact h.propose hs hi ht
  | exit e x drain k hi ht hp hj => exact absurd hj (h.fixed.unjoint drain k x)
  | submit e future hi ht hs =>
    obtain ⟨g', hf⟩ := h.propose hs hi ht
    exact ⟨g', { hf with node := { hf.node with } }⟩
  | change e data hi ht hs hR => cases hR
  | copy req e hi ht he hx hag => exact h.copy ho hi ht he hx hag
  | truncate req e x lastTerm hi ht he hx hne hc hag h0 hl =>
    exact h.truncate ho hi ht he hx hne h0 hl
  | send id req hid hs ht hl hk hw he hp => exact h.send hs ht hk he hp
  | commit k e hs he ht hk hq => exact h.commit hs he ht hq
  | follow req hi ht hlt hag hL => exact h.follow ho hi ht hag
  | ack id req resp stamp last hi hs ht hr hl => exact h.ack ho hi ht hr hl
  | storeTerm =>
    exact h.stay { hd with term := h.term } { hn with } (by simp)
  | mark req hi hp ht hv hl =>
    exact h.stay { hd with term := h.term } { hn with } (by simp)
  | setState state hs =>
    exact h.stay hd { hn with leader := fun hl ↦ absurd hl hs.1, acks := fun hl ↦ absurd hl hs.1 }
      (by simp)
  | track id hne =>
    refine h.stay hd { hn with acks := fun hl id' k hk ↦ ?_, self := ?_ } (by simp)
    · by_cases hid : id' = id
      · subst hid
        rw [lookup_insert, Option.some.injEq] at hk
        omega
      · rw [lookup_insert_ne hid] at hk
        exact hn.acks hl id' k hk
    · rw [mem_insert]
      exact not_or.mpr ⟨fun heq ↦ hne (heq.symm.trans h.localID.symm), hn.self⟩
  | untrack id =>
    refine h.stay hd { hn with
      acks := fun hl id' k hk ↦ ?_
      self := fun hmem ↦ hn.self (mem_erase.mp hmem).2 } (by simp)
    by_cases hid : id' = id
    · subst hid
      rw [lookup_erase] at hk
      cases hk
    · rw [lookup_erase_ne hid] at hk
      exact hn.acks hl id' k hk
  | goto pc hT hturn =>
    refine h.stay hd { hn with copy := fun k hpc ↦ ?_, entry := fun e hpc ↦ ?_ } (by simp)
    · rcases hturn.commit? hpc with rfl | hold
      · exact hn.commit
      · exact hn.copy k hold
    · rcases hturn.entry? hpc with hold | ⟨hget, k, hcopy, hle⟩
      · exact hn.entry e hold
      · exact ⟨LogStore.get_pos hget, (hn.copy k hcopy).of_le hle, hd.log.getElem? hget⟩
  | flush k hk =>
    refine h.stay { hd with commit := fun k' heq ↦ ?_ } { hn with } (by simp)
    cases heq
    exact hn.copy k (by rw [hk]; rfl)
  | applied drain k e he =>
    obtain ⟨hpos, hcom, hget⟩ := hn.entry e (by rw [he]; rfl)
    refine ⟨g, .refl, fun _ _ ↦ ⟨rfl, rfl⟩, h.bids, hd, hn, ?_⟩
    refine h.record.publish h.sound (Grows.refl g) (by simp) (by simp) (by simp) (by simp)
      fun e' hmem ↦ ?_
    cases List.mem_singleton.mp hmem
    exact ⟨hpos, _, _, hcom, hget⟩
  | retire data hs hat => exact absurd hat h.fixed.no_configuration
  | configure data drain k e hr hp =>
    exact absurd ⟨e, by rw [hr]; rfl, hp⟩ h.fixed.no_configuration
  | start state lastTerm hns =>
    rw [h.started] at hns
    cases hns
  | createSnapshot snap hs =>
    rcases hs with hs | ⟨req, hi⟩
    · rw [hrun.1] at hs
      cases hs
    · exact (h.ballots.no_install ho hi).elim
  | compact lo hi' hs =>
    rcases hs with hs | ⟨req, hi, -⟩
    · have hsnap := hrun.1
      rw [RunPC.snapshotting, hs] at hsnap
      cases hsnap
    · exact (h.ballots.no_install ho hi).elim
  | install req lastIndex lastTerm hi => exact (h.ballots.no_install ho hi).elim
  | restore future hr => exact absurd hr (hrun.2 future)
  | sendSnapshot id req hid hs => cases hs
  | ackSnapshot id k hs => cases hs
  | note e he =>
    refine h.stay hd hn fun x hx ↦ ?_
    rw [List.mem_singleton.mp hx]
    cases e <;> first | rfl | cases he
  | call target req hr => exact h.stay hd hn (by simpa [Effect.unrecorded] using hr)
  | fail =>
    refine h.stay hd { hn with } fun x hx ↦ ?_
    obtain ⟨f, -, rfl⟩ := List.mem_map.mp hx
    rfl
  | drain hr =>
    refine h.stay hd { hn with } fun x hx ↦ ?_
    obtain ⟨f, -, rfl⟩ := List.mem_map.mp hx
    split <;> rfl
  | _ => exact h.stay hd { hn with } (by simp [Effect.unrecorded])

namespace Mirrors

theorem update (h : Mirrors C v g) (hb : (RaftConsensus.ballots (electedBy C)).Holds v')
    (hf : (fixedConfiguration C).Holds v') (hst : Steps LogEntry.term (quorums C) g g')
    (ho : ∀ m, m ≠ n → g'.term m = g.term m ∧ g'.log m = g.log m) (hbids : ∀ m, g'.bid m 0 = none)
    (hsites : ∀ m, m ≠ n → v'.sites m = v.sites m) (hd : OnDisk g' n (v'.sites n).disk)
    (hn : ∀ c calls, v'.sites n = .up c calls → c.started = true → InMemory g' n c)
    (hr : OnRecord g' v'.toTrace) : Mirrors C v' g' := by
  have hg := h.sound.grows (quorums_intersecting C) hst
  refine ⟨hb, hf, h.sound.steps (quorums_intersecting C) hst, hbids, fun m ↦ ?_,
    fun m c calls hs hc ↦ ?_,
    hr⟩
  · by_cases hm : m = n
    · subst hm
      exact hd
    · rw [hsites m hm]
      exact (h.disk m).mono h.sound hg (ho m hm).1 (ho m hm).2
  · by_cases hm : m = n
    · subst hm
      exact hn c calls hs hc
    · rw [hsites m hm] at hs
      exact (h.node m c calls hs hc).mono h.sound hg (ho m hm).1 (ho m hm).2

theorem onDisk {s : Site} (h : Mirrors C v g) (hs : v.sites n = s) : OnDisk g n s.disk :=
  hs ▸ h.disk n

theorem put {s s' : Site} (h : Mirrors C v g) (hs : v.sites n = s)
    (hb : (RaftConsensus.ballots (electedBy C)).Holds (v.put n s'))
    (hf : (fixedConfiguration C).Holds (v.put n s')) (hd : s'.disk = s.disk)
    (hn : ∀ c calls, s' = .up c calls → c.started = true → InMemory g n c) :
    ∃ g', Steps LogEntry.term (quorums C) g g' ∧ Mirrors C (v.put n s') g' := by
  have hput : (v.put n s').sites n = s' := update_self ..
  refine ⟨g, .refl, h.update hb hf .refl (fun _ _ ↦ ⟨rfl, rfl⟩) h.bids
    (fun m hm ↦ update_of_ne hm ..) ?_ (hput.symm ▸ hn) h.record⟩
  rw [hput, hd]
  exact h.onDisk hs

theorem toLocal (h : Mirrors C v g) (hs : v.sites n = .up c calls) (hst : c.started = true) :
    Local C g v.toTrace n c calls :=
  ⟨hst, h.ballots.up hs, h.ballots.all, h.fixed.up hs, h.sound, h.bids, h.onDisk hs,
    h.node n c calls hs hst, h.record⟩

/-- A node that starts takes over what its disk holds. -/
theorem boot {state : RaftState} {lastTerm : ℕ} (hk : KeepsBallot t n c calls)
    (hd : OnDisk g n c.disk) (hn : c.started = false) (hst : state = .follower ∨ state = .learner)
    (hl : c.snapshot.snapshots = [] → lastTerm = c.endTerm) :
    InMemory g n (c.boot state lastTerm) := by
  obtain ⟨cfg, hc⟩ := hk.idle hn
  have hfresh : c.commitIndex = 0 ∧ c.lastTerm = 0 ∧ c.matchIndex = ∅ := by
    rw [hc]
    exact ⟨rfl, rfl, rfl⟩
  have hsnap : c.snapshot.snapshots = [] := hk.disk.bare
  have hsnapIndex : c.snapIndex = 0 := by simp [Core.snapIndex, SnapshotStore.latest, hsnap]
  have hlog : c.log.Holds (g.log n) := hd.log
  have hlast := hlog.lastIndex
  have hstate : state ≠ .leader := by
    rcases hst with rfl | rfl <;> simp
  refine ⟨?_, ?_, ?_, (fun _ h ↦ by cases h), (fun _ h ↦ by cases h), fun h ↦ absurd h hstate,
    fun h ↦ absurd h hstate, ?_⟩
  · show max c.log.lastIndex c.snapIndex = _
    rw [hsnapIndex, hlast, Nat.max_zero]
  · show lastTerm = _
    rw [hl hsnap, Core.endTerm, hlast, hfresh.2.1]
    split
    · rename_i hpos
      have hget : (g.log n)[(g.log n).length - 1]? = some (g.log n)[(g.log n).length - 1] :=
        List.getElem?_eq_getElem _
      rw [hlog.get hpos hget, lastTerm_getElem hget]
      rfl
    · rename_i h0
      rw [List.length_eq_zero_iff.mp (Nat.eq_zero_of_not_pos h0)]
      rfl
  · show Committed g (g.term n)
      (min (max (c.stable.commitIndex.getD c.commitIndex) c.snapIndex) _) _
    rw [hsnapIndex, Nat.max_zero]
    refine Committed.of_le ?_ (min_le_left _ _)
    cases hk : c.stable.commitIndex with
    | none =>
      rw [hfresh.1]
      exact Committed.zero _ _
    | some k => exact hd.commit k hk
  · show n ∉ c.matchIndex
    rw [hfresh.2.2]
    exact notMem_empty n

/-- A node that answers a request with success confirms what it has of the leader's list. -/
theorem answer (h : Mirrors C v g) {i stamp : ℕ} {p : Packet} {resp : Response}
    (hs : v.sites n = .up c calls) (hst : c.started = true) (hp : v.net[i]? = some p)
    (hpr : c.Promises (fun e ↦ (n, e) ∈ v.history) p.req resp) (hd : p.dst = n) :
    ∃ g', Steps LogEntry.term (quorums C) g g' ∧ g'.term = g.term ∧ g'.log = g.log ∧
    g'.bid = g.bid ∧
      OnRecord g' (v.toTrace.addReply ⟨i, resp, stamp⟩) := by
  have hl := h.toLocal hs hst
  have hrecord {g' : LedgerState} (hg : Grows g g') (hv : g'.vote = g.vote)
      (hnew : ∀ req resp', p.req = .appendEntries req → resp = .appendEntries resp' →
        resp'.success = true → Raft.lastReqIndex req ≤ g'.acked p.dst req.term) :
      OnRecord g' (v.toTrace.addReply ⟨i, resp, stamp⟩) := by
    have hr : OnRecord g' (v.toTrace.publish n []) :=
      h.record.publish_unrecorded h.sound hg hv (by simp)
    rw [Trace.publish_nil] at hr
    refine { hr with acks := fun a ha ↦ ?_ }
    rcases List.mem_append.mp ha with ha | ha
    · exact hr.acks a ha
    · rw [List.mem_singleton.mp ha]
      exact ⟨p, hp, hnew⟩
  by_cases hok : ∃ req resp', p.req = .appendEntries req ∧ resp = .appendEntries resp' ∧
      resp'.success = true
  · obtain ⟨req, resp', hreq, rfl, hsucc⟩ := hok
    rw [hreq] at hpr
    obtain ⟨-, hterm, hag⟩ := hpr hsucc
    obtain ⟨hled, hseg⟩ := h.record.appends p (List.mem_of_getElem? hp) req hreq
    have hterm' : g.term n = req.term := hl.term.symm.trans hterm
    obtain ⟨htake, -, hlen⟩ := hl.agree hseg hag
    have hstep : Step LogEntry.term (quorums C) g (g.ack n (Raft.lastReqIndex req)) := by
      refine .ack n p.src _ (hterm' ▸ hled) (hterm' ▸ hlen) ?_
      rw [hterm', ← htake]
      exact List.take_prefix _ _
    refine ⟨_, .single hstep, rfl, rfl, rfl, hrecord (hstep.grows h.sound.lists) rfl ?_⟩
    intro req' resp' hreq' hresp _
    cases hreq.symm.trans hreq'
    rw [Ledger.acked_ack, if_pos ⟨hd, hterm'.symm⟩]
    exact le_max_left _ _
  · refine ⟨g, .refl, rfl, rfl, rfl, hrecord (Grows.refl g) rfl fun req resp' hreq hresp hsucc ↦ ?_⟩
    exact absurd ⟨req, resp', hreq, hresp, hsucc⟩ hok

/-- The ledger simulates the nodes: it can go along with every step. -/
theorem micro (hC : cl.Fixed C) (h : Mirrors C v g)
    (hm : Micro cl fixedRules (electedBy C) since v v') :
    ∃ g', Steps LogEntry.term (quorums C) g g' ∧ Mirrors C v' g' := by
  have hb : (RaftConsensus.ballots (electedBy C)).Holds v' :=
    (ballots_kept (electedBy_meets C) ⟨rfl, rfl, rfl⟩ :
      (RaftConsensus.ballots (electedBy C)).Kept cl fixedRules (electedBy C) since).micro
      hm h.ballots
  have hf : (fixedConfiguration C).Holds v' :=
    (fixedConfiguration_kept hC ⟨rfl, rfl⟩ :
      (fixedConfiguration C).Kept cl fixedRules (electedBy C) since).micro hm h.fixed
  cases hm with
  | @move n c c' calls inp out hs hst ho hm =>
    have hl := h.toLocal hs (hst.resolve_right nofun)
    obtain ⟨g', hg'⟩ := hl.move ho hm
    have hup : ((v.publish n out).put n (.up c' (calls ++ v.newCalls n out))).sites n =
        .up c' (calls ++ v.newCalls n out) := update_self ..
    refine ⟨g', hg'.steps, h.update hb hf hg'.steps hg'.others hg'.bids
      (fun m hm ↦ update_of_ne hm ..) ?_ (fun c₁ calls₁ hs₁ _ ↦ ?_) hg'.record⟩
    · rw [hup]
      exact hg'.disk
    · rw [hup] at hs₁
      cases hs₁
      exact hg'.node
  | @boot n c calls state lastTerm hs hn hsd hst hl =>
    refine h.put hs hb hf rfl fun c₁ calls₁ hs₁ _ ↦ ?_
    cases hs₁
    exact boot (h.ballots.up hs) (h.onDisk hs) hn hst hl
  | @idle n c calls e hs hn he =>
    refine ⟨g, .refl, hb, hf, h.sound, h.bids, h.disk, h.node, ?_⟩
    refine h.record.publish_unrecorded h.sound (Grows.refl g) rfl fun x hx ↦ ?_
    rw [List.mem_singleton.mp hx]
    cases e <;> first | rfl | cases he
  | @create n d cfg hs hc hn =>
    refine h.put hs hb hf rfl fun c₁ calls₁ hs₁ hst ↦ ?_
    cases hs₁
    cases hst
  | @crash n c calls hs =>
    refine h.put hs hb hf rfl fun c₁ calls₁ hs₁ _ ↦ ?_
    cases hs₁
  | @drop n c calls calls' hs hsub =>
    refine h.put hs hb hf rfl fun c₁ calls₁ hs₁ hst ↦ ?_
    cases hs₁
    exact h.node n c calls hs hst
  | @answer n c calls i p resp stamp hs hst hp hd hk hpr =>
    obtain ⟨g', hsteps, hterm, hlog, hbid, hr⟩ := h.answer hs (hst.resolve_right nofun) hp hpr hd
    have hg := h.sound.grows (quorums_intersecting C) hsteps
    refine ⟨g', hsteps, hb, hf, h.sound.steps (quorums_intersecting C) hsteps, hbid ▸ h.bids,
      fun m ↦ (h.disk m).mono h.sound hg (congrFun hterm m) (congrFun hlog m),
      fun m c calls hs hc ↦ (h.node m c calls hs hc).mono h.sound hg (congrFun hterm m)
      (congrFun hlog m), hr⟩

theorem init {σ : Type} : Mirrors C (World.init : World σ).view Ledger.State.init := by
  have hdown (n : ServerID) : (World.init : World σ).view.sites n = .down Disk.empty := rfl
  refine ⟨ballots_init, fixedConfiguration_init, Sound.init, fun _ ↦ rfl, fun n ↦ ?_,
    fun n c calls hs _ ↦ ?_, ⟨?_, ?_, ?_, ?_, ?_, ?_⟩⟩
  · rw [hdown n]
    exact ⟨rfl, LogStore.Holds.empty, nofun⟩
  · rw [hdown n] at hs
    cases hs
  all_goals simp [World.view, World.init, Ledger.State.init]

theorem micros (hC : cl.Fixed C) (h : Mirrors C v g)
    (hm : Micros cl fixedRules (electedBy C) since v v') :
    ∃ g', Steps LogEntry.term (quorums C) g g' ∧ Mirrors C v' g' := by
  induction hm with
  | refl => exact ⟨g, .refl, h⟩
  | tail _ hm ih =>
    obtain ⟨g₁, hst, h₁⟩ := ih
    obtain ⟨g₂, hst', h₂⟩ := h₁.micro hC hm
    exact ⟨g₂, hst.trans hst', h₂⟩

end Mirrors

end RaftConsensus
