import RaftConsensus.View

namespace RaftConsensus

open List Function

variable {σ : Type} {cl : Cluster} {R : Rules} {L : Licence} {since : ℕ}

section Idle

variable {r r' : Raft σ}

structure Idle (r r' : Raft σ) : Prop where
  core : r'.core = r.core
  journal : r'.journal = r.journal
  outbox : ∃ notes, r'.outbox = r.outbox ++ notes ∧
    ∀ x ∈ notes, ∃ e : Event, e.idle = true ∧ x = .note e

theorem Idle.refl (r : Raft σ) : Idle r r := ⟨rfl, rfl, [], (append_nil _).symm, by simp⟩

theorem Idle.of_quiet (h : Quiet r r') : Idle r r' := by
  obtain ⟨notes, hn, ho⟩ := h.outbox
  refine ⟨h.core, h.journal, notes, ho, fun x hx ↦ ?_⟩
  obtain ⟨e, he, rfl⟩ := hn x hx
  refine ⟨e, ?_, rfl⟩
  cases e <;> first | rfl | cases he

theorem exec_fresh (F : FSM σ) {cfg : Config} {n : ServerID} {d : Disk} {op : Raft.Op}
    (hf : r.core = .fresh cfg n d) (h : r.exec F op = some r') :
    (∃ rnd, op = .start rnd ∧ r' = r.start rnd) ∨ Idle r r' := by
  have hstate : r.state = .shutdown := congrArg Core.state hf
  have hrun : r.run = .off := congrArg Core.run hf
  have hstarted : r.started = false := congrArg Core.started hf
  have hrepl : r.inflightReplication = ∅ := congrArg Core.inflightReplication hf
  have hreads : r.reads = ∅ := congrArg Core.reads hf
  cases op with
  | start rnd =>
    simp only [Raft.exec, hstarted, Bool.false_eq_true, if_false, Option.some.injEq] at h
    exact .inl ⟨rnd, rfl, h.symm⟩
  | shutdown => simp [Raft.exec, hstarted] at h
  | tick rnd now order =>
    simp only [Raft.exec, Raft.readClock, Raft.selected] at h
    split at h
    · split at h
      · simp [hrun] at h
      · cases h
    · cases h
  | propose batch => simp [Raft.exec, Raft.selected, hrun] at h
  | commitNotify => simp [Raft.exec, Raft.selected, hrun] at h
  | persistCommit => simp [Raft.exec, hrun] at h
  | heartbeatTrigger => simp [Raft.exec, Raft.selected, hrun] at h
  | snapshot => simp [Raft.exec, hrun] at h
  | restore future data => simp [Raft.exec, hrun] at h
  | stop => simp [Raft.exec, hrun] at h
  | runStep rnd => simp [Raft.exec, Raft.runStep, hrun] at h
  | replicate target => simp [Raft.exec, Raft.replicateStep, hrepl] at h
  | snapshotChunk target n done => simp [Raft.exec, hrepl] at h
  | snapshotSent target now => simp [Raft.exec, hrepl] at h
  | addServer target addr =>
    simp only [Raft.exec, Raft.addServer, hstate, Option.some.injEq] at h
    exact .inr (h ▸ .refl r)
  | removeServer target =>
    simp only [Raft.exec, Raft.removeServer, hstate, Option.some.injEq] at h
    exact .inr (h ▸ .refl r)
  | replaceServer oldID newID newAddr =>
    simp only [Raft.exec, Raft.replaceServer, hstate, Option.some.injEq] at h
    exact .inr (h ▸ .refl r)
  | addLearner target addr =>
    simp only [Raft.exec, Raft.addLearner, hstate, Option.some.injEq] at h
    exact .inr (h ▸ .refl r)
  | promoteLearner target =>
    simp only [Raft.exec, Raft.promoteLearner, hstate, Option.some.injEq] at h
    exact .inr (h ▸ .refl r)
  | requestLeadership id =>
    cases h
    exact .inr (.of_quiet (r.quiet_requestLeadership id))
  | cancelTransfer id =>
    cases h
    exact .inr (.of_quiet (r.quiet_cancelTransfer id))
  | readIndex id =>
    have hr' : r' = (r.emit (.note (.readBegan id r.term r.commitIndex))).readReturn id
        (.error .notLeader) := by
      simpa [Raft.exec, Raft.readBegin, Raft.emit, hstate] using h.symm
    subst hr'
    refine .inr ⟨?_, rfl, [.note (.readBegan id r.term r.commitIndex),
      .note (.readReturned id (.error .notLeader))], append_assoc _ _ _, ?_⟩
    · change ({ r.core with reads := r.reads.erase id } : Core) = r.core
      have hnone : r.reads.erase id = r.reads := by
        rw [hreads]
        rfl
      rw [hnone]
      rfl
    · simp [Event.idle]
  | readStart id now start => simp [Raft.exec, hreads] at h
  | readPoll id => simp [Raft.exec, hreads] at h
  | readTimer id => simp [Raft.exec, hreads] at h
  | readAbort id => simp [Raft.exec, hreads] at h

end Idle

namespace World

section Anatomy

variable {F : FSM σ} {w w' : World σ}

inductive Fires (F : FSM σ) (w : World σ) : Trigger → ServerID → Raft σ → List ℕ → Raft σ →
    List ℕ → Option Reply → Prop
  | op {n : ServerID} {o : Raft.Op} {r r' : Raft σ} {calls : List ℕ}
      (hh : w.hosts n = .up r calls) (hn : o.namedAt w.history.length = true)
      (hx : r.exec F o = some r') : Fires F w (.op n o) n r calls r' calls none
  | deliver {i rnd : ℕ} {p : Packet} {r : Raft σ} {calls : List ℕ} (hp : w.net[i]? = some p)
      (hh : w.hosts p.dst = .up r calls) :
      Fires F w (.deliver i rnd) p.dst r calls (r.handle F rnd p.req).1 calls
        (some ⟨i, (r.handle F rnd p.req).2, w.history.length⟩)
  | reply {j : ℕ} {now : ℤ} {a : Reply} {p : Packet} {r r' : Raft σ} {calls : List ℕ}
      (ha : w.replies[j]? = some a) (hp : w.net[a.call]? = some p)
      (hh : w.hosts p.src = .up r calls) (hmem : a.call ∈ calls)
      (hx : r.receive p.dst now p.req a.resp = some r') :
      Fires F w (.reply j now) p.src r calls r' (calls.erase a.call) none
  | fail {i : ℕ} {p : Packet} {r r' : Raft σ} {calls : List ℕ} (hp : w.net[i]? = some p)
      (hh : w.hosts p.src = .up r calls) (hmem : i ∈ calls)
      (hx : r.callFailed p.dst p.req = some r') :
      Fires F w (.fail i) p.src r calls r' (calls.erase i) none

variable {t : Trigger}

theorem Fires.hosts {n : ServerID} {r r' : Raft σ} {calls calls' : List ℕ}
    {reply : Option Reply} (h : Fires F w t n r calls r' calls' reply) :
    w.hosts n = .up r calls := by
  cases h with
  | op hh _ _ => exact hh
  | deliver _ hh => exact hh
  | reply _ _ hh _ _ => exact hh
  | fail _ hh _ _ => exact hh

theorem fires_of_fire {n : ServerID} {r' : Raft σ} {calls' : List ℕ}
    {reply : Option Reply} (h : w.fire F t = some (n, r', calls', reply)) :
    ∃ r calls, Fires F w t n r calls r' calls' reply := by
  cases t with
  | op m o =>
    simp only [fire] at h
    split at h
    · cases h
    · split at h
      · obtain ⟨r₁, hx, heq⟩ := Option.map_eq_some_iff.mp h
        cases heq
        exact ⟨_, _, .op ‹_› ‹_› hx⟩
      · cases h
  | deliver i rnd =>
    simp only [fire] at h
    split at h
    · cases h
    · split at h
      · cases h
      · cases h
        exact ⟨_, _, .deliver ‹_› ‹_›⟩
  | reply j now =>
    simp only [fire] at h
    split at h
    · cases h
    · split at h
      · cases h
      · split at h
        · cases h
        · split at h
          · obtain ⟨r₁, hx, heq⟩ := Option.map_eq_some_iff.mp h
            cases heq
            exact ⟨_, _, .reply ‹_› ‹_› ‹_› ‹_› hx⟩
          · cases h
  | fail i =>
    simp only [fire] at h
    split at h
    · cases h
    · split at h
      · cases h
      · split at h
        · obtain ⟨r₁, hx, heq⟩ := Option.map_eq_some_iff.mp h
          cases heq
          exact ⟨_, _, .fail ‹_› ‹_› ‹_› hx⟩
        · cases h

inductive Goes (cl : Cluster) (F : FSM σ) (w : World σ) : Action → World σ → Prop
  | create {n : ServerID} {cfg : Config} {d : Disk} {r : Raft σ} (hh : w.hosts n = .down d)
      (hc : cl.config n = some cfg) (hr : Raft.newRaft F cfg n d = some r) :
      Goes cl F w (.create n) (w.setHost n (.up r []))
  | crash {n : ServerID} {r : Raft σ} {calls : List ℕ} (hh : w.hosts n = .up r calls) :
      Goes cl F w (.crash n) (w.setHost n (.down r.disk))
  | run {t : Trigger} {n : ServerID} {r' : Raft σ} {calls : List ℕ} {reply : Option Reply}
      (hf : w.fire F t = some (n, r', calls, reply)) :
      Goes cl F w (.run t none) ((w.settle n r' calls).addReply reply)
  | torn {t : Trigger} {k : ℕ} {n : ServerID} {r' : Raft σ} {calls : List ℕ}
      {reply : Option Reply} {d : Disk} {out : List Effect}
      (hf : w.fire F t = some (n, r', calls, reply)) (hd : (d, out) ∈ r'.journal) :
      Goes cl F w (.run t (some k)) (w.crashAt n d out)

theorem goes_of_step {a : Action} (h : w.step cl F a = some w') : Goes cl F w a w' := by
  cases a with
  | create n =>
    simp only [step] at h
    split at h
    · obtain ⟨r, hr, rfl⟩ := Option.map_eq_some_iff.mp h
      exact .create ‹_› ‹_› hr
    · cases h
  | crash n =>
    simp only [step] at h
    split at h
    · cases h
    · cases h
      exact .crash ‹_›
  | run t k =>
    cases k with
    | none =>
      simp only [step] at h
      obtain ⟨_, hf, rfl⟩ := Option.map_eq_some_iff.mp h
      exact .run hf
    | some k =>
      simp only [step] at h
      obtain ⟨_, hf, h⟩ := Option.bind_eq_some_iff.mp h
      obtain ⟨_, hd, rfl⟩ := Option.map_eq_some_iff.mp h
      exact .torn hf (mem_of_getElem? hd)

end Anatomy

def site : Host σ → Site
  | .down d => .down d
  | .up r calls => .up r.core calls

def view (w : World σ) : View := ⟨⟨w.net, w.replies, w.history⟩, fun n ↦ site (w.hosts n)⟩

/-- Between the critical sections: nothing is left to hand out, an object that was not
started is as `newRaft` made it, and the entries of a request follow one another. -/
structure Tidy (cl : Cluster) (R : Rules) (w : World σ) : Prop where
  clear : ∀ n r calls, w.hosts n = .up r calls → r.outbox = [] ∧ r.journal = []
  fresh : ∀ n r calls, w.hosts n = .up r calls → r.started = true ∨ R.early ∨
    ∃ cfg, r.core = .fresh cfg n r.disk ∧ calls = []
  wired : ∀ p ∈ w.net, p.req.Contiguous

/-- The steps of a run of the kinds `R` in which every node that takes an input has the
licence for it. -/
def Permits (R : Rules) (L : Licence) (w : World σ) : Action → Prop
  | .create _ | .crash _ => True
  | .run (.op n op) _ => op.allowed R = true ∧ ∀ r calls, w.hosts n = .up r calls →
      L.Covers (op.mayLead r = true) (.op w.history.length) r.core
  | .run (.deliver i _) _ => ∀ p r calls, w.net[i]? = some p → w.hosts p.dst = .up r calls →
      (r.started = true ∨ R.early) ∧ L.Covers (p.req = .timeoutNow) (.request p.req) r.core
  | .run (.reply j _) _ => ∀ a p r calls, w.replies[j]? = some a → w.net[a.call]? = some p →
      w.hosts p.src = .up r calls →
      L.Covers (p.req.mayLead r = true) (.reply p.dst p.req a.resp a.stamp) r.core
  | .run (.fail _) _ => True

inductive Fired (cl : Cluster) (R : Rules) (L : Licence) (since : ℕ) (w : World σ) (n : ServerID)
    (r : Raft σ) (calls : List ℕ) (r' : Raft σ) : List ℕ → Option Reply → Prop
  | does {inp : Input} {calls' : List ℕ} (hst : r.started = true ∨ R.early)
      (ho : w.view.Offers since n calls inp) (hd : Does R L.open inp r r') (hsub : calls' ⊆ calls) :
      Fired cl R L since w n r calls r' calls' none
  | handles {p : Packet} (i : ℕ) (resp : Response) (hst : r.started = true ∨ R.early)
      (hp : w.net[i]? = some p) (hn : p.dst = n) (hd : Does R L.open (.request p.req) r r')
      (hpr : r'.core.Promises (fun e ↦ .note e ∈ r'.outbox) p.req resp) :
      Fired cl R L since w n r calls r' calls (some ⟨i, resp, w.history.length⟩)
  | starts {cfg : Config} (rnd : ℕ) (hf : r.core = .fresh cfg n r.disk) (hc : calls = [])
      (h : r' = r.start rnd) : Fired cl R L since w n r calls r' calls none
  | idles {cfg : Config} (hf : r.core = .fresh cfg n r.disk) (hc : calls = []) (h : Idle r r') :
      Fired cl R L since w n r calls r' calls none

theorem fire_fired {F : FSM σ} {w : World σ} {t : Trigger} {n : ServerID} {r' : Raft σ}
    {calls' : List ℕ} {reply : Option Reply} {k : Option ℕ} (ht : w.Tidy cl R)
    (hp : w.Permits R L (.run t k)) (hk : since ≤ w.history.length)
    (h : w.fire F t = some (n, r', calls', reply)) :
    ∃ r calls, w.hosts n = .up r calls ∧ Fired cl R L since w n r calls r' calls' reply := by
  obtain ⟨r, calls, hf⟩ := fires_of_fire h
  refine ⟨r, calls, hf.hosts, ?_⟩
  have hcalled {i : ℕ} (hmem : i ∈ calls) : r.started = true ∨ R.early := by
    rcases ht.fresh _ r calls hf.hosts with hst | hR | ⟨_, _, rfl⟩
    · exact .inl hst
    · exact .inr hR
    · cases hmem
  cases hf with
  | op hh hn hx =>
    have hdoes (hst : r.started = true ∨ R.early) :
        Fired cl R L since w n r calls' r' calls' none :=
      .does hst (.op _ hk) (r.does_exec F rfl hn hp.1 (hp.2 r calls' hh) (fun _ ↦ trivial)
        (fun _ _ ↦ ⟨trivial, trivial⟩) (L.open_allows F r _) hx) fun _ ↦ id
    rcases ht.fresh n r calls' hh with hst | hR | ⟨cfg, hf, hc⟩
    · exact hdoes (.inl hst)
    · exact hdoes (.inr hR)
    · rcases exec_fresh F hf hx with ⟨rnd, -, hr'⟩ | hidle
      · exact .starts rnd hf hc hr'
      · exact .idles hf hc hidle
  | @deliver i rnd p _ _ hpkt hh =>
    obtain ⟨hst, hL⟩ := hp p r calls' hpkt hh
    have hL : L.open.toLicence.Covers _ _ _ := hL
    obtain ⟨hd, hpr⟩ := r.does_handle (R := R) F rnd rfl (ht.wired p (mem_of_getElem? hpkt))
      hL (fun _ _ ↦ ⟨trivial, trivial⟩) fun _ _ _ _ ↦ trivial
    exact .handles i _ hst hpkt rfl hd hpr
  | @reply j now a p _ _ _ ha hpkt hh hmem hx =>
    exact .does (hcalled hmem) (.reply a p (mem_of_getElem? ha) hmem hpkt rfl)
      (r.does_receive rfl (hp a p r calls ha hpkt hh) (fun _ _ ↦ ⟨trivial, trivial⟩) hx)
      erase_subset
  | fail hpkt hh hmem hx =>
    exact .does (hcalled hmem) (.op _ hk) (r.does_callFailed hx) erase_subset

section Step

variable {F : FSM σ} {w w' : World σ} {n : ServerID} {r r' : Raft σ} {calls calls' : List ℕ}
  {reply : Option Reply}

theorem sites_update (hosts : ServerID → Host σ) (n : ServerID) (h : Host σ) :
    (fun m ↦ site (update hosts n h m)) =
      update (fun m ↦ site (hosts m)) n (site h) := by
  funext m
  by_cases hm : m = n
  · subst hm
    simp
  · simp [hm]

theorem view_setHost (w : World σ) (n : ServerID) (h : Host σ) :
    (w.setHost n h).view = w.view.put n (site h) := by
  simp only [view, setHost, View.put, sites_update]

theorem view_settle (w : World σ) (n : ServerID) (r : Raft σ) (calls : List ℕ) :
    (w.settle n r calls).view = (w.view.publish n r.outbox).put n
      (.up r.core (calls ++ w.view.newCalls n r.outbox)) := view_setHost _ _ _

theorem view_crashAt (w : World σ) (n : ServerID) (d : Disk) (out : List Effect) :
    (w.crashAt n d out).view = (w.view.publish n out).put n (.down d) := view_setHost _ _ _

variable {d : Disk} {notes out : List Effect}

theorem newCalls_notes (t : Trace)
    (h : ∀ x ∈ notes, ∃ e : Event, e.idle = true ∧ x = .note e) : t.newCalls n notes = [] := by
  have hnone : packetsOf n notes = [] := by
    refine eq_nil_iff_forall_not_mem.mpr fun p hp ↦ ?_
    obtain ⟨_, _, heq⟩ := h _ (mem_packetsOf.mp hp).2
    cases heq
  rw [Trace.newCalls, hnone]
  rfl

theorem micros_idle {v : View} {c : Core} (hs : v.sites n = .up c calls)
    (hc : c.started = false) (h : ∀ x ∈ notes, ∃ e : Event, e.idle = true ∧ x = .note e) :
    Micros cl R L since v (v.publish n notes) := by
  induction notes using reverseRecOn with
  | nil =>
    rw [View.publish_nil]
    exact .refl
  | append_singleton notes x ih =>
    obtain ⟨e, he, rfl⟩ := h x (by simp)
    rw [View.publish_append]
    exact (ih fun y hy ↦ h y (by simp [hy])).tail (.idle e hs hc he)

theorem micros_of_does {inp : Input} (hd : Does R L.open inp r r') (hh : w.hosts n = .up r calls)
    (ho : r.outbox = []) (hst : r.started = true ∨ R.early)
    (hoff : w.view.Offers since n calls inp) :
    Micros cl R L since w.view (w.settle n r' calls).view := by
  obtain ⟨out, hout, hp⟩ := hd.path
  rw [ho, nil_append] at hout
  rw [view_settle, hout]
  exact hp.micros (congrArg site hh) hst hoff

theorem Fired.micros (hf : Fired cl R L since w n r calls r' calls' reply)
    (hh : w.hosts n = .up r calls) (ho : r.outbox = []) :
    Micros cl R L since w.view ((w.settle n r' calls').addReply reply).view := by
  have hs : w.view.sites n = .up r.core calls := congrArg site hh
  have hnone (calls : List ℕ) : ((w.settle n r' calls).addReply none).view =
      (w.settle n r' calls).view := by
    simp [addReply]
  cases hf with
  | does hst hoff hd hsub =>
    have hs' : (w.settle n r' calls).view.sites n =
        .up r'.core (calls ++ w.view.newCalls n r'.outbox) := by
      rw [view_settle]
      exact update_self ..
    have heq : (w.settle n r' calls').view =
        (w.settle n r' calls).view.put n (.up r'.core (calls' ++ w.view.newCalls n r'.outbox)) := by
      rw [view_settle, view_settle, View.put_put]
    have hdrop : Micro cl R L since (w.settle n r' calls).view (w.settle n r' calls').view := by
      rw [heq]
      exact .drop hs' (append_subset.mpr ⟨fun x hx ↦ mem_append_left _ (hsub hx),
        subset_append_right _ _⟩)
    rw [hnone]
    exact (micros_of_does hd hh ho hst hoff).tail hdrop
  | @handles p i resp hst hp hn hd hpr =>
    have hmem : p ∈ w.net := mem_of_getElem? hp
    refine (micros_of_does hd hh ho hst (.request p hmem hn)).tail ?_
    have hs' : (w.settle n r' calls).view.sites n =
        .up r'.core (calls ++ w.view.newCalls n r'.outbox) := by
      rw [view_settle]
      exact update_self ..
    obtain ⟨out, hout, hpath⟩ := hd.path
    refine .answer i p resp w.history.length hs' (hst.imp_left hpath.started) ?_ hn ?_
      (hpr.mono fun e he ↦ ?_)
    · exact getElem?_append_left (List.getElem?_eq_some_iff.mp hp).1 ▸ hp
    · exact length_append ▸ Nat.le_add_right _ _
    · exact mem_append_right _ (mem_eventsOf.mpr ⟨rfl, he⟩)
  | @starts cfg rnd hf hc h =>
    obtain ⟨lastTerm, hcore, hlast, hout, -⟩ := r.start_spec rnd (congrArg Core.state hf)
    rw [hnone, view_settle, h, hout, ho, View.publish_nil, hcore,
      show w.view.newCalls n [] = [] from rfl, append_nil]
    refine .single (.boot _ lastTerm hs (congrArg Core.started hf)
      (congrArg Core.state hf) ?_ hlast)
    split
    · exact .inr rfl
    · exact .inl rfl
  | @idles cfg hf hc h =>
    obtain ⟨notes, hout, hn⟩ := h.outbox
    rw [hnone, view_settle, hout, ho, nil_append, h.core, newCalls_notes _ hn, append_nil]
    have hs' : (w.view.publish n notes).sites n = .up r.core calls := hs
    rw [View.put_self hs']
    exact micros_idle hs (congrArg Core.started hf) hn

theorem Fired.torn (hf : Fired cl R L since w n r calls r' calls' reply)
    (hh : w.hosts n = .up r calls) (ho : r.outbox = []) (hj : r.journal = [])
    (hx : (d, out) ∈ r'.journal) :
    Micros cl R L since w.view (w.crashAt n d out).view ∧
      ∀ p ∈ packetsOf n out, p.req.Contiguous := by
  have hdoes {inp : Input} (hst : r.started = true ∨ R.early)
      (hoff : w.view.Offers since n calls inp) (hd : Does R L.open inp r r') :
      Micros cl R L since w.view (w.crashAt n d out).view ∧
        ∀ p ∈ packetsOf n out, p.req.Contiguous := by
    rcases hd.torn _ hx with hx | ⟨o, c, hp, heq⟩
    · rw [hj] at hx
      cases hx
    · rw [ho, nil_append] at heq
      cases heq
      have hcrash : Micro cl R L since _ _ :=
        .crash (v := (w.view.publish n out).put n (.up c (calls ++ w.view.newCalls n out)))
          (update_self ..)
      rw [View.put_put] at hcrash
      rw [view_crashAt]
      exact ⟨(hp.micros (congrArg site hh) hst hoff).tail hcrash,
        fun p hmem ↦ hp.wired (mem_packetsOf.mp hmem).2⟩
  cases hf with
  | does hst hoff hd hsub => exact hdoes hst hoff hd
  | @handles p i resp hst hp hn hd hpr =>
    exact hdoes hst (.request p (mem_of_getElem? hp) hn) hd
  | starts rnd hf hc h =>
    obtain ⟨_, _, _, _, hjournal⟩ := r.start_spec rnd (congrArg Core.state hf)
    rw [h, hjournal, hj] at hx
    cases hx
  | idles hf hc h =>
    rw [h.journal, hj] at hx
    cases hx

theorem Fired.wired (hf : Fired cl R L since w n r calls r' calls' reply) (ho : r.outbox = [])
    {p : Packet} (hp : p ∈ packetsOf n r'.outbox) : p.req.Contiguous := by
  have hrpc := (mem_packetsOf.mp hp).2
  have hdoes {inp : Input} (hd : Does R L.open inp r r') : p.req.Contiguous := by
    obtain ⟨out, hout, hpath⟩ := hd.path
    rw [hout, ho, nil_append] at hrpc
    exact hpath.wired hrpc
  cases hf with
  | does hst hoff hd hsub => exact hdoes hd
  | handles i resp hst hp hn hd hpr => exact hdoes hd
  | starts rnd hf hc h =>
    obtain ⟨_, _, _, hout, _⟩ := r.start_spec rnd (congrArg Core.state hf)
    rw [h, hout, ho] at hrpc
    cases hrpc
  | idles hf hc h =>
    obtain ⟨notes, hout, hn⟩ := h.outbox
    rw [hout, ho, nil_append] at hrpc
    obtain ⟨_, _, heq⟩ := hn _ hrpc
    cases heq

theorem Fired.fresh (hf : Fired cl R L since w n r calls r' calls' reply) (ho : r.outbox = []) :
    r'.started = true ∨ R.early ∨
      ∃ cfg, r'.core = .fresh cfg n r'.disk ∧ calls' ++ w.view.newCalls n r'.outbox = [] := by
  have hdoes {inp : Input} (hst : r.started = true ∨ R.early) (hd : Does R L.open inp r r') :
      r'.started = true ∨ R.early := by
    obtain ⟨out, hout, hpath⟩ := hd.path
    exact hst.imp_left hpath.started
  cases hf with
  | does hst hoff hd hsub => exact (hdoes hst hd).imp_right .inl
  | handles i resp hst hp hn hd hpr => exact (hdoes hst hd).imp_right .inl
  | starts rnd hf hc h =>
    obtain ⟨_, hcore, _⟩ := r.start_spec rnd (congrArg Core.state hf)
    rw [h]
    exact .inl (congrArg Core.started hcore)
  | @idles cfg hf hc h =>
    obtain ⟨notes, hout, hn⟩ := h.outbox
    refine .inr (.inr ⟨cfg, ?_, ?_⟩)
    · rw [h.core, show r'.disk = r.disk from congrArg Core.disk h.core]
      exact hf
    · rw [hout, ho, nil_append, hc, newCalls_notes _ hn]
      rfl

theorem Tidy.setHost {h : Host σ} (ht : w.Tidy cl R)
    (hc : ∀ r calls, h = .up r calls → (r.outbox = [] ∧ r.journal = []) ∧
      (r.started = true ∨ R.early ∨ ∃ cfg, r.core = .fresh cfg n r.disk ∧ calls = [])) :
    (w.setHost n h).Tidy cl R := by
  have hsplit (m : ServerID) (r : Raft σ) (calls : List ℕ)
      (hm : (w.setHost n h).hosts m = .up r calls) :
      m = n ∧ h = .up r calls ∨ w.hosts m = .up r calls := by
    by_cases hmn : m = n
    · subst hmn
      exact .inl ⟨rfl, by simpa [World.setHost] using hm⟩
    · exact .inr (by simpa [World.setHost, hmn] using hm)
  refine ⟨fun m r calls hm ↦ ?_, fun m r calls hm ↦ ?_, ht.wired⟩
  · rcases hsplit m r calls hm with ⟨-, hr⟩ | hr
    · exact (hc r calls hr).1
    · exact ht.clear m r calls hr
  · rcases hsplit m r calls hm with ⟨rfl, hr⟩ | hr
    · exact (hc r calls hr).2
    · exact ht.fresh m r calls hr

theorem Tidy.publish (ht : w.Tidy cl R)
    (hw : ∀ p ∈ packetsOf n out, p.req.Contiguous) : (w.publish n out).Tidy cl R := by
  refine ⟨ht.clear, ht.fresh, fun p hp ↦ ?_⟩
  rcases mem_append.mp hp with hp | hp
  · exact ht.wired p hp
  · exact hw p hp

theorem newRaft_fresh {c : Config} (hc : cl.config n = some c)
    (h : Raft.newRaft F c n d = some r) :
    n ≠ "" ∧ r.core = .fresh c n d ∧ r.disk = d ∧ r.outbox = [] ∧ r.journal = [] := by
  obtain ⟨c', hv, rfl⟩ := Option.map_eq_some_iff.mp h
  unfold Config.validate at hv
  split at hv
  · cases hv
  · rename_i hvalid
    cases hv
    refine ⟨?_, rfl, rfl, rfl, rfl⟩
    rintro rfl
    exact hvalid (.inr (.inr (.inr (.inl (cl.localID_eq "" c hc)))))

/-- A step of the world is a run of steps of its view. -/
theorem step_micros {a : Action} (ht : w.Tidy cl R) (hp : w.Permits R L a)
    (hk : since ≤ w.history.length) (h : w.step cl F a = some w') :
    Micros cl R L since w.view w'.view ∧ w'.Tidy cl R ∧ since ≤ w'.history.length := by
  have hlen (out : List Effect) (n : ServerID) : since ≤ (w.publish n out).history.length :=
    hk.trans (length_append ▸ Nat.le_add_right _ _)
  cases goes_of_step h with
  | @create n c d r hd hc hr =>
    obtain ⟨hn, hcore, hdisk, ho, hj⟩ := newRaft_fresh hc hr
    refine ⟨?_, ht.setHost fun r' calls heq ↦ ?_, hk⟩
    · rw [view_setHost,
        show site (.up r []) = .up (.fresh c n d) [] from congrArg (Site.up · []) hcore]
      exact .single (.create (congrArg site hd) hc hn)
    · cases heq
      exact ⟨⟨ho, hj⟩, .inr (.inr ⟨c, by rw [hcore, hdisk], rfl⟩)⟩
  | @crash n r calls hh =>
    have hc : Micro cl R L since w.view (w.view.put n (.down r.core.disk)) :=
      .crash (congrArg site hh)
    refine ⟨?_, ht.setHost (by rintro _ _ ⟨⟩), hk⟩
    rw [view_setHost]
    exact .single hc
  | @run t n r' calls' reply hfire =>
    obtain ⟨r, calls, hh, hf⟩ := fire_fired ht hp hk hfire
    obtain ⟨ho, hj⟩ := ht.clear n r calls hh
    refine ⟨hf.micros hh ho, ?_, hlen _ _⟩
    have htidy : (w.settle n r' calls').Tidy cl R := by
      refine (ht.publish fun p ↦ hf.wired ho).setHost fun _ _ heq ↦ ?_
      cases heq
      exact ⟨⟨rfl, rfl⟩, hf.fresh ho⟩
    exact { htidy with }
  | @torn t k n r' calls' reply d out hfire hx =>
    obtain ⟨r, calls, hh, hf⟩ := fire_fired ht hp hk hfire
    obtain ⟨ho, hj⟩ := ht.clear n r calls hh
    obtain ⟨hm, hw⟩ := hf.torn hh ho hj hx
    exact ⟨hm, (ht.publish hw).setHost (by rintro _ _ ⟨⟩), hlen _ _⟩

theorem tidy_init : (init : World σ).Tidy cl R :=
  ⟨(fun _ _ _ h ↦ nomatch h), (fun _ _ _ h ↦ nomatch h), by simp [init]⟩

variable {P : World σ → Action → Prop} (hP : ∀ w a, P w a → w.Permits R L a)

include hP

theorem steps_micros (ht : w.Tidy cl R) (hk : since ≤ w.history.length) (h : Steps cl F P w w') :
    Micros cl R L since w.view w'.view ∧ w'.Tidy cl R := by
  have key : Micros cl R L since w.view w'.view ∧ w'.Tidy cl R ∧ since ≤ w'.history.length := by
    induction h with
    | refl => exact ⟨.refl, ht, hk⟩
    | tail _ hn ih =>
      obtain ⟨hm, ht', hk'⟩ := ih
      obtain ⟨a, hPa, hstep⟩ := hn
      obtain ⟨hm', ht'', hk''⟩ := step_micros ht' (hP _ _ hPa) hk' hstep
      exact ⟨hm.trans hm', ht'', hk''⟩
  exact ⟨key.1, key.2.1⟩

/-- An invariant of the steps of the view holds in every world that is reached. -/
theorem Reach.invariant {I : View → Prop} (h : Reach cl F P w) (hinit : I (init : World σ).view)
    (hstep : ∀ v v', Micro cl R L 0 v v' → I v → I v') : I w.view := by
  have hrun (v : View) (hm : Micros cl R L 0 (init : World σ).view v) : I v := by
    induction hm with
    | refl => exact hinit
    | tail _ hv ih => exact hstep _ _ hv ih
  exact hrun _ (steps_micros hP tidy_init (Nat.zero_le _) h).1

end Step

end World

end RaftConsensus
