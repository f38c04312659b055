import RaftConsensus.Conditions
import RaftConsensus.Quorums

namespace RaftConsensus

open LogStore World

variable {cl : Cluster} {R : Rules} {L : Licence} {since : ℕ} {C : Configuration}

structure Cluster.Fixed (cl : Cluster) (C : Configuration) : Prop where
  initial : ∀ n cfg, cl.config n = some cfg → cfg.initialConfiguration = C
  voter : ∀ n cfg, cl.config n = some cfg → C.isVoter n = true

def LogEntry.Plain (e : LogEntry) : Prop := ∃ data, e.payload = .normal data

structure FixedNode (C : Configuration) (n : ServerID) (c : Core) : Prop where
  localID : c.localID = n
  voter : C.isVoter n = true
  joint : c.jointConfig = none
  idle : c.started = false → c.state = .shutdown ∧ c.initial = C
  active : c.started = true → c.configuration = C
  log : ∀ i e, c.log.get i = some e → e.Plain
  entry : ∀ e, c.run.entry? = some e → e.Plain
  unjoint : ∀ drain k e, c.run ≠ .applyJoint drain k e

def fixedConfiguration (C : Configuration) : Scheme where
  up _ n c _ := FixedNode C n c
  down _ _ d := ∀ i e, d.log.get i = some e → e.Plain
  all t := ∀ p ∈ t.net, ∀ req, p.req = .appendEntries req → ∀ e ∈ req.entries, e.Plain

/-- No request before `Start`, no membership call, no snapshot and no `Restore`. -/
def fixedRules : Rules := ⟨false, false, false, false⟩

section Move

variable {t : Trace} {n : ServerID} {c c' : Core} {calls : List ℕ} {inp : Input} {out : List Effect}

theorem FixedNode.no_configuration (h : FixedNode C n c) {data : ConfigurationData} :
    ¬ c.AtConfiguration data := by
  rintro ⟨e, hrun, he⟩
  obtain ⟨data', hn⟩ := h.entry e hrun
  rw [he] at hn
  cases hn

theorem FixedNode.keep (h : FixedNode C n c) (hid : c'.localID = c.localID)
    (hj : c'.jointConfig = c.jointConfig) (hst : c.started = true) (hst' : c'.started = true)
    (hc : c'.configuration = c.configuration)
    (hl : ∀ i e, c'.log.get i = some e → c.log.get i = some e ∨ e.Plain)
    (hr : ∀ e, c'.run.entry? = some e → c.run.entry? = some e ∨ c.log.get e.index = some e)
    (hu : ∀ drain k e, c'.run ≠ .applyJoint drain k e) : FixedNode C n c' where
  localID := hid.trans h.localID
  voter := h.voter
  joint := hj.trans h.joint
  idle hn := by
    rw [hst'] at hn
    cases hn
  active _ := hc.trans (h.active hst)
  log i e he := (hl i e he).elim (h.log i e) id
  entry e he := (hr e he).elim (h.entry e) (h.log _ e)
  unjoint := hu

theorem FixedNode.move (hR : R.membership = false) (h : FixedNode C n c)
    (ha : (fixedConfiguration C).all t) (hst : c.started = true) (ho : t.Offers since n calls inp)
    (hm : Move R L.open inp c out c') : FixedNode C n c' := by
  have hlog (i : ℕ) (e : LogEntry) (he : c.log.get i = some e) :
      c.log.get i = some e ∨ e.Plain := .inl he
  have happend {x : LogEntry} (hx : x.Plain) (i : ℕ) (e : LogEntry)
      (he : (c.log.append x).get i = some e) : c.log.get i = some e ∨ e.Plain := by
    refine (get_append_cases he).imp_right ?_
    rintro rfl
    exact hx
  have hrun (e : LogEntry) (he : c.run.entry? = some e) :
      c.run.entry? = some e ∨ c.log.get e.index = some e := .inl he
  cases hm with
  | crown hq hlead =>
    exact h.keep rfl rfl hst hst rfl (happend ⟨_, rfl⟩) hrun h.unjoint
  | lead id hs hi hq hlead =>
    exact h.keep rfl rfl hst hst rfl (happend ⟨_, rfl⟩) hrun h.unjoint
  | propose e hi ht hs hp =>
    exact h.keep rfl rfl hst hst rfl (happend hp) hrun h.unjoint
  | exit e x drain k hi ht hp hjoint => exact absurd hjoint (h.unjoint drain k x)
  | submit e future hi ht hs hp =>
    exact h.keep rfl rfl hst hst rfl (happend hp) hrun h.unjoint
  | change e data hi ht hs hm =>
    rw [hR] at hm
    cases hm
  | copy req e hi ht he hx hag =>
    obtain ⟨p, hp, -, hreq⟩ := ho.request_inv hi
    exact h.keep rfl rfl hst hst rfl (happend (ha p hp req hreq _ he)) hrun h.unjoint
  | truncate req e x lastTerm hi ht he hx hne hc hag h0 hl =>
    exact h.keep rfl rfl hst hst rfl (fun i y hy ↦ .inl (get_of_deleteRange hy)) hrun h.unjoint
  | compact lo hi hs =>
    exact h.keep rfl rfl hst hst rfl (fun i y hy ↦ .inl (get_of_deleteRange hy)) hrun h.unjoint
  | goto pc hT hturn =>
    refine h.keep rfl rfl hst hst rfl hlog (fun e hpc ↦ ?_) fun drain k e ↦ hturn.ne_applyJoint
    have hentry := hturn.entry? hpc
    exact hentry.imp_right And.left
  | configure data drain k e hat hp =>
    exact absurd ⟨e, by rw [hat]; rfl, hp⟩ h.no_configuration
  | start state lastTerm hn =>
    rw [hst] at hn
    cases hn
  | _ => exact h.keep rfl rfl hst hst rfl hlog hrun h.unjoint

theorem fixedConfiguration_kept (hC : cl.Fixed C) (hR : R.early = false ∧ R.membership = false) :
    (fixedConfiguration C).Kept cl R L since where
  frame t m n out s _ h := by
    cases s <;> exact h
  replied t n s a h := by
    cases s <;> exact h
  move t n c c' calls inp out ha h hst ho hm := by
    have hst : c.started = true := by simpa [hR.1] using hst
    have h : FixedNode C n c := h
    refine ⟨h.move hR.2 ha hst ho hm, fun p hp req hreq e he ↦ ?_⟩
    rcases List.mem_append.mp hp with hp | hp
    · exact ha p hp req hreq e he
    · have hout := (mem_packetsOf.mp hp).2
      rw [hreq] at hout
      exact h.log _ e (hm.carries hout e he)
  boot t n c calls state lastTerm _ h hn _ _ _ := by
    have h : FixedNode C n c := h
    obtain ⟨-, hi⟩ := h.idle hn
    have hne : C.servers ≠ [] := by
      intro h0
      have hv := h.voter
      simp [Configuration.isVoter, Configuration.getServer, h0] at hv
    refine ⟨h.localID, h.voter, h.joint, nofun, fun _ ↦ ?_, h.log, nofun, nofun⟩
    show (if c.initial.servers = [] then c.configuration else c.initial) = C
    rw [hi, if_neg hne]
  idle t n c calls e ha h _ _ := by
    refine ⟨h, fun p hp ↦ ha p ?_⟩
    simpa [Trace.publish, packetsOf] using hp
  create t n d cfg _ h hcfg _ :=
    ⟨rfl, hC.voter n cfg hcfg, rfl, fun _ ↦ ⟨rfl, hC.initial n cfg hcfg⟩, nofun, h, nofun, nofun⟩
  crash t n c calls h := h.log
  drop t n c calls calls' h _ := h
  answer t n c calls i p resp stamp ha _ _ _ _ _ _ := ha

theorem fixedConfiguration_init {σ : Type} :
    (fixedConfiguration C).Holds (init : World σ).view := by
  refine ⟨fun _ i e he ↦ ?_, ?_⟩
  · exact absurd (get_mem he) List.not_mem_nil
  · simp [fixedConfiguration, view, init]

end Move

end RaftConsensus
