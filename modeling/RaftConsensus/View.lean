import RaftConsensus.Does.Process

namespace RaftConsensus

open List Function World

inductive Site
  | down (disk : Disk)
  | up (core : Core) (calls : List ℕ)

def Site.disk : Site → Disk
  | .down d => d
  | .up c _ => c.disk

structure Trace where
  net : List Packet
  replies : List Reply
  history : List (ServerID × Event)

structure View extends Trace where
  sites : ServerID → Site

def Core.fresh (cfg : Config) (n : ServerID) (d : Disk) : Core where
  localID := n
  initial := cfg.initialConfiguration
  state := .shutdown
  term := 0
  votedFor := ""
  votes := ∅
  log := d.log
  stable := d.stable
  snapshot := d.snapshot
  lastIndex := 0
  lastTerm := 0
  commitIndex := 0
  applyIndex := 0
  configuration := ⟨[]⟩
  jointConfig := none
  pendingConfigIndex := 0
  matchIndex := ∅
  inflightReplication := ∅
  heartbeatAcks := ∅
  pendingFutures := ∅
  run := .off
  reads := ∅
  leaseReads := cfg.leaseReads
  started := false
  clock := 0

def Event.idle : Event → Bool
  | .responded _ _ _ _ _ | .transferred _ _ | .readBegan _ _ _ | .readReturned _ (.error _) => true
  | _ => false

namespace Trace

def publish (t : Trace) (n : ServerID) (out : List Effect) : Trace :=
  { t with
    net := t.net ++ World.packetsOf n out
    history := t.history ++ World.eventsOf n out }

def addReply (t : Trace) (a : Reply) : Trace := { t with replies := t.replies ++ [a] }

def newCalls (t : Trace) (n : ServerID) (out : List Effect) : List ℕ :=
  (List.range (World.packetsOf n out).length).map (t.net.length + ·)

inductive Offers (t : Trace) (since : ℕ) (n : ServerID) (calls : List ℕ) : Input → Prop
  | op (k : ℕ) (h : since ≤ k) : Offers t since n calls (.op k)
  | request (p : Packet) (hp : p ∈ t.net) (hd : p.dst = n) : Offers t since n calls (.request p.req)
  | reply (a : Reply) (p : Packet) (ha : a ∈ t.replies) (hc : a.call ∈ calls)
      (hp : t.net[a.call]? = some p) (hs : p.src = n) :
      Offers t since n calls (.reply p.dst p.req a.resp a.stamp)

end Trace

namespace View

def put (v : View) (n : ServerID) (s : Site) : View :=
  { v with sites := Function.update v.sites n s }

def publish (v : View) (n : ServerID) (out : List Effect) : View :=
  { v with toTrace := v.toTrace.publish n out }

def addReply (v : View) (a : Reply) : View := { v with toTrace := v.toTrace.addReply a }

end View

/-- One move of one node, or what happens to it between its critical sections. -/
inductive Micro (cl : Cluster) (R : Rules) (L : Licence) (since : ℕ) (v : View) : View → Prop
  | move {n : ServerID} {c c' : Core} {calls : List ℕ} {inp : Input} {out : List Effect}
      (hs : v.sites n = .up c calls) (hst : c.started = true ∨ R.early)
      (ho : v.Offers since n calls inp) (hm : Move R L.open inp c out c') :
      Micro cl R L since v ((v.publish n out).put n (.up c' (calls ++ v.newCalls n out)))
  | boot {n : ServerID} {c : Core} {calls : List ℕ} (state : RaftState) (lastTerm : ℕ)
      (hs : v.sites n = .up c calls) (hn : c.started = false) (hsd : c.state = .shutdown)
      (hst : state = .follower ∨ state = .learner)
      (h : c.snapshot.snapshots = [] → lastTerm = c.endTerm) :
      Micro cl R L since v (v.put n (.up (c.boot state lastTerm) calls))
  | idle {n : ServerID} {c : Core} {calls : List ℕ} (e : Event) (hs : v.sites n = .up c calls)
      (hn : c.started = false) (he : e.idle = true) : Micro cl R L since v (v.publish n [.note e])
  | create {n : ServerID} {d : Disk} {cfg : Config} (hs : v.sites n = .down d)
      (hc : cl.config n = some cfg) (hn : n ≠ "") :
      Micro cl R L since v (v.put n (.up (.fresh cfg n d) []))
  | crash {n : ServerID} {c : Core} {calls : List ℕ} (hs : v.sites n = .up c calls) :
      Micro cl R L since v (v.put n (.down c.disk))
  | drop {n : ServerID} {c : Core} {calls calls' : List ℕ} (hs : v.sites n = .up c calls)
      (hsub : calls' ⊆ calls) : Micro cl R L since v (v.put n (.up c calls'))
  | answer {n : ServerID} {c : Core} {calls : List ℕ} (i : ℕ) (p : Packet) (resp : Response)
      (stamp : ℕ) (hs : v.sites n = .up c calls) (hst : c.started = true ∨ R.early)
      (hp : v.net[i]? = some p) (hd : p.dst = n) (hk : stamp ≤ v.history.length)
      (hpr : c.Promises (fun e ↦ (n, e) ∈ v.history) p.req resp) :
      Micro cl R L since v (v.addReply ⟨i, resp, stamp⟩)

def Micros (cl : Cluster) (R : Rules) (L : Licence) (since : ℕ) : View → View → Prop :=
  Relation.ReflTransGen (Micro cl R L since)

variable {σ : Type} {cl : Cluster} {R : Rules} {L : Licence} {since : ℕ}

section Path

variable {W : Warrant} {inp : Input} {c c' : Core} {out : List Effect} {v : View} {n : ServerID}
  {calls : List ℕ}

theorem packetsOf_append (n : ServerID) (out out' : List Effect) :
    packetsOf n (out ++ out') = packetsOf n out ++ packetsOf n out' :=
  filterMap_append

theorem eventsOf_append (n : ServerID) (out out' : List Effect) :
    eventsOf n (out ++ out') = eventsOf n out ++ eventsOf n out' :=
  filterMap_append

theorem mem_eventsOf {x : ServerID × Event} :
    x ∈ eventsOf n out ↔ x.1 = n ∧ .note x.2 ∈ out := by
  unfold eventsOf
  rw [mem_filterMap]
  constructor
  · rintro ⟨o, ho, hx⟩
    cases o with
    | rpc target req => cases hx
    | note e =>
      cases hx
      exact ⟨rfl, ho⟩
  · rintro ⟨rfl, hx⟩
    exact ⟨_, hx, rfl⟩

theorem mem_packetsOf {p : Packet} :
    p ∈ packetsOf n out ↔ p.src = n ∧ .rpc p.dst p.req ∈ out := by
  unfold packetsOf
  rw [mem_filterMap]
  constructor
  · rintro ⟨o, ho, hx⟩
    cases o with
    | rpc target req =>
      cases hx
      exact ⟨rfl, ho⟩
    | note e => cases hx
  · rintro ⟨rfl, hx⟩
    exact ⟨_, hx, rfl⟩

theorem Move.started (h : Move R W inp c out c') (hc : c.started = true) : c'.started = true := by
  cases h <;> first | exact hc | rfl

namespace Trace

variable {t : Trace}

theorem publish_nil (t : Trace) (n : ServerID) : t.publish n [] = t := by
  simp [publish, packetsOf, eventsOf]

theorem publish_append (t : Trace) (n : ServerID) (out out' : List Effect) :
    t.publish n (out ++ out') = (t.publish n out).publish n out' := by
  simp [publish, packetsOf_append, eventsOf_append]

theorem newCalls_append (t : Trace) (n : ServerID) (out out' : List Effect) :
    t.newCalls n (out ++ out') = t.newCalls n out ++ (t.publish n out).newCalls n out' := by
  simp only [newCalls, packetsOf_append, length_append, range_add, map_append,
    map_map, publish]
  congr 1
  refine map_congr_left fun x _ ↦ ?_
  simp only [comp]
  omega

variable {i : ℕ} {req : Request}

theorem getElem?_publish {p : Packet} (h : t.net[i]? = some p) :
    (t.publish n out).net[i]? = some p :=
  getElem?_append_left (List.getElem?_eq_some_iff.mp h).1 ▸ h

theorem mem_newCalls (h : i ∈ t.newCalls n out) :
    ∃ p ∈ packetsOf n out, (t.publish n out).net[i]? = some p := by
  obtain ⟨j, hj, rfl⟩ := mem_map.mp h
  have hlt := mem_range.mp hj
  refine ⟨(packetsOf n out)[j], getElem_mem hlt, ?_⟩
  rw [publish, getElem?_append_right (Nat.le_add_right _ _), Nat.add_sub_cancel_left]
  exact getElem?_eq_getElem hlt

theorem Offers.request_inv (h : t.Offers since n calls inp)
    (hi : inp = .request req) : ∃ p ∈ t.net, p.dst = n ∧ p.req = req := by
  cases h with
  | op => cases hi
  | request p hp hd =>
    cases hi
    exact ⟨p, hp, hd, rfl⟩
  | reply => cases hi

theorem Offers.reply_inv {id : ServerID} {resp : Response} {stamp : ℕ}
    (h : t.Offers since n calls inp) (hi : inp = .reply id req resp stamp) :
    ∃ a ∈ t.replies, ∃ p, a.call ∈ calls ∧ t.net[a.call]? = some p ∧ p.src = n ∧ p.dst = id ∧
      p.req = req ∧ a.resp = resp ∧ a.stamp = stamp := by
  cases h with
  | op => cases hi
  | request => cases hi
  | reply a p ha hc hp hs =>
    cases hi
    exact ⟨a, ha, p, hc, hp, hs, rfl, rfl, rfl, rfl⟩

theorem Offers.publish (h : t.Offers since n calls inp) (calls' : List ℕ) :
    (t.publish n out).Offers since n (calls ++ calls') inp := by
  cases h with
  | op k hk => exact .op k hk
  | request p hp hd => exact .request p (mem_append_left _ hp) hd
  | reply a p ha hc hp hs =>
    exact .reply a p ha (mem_append_left _ hc) (getElem?_publish hp) hs

end Trace

namespace View

theorem put_put (v : View) (n : ServerID) (s s' : Site) : (v.put n s).put n s' = v.put n s' := by
  simp [put]

theorem publish_nil (v : View) (n : ServerID) : v.publish n [] = v := by
  rw [publish, Trace.publish_nil]

theorem publish_append (v : View) (n : ServerID) (out out' : List Effect) :
    v.publish n (out ++ out') = (v.publish n out).publish n out' := by
  rw [publish, Trace.publish_append]
  rfl

theorem publish_put (v : View) (n : ServerID) (s : Site) (out out' : List Effect) :
    ((v.publish n out).put n s).publish n out' = (v.publish n (out ++ out')).put n s := by
  rw [publish_append]
  rfl

theorem put_self (h : v.sites n = .up c calls) : v.put n (.up c calls) = v := by
  unfold put
  rw [← h, update_eq_self]

end View

theorem Path.started (h : Path R W inp c out c') (hc : c.started = true) : c'.started = true := by
  induction h with
  | refl => exact hc
  | tail _ hm ih => exact hm.started ih

variable {req : Request} {target : ServerID}

theorem Move.wired (h : Move R W inp c out c')
    (hr : .rpc target req ∈ out) : req.Contiguous := by
  cases h with
  | call _ _ _ =>
    simp only [mem_singleton, Effect.rpc.injEq] at hr
    obtain ⟨-, rfl⟩ := hr
    cases req <;> trivial
  | campaign asks ha =>
    rcases mem_cons.mp hr with hr | hr
    · cases hr
    · obtain ⟨_, _, _, heq⟩ := ha _ hr
      cases heq
      trivial
  | send id req' hid hs ht hl hc hw he hp =>
    simp only [mem_singleton, Effect.rpc.injEq] at hr
    obtain ⟨-, rfl⟩ := hr
    exact hw
  | sendSnapshot id req' hid h =>
    simp only [mem_singleton, Effect.rpc.injEq] at hr
    obtain ⟨-, rfl⟩ := hr
    trivial
  | _ => simp at hr

theorem Move.carries (h : Move R W inp c out c') {req : AppendEntriesRequest}
    (hr : .rpc target (.appendEntries req) ∈ out) :
    ∀ e ∈ req.entries, c.log.get e.index = some e := by
  cases h with
  | call _ req' hs =>
    simp only [mem_singleton, Effect.rpc.injEq] at hr
    obtain ⟨-, rfl⟩ := hr
    cases hs
  | campaign asks ha =>
    rcases mem_cons.mp hr with hr | hr
    · cases hr
    · obtain ⟨_, _, _, heq⟩ := ha _ hr
      cases heq
  | send id req' hid hs ht hl hc hw he hp =>
    simp only [mem_singleton, Effect.rpc.injEq, Request.appendEntries.injEq] at hr
    obtain ⟨-, rfl⟩ := hr
    exact he
  | _ => simp at hr

theorem Path.wired (h : Path R W inp c out c')
    (hr : .rpc target req ∈ out) : req.Contiguous := by
  induction h with
  | refl => cases hr
  | tail _ hm ih =>
    rcases mem_append.mp hr with hr | hr
    · exact ih hr
    · exact hm.wired hr

theorem Path.micros (h : Path R L.open inp c out c') (hs : v.sites n = .up c calls)
    (hst : c.started = true ∨ R.early) (ho : v.Offers since n calls inp) :
    Micros cl R L since v ((v.publish n out).put n (.up c' (calls ++ v.newCalls n out))) := by
  induction h with
  | refl =>
    have heq : (v.publish n []).put n (.up c (calls ++ v.newCalls n [])) = v := by
      rw [View.publish_nil, show v.newCalls n [] = [] from rfl, append_nil, View.put_self hs]
    rw [heq]
    exact .refl
  | @tail out o c₁ c₂ hp hm ih =>
    have hs' : ((v.publish n out).put n (.up c₁ (calls ++ v.newCalls n out))).sites n =
        .up c₁ (calls ++ v.newCalls n out) := update_self ..
    have hst' : c₁.started = true ∨ R.early := hst.imp_left hp.started
    have hmove : Micro cl R L since _ _ := .move hs' hst' (ho.publish _) hm
    rw [View.publish_put, View.put_put, append_assoc] at hmove
    rw [Trace.newCalls_append]
    exact ih.tail hmove

end Path

end RaftConsensus
