import RaftConsensus.Kv.Watch

namespace RaftConsensus.Kv

open List

theorem filter_le_append_filter_lt {α : Type} (f : α → ℤ) (c : ℤ) {l : List α}
    (h : l.Pairwise (f · ≤ f ·)) : l.filter (f · ≤ c) ++ l.filter (c < f ·) = l := by
  induction h with
  | nil => rfl
  | @cons a l ha _ ih =>
    by_cases hc : f a ≤ c
    · rw [filter_cons_of_pos (by simpa using hc), filter_cons_of_neg (by simpa using hc),
        cons_append, ih]
    · have hnil : (a :: l).filter (f · ≤ c) = [] := by
        refine filter_eq_nil_iff.mpr fun b hb ↦ ?_
        have hab : f a ≤ f b := by
          rcases mem_cons.mp hb with rfl | hb
          · exact le_rfl
          · exact ha b hb
        simp only [decide_eq_true_eq]
        omega
      rw [hnil, nil_append, filter_eq_self]
      intro b hb
      have := filter_eq_nil_iff.mp hnil b hb
      simpa using this

/-- The batches of the commands so far: one revision to a batch, and each batch has a later one. -/
structure Batched (revision : ℤ) (emitted : List (List Event)) : Prop where
  order : emitted.Pairwise fun b b' ↦ ∀ x ∈ b, ∀ y ∈ b', x.revision < y.revision
  same : ∀ b ∈ emitted, ∀ x ∈ b, ∀ y ∈ b, x.revision = y.revision
  le : ∀ b ∈ emitted, ∀ x ∈ b, x.revision ≤ revision

namespace Batched

variable {revision revision' : ℤ} {emitted : List (List Event)} {b : List Event}

theorem mono (h : Batched revision emitted) (hle : revision ≤ revision') :
    Batched revision' emitted :=
  ⟨h.order, h.same, fun b hb x hx ↦ (h.le b hb x hx).trans hle⟩

theorem concat (h : Batched revision emitted) (hle : revision ≤ revision')
    (hb : ∀ x ∈ b, x.revision = revision' ∧ revision < revision') :
    Batched revision' (emitted ++ [b]) := by
  refine ⟨?_, fun b' hb' ↦ ?_, fun b' hb' x hx ↦ ?_⟩
  · refine pairwise_append.mpr ⟨h.order, pairwise_singleton _ _, fun b' hb' c hc ↦ ?_⟩
    cases mem_singleton.mp hc
    intro x hx y hy
    have := h.le b' hb' x hx
    have := hb y hy
    omega
  · rcases mem_append.mp hb' with hb' | hb'
    · exact h.same b' hb'
    · cases mem_singleton.mp hb'
      exact fun x hx y hy ↦ (hb x hx).1.trans (hb y hy).1.symm
  · rcases mem_append.mp hb' with hb' | hb'
    · exact (h.le b' hb' x hx).trans hle
    · cases mem_singleton.mp hb'
      exact (hb x hx).1.le

theorem sorted (h : Batched revision emitted) :
    emitted.flatten.Pairwise (·.revision ≤ ·.revision) := by
  refine pairwise_flatten.mpr ⟨fun b hb ↦ ?_, h.order.imp fun hbb x hx y hy ↦ (hbb x hx y hy).le⟩
  refine pairwise_iff_forall_sublist.mpr fun {x y} hxy ↦ ?_
  exact (h.same b hb x (hxy.subset mem_cons_self) y
    (hxy.subset (mem_cons_of_mem _ mem_cons_self))).le

end Batched

namespace WatchEntry

variable (e : WatchEntry)

def past (x : Event) : Bool :=
  0 ≤ e.sinceRevision ∧ e.sinceRevision < x.revision ∧ x.revision ≤ e.startRev ∧ e.matchesKey x.key

def selects (x : Event) : Bool := e.sinceRevision < x.revision ∧ e.matchesKey x.key

def singles (events : List Event) : List (List Event) := events.map ([·])

def liveParts (batches : List (List Event)) : List (List Event) :=
  (batches.map (·.filter e.live)).filter (!·.isEmpty)

def wanted (emitted : List (List Event)) : List (List Event) :=
  singles (emitted.flatten.filter e.past) ++ e.liveParts emitted

def rest (emitted : List (List Event)) : List (List Event) :=
  match e.replay with
  | .pending => singles (emitted.flatten.filter e.past)
  | .sending past => singles (past.filter fun x ↦ x.revision ≤ e.startRev ∧ e.matchesKey x.key)
  | .done => []

def messages : List (List Event) := e.sent.map WatchEvent.events

def delivered : List Event := e.messages.flatten

variable {e}

section Messages

variable {emitted batches : List (List Event)} {revision : ℤ}

@[simp] theorem flatten_singles (events : List Event) : (singles events).flatten = events := by
  induction events with
  | nil => rfl
  | cons x events ih => exact congrArg (x :: ·) ih

theorem liveParts_append (bs bs' : List (List Event)) :
    e.liveParts (bs ++ bs') = e.liveParts bs ++ e.liveParts bs' := by
  simp [liveParts]

@[simp] theorem flatten_liveParts :
    (e.liveParts batches).flatten = batches.flatten.filter e.live := by
  induction batches with
  | nil => rfl
  | cons b batches ih =>
    rw [flatten_cons, filter_append, ← ih]
    unfold liveParts
    rw [map_cons]
    cases hb : b.filter e.live with
    | nil => rfl
    | cons x b => rfl

theorem liveParts_eq_nil (h : ∀ b ∈ batches, ∀ x ∈ b, x.revision ≤ e.startRev) :
    e.liveParts batches = [] := by
  refine filter_eq_nil_iff.mpr fun b hb ↦ ?_
  obtain ⟨b', hb', rfl⟩ := mem_map.mp hb
  have hnil : b'.filter e.live = [] := by
    refine filter_eq_nil_iff.mpr fun x hx ↦ ?_
    have := h b' hb' x hx
    simp only [live, Bool.and_eq_true, decide_eq_true_eq, not_and]
    omega
  simp [hnil]

theorem startRev_lt_of_mem_liveParts {m : List Event} (hm : m ∈ e.liveParts batches) {x : Event}
    (hx : x ∈ m) : e.startRev < x.revision := by
  obtain ⟨b, -, rfl⟩ := mem_map.mp (mem_filter.mp hm).1
  have := (mem_filter.mp hx).2
  simp only [live, Bool.and_eq_true, decide_eq_true_eq] at this
  exact this.1

theorem filter_past_eq_nil {events : List Event} (h : ∀ x ∈ events, e.startRev < x.revision) :
    events.filter e.past = [] := by
  refine filter_eq_nil_iff.mpr fun x hx ↦ ?_
  have := h x hx
  simp only [past, decide_eq_true_eq]
  omega

theorem flatten_wanted :
    (e.wanted emitted).flatten = emitted.flatten.filter e.past ++
    emitted.flatten.filter e.live := by
  rw [wanted, flatten_append, flatten_singles, flatten_liveParts]

theorem sorted_wanted (h : Batched revision emitted) :
    (e.wanted emitted).flatten.Pairwise (·.revision ≤ ·.revision) := by
  rw [flatten_wanted]
  refine pairwise_append.mpr ⟨h.sorted.filter _, h.sorted.filter _, fun x hx y hy ↦ ?_⟩
  have h₁ := (mem_filter.mp hx).2
  have h₂ := (mem_filter.mp hy).2
  simp only [past, decide_eq_true_eq] at h₁
  simp only [live, Bool.and_eq_true, decide_eq_true_eq] at h₂
  omega

theorem filter_wanted (h : Batched revision emitted) (hs : 0 ≤ e.sinceRevision) :
    (e.wanted emitted).flatten.filter (e.sinceRevision < ·.revision) =
      emitted.flatten.filter e.selects := by
  have hsort := h.sorted.filter e.selects
  rw [flatten_wanted, filter_append,
    ← filter_le_append_filter_lt Event.revision e.startRev hsort]
  simp only [filter_filter]
  congr 1
  · refine filter_congr fun x _ ↦ ?_
    simp only [past, selects, ← Bool.decide_and, decide_eq_decide]
    cases e.matchesKey x.key <;> simp
    omega
  · refine filter_congr fun x _ ↦ ?_
    simp only [live, selects, Bool.decide_and]
    cases decide (e.startRev < x.revision) <;> simp

end Messages

section Rest

variable {emitted : List (List Event)}

theorem rest_fetch (emitted : List (List Event)) (hp : e.replay = .pending)
    (hs : 0 ≤ e.sinceRevision) :
    ({ e with replay := .sending (emitted.flatten.filter
      (e.sinceRevision < ·.revision)) } : WatchEntry).rest emitted = e.rest emitted := by
  rw [rest, rest, hp]
  dsimp only
  rw [filter_filter]
  refine congrArg singles (filter_congr fun x _ ↦ ?_)
  simp only [past, ← Bool.decide_and, decide_eq_decide]
  constructor
  · exact fun hx ↦ ⟨hs, hx.2, hx.1⟩
  · exact fun hx ↦ ⟨hx.2.2, hx.2.1⟩

theorem rest_subscription (key : Bytes) (isPrefix : Bool) (sinceRevision startRev : ℤ) :
    (subscription key isPrefix sinceRevision startRev).rest emitted = singles
      (emitted.flatten.filter (subscription key isPrefix sinceRevision startRev).past) := by
  by_cases hs : 0 ≤ sinceRevision ∧ sinceRevision < startRev
  · have hp : (subscription key isPrefix sinceRevision startRev).replay = .pending := if_pos hs
    rw [rest, hp]
  · have hp : (subscription key isPrefix sinceRevision startRev).replay = .done := if_neg hs
    have hnil : emitted.flatten.filter (subscription key isPrefix sinceRevision startRev).past =
        [] := by
      refine filter_eq_nil_iff.mpr fun x _ hx ↦ ?_
      obtain ⟨h₀, hlt, hle, -⟩ := of_decide_eq_true hx
      exact hs ⟨h₀, hlt.trans_le hle⟩
    rw [rest, hp, hnil]
    rfl

end Rest

/-- What is on the channel, what the replay has to send and what is still queued are together the
messages of the subscription. Only a subscription that is not active any more misses some. -/
structure Served (revision : ℤ) (emitted queue : List (List Event)) (active : Prop)
    (e : WatchEntry) : Prop where
  since : e.replay = .pending → 0 ≤ e.sinceRevision
  startRev_le : e.startRev ≤ revision
  taken_le : e.taken ≤ e.sent.length
  uniform : ∀ m ∈ e.sent, m.events ≠ [] ∧ ∀ x ∈ m.events, x.revision = m.revision
  split : ∃ tail, e.messages ++ (e.rest emitted ++ tail) = e.wanted emitted ∧
    (∀ m ∈ tail, ∀ x ∈ m, e.startRev < x.revision) ∧ (active → tail = e.liveParts queue)

namespace Served

variable {revision revision' : ℤ} {emitted queue queue' : List (List Event)} {active active' : Prop}
  {b : List Event} {e' : WatchEntry}

theorem frame (h : Served revision emitted queue active e) (hle : revision ≤ revision')
    (ha : active' → active ∧ queue' = queue) : Served revision' emitted queue' active' e := by
  obtain ⟨tail, heq, hlive, htail⟩ := h.split
  refine ⟨h.since, h.startRev_le.trans hle, h.taken_le, h.uniform, tail, heq, hlive, fun hact ↦ ?_⟩
  rw [(ha hact).2]
  exact htail (ha hact).1

theorem flags (h : Served revision emitted queue active e) (registered canceled : Bool)
    (ha : active' → active) : Served revision emitted queue active'
      { e with registered := registered, canceled := canceled } := by
  obtain ⟨tail, heq, hlive, htail⟩ := h.split
  exact ⟨h.since, h.startRev_le, h.taken_le, h.uniform, tail, heq, hlive,
    fun hact ↦ htail (ha hact)⟩

theorem emit (h : Served revision emitted queue active e) (hle : revision ≤ revision')
    (hb : ∀ x ∈ b, revision < x.revision) :
    Served revision' (emitted ++ [b]) (queue ++ [b]) active e := by
  obtain ⟨tail, heq, hlive, htail⟩ := h.split
  have hpast : (emitted ++ [b]).flatten.filter e.past = emitted.flatten.filter e.past := by
    rw [flatten_append, filter_append, flatten_singleton,
      filter_past_eq_nil fun x hx ↦ h.startRev_le.trans_lt (hb x hx), append_nil]
  have hrest : e.rest (emitted ++ [b]) = e.rest emitted := by
    unfold rest
    rw [hpast]
  refine ⟨h.since, h.startRev_le.trans hle, h.taken_le, h.uniform,
    tail ++ e.liveParts [b], ?_, ?_, ?_⟩
  · rw [wanted, hrest, hpast, liveParts_append, ← append_assoc (singles _), ← wanted, ← heq]
    simp only [append_assoc]
  · intro m hm x hx
    rcases mem_append.mp hm with hm | hm
    · exact hlive m hm x hx
    · exact startRev_lt_of_mem_liveParts hm hx
  · intro hact
    rw [liveParts_append, htail hact]

theorem offer (h : Served revision emitted (b :: queue) active e) (hB : Batched revision emitted)
    (hb : b ∈ emitted) (hact : e.canceled = false → active)
    (hactive : active → e.canceled = false)
    (hok : e.canceled = true ∨ b.filter e.live = [] ∨
      e.replay = .done ∧ e.ch.length < watchChanSize) :
    Served revision emitted queue active (e.offer b).1 := by
  obtain ⟨tail, heq, hlive, htail⟩ := h.split
  unfold WatchEntry.offer
  dsimp only
  by_cases hc : e.canceled = true
  · rw [if_pos (.inl hc)]
    refine h.frame le_rfl fun ha ↦ ?_
    rw [hactive ha] at hc
    cases hc
  · have ha : active := hact (Bool.eq_false_iff.mpr hc)
    have hcons : e.liveParts (b :: queue) = e.liveParts [b] ++ e.liveParts queue :=
      liveParts_append [b] queue
    by_cases hnil : b.filter e.live = []
    · have hpart : e.liveParts [b] = [] := by simp [liveParts, hnil]
      rw [if_pos (.inr hnil)]
      refine ⟨h.since, h.startRev_le, h.taken_le, h.uniform, tail, heq, hlive, fun _ ↦ ?_⟩
      rw [htail ha, hcons, hpart, nil_append]
    · obtain ⟨hdone, hroom⟩ := (hok.resolve_left hc).resolve_left hnil
      have hpart : e.liveParts [b] = [b.filter e.live] := by simp [liveParts, hnil]
      have hrest : e.rest emitted = [] := by rw [rest, hdone]
      rw [if_neg (not_or.mpr ⟨hc, hnil⟩), if_pos hroom]
      rw [htail ha, hcons, hpart, hrest, nil_append] at heq
      refine ⟨h.since, h.startRev_le, ?_, ?_, e.liveParts queue, ?_, ?_, fun _ ↦ rfl⟩
      · exact h.taken_le.trans (by simp [push])
      · intro m hm
        rcases mem_append.mp hm with hm | hm
        · exact h.uniform m hm
        · cases mem_singleton.mp hm
          refine ⟨hnil, fun x hx ↦ ?_⟩
          have hlast := getLast_mem hnil
          rw [getLast?_eq_some_getLast hnil]
          exact hB.same b hb x (mem_of_mem_filter hx) _ (mem_of_mem_filter hlast)
      · have hrest' : (e.push ⟨b.filter e.live,
            ((b.filter e.live).getLast?.map Event.revision).getD 0⟩).rest emitted = [] := hrest
        rw [hrest']
        change (e.sent ++ [_]).map WatchEvent.events ++ _ = e.wanted emitted
        rw [← heq, map_append, append_assoc]
        rfl
      · exact fun m hm x hx ↦ startRev_lt_of_mem_liveParts hm hx

theorem send (h : Served revision emitted queue active e) (hs : e.send = some e') :
    Served revision emitted queue active e' := by
  obtain ⟨tail, heq, hlive, htail⟩ := h.split
  unfold WatchEntry.send at hs
  split at hs
  · rename_i hr
    cases hs
    refine ⟨nofun, h.startRev_le, h.taken_le, h.uniform, tail, ?_, hlive, htail⟩
    have hrest : e.rest emitted = [] := by rw [rest, hr]; rfl
    rw [hrest] at heq
    exact heq
  · rename_i x past hr
    have hrest : e.rest emitted = singles ((x :: past).filter fun x ↦
        x.revision ≤ e.startRev ∧ e.matchesKey x.key) := by rw [rest, hr]
    split_ifs at hs with hskip hroom
    · cases hs
      refine ⟨nofun, h.startRev_le, h.taken_le, h.uniform, tail, ?_, hlive, htail⟩
      rw [hrest, filter_cons_of_neg] at heq
      · exact heq
      · simp only [Bool.not_eq_true'] at hskip
        simp only [decide_eq_true_eq, not_and, Bool.not_eq_true]
        intro hle
        exact hskip.resolve_left (by omega)
    · cases hs
      refine ⟨nofun, h.startRev_le, ?_, ?_, tail, ?_, hlive, htail⟩
      · exact h.taken_le.trans (by simp [push])
      · intro m hm
        rcases mem_append.mp hm with hm | hm
        · exact h.uniform m hm
        · cases mem_singleton.mp hm
          refine ⟨cons_ne_nil _ _, fun y hy ↦ ?_⟩
          rw [mem_singleton.mp hy]
      · rw [hrest, filter_cons_of_pos] at heq
        · change (e.sent ++ [_]).map WatchEvent.events ++ _ = e.wanted emitted
          rw [← heq, map_append, append_assoc]
          rfl
        · simp only [Bool.not_eq_true', not_or, not_lt, Bool.not_eq_false] at hskip
          simpa using hskip
  · cases hs

theorem fetch (h : Served revision emitted queue active e) (hp : e.replay = .pending) :
    Served revision emitted queue active
      { e with replay := .sending (emitted.flatten.filter (e.sinceRevision < ·.revision)) } := by
  obtain ⟨tail, heq, hlive, htail⟩ := h.split
  refine ⟨nofun, h.startRev_le, h.taken_le, h.uniform, tail, ?_, hlive, htail⟩
  rw [rest_fetch _ hp (h.since hp)]
  exact heq

theorem subscribe (hB : Batched revision emitted) (hq : ∀ b ∈ queue, b ∈ emitted) (key : Bytes)
    (isPrefix : Bool) (sinceRevision : ℤ) :
    Served revision emitted queue active (subscription key isPrefix sinceRevision revision) := by
  refine ⟨?_, le_rfl, le_rfl, forall_mem_nil _, [], ?_, forall_mem_nil _, fun _ ↦ ?_⟩
  · intro hp
    by_contra hs
    change (if _ then _ else _) = _ at hp
    rw [if_neg (fun h ↦ hs h.1)] at hp
    cases hp
  · rw [wanted, liveParts_eq_nil hB.le, rest_subscription]
    rfl
  · rw [liveParts_eq_nil]
    exact fun b hb x hx ↦ hB.le b (hq b hb) x hx

end Served

end WatchEntry

namespace WatchEntry

variable {e : WatchEntry} {emitted : List (List Event)} {revision : ℤ}

theorem wanted_strict (h : Batched revision emitted) : (e.wanted emitted).Pairwise
    fun m m' ↦ ∀ x ∈ m, ∀ y ∈ m', e.startRev < y.revision → x.revision < y.revision := by
  have hpast : ∀ m ∈ singles (emitted.flatten.filter e.past), ∀ x ∈ m, x.revision ≤ e.startRev := by
    intro m hm x hx
    obtain ⟨y, hy, rfl⟩ := mem_map.mp hm
    cases mem_singleton.mp hx
    exact (of_decide_eq_true (mem_filter.mp hy).2).2.2.1
  refine pairwise_append.mpr ⟨?_, ?_, fun m hm m' _ x hx y _ hlt ↦ ?_⟩
  · refine pairwise_of_forall_mem_list fun m _ m' hm' x _ y hy hlt ↦ ?_
    exact absurd (hpast m' hm' y hy) (not_le.mpr hlt)
  · refine List.Pairwise.filter _ (pairwise_map.mpr (h.order.imp fun hbb x hx y hy _ ↦ ?_))
    exact hbb x (mem_of_mem_filter hx) y (mem_of_mem_filter hy)
  · exact (hpast m hm x hx).trans_lt hlt

variable {queue : List (List Event)} {active : Prop}

theorem Served.split_at (h : e.Served revision emitted queue active) (n : ℕ) :
    ∃ tail, e.messages.take n ++ (e.messages.drop n ++ e.rest emitted ++ tail) = e.wanted emitted ∧
      (∀ m ∈ tail, ∀ x ∈ m, e.startRev < x.revision) ∧ (active → tail = e.liveParts queue) := by
  obtain ⟨tail, heq, hlive, htail⟩ := h.split
  refine ⟨tail, ?_, hlive, htail⟩
  rw [← heq, ← append_assoc, ← append_assoc, take_append_drop, append_assoc]

theorem Served.mem_events (h : e.Served revision emitted queue active) {m : WatchEvent}
    (hm : m ∈ e.sent) {x : Event} (hx : x ∈ m.events) :
    x ∈ emitted.flatten ∧ (e.sinceRevision < x.revision ∨ e.startRev < x.revision) := by
  obtain ⟨tail, heq, -⟩ := h.split
  have hwanted : x ∈ (e.wanted emitted).flatten := by
    rw [← heq, flatten_append]
    exact mem_append_left _ (mem_flatten_of_mem (mem_map_of_mem hm) hx)
  rw [flatten_wanted] at hwanted
  rcases mem_append.mp hwanted with hx | hx
  · obtain ⟨hlog, hpast⟩ := mem_filter.mp hx
    exact ⟨hlog, .inl (of_decide_eq_true hpast).2.1⟩
  · obtain ⟨hlog, hlive⟩ := mem_filter.mp hx
    simp only [live, Bool.and_eq_true, decide_eq_true_eq] at hlive
    exact ⟨hlog, .inr hlive.1⟩

theorem Served.revision_le (h : e.Served revision emitted queue active)
    (hB : Batched revision emitted) {m : WatchEvent} (hm : m ∈ e.sent) : m.revision ≤ revision := by
  obtain ⟨hne, hrev⟩ := h.uniform m hm
  obtain ⟨x, hx⟩ := exists_mem_of_ne_nil _ hne
  obtain ⟨b, hb, hxb⟩ := mem_flatten.mp (h.mem_events hm hx).1
  rw [← hrev x hx]
  exact hB.le b hb x hxb

theorem Served.filter_take (h : e.Served revision emitted queue active)
    (hB : Batched revision emitted) (hs : 0 ≤ e.sinceRevision) {n : ℕ} {last : ℤ}
    (hle : ∀ m ∈ e.sent.take n, m.revision ≤ last)
    (hlast : last = e.sinceRevision ∨ ∃ m ∈ e.sent.take n, m.revision = last)
    (hnot : ∀ x ∈ (e.messages.drop n ++ e.rest emitted).flatten, x.revision ≠ last) :
    (e.messages.take n).flatten.filter (e.sinceRevision < ·.revision) =
      (emitted.flatten.filter e.selects).filter (·.revision ≤ last) := by
  obtain ⟨tail, heq, hlive, -⟩ := h.split_at n
  have hsort := sorted_wanted (e := e) hB
  have hstrict := wanted_strict (e := e) hB
  rw [← heq] at hsort hstrict
  rw [← filter_wanted hB hs, ← heq, flatten_append, filter_append, filter_append]
  rw [flatten_append] at hsort
  have hread : ((e.messages.take n).flatten.filter (e.sinceRevision < ·.revision)).filter
      (·.revision ≤ last) = (e.messages.take n).flatten.filter (e.sinceRevision < ·.revision) := by
    refine filter_eq_self.mpr fun x hx ↦ ?_
    obtain ⟨m, hm, hxm⟩ := mem_flatten.mp (mem_filter.mp hx).1
    rw [messages, ← map_take] at hm
    obtain ⟨m, hsent, rfl⟩ := mem_map.mp hm
    have hrev := (h.uniform m (mem_of_mem_take hsent)).2 x hxm
    simpa [hrev] using hle m hsent
  have hleft : ((e.messages.drop n ++ e.rest emitted ++ tail).flatten.filter
      (e.sinceRevision < ·.revision)).filter (·.revision ≤ last) = [] := by
    refine filter_eq_nil_iff.mpr fun x hx ↦ ?_
    obtain ⟨hxmem, hlt⟩ := mem_filter.mp hx
    simp only [decide_eq_true_eq] at hlt ⊢
    rcases hlast with hlast | ⟨m, hm, hlast⟩
    · omega
    · obtain ⟨hne, hrev⟩ := h.uniform m (mem_of_mem_take hm)
      obtain ⟨y, hy⟩ := exists_mem_of_ne_nil _ hne
      have hym : m.events ∈ e.messages.take n := by
        rw [messages, ← map_take]
        exact mem_map_of_mem hm
      have hyx := (pairwise_append.mp hsort).2.2 y (mem_flatten_of_mem hym hy) x hxmem
      have hy' := hrev y hy
      obtain ⟨l, hl, hxl⟩ := mem_flatten.mp hxmem
      rcases mem_append.mp hl with hl' | hl'
      · have := hnot x (mem_flatten_of_mem hl' hxl)
        omega
      · have := (pairwise_append.mp hstrict).2.2 _ hym l hl y hy x hxl (hlive l hl' x hxl)
        omega
  rw [hread, hleft, append_nil]

end WatchEntry

end RaftConsensus.Kv
