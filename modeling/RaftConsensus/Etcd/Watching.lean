import RaftConsensus.Etcd.Selection
import RaftConsensus.Kv.Messages

namespace RaftConsensus

open List

namespace Kv.WatchEntry

/-- The steps of one subscription in any interleaving: the replay reads the buffered `history`, and
the dispatcher offers `batches`, of which none is dropped. -/
inductive Hears (history : List Event) (e : WatchEntry) : List (List Event) → WatchEntry → Prop
  | refl : Hears history e [] e
  | fetch {batches : List (List Event)} {e' : WatchEntry} (h : Hears history e batches e')
      (hp : e'.replay = .pending) : Hears history e batches
        { e' with replay := .sending (history.filter (e'.sinceRevision < ·.revision)) }
  | send {batches : List (List Event)} {e' e'' : WatchEntry} (h : Hears history e batches e')
      (hs : e'.send = some e'') : Hears history e batches e''
  | take {batches : List (List Event)} {e' : WatchEntry} (h : Hears history e batches e')
      (ht : e'.taken < e'.sent.length) : Hears history e batches { e' with taken := e'.taken + 1 }
  | offer {batches : List (List Event)} {e' : WatchEntry} (h : Hears history e batches e')
      (b : List Event) (hc : e'.canceled = false) (hd : (e'.offer b).2 = 0) :
      Hears history e (batches ++ [b]) (e'.offer b).1

/-- What a subscription asks for stays; what was sent and what is left of the replay are together
the past events of the history and the live ones of the batches. -/
structure Hearing (history : List Event) (e : WatchEntry) (batches : List (List Event))
    (e' : WatchEntry) : Prop where
  asks : e'.key = e.key ∧ e'.isPrefix = e.isPrefix ∧ e'.sinceRevision = e.sinceRevision ∧
    e'.startRev = e.startRev
  since : e'.replay = .pending → 0 ≤ e'.sinceRevision
  split : (e'.delivered ++ (e'.rest [history]).flatten).Perm
    (history.filter e.past ++ batches.flatten.filter e.live)

section Hearing

variable {history : List Event} {batches : List (List Event)} {e e' e'' : WatchEntry}

theorem delivered_push (e : WatchEntry) (m : WatchEvent) :
    (e.push m).delivered = e.delivered ++ m.events := by
  simp [delivered, messages, push]

theorem Hearing.live_eq (h : Hearing history e batches e') : e'.live = e.live := by
  obtain ⟨hk, hp, -, hr⟩ := h.asks
  funext x
  simp only [live, matchesKey, hk, hp, hr]

theorem hearing_subscription (key : Bytes) (isPrefix : Bool) (sinceRevision startRev : ℤ) :
    Hearing history (subscription key isPrefix sinceRevision startRev) []
      (subscription key isPrefix sinceRevision startRev) := by
  refine ⟨⟨rfl, rfl, rfl, rfl⟩, fun hp ↦ ?_, .of_eq ?_⟩
  · by_contra hs
    change (if _ then _ else _) = _ at hp
    rw [if_neg (fun h ↦ hs h.1)] at hp
    cases hp
  · rw [rest_subscription]
    simp [delivered, messages, subscription]

theorem Hearing.fetch (h : Hearing history e batches e') (hp : e'.replay = .pending) :
    Hearing history e batches
      { e' with replay := .sending (history.filter (e'.sinceRevision < ·.revision)) } := by
  refine ⟨h.asks, (absurd · Replay.noConfusion), ?_⟩
  have hrest := rest_fetch [history] hp (h.since hp)
  rw [flatten_singleton] at hrest
  rw [hrest]
  exact h.split

theorem Hearing.send (h : Hearing history e batches e') (hs : e'.send = some e'') :
    Hearing history e batches e'' := by
  have hsplit := h.split
  unfold WatchEntry.send at hs
  split at hs
  · rename_i hr
    cases hs
    refine ⟨h.asks, (absurd · Replay.noConfusion), ?_⟩
    rw [rest, hr] at hsplit
    exact hsplit
  · rename_i x past hr
    rw [rest, hr] at hsplit
    dsimp only at hsplit
    split_ifs at hs with hskip hroom
    · cases hs
      refine ⟨h.asks, (absurd · Replay.noConfusion), ?_⟩
      rw [filter_cons_of_neg] at hsplit
      · exact hsplit
      · simp only [Bool.not_eq_true'] at hskip
        simp only [decide_eq_true_eq, not_and, Bool.not_eq_true]
        intro hle
        exact hskip.resolve_left (by omega)
    · cases hs
      refine ⟨h.asks, (absurd · Replay.noConfusion), ?_⟩
      rw [filter_cons_of_pos] at hsplit
      · refine List.Perm.trans (.of_eq ?_) hsplit
        change (e'.push ⟨[x], x.revision⟩).delivered ++ _ = _
        rw [delivered_push, append_assoc]
        rfl
      · simp only [Bool.not_eq_true', not_or, not_lt, Bool.not_eq_false] at hskip
        simpa using hskip
  · cases hs

theorem Hearing.offer (h : Hearing history e batches e') (b : List Event)
    (hc : e'.canceled = false) (hd : (e'.offer b).2 = 0) :
    Hearing history e (batches ++ [b]) (e'.offer b).1 := by
  have hlive : (batches ++ [b]).flatten.filter e.live =
      batches.flatten.filter e.live ++ b.filter e'.live := by
    rw [flatten_append, filter_append, flatten_singleton, h.live_eq]
  unfold WatchEntry.offer at hd ⊢
  dsimp only at hd ⊢
  split_ifs at hd ⊢ with hnil hroom
  · have hnil : b.filter e'.live = [] := hnil.resolve_left (by simp [hc])
    refine ⟨h.asks, h.since, ?_⟩
    rw [hlive, hnil, append_nil]
    exact h.split
  · refine ⟨h.asks, h.since, ?_⟩
    rw [hlive, delivered_push, ← append_assoc, append_assoc e'.delivered]
    refine (List.Perm.append_left _ perm_append_comm).trans ?_
    rw [← append_assoc]
    exact h.split.append_right _

theorem Hears.hearing (h : Hears history e batches e') (he : Hearing history e [] e) :
    Hearing history e batches e' := by
  induction h with
  | refl => exact he
  | fetch _ hp ih => exact ih.fetch hp
  | send _ hs ih => exact ih.send hs
  | take _ ht ih => exact { ih with }
  | offer _ b hc hd ih => exact ih.offer b hc hd

end Hearing

end Kv.WatchEntry

namespace Etcd

open Kv

section Statement

/-- A request for a watcher; the fields that the selection does not read are left out. -/
structure WatchCreateRequest where
  key : Bytes
  rangeEnd : Bytes
  startRevision : ℤ
deriving DecidableEq

/-- The subscription that a request is translated to, at the revision that the store has then. -/
def handleCreate (req : WatchCreateRequest) (revision : ℤ) : WatchEntry :=
  let sinceRevision := if req.startRevision = 0 then -1 else req.startRevision
  if isRangeEndPrefix req.key req.rangeEnd then
    .subscription (rangePrefix req.key req.rangeEnd) true sinceRevision revision
  else .subscription req.key false sinceRevision revision

/-- The events that are still buffered when a watcher is created, and those after that. -/
def known (created : ℤ) (history : List Kv.Event) (batches : List (List Kv.Event)) :
    List Kv.Event :=
  history.filter (·.revision ≤ created) ++ batches.flatten.filter (created < ·.revision)

namespace WatchCreateRequest

variable (req : WatchCreateRequest) (created : ℤ) (x : Kv.Event)

def asks : Bool := inRange x.key req.key req.rangeEnd &&
  if req.startRevision = 0 then created < x.revision else req.startRevision ≤ x.revision

def Interval : Prop := req.rangeEnd ≠ [] ∧ req.rangeEnd ≠ [0] ∧ req.rangeEnd ≠ req.key ++ [0]

/-- Asked for and not sent: another key of an interval, an event of the very start revision that is
in the past, and all past events after a negative start. -/
def Missed : Prop := req.asks created x = true ∧
  (req.Interval ∧ x.key ≠ req.key ∨
    x.revision ≤ created ∧ (x.revision = req.startRevision ∨ req.startRevision < 0))

/-- Sent and not asked for: a key before the start of an open range, the key of an empty interval,
and a live event before the start revision. -/
def Extra : Prop :=
  (req.rangeEnd = [0] ∨ x.key = req.key ∨
    req.rangeEnd = req.key ++ [0] ∧ req.key.isPrefixOf x.key = true) ∧
  (created < x.revision ∨ 0 < req.startRevision ∧ req.startRevision < x.revision) ∧
  (req.rangeEnd = [0] ∧ bytesLE req.key x.key = false ∨
    req.Interval ∧ bytesLE req.rangeEnd req.key = true ∨
    created < x.revision ∧ x.revision < req.startRevision ∧ req.startRevision ≠ 0)

end WatchCreateRequest

end Statement

section Selection

variable {req : WatchCreateRequest} {created : ℤ} {x : Kv.Event} {history : List Kv.Event}
  {batches : List (List Kv.Event)} {e : WatchEntry}

def sends (req : WatchCreateRequest) (created : ℤ) (x : Kv.Event) : Bool :=
  if x.revision ≤ created then (handleCreate req created).past x
  else (handleCreate req created).live x

theorem handleCreate_eq (req : WatchCreateRequest) (created : ℤ) :
    (handleCreate req created).startRev = created ∧ (handleCreate req created).sinceRevision =
      if req.startRevision = 0 then -1 else req.startRevision := by
  unfold handleCreate
  dsimp only
  split <;> exact ⟨rfl, rfl⟩

theorem matchesKey_handleCreate : (handleCreate req created).matchesKey x.key = true ↔
    req.rangeEnd = [0] ∨ x.key = req.key ∨
      req.rangeEnd = req.key ++ [0] ∧ req.key.isPrefixOf x.key = true := by
  unfold handleCreate
  dsimp only
  by_cases hend : isRangeEndPrefix req.key req.rangeEnd = true
  · rw [if_pos hend]
    change (rangePrefix req.key req.rangeEnd).isPrefixOf x.key = true ↔ _
    rw [isRangeEndPrefix_eq] at hend
    by_cases hkey : req.key = []
    · rw [hkey, nil_append, or_self] at hend
      rw [rangePrefix, if_pos ⟨hend, hkey⟩]
      exact iff_of_true rfl (.inl hend)
    · rw [rangePrefix_eq hkey]
      split_ifs with happ
      · have hself : x.key = req.key → req.key.isPrefixOf x.key = true := by
          intro h
          rw [h]
          exact isPrefixOf_iff_prefix.mpr prefix_rfl
        have hzero : req.rangeEnd ≠ [0] := happ ▸ append_zero_ne hkey
        tauto
      · exact iff_of_true rfl (.inl (hend.resolve_right happ))
  · rw [if_neg hend]
    rw [isRangeEndPrefix_eq] at hend
    change decide (x.key = req.key) = true ↔ _
    rw [decide_eq_true_eq]
    tauto

theorem sends_iff : sends req created x = true ↔
    (handleCreate req created).matchesKey x.key = true ∧
      (created < x.revision ∨ 0 < req.startRevision ∧ req.startRevision < x.revision) := by
  obtain ⟨hstart, hsince⟩ := handleCreate_eq req created
  unfold sends
  split_ifs with hle
  · have htime : (0 ≤ (handleCreate req created).sinceRevision ∧
        (handleCreate req created).sinceRevision < x.revision ∧
        x.revision ≤ (handleCreate req created).startRev) ↔
        (created < x.revision ∨ 0 < req.startRevision ∧ req.startRevision < x.revision) := by
      rw [hstart, hsince]
      split_ifs <;> omega
    rw [← htime, WatchEntry.past, decide_eq_true_eq]
    tauto
  · rw [WatchEntry.live, hstart, Bool.and_eq_true, decide_eq_true_eq]
    have hlt : created < x.revision := not_le.mp hle
    tauto

/-- The watcher matches another set of keys than the request selects. -/
theorem matchesKey_eq_inRange (req : WatchCreateRequest) (created : ℤ) (x : Kv.Event) :
    (inRange x.key req.key req.rangeEnd = true →
      ((handleCreate req created).matchesKey x.key = true ↔ ¬ (req.Interval ∧ x.key ≠ req.key))) ∧
    ((handleCreate req created).matchesKey x.key = true →
      (inRange x.key req.key req.rangeEnd = true ↔ ¬ (req.rangeEnd = [0] ∧
        bytesLE req.key x.key = false ∨ req.Interval ∧ bytesLE req.rangeEnd req.key = true))) := by
  rw [matchesKey_handleCreate]
  have hself : req.key.isPrefixOf req.key = true := isPrefixOf_iff_prefix.mpr prefix_rfl
  unfold inRange WatchCreateRequest.Interval
  simp only [eq_append_zero_iff]
  by_cases hnil : req.rangeEnd = []
  · have happ : req.key ++ [0] ≠ [] := by simp
    simp only [hnil, if_true, decide_eq_true_eq]
    tauto
  by_cases hzero : req.rangeEnd = [0]
  · simp [hzero]
  by_cases happ : req.rangeEnd = req.key ++ [0]
  · rw [if_neg hnil, if_neg hzero, if_pos happ]
    have hpre : x.key = req.key → req.key.isPrefixOf x.key = true := fun h ↦ by rw [h, hself]
    tauto
  · rw [if_neg hnil, if_neg hzero, if_neg happ, Bool.and_eq_true, Bool.not_eq_true']
    constructor
    · tauto
    · intro hkey
      have hkey : x.key = req.key := by tauto
      rw [hkey, ← Bool.not_eq_true]
      have := bytesLE_refl req.key
      tauto

/-- Two conditions and what is missing of each of them when the other one holds. -/
theorem iff_of_differences {M I S T A B L E : Prop} (hM : I → (M ↔ ¬ A)) (hI : M → (I ↔ ¬ B))
    (hS : T → (S ↔ ¬ L)) (hT : S → (T ↔ ¬ E)) :
    (M ∧ S ↔ I ∧ T) ↔ ¬ ((I ∧ T) ∧ (A ∨ L)) ∧ ¬ (M ∧ S ∧ (B ∨ E)) := by
  by_cases I <;> by_cases M <;> by_cases S <;> by_cases T <;> simp_all

theorem sends_eq_asks_iff : sends req created x = req.asks created x ↔
    ¬ req.Missed created x ∧ ¬ req.Extra created x := by
  obtain ⟨hmatch, hin⟩ := matchesKey_eq_inRange req created x
  have hasks : req.asks created x = true ↔ inRange x.key req.key req.rangeEnd = true ∧
      (if req.startRevision = 0 then created < x.revision else req.startRevision ≤ x.revision) := by
    rw [WatchCreateRequest.asks, Bool.and_eq_true]
    split_ifs <;> simp
  have hlate : (if req.startRevision = 0 then created < x.revision
      else req.startRevision ≤ x.revision) →
      ((created < x.revision ∨ 0 < req.startRevision ∧ req.startRevision < x.revision) ↔
        ¬ (x.revision ≤ created ∧ (x.revision = req.startRevision ∨ req.startRevision < 0))) := by
    split_ifs <;> omega
  have hearly : created < x.revision ∨ 0 < req.startRevision ∧ req.startRevision < x.revision →
      ((if req.startRevision = 0 then created < x.revision else req.startRevision ≤ x.revision) ↔
        ¬ (created < x.revision ∧ x.revision < req.startRevision ∧ req.startRevision ≠ 0)) := by
    split_ifs <;> omega
  rw [Bool.eq_iff_iff, sends_iff, WatchCreateRequest.Missed, WatchCreateRequest.Extra, hasks,
    ← @matchesKey_handleCreate req created x, ← or_assoc (c := _ ∧ _ ∧ _)]
  exact iff_of_differences hmatch hin hlate hearly

theorem delivered_perm (h : WatchEntry.Hears history (handleCreate req created) batches e)
    (hdone : e.replay = .done) :
    e.delivered.Perm ((known created history batches).filter (sends req created)) := by
  obtain ⟨hstart, -⟩ := handleCreate_eq req created
  have hnew : WatchEntry.Hearing history (handleCreate req created) []
      (handleCreate req created) := by
    unfold handleCreate
    dsimp only
    split <;> exact WatchEntry.hearing_subscription _ _ _ _
  have hsplit := (h.hearing hnew).split
  rw [WatchEntry.rest, hdone, flatten_nil, append_nil] at hsplit
  refine hsplit.trans (.of_eq ?_)
  rw [known, filter_append, filter_filter, filter_filter]
  congr 1 <;> refine filter_congr fun x _ ↦ ?_ <;> unfold sends <;> split_ifs with hle
  · rw [decide_eq_true hle, Bool.and_true]
  · rw [decide_eq_false hle, Bool.and_false, WatchEntry.past, hstart, decide_eq_false]
    tauto
  · rw [decide_eq_false (not_lt.mpr hle), Bool.and_false, WatchEntry.live, hstart,
      decide_eq_false (not_lt.mpr hle), Bool.false_and]
  · rw [decide_eq_true (not_le.mp hle), Bool.and_true]

theorem perm_filter_iff {α : Type} {l : List α} {p q : α → Bool} :
    (l.filter p).Perm (l.filter q) ↔ ∀ x ∈ l, p x = q x := by
  constructor
  · intro h x hx
    have hmem := h.mem_iff (a := x)
    rw [mem_filter, mem_filter, and_iff_right hx, and_iff_right hx] at hmem
    exact Bool.eq_iff_iff.mpr hmem
  · intro h
    rw [filter_congr h]

/-- A watcher whose replay is finished has got exactly the events that were asked for, when and only
when none of them is missed and none is extra. -/
theorem watch_exact_iff (h : WatchEntry.Hears history (handleCreate req created) batches e)
    (hdone : e.replay = .done) :
    e.delivered.Perm ((known created history batches).filter (req.asks created)) ↔
      ∀ x ∈ known created history batches, ¬ req.Missed created x ∧ ¬ req.Extra created x := by
  have hperm := delivered_perm h hdone
  rw [← forall₂_congr fun x _ ↦ sends_eq_asks_iff, ← perm_filter_iff]
  exact ⟨hperm.symm.trans, hperm.trans⟩

def deletedA (revision : ℤ) : Kv.Event := ⟨.delete, ascii "a", none, none, revision⟩

def afterA (rangeEnd : String) (startRevision : ℤ) : WatchCreateRequest :=
  ⟨ascii "a", ascii rangeEnd, startRevision⟩

theorem watch_exact_next : ∃ e,
    WatchEntry.Hears [] (handleCreate (afterA "" 0) 1) [[deletedA 2]] e ∧ e.replay = .done ∧
      e.delivered.Perm ((known 1 [] [[deletedA 2]]).filter ((afterA "" 0).asks 1)) := by
  have h : WatchEntry.Hears [] (handleCreate (afterA "" 0) 1) [[deletedA 2]]
      ((handleCreate (afterA "" 0) 1).offer [deletedA 2]).1 := .offer .refl _ rfl rfl
  refine ⟨_, h, rfl, (watch_exact_iff h rfl).mpr fun x hx ↦ sends_eq_asks_iff.mp ?_⟩
  revert x
  decide

/-- The event of the start revision itself is not replayed, an event before a later start revision
is delivered, and so are keys before an open range, and of an interval only the first key is
watched. -/
theorem watch_inexact :
    (∃ e, WatchEntry.Hears [deletedA 1] (handleCreate (afterA "" 1) 1) [] e ∧ e.replay = .done ∧
      e.delivered = [] ∧ (known 1 [deletedA 1] []).filter ((afterA "" 1).asks 1) = [deletedA 1]) ∧
    (∃ e, WatchEntry.Hears [] (handleCreate (afterA "" 3) 1) [[deletedA 2]] e ∧ e.replay = .done ∧
      e.delivered = [deletedA 2] ∧
      (known 1 [] [[deletedA 2]]).filter ((afterA "" 3).asks 1) = []) ∧
    (∃ e, WatchEntry.Hears [] (handleCreate ⟨ascii "b", [0], 0⟩ 1) [[deletedA 2]] e ∧
      e.replay = .done ∧ e.delivered = [deletedA 2] ∧
      (known 1 [] [[deletedA 2]]).filter (WatchCreateRequest.asks ⟨ascii "b", [0], 0⟩ 1) = []) ∧
    ∃ e, WatchEntry.Hears [] (handleCreate ⟨ascii "A", ascii "z", 0⟩ 1) [[deletedA 2]] e ∧
      e.replay = .done ∧ e.delivered = [] ∧
      (known 1 [] [[deletedA 2]]).filter (WatchCreateRequest.asks ⟨ascii "A", ascii "z", 0⟩ 1) =
        [deletedA 2] := by
  refine ⟨⟨_, .refl, ?_⟩, ⟨_, .offer .refl _ rfl ?_, ?_⟩, ⟨_, .offer .refl _ rfl ?_, ?_⟩,
    _, .offer .refl _ rfl ?_, ?_⟩
  all_goals decide

end Selection

end Etcd

end RaftConsensus
