import RaftConsensus.Etcd.Fidelity
import RaftConsensus.Kv.ReadAgreement
import RaftConsensus.Kv.Revisions

namespace RaftConsensus.Etcd

open Kv List Option Contents KVStore KVServer

variable {s : KVServer} {req : RangeRequest} {done : List (KVStore × KvCommand)}

def outcome : Except Status RangeResponse → Except Code (List PbKeyValue × Bool × ℤ)
  | .ok resp => .ok (resp.kvs, resp.more, resp.count)
  | .error status => .error status.code

/-- A request is answered alike in both modes, in whatever order the local scan meets the keys. -/
def ModesAgree (s : KVServer) (req : RangeRequest) : Prop :=
  ∀ data : KeyData, data.entries.Perm s.kv.data.entries →
    outcome ({ s with kv := s.kv.iterated data }.range { req with serializable := true }).2 =
      outcome (s.range { req with serializable := false }).2

def RangeRequest.full (req : RangeRequest) : RangeRequest :=
  { req with limit := 0, keysOnly := false, countOnly := false }

/-- JSON changes no pair that the request asks for, and brings no other pair into its range. -/
def JsonKeeps (kv : KVStore) (req : RangeRequest) : Prop :=
  ∀ k pair, kv.data.lookup k = some pair → (req.picks pair = true → jsonKeyValue pair = pair) ∧
    (req.rangeEnd ≠ [] → kv.isLive pair = true → req.picks (jsonKeyValue pair) = true →
      req.picks pair = true)

def BothExceed (kv : KVStore) (req : RangeRequest) : Prop :=
  req.rangeEnd ≠ [] ∧ maxRangeResults < kv.liveKeys.length ∧
    maxRangeResults < kv.data.keys.countP (rangePrefix req.key req.rangeEnd).isPrefixOf

/-- No scan meets the limit, and what the local one finds is live; the pair of a single key passes
the filters when and only when it is live, since the read through the log leaves them out. -/
def Within (kv : KVStore) (req : RangeRequest) : Prop :=
  (kv.data.keys.countP (rangePrefix req.key req.rangeEnd).isPrefixOf < maxRangeResults ∨
    kv.data.keys.length ≤ maxRangeResults) ∧
  if req.rangeEnd = [] then ∀ pair, kv.data.lookup req.key = some pair →
    (req.passes pair = true ↔ kv.isLive pair = true)
  else kv.liveKeys.length ≤ maxRangeResults ∧
    ∀ k pair, kv.data.lookup k = some pair → req.picks pair = true → kv.isLive pair = true

def logPairs (kv : KVStore) (req : RangeRequest) : List KeyValue :=
  if req.rangeEnd = [] then (kv.live req.key).toList.map jsonKeyValue
  else (((kv.scanned []).filter kv.isLive).map jsonKeyValue).filter req.picks

def shows (s : KVServer) (req : RangeRequest) (kvs : List KeyValue) :
    Except Code (List PbKeyValue × Bool × ℤ) :=
  outcome (.ok (s.rangeResponse (sortKVs s.sort kvs req.sortOrder req.sortTarget) req))

theorem outcome_rangeResponse (s t : KVServer) (req : RangeRequest) (kvs : List KeyValue) :
    outcome (.ok (s.rangeResponse kvs req)) = outcome (.ok (t.rangeResponse kvs req)) := by
  unfold rangeResponse
  dsimp only
  split_ifs <;> rfl

theorem length_of_shows {kvs kvs' : List KeyValue} (h : shows s req kvs = shows s req kvs') :
    kvs.length = kvs'.length := by
  have hcount (kvs : List KeyValue) : (s.rangeResponse kvs req).count = kvs.length := by
    unfold rangeResponse
    dsimp only
    split_ifs <;> rfl
  have heq := congrArg (fun o ↦ o.toOption.map (·.2.2)) h
  simp only [shows, outcome, Except.toOption, map_some, hcount, some_inj,
    (sortKVs_perm _ _ _ _).length_eq] at heq
  exact_mod_cast heq

theorem perm_of_shows {kvs kvs' : List KeyValue}
    (h : shows s req.full kvs = shows s req.full kvs') :
    (kvs.map fsmKVToPb).Perm (kvs'.map fsmKVToPb) := by
  have hkvs (kvs : List KeyValue) : (s.rangeResponse kvs req.full).kvs = kvs.map fsmKVToPb := by
    simp [rangeResponse, RangeRequest.full]
  have heq := congrArg (fun o ↦ o.toOption.map (·.1)) h
  simp only [shows, outcome, Except.toOption, map_some, hkvs, some_inj] at heq
  exact (((sortKVs_perm _ kvs _ _).map _).symm.trans (.of_eq heq)).trans
    ((sortKVs_perm _ kvs' _ _).map _)

theorem json_of_mem_logPairs {kv : KVStore} {pair : KeyValue} (h : pair ∈ logPairs kv req) :
    ∃ pair', pair = jsonKeyValue pair' := by
  unfold logPairs at h
  split_ifs at h
  · obtain ⟨pair', -, rfl⟩ := mem_map.mp h
    exact ⟨pair', rfl⟩
  · obtain ⟨pair', -, rfl⟩ := mem_map.mp (mem_of_mem_filter h)
    exact ⟨pair', rfl⟩

theorem outcome_log (hs : s.kv.Sound) (hkey : req.key ≠ []) (hlimit : 0 ≤ req.limit) :
    outcome (s.range { req with serializable := false }).2 =
      if req.rangeEnd ≠ [] ∧ maxRangeResults < s.kv.liveKeys.length then .error .internal
      else shows s req (logPairs s.kv req) := by
  rw [range_eq (by exact hkey) (by exact hlimit), if_neg Bool.false_ne_true]
  unfold logPairs
  by_cases hend : req.rangeEnd = []
  · obtain ⟨t, ht⟩ := linearizableGet_eq { req with serializable := false } hs
    dsimp only at ht ⊢
    rw [if_pos hend, if_neg fun h ↦ h.1 hend, if_pos hend, ht, shows, ← toList_map,
      sortKVs_toList]
    exact outcome_rangeResponse t s _ _
  · obtain ⟨t, ht⟩ := linearizableRange_eq { req with serializable := false } hs hkey
    dsimp only at ht ⊢
    rw [if_neg hend, if_neg hend, ht]
    by_cases hn : maxRangeResults < s.kv.liveKeys.length
    · rw [if_pos hn, if_pos ⟨hend, hn⟩]
      rfl
    · rw [if_neg hn, if_neg fun h ↦ hn h.2]
      exact outcome_rangeResponse t s _ _

theorem outcome_stale (hs : s.kv.Sound) (hkey : req.key ≠ []) (hlimit : 0 ≤ req.limit)
    {data : KeyData} (hd : data.entries.Perm s.kv.data.entries) :
    (KVStore.Overflows (rangePrefix req.key req.rangeEnd) 0 data.entries →
      outcome ({ s with kv := s.kv.iterated data }.range { req with serializable := true }).2 =
        .error .internal) ∧
    (¬ KVStore.Overflows (rangePrefix req.key req.rangeEnd) 0 data.entries →
      outcome ({ s with kv := s.kv.iterated data }.range { req with serializable := true }).2 =
        shows s req ((s.kv.scanned []).filter req.picks)) := by
  rw [range_eq (by exact hkey) (by exact hlimit), if_pos rfl]
  refine ⟨fun hover ↦ ?_, fun hover ↦ ?_⟩
  · dsimp only [staleRange]
    rw [range_of_overflows (s := s.kv.iterated data) hover]
    rfl
  · have hsound : (s.kv.iterated data).Sound :=
      ⟨fun k kv hkv ↦ hs.keyed k kv (by rwa [← lookup_of_perm hd]), hs.clock⟩
    have heq := staleRange_eq (s := { s with kv := s.kv.iterated data })
      { req with serializable := true } hsound hkey hover
    rw [heq]
    dsimp only
    rw [scanned_iterated hs hd]
    exact outcome_rangeResponse _ s _ _

/-- What the modes have to agree on. -/
theorem modesAgree_iff_shows (req : RangeRequest) (hs : s.kv.Sound) (hkey : req.key ≠ [])
    (hlimit : 0 ≤ req.limit) :
    ModesAgree s req ↔ BothExceed s.kv req ∨
      (s.kv.data.keys.countP (rangePrefix req.key req.rangeEnd).isPrefixOf < maxRangeResults ∨
        s.kv.data.keys.length ≤ maxRangeResults) ∧
      ¬(req.rangeEnd ≠ [] ∧ maxRangeResults < s.kv.liveKeys.length) ∧
      shows s req ((s.kv.scanned []).filter req.picks) = shows s req (logPairs s.kv req) := by
  have hlog := outcome_log hs hkey hlimit
  by_cases hexceed : req.rangeEnd ≠ [] ∧ maxRangeResults < s.kv.liveKeys.length
  · rw [if_pos hexceed] at hlog
    rw [or_iff_left fun h ↦ h.2.1 hexceed, BothExceed, and_iff_right hexceed.1,
      and_iff_right hexceed.2, ← always_overflows_iff]
    refine forall₂_congr fun data hd ↦ ?_
    obtain ⟨hover, hfits⟩ := outcome_stale hs hkey hlimit hd
    rw [hlog]
    by_cases hdata : KVStore.Overflows (rangePrefix req.key req.rangeEnd) 0 data.entries
    · exact iff_of_true (hover hdata) hdata
    · refine iff_of_false (fun h ↦ ?_) hdata
      cases (hfits hdata).symm.trans h
  · rw [if_neg hexceed] at hlog
    rw [or_iff_right fun h ↦ hexceed ⟨h.1, h.2.1⟩, and_iff_right hexceed,
      ← never_overflows_iff]
    constructor
    · intro ha
      have hnone (data : KeyData) (hd : data.entries.Perm s.kv.data.entries) :
          ¬ KVStore.Overflows (rangePrefix req.key req.rangeEnd) 0 data.entries := by
        intro hdata
        cases ((outcome_stale hs hkey hlimit hd).1 hdata).symm.trans ((ha data hd).trans hlog)
      refine ⟨hnone, ?_⟩
      have hfits := (outcome_stale hs hkey hlimit (.refl _)).2 (hnone s.kv.data (.refl _))
      exact hfits.symm.trans ((ha s.kv.data (.refl _)).trans hlog)
    · rintro ⟨hnone, hsame⟩ data hd
      exact ((outcome_stale hs hkey hlimit hd).2 (hnone data hd)).trans (hsame.trans hlog.symm)

theorem filter_picks_nil (hs : s.kv.Sound) (hend : req.rangeEnd = []) :
    (s.kv.scanned []).filter req.picks =
      ((s.kv.data.lookup req.key).filter req.passes).toList := by
  have hscans (kv : KeyValue) : req.picks kv = (decide (kv.key = req.key) && req.passes kv) := by
    simp [RangeRequest.picks, scans, selects, hend]
  rw [filter_congr fun kv _ ↦ hscans kv, ← List.filter_filter, filter_comm,
    filter_key hs]
  cases s.kv.data.lookup req.key with
  | none => rfl
  | some kv =>
    rw [filter_some]
    cases hp : req.passes kv <;> simp [hp]

theorem shows_eq_iff (hs : s.kv.Sound) (hjson : JsonKeeps s.kv req) :
    shows s req ((s.kv.scanned []).filter req.picks) = shows s req (logPairs s.kv req) ↔
      if req.rangeEnd = [] then ∀ pair, s.kv.data.lookup req.key = some pair →
        (req.passes pair = true ↔ s.kv.isLive pair = true)
      else ∀ k pair, s.kv.data.lookup k = some pair → req.picks pair = true →
        s.kv.isLive pair = true := by
  unfold logPairs
  split_ifs with hend
  · rw [filter_picks_nil hs hend, live]
    cases hl : s.kv.data.lookup req.key with
    | none => simp
    | some pair =>
      have hkey := hs.keyed _ _ hl
      have hpicks : req.passes pair = true → jsonKeyValue pair = pair := by
        intro hp
        refine (hjson req.key pair hl).1 ?_
        simp [RangeRequest.picks, scans, selects, hend, hkey, hp]
      simp only [some.injEq, forall_eq', filter_some]
      by_cases hp : req.passes pair = true <;> by_cases hlive : s.kv.isLive pair = true
      · simp [hp, hlive, hpicks hp]
      · refine iff_of_false (fun h ↦ ?_) (by simp [hp, hlive])
        simpa [hp, hlive] using length_of_shows h
      · refine iff_of_false (fun h ↦ ?_) (by simp [hp, hlive])
        simpa [hp, hlive] using length_of_shows h
      · simp [hp, hlive]
  · have hlog : (((s.kv.scanned []).filter s.kv.isLive).map jsonKeyValue).filter req.picks =
        ((s.kv.scanned []).filter req.picks).filter s.kv.isLive := by
      rw [List.filter_map, List.filter_filter, List.filter_filter]
      have hcongr : (s.kv.scanned []).filter
          (fun pair ↦ (req.picks ∘ jsonKeyValue) pair && s.kv.isLive pair) =
          (s.kv.scanned []).filter fun pair ↦ s.kv.isLive pair && req.picks pair := by
        refine filter_congr fun pair hpair ↦ ?_
        obtain ⟨hkeep, hmove⟩ := hjson _ pair (lookup_of_mem_scanned hs.keyed hpair)
        rw [Bool.eq_iff_iff, Bool.and_eq_true, Bool.and_eq_true]
        constructor
        · exact fun h ↦ ⟨h.2, hmove hend h.2 h.1⟩
        · intro h
          refine ⟨?_, h.1⟩
          rw [Function.comp, hkeep h.2]
          exact h.2
      rw [hcongr]
      refine (map_congr_left fun pair hpair ↦ ?_).trans (map_id _)
      obtain ⟨hpair, hp⟩ := mem_filter.mp hpair
      refine (hjson _ pair (lookup_of_mem_scanned hs.keyed hpair)).1 ?_
      exact (Bool.and_eq_true_iff.mp hp).2
    have hall : (∀ k pair, s.kv.data.lookup k = some pair → req.picks pair = true →
        s.kv.isLive pair = true) ↔
        ∀ pair ∈ (s.kv.scanned []).filter req.picks, s.kv.isLive pair = true := by
      constructor
      · intro h pair hpair
        obtain ⟨hpair, hp⟩ := mem_filter.mp hpair
        exact h _ pair (lookup_of_mem_scanned hs.keyed hpair) hp
      · intro h k pair hl hp
        exact h pair (mem_filter.mpr ⟨KVStore.mem_scanned.mpr ⟨k, hl, rfl⟩, hp⟩)
    rw [hlog, hall]
    constructor
    · intro h
      exact length_filter_eq_length_iff.mp (length_of_shows h).symm
    · intro h
      rw [filter_eq_self.mpr h]

theorem isLive_of_shared (hr : KVStore.RevisionsSound done s.kv) {k k' : Bytes}
    {pair pair' : KeyValue} (hl : s.kv.data.lookup k = some pair)
    (hl' : s.kv.data.lookup k' = some pair') (hne : k ≠ k')
    (hmod : pair.modRevision = pair'.modRevision) : s.kv.isLive pair = true := by
  obtain ⟨p, -, hop, hw, -⟩ := hr.shared k k' pair pair' hl hl' hne hmod
  obtain ⟨e, he, -, hkv⟩ := hw.event
  have hexp := expiresAtMs_events (mem_events_of_emitted he) hkv
  rw [hop] at hexp
  have hzero : pair.expiresAtMs = 0 := hexp.resolve_right fun h ↦ by cases h.1
  simp [isLive, hzero]

theorem jsonKeeps_of_shows (hs : s.kv.Sound) (hr : KVStore.RevisionsSound done s.kv)
    (h : shows s req.full ((s.kv.scanned []).filter req.picks) =
      shows s req.full (logPairs s.kv req)) : JsonKeeps s.kv req := by
  have hperm := perm_of_shows h
  have hkeep {k : Bytes} {pair : KeyValue} (hl : s.kv.data.lookup k = some pair)
      (hp : req.picks pair = true) : jsonKeyValue pair = pair := by
    have hmem : fsmKVToPb pair ∈ (logPairs s.kv req).map fsmKVToPb := by
      refine hperm.mem_iff.mp (mem_map_of_mem (mem_filter.mpr ⟨?_, hp⟩))
      exact KVStore.mem_scanned.mpr ⟨k, hl, rfl⟩
    obtain ⟨x, hx, heq⟩ := mem_map.mp hmem
    obtain ⟨y, rfl⟩ := json_of_mem_logPairs hx
    have hkey : jsonText pair.key = pair.key := by
      rw [← show jsonText y.key = pair.key from congrArg PbKeyValue.key heq]
      exact Utf8.sanitize_sanitize _
    have hvalue : jsonText pair.value = pair.value := by
      rw [← show jsonText y.value = pair.value from congrArg PbKeyValue.value heq]
      exact Utf8.sanitize_sanitize _
    unfold jsonKeyValue
    rw [hkey, hvalue]
  refine fun k pair hl ↦ ⟨hkeep hl, fun hend hlive hp ↦ ?_⟩
  have hlog : logPairs s.kv req =
      (((s.kv.scanned []).filter s.kv.isLive).filter (req.picks ∘ jsonKeyValue)).map
      jsonKeyValue := by
    rw [logPairs, if_neg hend, List.filter_map]
  rw [hlog] at hperm
  have hsource {k : Bytes} {pair : KeyValue} (hl : s.kv.data.lookup k = some pair)
      (hlive : s.kv.isLive pair = true) (hp : req.picks (jsonKeyValue pair) = true) :
      pair ∈ ((s.kv.scanned []).filter s.kv.isLive).filter (req.picks ∘ jsonKeyValue) :=
    mem_filter.mpr
      ⟨mem_filter.mpr ⟨KVStore.mem_scanned.mpr ⟨k, hl, rfl⟩, hlive⟩, hp⟩
  have hmem := hperm.mem_iff.mpr
    (mem_map_of_mem (mem_map_of_mem (hsource hl hlive hp)))
  obtain ⟨x, hx, heq⟩ := mem_map.mp hmem
  obtain ⟨hx, hxp⟩ := mem_filter.mp hx
  have hlx := lookup_of_mem_scanned hs.keyed hx
  by_cases hk : x.key = k
  · rw [hk, hl] at hlx
    cases hlx
    exact hxp
  · -- two pairs of one key in the answer of the log, against one in the local answer
    have hxlive := isLive_of_shared hr hlx hl hk (congrArg PbKeyValue.modRevision heq)
    have hxjson := hkeep hlx hxp
    have hnodup : (((((s.kv.scanned []).filter s.kv.isLive).filter
        (req.picks ∘ jsonKeyValue)).map jsonKeyValue).map fsmKVToPb).map PbKeyValue.key
        |>.Nodup := by
      rw [← (hperm.map PbKeyValue.key).nodup_iff, List.map_map]
      refine List.Nodup.sublist (filter_sublist.map KeyValue.key) ?_
      rw [map_key_scanned hs.keyed]
      exact (sortStrings_perm _).nodup_iff.mpr (s.kv.data.keys_nodup.filter _)
    rw [List.map_map, List.map_map] at hnodup
    have hsame := inj_on_of_nodup_map hnodup (hsource hlx hxlive (by rwa [hxjson]))
      (hsource hl hlive hp) (by
        change (jsonKeyValue x).key = (jsonKeyValue pair).key
        rw [hxjson]
        exact congrArg PbKeyValue.key heq)
    rw [← hsame]
    exact hxp

theorem modesAgree_of_keeps (req : RangeRequest) (hs : s.kv.Sound) (hkey : req.key ≠ [])
    (hlimit : 0 ≤ req.limit) (hjson : JsonKeeps s.kv req) :
    ModesAgree s req ↔ BothExceed s.kv req ∨ Within s.kv req := by
  rw [modesAgree_iff_shows req hs hkey hlimit, shows_eq_iff hs hjson, Within]
  by_cases hend : req.rangeEnd = [] <;> simp [hend]

/-- Where JSON leaves alone what a request can see, the modes agree when and only when both fail or
both find the same; and they agree on all there is to show when and only when, besides, it does. -/
theorem modesAgree_iff (hs : s.kv.Sound) (hr : KVStore.RevisionsSound done s.kv)
    (hkey : req.key ≠ []) (hlimit : 0 ≤ req.limit) :
    (JsonKeeps s.kv req → (ModesAgree s req ↔ BothExceed s.kv req ∨ Within s.kv req)) ∧
      (ModesAgree s req.full ↔ BothExceed s.kv req ∨ Within s.kv req ∧ JsonKeeps s.kv req) := by
  have hfull (hjson : JsonKeeps s.kv req) :
      ModesAgree s req.full ↔ BothExceed s.kv req ∨ Within s.kv req :=
    modesAgree_of_keeps req.full hs hkey le_rfl hjson
  have hshows := modesAgree_iff_shows req.full hs hkey le_rfl
  refine ⟨modesAgree_of_keeps req hs hkey hlimit, fun h ↦ ?_, ?_⟩
  · rcases hshows.mp h with hboth | ⟨-, -, hsame⟩
    · exact .inl hboth
    · have hjson := jsonKeeps_of_shows hs hr hsame
      exact ((hfull hjson).mp h).imp_right fun hw ↦ ⟨hw, hjson⟩
  · rintro (hboth | ⟨hw, hjson⟩)
    · exact hshows.mpr (.inl hboth)
    · exact (hfull hjson).mpr (.inr hw)

def putServer : KVServer := ⟨(KVStore.putOnce.apply KVStore.putA).1, 1, 1, .insertion⟩

theorem modesAgree_putServer : ModesAgree putServer (rangeA true) := by
  have hs : putServer.kv.Sound := (KVStore.sound_new.apply _).apply _
  have hall : ∀ e ∈ putServer.kv.data.entries, jsonKeyValue e.2 = e.2 ∧
      putServer.kv.isLive e.2 = true ∧ (rangeA true).passes e.2 = true := by decide +kernel
  have hstored (k : Bytes) (pair : KeyValue) (hl : putServer.kv.data.lookup k = some pair) :=
    hall ⟨k, pair⟩ (AList.mem_lookup_iff.mp hl)
  refine ((modesAgree_iff hs KVStore.session_putOnce.sound.1 (by decide) (by decide)).1
    fun k pair hl ↦ ?_).mpr (.inr ⟨.inr (by decide +kernel), fun pair hl ↦ ?_⟩)
  · exact ⟨fun _ ↦ (hstored k pair hl).1, fun hend ↦ absurd rfl hend⟩
  · exact iff_of_true (hstored _ pair hl).2.2 (hstored _ pair hl).2.1

/-- The log does not show an expired key and does not look at the filters of a single key; the local
store does both. -/
theorem modes_disagree : ¬ ModesAgree ⟨KVStore.lapsed, 1, 1, .insertion⟩ (rangeA true) ∧
    ¬ ModesAgree putServer { rangeA true with minModRevision := 7 } := by
  constructor
  · intro h
    have heq := congrArg (fun o ↦ o.toOption.map (·.2.2)) (h KVStore.lapsed.data (.refl _))
    revert heq
    decide +kernel
  · intro h
    have heq := congrArg (fun o ↦ o.toOption.map (·.2.2)) (h putServer.kv.data (.refl _))
    revert heq
    decide +kernel

end RaftConsensus.Etcd
