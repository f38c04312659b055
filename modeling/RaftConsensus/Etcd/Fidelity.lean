import RaftConsensus.Etcd.Stored

namespace RaftConsensus

open List Option

namespace Etcd

open Kv

structure RangeRequest.OfKey (req : RangeRequest) (key : Bytes) : Prop where
  key_eq : req.key = key
  rangeEnd : req.rangeEnd = []
  limit : 0 ≤ req.limit
  keysOnly : req.keysOnly = false
  countOnly : req.countOnly = false
  minMod : req.minModRevision = 0
  maxMod : req.maxModRevision = 0
  minCreate : req.minCreateRevision = 0
  maxCreate : req.maxCreateRevision = 0

def Returns (s : KVServer) (req : RangeRequest) (key value : Bytes) : Prop :=
  ∃ resp, (s.range req).2 = .ok resp ∧
    resp.kvs.map (fun kv ↦ (kv.key, kv.value)) = [(key, value)]

def reads (s : KVServer) (reqs : List RangeRequest) : KVServer :=
  reqs.foldl (fun s req ↦ (s.range req).1) s

/-- When the read gives the pair back: the local read scans all keys, and what is read through the
log travels as JSON. -/
def Readable (s' : KVServer) (req : RangeRequest) (key value : Bytes) : Prop :=
  if req.serializable then s'.kv.data.entries.length ≤ maxRangeResults
  else jsonText key = key ∧ jsonText value = value

section Range

variable {s : KVServer} {req : RangeRequest} {key value : Bytes}

theorem contents_range (hs : s.kv.Sound) (req : RangeRequest) :
    (s.range req).1.kv.toContents = s.kv.toContents ∧ (s.range req).1.kv.Sound := by
  have hget : ∀ cmd : KvCommand, cmd.clientID = [] → cmd.leaderTimestampMs = 0 →
      (s.kv.execute cmd).1 = s.kv.toContents →
      (s.apply cmd).1.kv.toContents = s.kv.toContents ∧ (s.apply cmd).1.kv.Sound := by
    intro cmd hid ht hexec
    refine ⟨?_, hs.apply cmd⟩
    dsimp only [KVServer.apply]
    rw [KVStore.apply_anonymous _ hid]
    dsimp only
    rw [KVStore.toContents_advance hs ht, hexec]
  have hsingle : (s.linearizableGet req.key req).1 =
      (s.apply (encodeCommand .getV2 req.key [])).1 := by
    unfold KVServer.linearizableGet
    dsimp only
    split
    · rfl
    · split_ifs <;> rfl
  have hrange : (s.linearizableRange req.key req.rangeEnd req).1 =
      (s.apply (encodeCommand .range [] [])).1 := by
    unfold KVServer.linearizableRange
    dsimp only
    split <;> rfl
  unfold KVServer.range
  dsimp only
  split_ifs
  · exact ⟨rfl, hs⟩
  · exact ⟨rfl, hs⟩
  · rw [hsingle]
    refine hget _ rfl rfl ?_
    dsimp only [encodeCommand, Contents.execute]
    cases s.kv.live req.key <;> rfl
  · rw [hrange]
    exact hget _ rfl rfl rfl
  · exact ⟨rfl, hs⟩

theorem contents_reads (hs : s.kv.Sound) (reqs : List RangeRequest) :
    (reads s reqs).kv.toContents = s.kv.toContents ∧ (reads s reqs).kv.Sound := by
  induction reqs generalizing s with
  | nil => exact ⟨rfl, hs⟩
  | cons req reqs ih =>
    obtain ⟨hc, hs'⟩ := contents_range hs req
    obtain ⟨hc', hs''⟩ := ih hs'
    exact ⟨hc'.trans hc, hs''⟩

theorem RangeRequest.OfKey.sorted (h : req.OfKey key) (hs : s.kv.Sound) :
    req.sorted s.sort (s.kv.scanned []) = (s.kv.data.lookup key).toList := by
  have hfilter : (s.kv.scanned []).filter req.picks = (s.kv.data.lookup key).toList := by
    rw [← KVStore.filter_key hs key]
    refine filter_congr fun kv _ ↦ ?_
    simp [RangeRequest.picks, RangeRequest.passes, scans, selects, h.key_eq, h.rangeEnd, h.minMod,
      h.maxMod, h.minCreate, h.maxCreate]
  rw [RangeRequest.sorted, hfilter, sortKVs_toList]

theorem RangeRequest.OfKey.rangeResponse (h : req.OfKey key) (s : KVServer) (kv : Option KeyValue) :
    (s.rangeResponse kv.toList req).kvs = kv.toList.map fsmKVToPb := by
  unfold KVServer.rangeResponse
  dsimp only
  rw [h.countOnly, h.keysOnly, if_neg Bool.false_ne_true, if_neg]
  · rfl
  · rintro ⟨hpos, hlt⟩
    cases kv with
    | none =>
      rw [toList_none, length_nil] at hlt
      omega
    | some kv =>
      rw [toList_some, length_singleton] at hlt
      omega

theorem returns_of_ok {resp : RangeResponse} (hr : (s.range req).2 = .ok resp) :
    Returns s req key value ↔ resp.kvs.map (fun kv ↦ (kv.key, kv.value)) = [(key, value)] := by
  constructor
  · rintro ⟨resp', hr', hp⟩
    cases hr.symm.trans hr'
    exact hp
  · exact fun hp ↦ ⟨resp, hr, hp⟩

theorem RangeRequest.OfKey.stale (h : req.OfKey key) (hkey : key ≠ []) (hs : s.kv.Sound)
    (hser : req.serializable = true) : Returns s req key value ↔
      s.kv.data.entries.length ≤ maxRangeResults ∧
        (s.kv.data.lookup key).map KeyValue.value = some value := by
  have hrange : (s.range req).2 = s.staleRange req.key req.rangeEnd req := by
    rw [range_eq (h.key_eq ▸ hkey) h.limit, hser]
    rfl
  have hprefix : rangePrefix req.key req.rangeEnd = [] := by
    rw [rangePrefix_eq (h.key_eq ▸ hkey), h.rangeEnd, if_neg (by simp)]
  by_cases hn : s.kv.data.entries.length ≤ maxRangeResults
  · have hresp : (s.range req).2 = .ok (s.rangeResponse (s.kv.data.lookup key).toList req) := by
      rw [hrange, staleRange_eq req hs (h.key_eq ▸ hkey)
        (KVStore.not_overflows_of_length (by omega)), h.sorted hs]
    rw [returns_of_ok hresp, h.rangeResponse, and_iff_right hn]
    cases hl : s.kv.data.lookup key with
    | none => simp
    | some kv =>
      have hk := hs.keyed key kv hl
      simp [fsmKVToPb, hk]
  · have herr : ∃ status, (s.range req).2 = .error status := by
      have hall : s.kv.data.entries.countP (fun e ↦ isPrefixOf [] e.1) = s.kv.data.entries.length :=
        countP_eq_length.mpr fun _ _ ↦ rfl
      rw [hrange, KVServer.staleRange, hprefix,
        KVStore.range_of_overflows (KVStore.overflows_of_countP (Nat.zero_le _) (by omega))]
      exact ⟨_, rfl⟩
    obtain ⟨status, herr⟩ := herr
    constructor
    · rintro ⟨resp, hr, -⟩
      cases herr.symm.trans hr
    · exact fun hc ↦ absurd hc.1 hn

theorem RangeRequest.OfKey.linearizable (h : req.OfKey key) (hkey : key ≠ []) (hs : s.kv.Sound)
    (hser : req.serializable = false) : Returns s req key value ↔ jsonText key = key ∧
      (s.kv.live key).map (fun kv ↦ jsonText kv.value) = some value := by
  have hrange : (s.range req).2 = (s.linearizableGet req.key req).2 := by
    rw [range_eq (h.key_eq ▸ hkey) h.limit, hser, h.rangeEnd]
    rfl
  obtain ⟨t, ht⟩ := linearizableGet_eq req hs
  rw [returns_of_ok (hrange.trans ht), ← toList_map, h.rangeResponse, h.key_eq]
  cases hl : s.kv.live key with
  | none => simp
  | some kv =>
    have hk : kv.key = key := hs.keyed _ _ (filter_eq_some_iff.mp hl).1
    simp [fsmKVToPb, jsonKeyValue, hk]

end Range

section Fidelity

variable {s s' : KVServer} {key value : Bytes} {ops : Option (List TxnOp)} {req : RangeRequest}

/-- After a write and any reads, a read of the key returns the bytes that were written when and only
when they landed and can be read. -/
theorem returns_iff (hs : s.kv.Sound) (h : Wrote s key value ops s') (hkey : key ≠ [])
    (hreq : req.OfKey key) (reqs : List RangeRequest) :
    Returns (reads s' reqs) req key value ↔ Lands s key value ops ∧ Readable s' req key value := by
  obtain ⟨hcontents, hsound⟩ := contents_reads (h.sound hs) reqs
  have hlookup := h.lookup hs
  rw [lands_iff, Readable]
  cases hser : req.serializable with
  | true =>
    rw [hreq.stale hkey hsound hser, hcontents, ← hlookup, Option.map_map, if_pos rfl]
    exact and_comm
  | false =>
    rw [hreq.linearizable hkey hsound hser, hcontents, if_neg Bool.false_ne_true]
    by_cases htext : jsonText key = key
    · rw [h.live hs htext, and_iff_right htext, and_iff_right htext, ← map_jsonText_stored htext,
        ← hlookup, Option.map_map]
      rfl
    · exact iff_of_false (fun hr ↦ htext hr.1) fun hr ↦ htext hr.2.1

def freshServer : KVServer := ⟨KVStore.new, 1, 1, .insertion⟩

def rangeA (serializable : Bool) : RangeRequest :=
  ⟨[97], [], 0, .none, .key, serializable, false, false, 0, 0, 0, 0⟩

theorem rangeA_ofKey (serializable : Bool) : (rangeA serializable).OfKey [97] :=
  ⟨rfl, rfl, le_rfl, rfl, rfl, rfl, rfl, rfl, rfl⟩

theorem returns_iff_text : ∃ s', Wrote freshServer [97] [98] (some [⟨.put, [97], [98]⟩]) s' ∧
    ∀ serializable,
      Returns (reads s' [rangeA true, rangeA false]) (rangeA serializable) [97] [98] := by
  have hok : (freshServer.put ⟨[97], [98], true⟩).2 = .ok ⟨⟨1, 1, 1⟩, none⟩ := by decide +kernel
  have hw : Wrote freshServer [97] [98] (some [⟨.put, [97], [98]⟩]) _ :=
    Wrote.put ⟨[97], [98], true⟩ _ rfl rfl hok
  refine ⟨_, hw, fun serializable ↦ ?_⟩
  refine (returns_iff KVStore.sound_new hw (cons_ne_nil _ _) (rangeA_ofKey serializable) _).mpr
    ⟨?_, ?_⟩
  · rw [lands_iff]
    decide +kernel
  · cases serializable <;> unfold Readable <;> decide +kernel

/-- A byte that is no text comes back as the three bytes of the replacement character. -/
theorem returns_other_bytes : ∃ s', Wrote freshServer [97] [0xFF] none s' ∧
    ¬ Returns s' (rangeA false) [97] [0xFF] ∧
    Returns s' (rangeA false) [97] [0xEF, 0xBF, 0xBD] := by
  have hok : (freshServer.put ⟨[97], [0xFF], false⟩).2 = .ok ⟨⟨1, 1, 1⟩, none⟩ := by decide +kernel
  have hr : ((freshServer.put ⟨[97], [0xFF], false⟩).1.range (rangeA false)).2 =
      .ok ⟨⟨1, 1, 1⟩, [⟨[97], [0xEF, 0xBF, 0xBD], 1, 1, 1⟩], false, 1⟩ := by decide +kernel
  have hw : Wrote freshServer [97] [0xFF] none _ := Wrote.put ⟨[97], [0xFF], false⟩ _ rfl rfl hok
  refine ⟨_, hw, ?_, ?_⟩
  · rw [returns_of_ok hr]
    decide
  · rw [returns_of_ok hr]
    rfl

end Fidelity

end Etcd

end RaftConsensus
