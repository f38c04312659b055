import RaftConsensus.Etcd.Reads
import RaftConsensus.Kv.Duplicates

namespace RaftConsensus.Etcd

open Kv List Contents KVStore KVServer

def deleteText (prevKv : Bool) (key : Bytes) : Bytes := if prevKv then jsonText key else key

/-- The keys that a request deletes one after the other. An end that is neither a single zero byte
nor the key with a zero byte is not looked at. -/
def addressed (kv : KVStore) (req : DeleteRangeRequest) : List Bytes :=
  (if req.rangeEnd = [0] ∨ req.rangeEnd = req.key ++ [0] then
    sortStrings (kv.data.keys.filter (scans req.key req.rangeEnd))
  else [req.key]).map (deleteText req.prevKv)

def removable (kv : KVStore) (keys : List Bytes) : List Bytes :=
  (distinct (keys.filter fun k ↦ (kv.live k).isSome)).take (maxRevision - kv.revision).toNat

def DeleteExact (s : KVServer) (req : DeleteRangeRequest) : Prop :=
  ∃ resp, (s.deleteRange req).2 = .ok resp ∧
    (∀ k, (s.deleteRange req).1.kv.live k =
      if selects req.key req.rangeEnd k then none else s.kv.live k) ∧
    resp.deleted = (selectedKeys s.kv req.key req.rangeEnd).length

def DeleteCondition (kv : KVStore) (req : DeleteRangeRequest) : Prop :=
  ∀ k, k ∈ removable kv (addressed kv req) ↔
    (kv.live k).isSome = true ∧ selects req.key req.rangeEnd k = true

structure Deletion (s s' : KVStore) (removed : List Bytes) : Prop where
  sound : s'.Sound
  revision : s'.revision = s.revision + removed.length
  live : ∀ k, s'.live k = if k ∈ removed then none else s.live k

section Steps

variable {s : KVStore} {key : Bytes} {prevKv : Bool}

theorem live_erase (s : Contents) (key : Bytes) (revision : ℤ) (events : List Kv.Event)
    (k : Bytes) :
    ({ s with revision := revision, data := s.data.erase key }.emitEvents events).live k =
      if k = key then none else s.live k := by
  have hemit : ({ s with revision := revision, data := s.data.erase key }.emitEvents
    events).live k =
      { s with revision := revision, data := s.data.erase key }.live k := by
    unfold emitEvents
    dsimp only
    split_ifs <;> rfl
  rw [hemit]
  unfold Contents.live
  split_ifs with hk
  · subst hk
    dsimp only
    rw [AList.lookup_erase]
    rfl
  · dsimp only
    rw [AList.lookup_erase_ne hk]
    rfl

theorem execute_delete (s : Contents) (key : Bytes) (ret : Bool) {out : Contents × Kv.Reply × Bool}
    (hout : s.execute { encodeCommand .delete key [] with returnPrevKV := ret } = out) :
    if (s.live key).isSome = true ∧ s.revision < maxRevision then
      out.1.revision = s.revision + 1 ∧ (∀ k, out.1.live k = if k = key then none else s.live k) ∧
        (decodeResult out.2.1).error = ""
    else out.1 = s ∧ (decodeResult out.2.1).error ≠ "" := by
  dsimp only [encodeCommand, execute] at hout
  cases hl : s.live key with
  | none =>
    rw [hl] at hout
    subst hout
    have hne : ("key not found" : String) ≠ "" := by decide
    rw [if_neg fun h ↦ nomatch h.1]
    exact ⟨rfl, hne⟩
  | some kv =>
    rw [hl] at hout
    dsimp only at hout
    by_cases hr : s.revision < maxRevision
    · have hex : s.revisionExhausted = false := decide_eq_false (not_le.mpr hr)
      rw [hex, if_neg Bool.false_ne_true] at hout
      subst hout
      rw [if_pos ⟨rfl, hr⟩]
      exact ⟨emitEvents_revision _ _, fun k ↦ live_erase s key _ _ k, rfl⟩
    · have hex : s.revisionExhausted = true := decide_eq_true (not_lt.mp hr)
      rw [hex, if_pos rfl] at hout
      subst hout
      have hne : errRevisionExhausted ≠ "" := by decide
      rw [if_neg fun h ↦ hr h.2]
      exact ⟨rfl, hne⟩

theorem delete_step (hs : s.Sound) (key : Bytes) (prevKv : Bool) :
    if (s.live (deleteText prevKv key)).isSome = true ∧ s.revision < maxRevision then
      Deletion s (s.apply (encodeDelete key prevKv)).1 [deleteText prevKv key] ∧
        (decodeResult (s.apply (encodeDelete key prevKv)).2).error = ""
    else Deletion s (s.apply (encodeDelete key prevKv)).1 [] ∧
      (decodeResult (s.apply (encodeDelete key prevKv)).2).error ≠ "" := by
  obtain ⟨ret, hcmd⟩ : ∃ ret, encodeDelete key prevKv =
      { encodeCommand .delete (deleteText prevKv key) [] with returnPrevKV := ret } := by
    cases prevKv
    · exact ⟨false, rfl⟩
    · exact ⟨true, rfl⟩
  have hsound := hs.apply (encodeDelete key prevKv)
  have hspec := execute_delete s.toContents (deleteText prevKv key) ret rfl
  rw [hcmd] at hsound ⊢
  rw [apply_anonymous s rfl] at hsound ⊢
  rw [toContents_advance hs rfl] at hsound ⊢
  generalize s.execute { encodeCommand .delete (deleteText prevKv key) [] with
    returnPrevKV := ret } = out at hspec hsound ⊢
  split_ifs at hspec ⊢ with h
  · obtain ⟨hrev, hlive, herr⟩ := hspec
    refine ⟨⟨hsound, hrev, fun k ↦ ?_⟩, herr⟩
    simp only [mem_singleton]
    exact hlive k
  · obtain ⟨heq, herr⟩ := hspec
    refine ⟨⟨hsound, ?_, fun k ↦ ?_⟩, herr⟩
    · dsimp only
      rw [heq]
      exact (Int.add_zero _).symm
    · dsimp only
      rw [heq, if_neg not_mem_nil]

theorem Deletion.refl (hs : s.Sound) : Deletion s s [] := ⟨hs, (Int.add_zero _).symm, fun _ ↦ rfl⟩

theorem Deletion.trans {s' s'' : KVStore} {removed removed' : List Bytes}
    (h : Deletion s s' removed) (h' : Deletion s' s'' removed') :
    Deletion s s'' (removed ++ removed') := by
  refine ⟨h'.sound, ?_, fun k ↦ ?_⟩
  · rw [h'.revision, h.revision, length_append]
    push_cast
    omega
  · rw [h'.live, h.live]
    simp only [mem_append]
    by_cases hk : k ∈ removed <;> by_cases hk' : k ∈ removed' <;> simp [hk, hk']

/-- After the list is deleted up to some point, the next key is removed just when it joins the
removable ones. -/
theorem removable_concat {s' : KVStore} {keys : List Bytes} (h : Deletion s s' (removable s keys))
    (k : Bytes) : removable s (keys ++ [k]) = removable s keys ++
      if (s'.live k).isSome = true ∧ s'.revision < maxRevision then [k] else [] := by
  have hrev := h.revision
  have hlive := h.live k
  unfold removable at hrev hlive ⊢
  rw [filter_append]
  generalize hL : distinct (keys.filter fun k ↦ (s.live k).isSome) = L at hrev hlive ⊢
  generalize hn : (maxRevision - s.revision).toNat = n at hrev hlive ⊢
  rw [length_take] at hrev
  by_cases hk : (s.live k).isSome = true
  · have hfilter : [k].filter (fun k ↦ (s.live k).isSome) = [k] := filter_cons_of_pos hk
    rw [hfilter, distinct_concat, hL]
    by_cases hmem : k ∈ L
    · rw [if_pos hmem, if_neg, append_nil]
      rintro ⟨hsome, hlt⟩
      have hnot : k ∉ L.take n := by
        intro htake
        rw [hlive, if_pos htake] at hsome
        cases hsome
      have hlen : n < L.length := by
        by_contra hle
        rw [take_of_length_le (not_lt.mp hle)] at hnot
        exact hnot hmem
      omega
    · have hnot : k ∉ L.take n := fun htake ↦ hmem (mem_of_mem_take htake)
      rw [if_neg hnot] at hlive
      rw [if_neg hmem, hlive]
      by_cases hlen : L.length < n
      · rw [if_pos ⟨hk, by omega⟩, take_of_length_le, take_of_length_le hlen.le]
        rw [length_append, length_singleton]
        omega
      · rw [if_neg fun hx ↦ by omega, append_nil, take_append_of_le_length (not_lt.mp hlen)]
  · have hfilter : [k].filter (fun k ↦ (s.live k).isSome) = [] := filter_cons_of_neg hk
    rw [hfilter, append_nil, hL, if_neg, append_nil]
    rintro ⟨hsome, -⟩
    by_cases htake : k ∈ L.take n
    · rw [hlive, if_pos htake] at hsome
      cases hsome
    · rw [hlive, if_neg htake] at hsome
      exact hk hsome

end Steps

section DeleteRange

variable {s : KVServer} {req : DeleteRangeRequest}

theorem deleteKeys_concat (prevKv : Bool) (s : KVServer) (keys : List Bytes) (key : Bytes) :
    (deleteKeys prevKv s (keys ++ [key])).1 =
        ((deleteKeys prevKv s keys).1.apply (encodeDelete key prevKv)).1 ∧
      (deleteKeys prevKv s (keys ++ [key])).2.1 = (deleteKeys prevKv s keys).2.1 +
        if (decodeResult ((deleteKeys prevKv s keys).1.apply
          (encodeDelete key prevKv)).2).error = "" then 1 else 0 := by
  have hnext : deleteKeys prevKv s (keys ++ [key]) =
      deleteNext prevKv (deleteKeys prevKv s keys) key := by
    unfold deleteKeys
    rw [foldl_append]
    rfl
  rw [hnext]
  generalize deleteKeys prevKv s keys = acc
  unfold deleteNext
  dsimp only
  by_cases herr : (decodeResult (acc.1.apply (encodeDelete key prevKv)).2).error = ""
  · rw [if_pos herr, if_pos herr]
    exact ⟨rfl, rfl⟩
  · rw [if_neg herr, if_neg herr]
    exact ⟨rfl, (Int.add_zero _).symm⟩

theorem deleteKeys_spec (hs : s.kv.Sound) (prevKv : Bool) (keys : List Bytes) :
    Deletion s.kv (deleteKeys prevKv s keys).1.kv
        (removable s.kv (keys.map (deleteText prevKv))) ∧
      (deleteKeys prevKv s keys).2.1 =
        (removable s.kv (keys.map (deleteText prevKv))).length := by
  induction keys using reverseRecOn with
  | nil =>
    have hnil : removable s.kv [] = [] := take_nil
    rw [map_nil, hnil]
    exact ⟨.refl hs, rfl⟩
  | append_singleton keys key ih =>
    obtain ⟨hdel, hcount⟩ := ih
    obtain ⟨hfst, hsnd⟩ := deleteKeys_concat prevKv s keys key
    have hstep := delete_step hdel.sound key prevKv
    rw [hfst, hsnd, map_append, map_singleton, removable_concat hdel, hcount,
      length_append]
    split_ifs at hstep ⊢ with hlive herr
    · refine ⟨hdel.trans hstep.1, ?_⟩
      push_cast
      rfl
    · exact absurd hstep.2 herr
    · exact absurd ‹_› hstep.2
    · rw [append_nil]
      refine ⟨?_, rfl⟩
      have htrans := hdel.trans hstep.1
      rwa [append_nil] at htrans

theorem deleteRange_eq (hs : s.kv.Sound) (hn : s.kv.data.entries.length ≤ maxRangeResults)
    (hkey : req.key ≠ []) : ∃ resp, (s.deleteRange req).2 = .ok resp ∧
      Deletion s.kv (s.deleteRange req).1.kv (removable s.kv (addressed s.kv req)) ∧
      resp.deleted = (removable s.kv (addressed s.kv req)).length := by
  unfold deleteRange addressed
  rw [if_neg hkey]
  by_cases hend : req.rangeEnd = [0] ∨ req.rangeEnd = req.key ++ [0]
  · obtain ⟨kvs, hkvs, hkeys⟩ := s.kv.range_eq hs hn (rangePrefix req.key req.rangeEnd)
    have hto : (kvs.filter fun kv ↦ inRange kv.key req.key req.rangeEnd).map KeyValue.key =
        sortStrings (s.kv.data.keys.filter (scans req.key req.rangeEnd)) := by
      have hrule : (fun kv : KeyValue ↦ inRange kv.key req.key req.rangeEnd) =
          scans req.key req.rangeEnd ∘ KeyValue.key := funext fun kv ↦ inRange_eq hkey
      rw [hrule, ← filter_map, hkeys, filter_sortStrings, filter_filter]
      exact congrArg sortStrings (filter_congr fun k _ ↦ scans_and_isPrefixOf hkey)
    rw [if_pos hend, if_pos (isRangeEndPrefix_eq.mpr hend)]
    unfold deletePrefixRange
    rw [hkvs]
    dsimp only
    rw [hto]
    exact ⟨_, rfl, deleteKeys_spec hs req.prevKv _⟩
  · rw [if_neg hend, if_neg fun h ↦ hend (isRangeEndPrefix_eq.mp h)]
    obtain ⟨hdel, hcount⟩ := deleteKeys_spec hs req.prevKv [req.key]
    obtain ⟨hfst, hsnd⟩ := deleteKeys_concat req.prevKv s [] req.key
    rw [nil_append] at hfst hsnd
    refine ⟨_, rfl, ?_, ?_⟩
    · rw [hfst] at hdel
      exact hdel
    · rw [← hcount, hsnd]
      exact (Int.zero_add _).symm

theorem mem_selectedKeys {kv : KVStore} {key rangeEnd k : Bytes} :
    k ∈ selectedKeys kv key rangeEnd ↔
      (kv.live k).isSome = true ∧ selects key rangeEnd k = true := by
  rw [selectedKeys, mem_filter, mem_liveKeys]

theorem removable_spec (kv : KVStore) (keys : List Bytes) :
    (removable kv keys).Nodup ∧ ∀ k ∈ removable kv keys, (kv.live k).isSome = true := by
  obtain ⟨hnodup, hmem⟩ := distinct_spec (keys.filter fun k ↦ (kv.live k).isSome)
  refine ⟨(take_sublist _ _).nodup hnodup, fun k hk ↦ ?_⟩
  exact (mem_filter.mp ((hmem k).mp (mem_of_mem_take hk))).2

theorem deleteExact_iff (hs : s.kv.Sound) (hn : s.kv.data.entries.length ≤ maxRangeResults)
    (hkey : req.key ≠ []) : DeleteExact s req ↔ DeleteCondition s.kv req := by
  obtain ⟨resp, hresp, hdel, hcount⟩ := deleteRange_eq hs hn hkey
  obtain ⟨hnodup, hlive⟩ := removable_spec s.kv (addressed s.kv req)
  constructor
  · rintro ⟨-, -, hafter, -⟩ k
    have hk := (hdel.live k).symm.trans (hafter k)
    constructor
    · intro hmem
      have hsome := hlive k hmem
      refine ⟨hsome, ?_⟩
      by_contra hsel
      rw [if_pos hmem, if_neg hsel] at hk
      rw [← hk] at hsome
      cases hsome
    · rintro ⟨hsome, hsel⟩
      by_contra hmem
      rw [if_neg hmem, if_pos hsel] at hk
      rw [hk] at hsome
      cases hsome
  · intro h
    refine ⟨resp, hresp, fun k ↦ ?_, ?_⟩
    · rw [hdel.live k]
      by_cases hmem : k ∈ removable s.kv (addressed s.kv req)
      · rw [if_pos hmem, if_pos ((h k).mp hmem).2]
      · rw [if_neg hmem]
        split_ifs with hsel
        · exact Option.not_isSome_iff_eq_none.mp fun hsome ↦ hmem ((h k).mpr ⟨hsome, hsel⟩)
        · rfl
    · have hselected : (selectedKeys s.kv req.key req.rangeEnd).Nodup :=
        (s.kv.data.keys_nodup.filter _).filter _
      have hperm := (perm_ext_iff_of_nodup hnodup hselected).mpr fun k ↦
        (h k).trans mem_selectedKeys.symm
      rw [hcount, hperm.length_eq]

end DeleteRange

/-- When the two requests follow the documented rule. -/
theorem range_deleteRange_exact_iff {s : KVServer} (hs : s.kv.Sound)
    (hn : s.kv.data.entries.length < maxRangeResults) {req : RangeRequest} (hreq : req.Plain)
    {del : DeleteRangeRequest} (hdel : del.key ≠ []) :
    (RangeExact s req ↔ RangeCondition s.kv req) ∧
      (DeleteExact s del ↔ DeleteCondition s.kv del) :=
  ⟨rangeExact_iff hreq hs hn.le, deleteExact_iff hs hn.le hdel⟩

def twoKeys : KVServer :=
  ⟨(KVStore.new.run [encodeCommand .put (ascii "a") [], encodeCommand .put (ascii "ab") []]).1,
    1, 1, .insertion⟩

def readFrom (key rangeEnd : Bytes) : RangeRequest :=
  ⟨key, rangeEnd, 0, .none, .key, false, false, false, 0, 0, 0, 0⟩

theorem twoKeys_exact : RangeExact twoKeys (readFrom (ascii "a") (ascii "b")) ∧
    DeleteExact twoKeys ⟨ascii "a", [0], false⟩ := by
  have hs : twoKeys.kv.Sound := KVStore.sound_new.run _
  have hn : twoKeys.kv.data.entries.length = 2 := by decide +kernel
  have hreq : (readFrom (ascii "a") (ascii "b")).Plain := ⟨by decide, rfl, rfl, rfl, rfl, rfl, rfl⟩
  have hdel : (⟨ascii "a", [0], false⟩ : DeleteRangeRequest).key ≠ [] := by decide
  obtain ⟨hrange, hdelete⟩ := range_deleteRange_exact_iff hs (by rw [hn]; decide) hreq hdel
  have hkeys : ∀ k, (twoKeys.kv.live k).isSome = true → k = ascii "a" ∨ k = ascii "ab" := by
    intro k hk
    have hmem := KVStore.mem_liveKeys.mpr hk
    have hlist : twoKeys.kv.liveKeys = [ascii "ab", ascii "a"] := by decide +kernel
    rw [hlist] at hmem
    simpa [or_comm] using hmem
  refine ⟨hrange.mpr ?_, hdelete.mpr ?_⟩
  · have hcond : ∀ k ∈ [ascii "a", ascii "ab"], jsonText k = k ∧
        selects (ascii "a") (ascii "b") k = true := by decide +kernel
    intro k hk
    have := hcond k (by simpa using hkeys k hk)
    exact ⟨fun _ ↦ this.1, fun _ ↦ this.2⟩
  · intro k
    have hremove : removable twoKeys.kv (addressed twoKeys.kv ⟨ascii "a", [0], false⟩) =
        [ascii "a", ascii "ab"] := by decide +kernel
    have hselected : selectedKeys twoKeys.kv (ascii "a") [0] = [ascii "ab", ascii "a"] := by
      decide +kernel
    rw [hremove, ← mem_selectedKeys, hselected]
    simp [or_comm]

/-- The read takes the end `a\0` for the prefix `a`, and the delete does not look at the end `b`. -/
theorem twoKeys_inexact :
    ((twoKeys.range (readFrom (ascii "a") (ascii "a" ++ [0]))).2.map
      (·.kvs.map PbKeyValue.key)).toOption = some [ascii "a", ascii "ab"] ∧
    selectedKeys twoKeys.kv (ascii "a") (ascii "a" ++ [0]) = [ascii "a"] ∧
    ((twoKeys.deleteRange ⟨ascii "a", ascii "b", false⟩).2.map (·.deleted)).toOption = some 1 ∧
    ((twoKeys.deleteRange ⟨ascii "a", ascii "b", false⟩).1.kv.live (ascii "ab")).isSome = true ∧
    selectedKeys twoKeys.kv (ascii "a") (ascii "b") = [ascii "ab", ascii "a"] := by
  decide +kernel

end RaftConsensus.Etcd
