import RaftConsensus.Kv.Replay

namespace RaftConsensus.Kv

open List Option AList Contents

theorem toNat_of_isDigit {c : Char} (h : c.isDigit = true) :
    (UInt8.ofNat c.toNat).toNat = c.toNat ∧ 48 ≤ c.toNat ∧ c.toNat ≤ 57 := by
  obtain ⟨hlo, hhi⟩ : 48 ≤ c.toNat ∧ c.toNat ≤ 57 := by
    simpa [Char.isDigit, UInt32.le_iff_toNat_le] using h
  refine ⟨?_, hlo, hhi⟩
  rw [UInt8.toNat_ofNat']
  omega

theorem foldlM_digits {l : List Char} (h : ∀ c ∈ l, c.isDigit = true) (n : ℕ) :
    (l.map fun c ↦ UInt8.ofNat c.toNat).foldlM (fun n b ↦
      if 48 ≤ b ∧ b ≤ 57 then some (10 * n + (b.toNat - 48)) else none) n =
      some (Nat.ofDigitChars 10 l n) := by
  induction l generalizing n with
  | nil => rfl
  | cons c l ih =>
    obtain ⟨hc, hlo, hhi⟩ := toNat_of_isDigit (h c mem_cons_self)
    rw [map_cons, foldlM_cons, if_pos, hc, Nat.ofDigitChars_cons]
    · exact ih (fun x hx ↦ h x (mem_cons_of_mem c hx)) _
    · rw [UInt8.le_iff_toNat_le, UInt8.le_iff_toNat_le, hc]
      exact ⟨hlo, hhi⟩

theorem parseUint_toDigits (n : ℕ) :
    parseUint ((Nat.toDigits 10 n).map fun c ↦ UInt8.ofNat c.toNat) = some n := by
  have hdigits : ∀ c ∈ Nat.toDigits 10 n, c.isDigit = true := fun c hc ↦
    Nat.isDigit_of_mem_toDigits (by decide) le_rfl hc
  unfold parseUint
  rw [if_neg (by simp [Nat.toDigits_ne_nil]), foldlM_digits hdigits, Nat.ofDigitChars_ten_toDigits]

theorem head_toDigits (n : ℕ) {b : UInt8} (hb : b.toNat < 48) :
    ((Nat.toDigits 10 n).map fun c ↦ UInt8.ofNat c.toNat).head? ≠ some b := by
  intro h
  rw [head?_map] at h
  obtain ⟨c, hc, rfl⟩ := map_eq_some_iff.mp h
  have hdigit := toNat_of_isDigit (Nat.isDigit_of_mem_toDigits (by decide) le_rfl
    (mem_of_head? hc))
  omega

theorem parseInt_formatInt {i : ℤ} (hlo : minInt64 ≤ i) (hhi : i ≤ maxInt64) :
    parseInt (formatInt i) = some i := by
  unfold minInt64 at hlo
  unfold maxInt64 at hhi
  unfold parseInt formatInt
  by_cases hneg : i < 0
  · rw [if_pos hneg, singleton_append, head?_cons, if_pos rfl, tail_cons,
      parseUint_toDigits, bind_some, if_pos (by omega)]
    congr 1
    omega
  · rw [if_neg hneg, nil_append, if_neg (head_toDigits _ (by decide)),
      if_neg (head_toDigits _ (by decide)), parseUint_toDigits, bind_some, if_pos (by omega)]
    congr 1
    omega

theorem bounds_of_parseInt {text : Bytes} {i : ℤ} (h : parseInt text = some i) :
    minInt64 ≤ i ∧ i ≤ maxInt64 := by
  unfold parseInt at h
  unfold minInt64 maxInt64
  split_ifs at h <;>
  · obtain ⟨n, -, hn⟩ := bind_eq_some_iff.mp h
    split_ifs at hn
    cases hn
    omega

namespace KVStore

/-- The number under a key: zero when the key is absent, none when it may expire or is no number. -/
def counter (s : KVStore) (key : Bytes) : Option ℤ :=
  match s.data.lookup key with
  | none => some 0
  | some kv => if kv.expiresAtMs = 0 then parseInt kv.value else none

def accepts (s : KVStore) (cmd : KvCommand) : Bool :=
  (s.cached cmd).isNone && ((s.advance cmd).execute cmd).2.2

def delta (cmd : KvCommand) : ℤ := (parseInt cmd.value).getD 0

/-- The increments of one key that a log holds, each with whether it was accepted. In between the
store may be replaced by one that was restored from a snapshot of it. -/
inductive Counting (json : Json) (key : Bytes) (s : KVStore) :
    List (KvCommand × Bool) → KVStore → Prop
  | start : Counting json key s [] s
  | incr {log : List (KvCommand × Bool)} {t : KVStore} (cmd : KvCommand) :
  Counting json key s log t →
      cmd.op = .incr → cmd.key = key → cmd.clientID ≠ [] →
      Counting json key s (log ++ [(cmd, t.accepts cmd)]) (t.apply cmd).1
  | restored {log : List (KvCommand × Bool)} {t : KVStore} (other : KVStore) (bytes : Bytes) :
      Counting json key s log t → t.snapshot.Streams json bytes →
      Counting json key s log (other.restore json bytes).1

def accepted (log : List (KvCommand × Bool)) : List KvCommand := (log.filter (·.2)).map (·.1)

section Step

variable {s : KVStore} {cmd : KvCommand} {key : Bytes} {n : ℤ}

theorem live_of_counter (h : s.counter key = some n) :
    s.live key = s.data.lookup key ∧
      (s.live key).elim (some 0) (fun kv ↦ parseInt kv.value) = some n := by
  unfold counter at h
  unfold live
  cases hl : s.data.lookup key with
  | none =>
    rw [hl] at h
    exact ⟨rfl, h⟩
  | some kv =>
    rw [hl] at h
    dsimp only at h
    split_ifs at h with h0
    have hlive : s.isLive kv = true := by simp [isLive, h0]
    rw [filter_some, if_pos hlive]
    exact ⟨rfl, h⟩

theorem bounds_of_counter (h : s.counter key = some n) : minInt64 ≤ n ∧ n ≤ maxInt64 := by
  have hn := (live_of_counter h).2
  cases hl : s.live key with
  | none =>
    rw [hl] at hn
    cases hn
    decide
  | some kv =>
    rw [hl] at hn
    exact bounds_of_parseInt hn

theorem incrSum_eq_ok {sum : ℤ} (h : s.counter cmd.key = some n) (hsum : s.incrSum cmd = .ok sum) :
    sum = n + delta cmd ∧ minInt64 ≤ sum ∧ sum ≤ maxInt64 := by
  have hbounds := bounds_of_counter h
  unfold incrSum at hsum
  split_ifs at hsum
  rw [(live_of_counter h).2] at hsum
  cases hd : parseInt cmd.value with
  | none =>
    rw [hd] at hsum
    cases hsum
  | some d =>
    have hd' := bounds_of_parseInt hd
    rw [hd] at hsum
    dsimp only at hsum
    split_ifs at hsum with hover
    cases hsum
    refine ⟨by rw [delta, hd]; rfl, ?_, ?_⟩ <;> omega

theorem execute_incr (hop : cmd.op = .incr) : s.execute cmd =
    match s.incrSum cmd with
    | .error message => (s.toContents, .error message, false)
    | .ok sum => ((s.putEvent cmd.key (formatInt sum) (s.live cmd.key) 0).1,
        .ok (.keyValue (s.putEvent cmd.key (formatInt sum) (s.live cmd.key) 0).2), true) := by
  cases hsum : s.incrSum cmd <;>
    · unfold execute
      rw [hop]
      dsimp only
      rw [hsum]

theorem apply_of_not_accepts (hop : cmd.op = .incr) (h : s.accepts cmd = false) :
    (s.apply cmd).1.data = s.data ∧ (s.apply cmd).1.revision = s.revision ∧
      (s.apply cmd).1.dedupTable = s.dedupTable := by
  cases hc : s.cached cmd with
  | some reply =>
    have hc' : (s.advance cmd).cached cmd = some reply := hc
    rw [apply, hc']
    exact ⟨rfl, rfl, rfl⟩
  | none =>
    rw [accepts, hc] at h
    have hmut : ((s.advance cmd).execute cmd).2.2 = false := h
    rw [apply_of_uncached hc, hmut, if_neg fun hm ↦ Bool.false_ne_true hm.1, executed]
    rw [execute_incr hop] at hmut ⊢
    cases hsum : (s.advance cmd).incrSum cmd with
    | error message => exact ⟨rfl, rfl, rfl⟩
    | ok sum =>
      rw [hsum] at hmut
      cases hmut

theorem dedupTable_record {result : Reply} (h : s.cached cmd = none) (hid : cmd.clientID ≠ [])
    (hlen : ∀ e, (s.dedupTable.insert cmd.clientID e).entries.length ≤ maxDedupEntries) :
    (s.record cmd result).dedupTable =
      s.dedupTable.insert cmd.clientID ⟨cmd.seqNum, result, s.index⟩ := by
  unfold record
  rw [if_neg]
  · unfold evictDedupIfNeeded
    dsimp only
    rw [Nat.sub_eq_zero_of_le (hlen _)]
    rfl
  · intro hany
    obtain ⟨e, he, hlt⟩ := (any_eq_true _ _).mp hany
    rw [cached, if_neg hid, he, filter_some, if_pos] at h
    · cases h
    · exact decide_eq_true (le_of_lt (of_decide_eq_true hlt))

theorem apply_of_accepts (hop : cmd.op = .incr) (hid : cmd.clientID ≠ []) (h : s.accepts cmd = true)
    (hn : s.counter cmd.key = some n)
    (hlen : ∀ e, (s.dedupTable.insert cmd.clientID e).entries.length ≤ maxDedupEntries) :
    (s.apply cmd).1.counter cmd.key = some (n + delta cmd) ∧ ∃ e : DedupEntry,
      e.seqNum = cmd.seqNum ∧ (s.apply cmd).1.dedupTable = s.dedupTable.insert cmd.clientID e := by
  obtain ⟨hcached, hmut⟩ := Bool.and_eq_true_iff.mp h
  have hc := isNone_iff_eq_none.mp hcached
  have hc' : (s.executed cmd).cached cmd = none := hc
  rw [apply_of_uncached hc, if_pos ⟨hmut, hid⟩]
  refine ⟨?_, _, rfl, dedupTable_record hc' hid hlen⟩
  rw [counter, toContents_record, executed]
  rw [execute_incr hop] at hmut ⊢
  cases hsum : (s.advance cmd).incrSum cmd with
  | error message =>
    rw [hsum] at hmut
    cases hmut
  | ok sum =>
    have hn' : (s.advance cmd).counter cmd.key = some n := hn
    obtain ⟨hexact, hlo, hhi⟩ := incrSum_eq_ok hn' hsum
    dsimp only
    rw [data_putEvent, lookup_insert]
    exact (parseInt_formatInt hlo hhi).trans (congrArg some hexact)

end Step

section Run

variable {json : Json} {key : Bytes} {s t : KVStore} {log : List (KvCommand × Bool)}
  {clients : Finset Bytes} {n : ℤ}

structure Exact (key : Bytes) (clients : Finset Bytes) (n : ℤ) (log : List (KvCommand × Bool))
    (t : KVStore) : Prop where
  sound : t.Sound
  value : t.counter key = some (n + ((accepted log).map delta).sum)
  known : ∀ id ∈ t.dedupTable.keys, id ∈ clients
  recorded : ∀ cmd ∈ accepted log,
    ∃ e, t.dedupTable.lookup cmd.clientID = some e ∧ cmd.seqNum ≤ e.seqNum
  once : ((accepted log).map fun cmd ↦ (cmd.clientID, cmd.seqNum)).Nodup

theorem accepted_append (log : List (KvCommand × Bool)) (cmd : KvCommand) (b : Bool) :
    accepted (log ++ [(cmd, b)]) = accepted log ++ if b then [cmd] else [] := by
  cases b <;> simp [accepted]

theorem Exact.room (h : Exact key clients n log t) (hcard : clients.card ≤ maxDedupEntries)
    {cmd : KvCommand} (hid : cmd.clientID ∈ clients) (e : DedupEntry) :
    (t.dedupTable.insert cmd.clientID e).entries.length ≤ maxDedupEntries := by
  have hsub : (t.dedupTable.insert cmd.clientID e).keys.toFinset ⊆ clients := by
    intro id hmem
    rw [List.mem_toFinset, ← AList.mem_keys, mem_insert] at hmem
    rcases hmem with rfl | hmem
    · exact hid
    · exact h.known id (AList.mem_keys.mp hmem)
  have hcount := Finset.card_le_card hsub
  rw [toFinset_card_of_nodup (keys_nodup _), AList.keys, List.keys, length_map]
    at hcount
  exact hcount.trans hcard

theorem Exact.incr (h : Exact key clients n log t) (hcard : clients.card ≤ maxDedupEntries)
    {cmd : KvCommand} (hop : cmd.op = .incr) (hkey : cmd.key = key) (hid : cmd.clientID ≠ [])
    (hmem : cmd.clientID ∈ clients) :
    Exact key clients n (log ++ [(cmd, t.accepts cmd)]) (t.apply cmd).1 := by
  cases hacc : t.accepts cmd with
  | false =>
    obtain ⟨hdata, -, hdedup⟩ := apply_of_not_accepts hop hacc
    have hlog : accepted (log ++ [(cmd, false)]) = accepted log := by
      rw [accepted_append]
      exact append_nil _
    refine ⟨h.sound.apply cmd, ?_, ?_, ?_, ?_⟩
    · rw [hlog, counter, hdata]
      exact h.value
    · rw [hdedup]
      exact h.known
    · rw [hlog, hdedup]
      exact h.recorded
    · rw [hlog]
      exact h.once
  | true =>
    subst hkey
    obtain ⟨hvalue, e, hseq, hdedup⟩ := apply_of_accepts hop hid hacc h.value (h.room hcard hmem)
    have hlog : accepted (log ++ [(cmd, true)]) = accepted log ++ [cmd] :=
      accepted_append log cmd true
    have hnew : ∀ cmd' ∈ accepted log, cmd'.clientID = cmd.clientID → cmd'.seqNum < cmd.seqNum := by
      intro cmd' hcmd' heq
      obtain ⟨e', he', hle⟩ := h.recorded cmd' hcmd'
      rw [heq] at he'
      by_contra hlt
      have hdup : cmd.seqNum ≤ e'.seqNum := by omega
      have hcached := (Bool.and_eq_true_iff.mp hacc).1
      rw [cached, if_neg hid, he', filter_some, if_pos (decide_eq_true hdup)] at hcached
      cases hcached
    refine ⟨h.sound.apply cmd, ?_, ?_, ?_, ?_⟩
    · rw [hvalue, hlog, map_append, sum_append, Int.add_assoc]
      simp
    · intro id hid'
      rw [hdedup, ← AList.mem_keys, mem_insert] at hid'
      rcases hid' with rfl | hid'
      · exact hmem
      · exact h.known id (AList.mem_keys.mp hid')
    · rw [hlog, hdedup]
      intro cmd' hcmd'
      by_cases heq : cmd'.clientID = cmd.clientID
      · refine ⟨e, by rw [heq, lookup_insert], ?_⟩
        rw [hseq]
        rcases mem_append.mp hcmd' with hold | hlast
        · exact le_of_lt (hnew cmd' hold heq)
        · rw [mem_singleton.mp hlast]
      · rw [lookup_insert_ne heq]
        rcases mem_append.mp hcmd' with hold | hlast
        · exact h.recorded cmd' hold
        · exact absurd (congrArg KvCommand.clientID (mem_singleton.mp hlast)) heq
    · rw [hlog, map_append, nodup_append]
      refine ⟨h.once, nodup_singleton _, fun a ha b hb hab ↦ ?_⟩
      obtain ⟨cmd', hcmd', rfl⟩ := mem_map.mp ha
      rw [map_singleton, mem_singleton] at hb
      rw [hb, Prod.mk.injEq] at hab
      exact absurd hab.2 (ne_of_lt (hnew cmd' hcmd' hab.1))

theorem Exact.restored (h : Exact key clients n log t) {bytes : Bytes}
    (hb : t.snapshot.Streams json bytes) (other : KVStore) :
    Exact key clients n log (other.restore json bytes).1 := by
  obtain ⟨-, hm⟩ := matches_restore h.sound.keyed other hb
  have hlookup := hm.contents.data.lookup_eq
  refine ⟨⟨fun k kv hkv ↦ h.sound.keyed k kv (hlookup k ▸ hkv), ?_⟩, ?_, ?_, ?_, h.once⟩
  · rw [hm.contents.applyTimeMs]
    exact h.sound.clock
  · rw [counter, hlookup]
    exact h.value
  · intro id hid
    refine h.known id ?_
    have hseq := congrArg isSome (hm.lookup_seqNum id)
    rw [isSome_map, isSome_map] at hseq
    rw [← AList.mem_keys, ← lookup_isSome] at hid ⊢
    rwa [hseq] at hid
  · intro cmd hcmd
    obtain ⟨e, he, hle⟩ := h.recorded cmd hcmd
    have hseq := hm.lookup_seqNum cmd.clientID
    rw [he, map_some] at hseq
    obtain ⟨e', he', hseq'⟩ := map_eq_some_iff.mp hseq
    exact ⟨e', he', hle.trans_eq hseq'.symm⟩

theorem accepts_of_error {cmd : KvCommand} {message : String} (hop : cmd.op = .incr)
    (h : (s.apply cmd).2 = .error message) : s.accepts cmd = false := by
  by_contra hacc
  obtain ⟨hcached, hmut⟩ := Bool.and_eq_true_iff.mp (Bool.eq_true_of_not_eq_false hacc)
  rw [apply_of_uncached (isNone_iff_eq_none.mp hcached)] at h
  rw [execute_incr hop] at hmut h
  cases hsum : (s.advance cmd).incrSum cmd with
  | error _ =>
    rw [hsum] at hmut
    cases hmut
  | ok sum =>
    rw [hsum] at h
    cases h

/-- However often commands are retried and stores are restored, the number is the first one plus
the numbers of the accepted commands, none of which is accepted twice. A command that is answered
with an error changes nothing. -/
theorem counter_exact (hs : s.Sound) (hstart : s.counter key = some n)
    (hcard : clients.card ≤ maxDedupEntries) (hknown : ∀ id ∈ s.dedupTable.keys, id ∈ clients)
    (hlog : ∀ c ∈ log, c.1.clientID ∈ clients) (h : Counting json key s log t) :
    t.counter key = some (n + ((accepted log).map delta).sum) ∧
      ((accepted log).map fun cmd ↦ (cmd.clientID, cmd.seqNum)).Nodup ∧
      ∀ (u : KVStore) (cmd : KvCommand) (message : String), cmd.op = .incr →
        (u.apply cmd).2 = .error message →
        (u.apply cmd).1.data = u.data ∧ (u.apply cmd).1.revision = u.revision := by
  have hexact : Exact key clients n log t := by
    induction h with
    | start =>
      refine ⟨hs, ?_, hknown, fun cmd hcmd ↦ absurd hcmd not_mem_nil, nodup_nil⟩
      rw [hstart]
      exact congrArg some (Int.add_zero n).symm
    | incr cmd _ hop hkey hid ih =>
      have hrest := ih fun c hc ↦ hlog c (mem_append_left _ hc)
      exact hrest.incr hcard hop hkey hid (hlog _ (mem_append_right _ mem_cons_self))
    | restored other bytes _ hb ih => exact (ih hlog).restored hb other
  refine ⟨hexact.value, hexact.once, fun u cmd message hop herr ↦ ?_⟩
  obtain ⟨hdata, hrev, -⟩ := apply_of_not_accepts hop (accepts_of_error hop herr)
  exact ⟨hdata, hrev⟩

def addTwo : KvCommand := encodeCommandWithID .incr (ascii "n") (ascii "2") (ascii "c") 1

def addThree : KvCommand := encodeCommandWithID .incr (ascii "n") (ascii "+03") (ascii "c") 2

/-- A retried command, and a restored snapshot at the end. -/
theorem counter_exact_retried : ∃ log t, Counting textJson (ascii "n") new log t ∧
    log = [(addTwo, true), (addTwo, false), (addThree, true)] ∧ t.counter (ascii "n") = some 5 := by
  have hstart : Counting textJson (ascii "n") new [] new := .start
  have hfits : (((new.apply addTwo).1.apply addTwo).1.apply addThree).1.snapshot.Fits textJson := by
    constructor <;> decide +kernel
  have hrun := (((hstart.incr addTwo rfl rfl (by decide)).incr addTwo rfl rfl (by decide)).incr
    addThree rfl rfl (by decide)).restored new _ ⟨hfits, _, _, .refl _, .refl _, rfl⟩
  have hlog : [(addTwo, new.accepts addTwo), (addTwo, (new.apply addTwo).1.accepts addTwo),
      (addThree, ((new.apply addTwo).1.apply addTwo).1.accepts addThree)] =
      [(addTwo, true), (addTwo, false), (addThree, true)] := by decide +kernel
  have hclients : ∀ c ∈ [(addTwo, true), (addTwo, false), (addThree, true)],
      c.1.clientID ∈ ({ascii "c"} : Finset Bytes) := by decide +kernel
  refine ⟨_, _, hrun, hlog, ?_⟩
  refine (counter_exact (n := 0) sound_new rfl (by decide) (fun id hid ↦ absurd hid not_mem_nil)
    (fun c hc ↦ hclients c (hlog ▸ hc)) hrun).1.trans ?_
  have hsum : ((accepted [(addTwo, true), (addTwo, false), (addThree, true)]).map delta).sum =
      5 := by
    decide +kernel
  exact congrArg (fun l ↦ some (0 + ((accepted l).map delta).sum)) hlog |>.trans (by rw [hsum]; rfl)

end Run

end KVStore

end RaftConsensus.Kv
