import RaftConsensus.Maps
import RaftConsensus.Kv.Order
import RaftConsensus.Kv.Written

namespace RaftConsensus.Kv

theorem int64_eq_self_iff {x : ℤ} : int64 x = x ↔ minInt64 ≤ x ∧ x ≤ maxInt64 := by
  have h := Int.bmod_def x (2 ^ 64)
  unfold int64 minInt64 maxInt64
  rw [h]
  split_ifs <;> omega

namespace Contents

variable {s : Contents} {kv : KeyValue} {key : Bytes}

theorem mem_expired : key ∈ s.expired ↔
    ∃ kv, s.data.lookup key = some kv ∧ 0 < kv.expiresAtMs ∧ kv.expiresAtMs ≤ s.applyTimeMs := by
  unfold expired
  constructor
  · intro h
    obtain ⟨e, he, rfl⟩ := List.mem_map.mp h
    obtain ⟨hmem, hexp⟩ := List.mem_filter.mp he
    obtain ⟨hpos, hle⟩ := Bool.and_eq_true_iff.mp hexp
    exact ⟨e.2, AList.mem_lookup_iff.mpr hmem, of_decide_eq_true hpos, of_decide_eq_true hle⟩
  · rintro ⟨kv, hkv, hpos, hle⟩
    refine List.mem_map.mpr ⟨⟨key, kv⟩, List.mem_filter.mpr ⟨AList.mem_lookup_iff.mp hkv, ?_⟩, rfl⟩
    exact Bool.and_eq_true_iff.mpr ⟨decide_eq_true hpos, decide_eq_true hle⟩

theorem lookup_sweepExpiredLocked (h : s.revisionExhausted = false) :
    s.sweepExpiredLocked.1.data.lookup key =
    if key ∈ s.expired then none else s.data.lookup key := by
  have hdata : s.sweepExpiredLocked.1.data =
      (sortStrings s.expired).foldl (fun data key ↦ data.erase key) s.data := by
    unfold sweepExpiredLocked
    dsimp only
    by_cases hnil : sortStrings s.expired = []
    · rw [if_pos (.inl hnil), hnil]
      rfl
    · rw [if_neg (by simp [hnil, h]), (emitEvents_spec _ _).1]
  have hperm := (sortStrings_perm s.expired).mem_iff (a := key)
  rw [hdata, Maps.lookup_foldl_erase_keys]
  by_cases hmem : key ∈ s.expired
  · rw [if_pos hmem, if_pos (hperm.mpr hmem)]
  · rw [if_neg hmem, if_neg fun hm ↦ hmem (hperm.mp hm)]

theorem isLive_sweepExpiredLocked (hexp : Stores (fun _ kv ↦ 0 ≤ kv.expiresAtMs) s.data)
    (h : s.revisionExhausted = false) (hkv : s.sweepExpiredLocked.1.data.lookup key = some kv) :
    s.isLive kv = true := by
  rw [lookup_sweepExpiredLocked h] at hkv
  split_ifs at hkv with hmem
  have hpos := hexp key kv hkv
  have hnot : ¬ (0 < kv.expiresAtMs ∧ kv.expiresAtMs ≤ s.applyTimeMs) :=
    fun hx ↦ hmem (mem_expired.mpr ⟨kv, hkv, hx⟩)
  unfold isLive
  rw [Bool.or_eq_true, decide_eq_true_iff, decide_eq_true_iff]
  omega

end Contents

namespace KVStore

variable {s : KVStore} {cmd : KvCommand} {kv : KeyValue}

def FitsTTL (s : KVStore) (cmd : KvCommand) : Prop :=
  cmd.op = .put → 0 < cmd.ttlSeconds →
    (s.advance cmd).applyTimeMs + 1000 * cmd.ttlSeconds ≤ maxInt64

def FitsTTLs (s : KVStore) : List KvCommand → Prop
  | [] => True
  | cmd :: rest => s.FitsTTL cmd ∧ (s.apply cmd).1.FitsTTLs rest

instance (s : KVStore) (cmd : KvCommand) : Decidable (s.FitsTTL cmd) :=
  inferInstanceAs (Decidable (_ → _))

instance decidableFitsTTLs (s : KVStore) : (log : List KvCommand) → Decidable (s.FitsTTLs log)
  | [] => inferInstanceAs (Decidable True)
  | cmd :: rest => @instDecidableAnd _ _ _ (decidableFitsTTLs (s.apply cmd).1 rest)

theorem expiresAt_eq_iff (hop : cmd.op = .put) (hpos : 0 < cmd.ttlSeconds)
    (hclock : 0 ≤ (s.advance cmd).applyTimeMs) : (s.advance cmd).expiresAt cmd =
      (s.advance cmd).applyTimeMs + 1000 * cmd.ttlSeconds ↔ s.FitsTTL cmd := by
  have hmin : minInt64 ≤ 0 := by decide
  unfold Contents.expiresAt
  rw [if_pos hpos, Int.mul_comm, int64_eq_self_iff]
  refine ⟨fun h _ _ ↦ h.2, fun h ↦ ⟨?_, h hop hpos⟩⟩
  omega

theorem FitsTTL.expiresAt_nonneg (h : s.FitsTTL cmd) (hop : cmd.op = .put)
    (hclock : 0 ≤ (s.advance cmd).applyTimeMs) : 0 ≤ (s.advance cmd).expiresAt cmd := by
  by_cases hpos : 0 < cmd.ttlSeconds
  · rw [(expiresAt_eq_iff hop hpos hclock).mpr h]
    omega
  · unfold Contents.expiresAt
    rw [if_neg hpos]

structure Timed (s : KVStore) : Prop where
  clock : 0 ≤ s.applyTimeMs
  expiry : Stores (fun _ kv ↦ 0 ≤ kv.expiresAtMs) s.data

theorem timed_new : Timed new := ⟨le_rfl, fun key kv h ↦ by cases h⟩

theorem Timed.advance (h : s.Timed) (cmd : KvCommand) : (s.advance cmd).Timed :=
  ⟨le_max_of_le_left h.clock, h.expiry⟩

theorem Timed.apply (h : s.Timed) (hfits : s.FitsTTL cmd) : (s.apply cmd).1.Timed := by
  have hemits := s.emits_apply cmd
  have hclock := (h.advance cmd).clock
  refine ⟨by rw [hemits.applyTimeMs_eq]; exact hclock, ?_⟩
  rw [← hemits.data_eq]
  refine (h.advance cmd).expiry.applyEvents fun e he kv hkv ↦ ?_
  rcases Contents.expiresAtMs_events (mem_events_of_emitted he) hkv with h0 | ⟨hop, hexp⟩
  · exact h0.ge
  · rw [hexp]
    exact hfits.expiresAt_nonneg hop hclock

theorem Timed.run {log : List KvCommand} (h : s.Timed) (hfits : s.FitsTTLs log) :
    (s.run log).1.Timed := by
  induction log generalizing s with
  | nil => exact h
  | cons cmd log ih => exact ih (h.apply hfits.1) hfits.2

theorem apply_eq_execute (hc : s.cached cmd = none) :
    (s.apply cmd).1.toContents = ((s.advance cmd).execute cmd).1 := by
  have hnone : ¬ ((s.advance cmd).cached cmd).isSome = true := by
    change ¬ (s.cached cmd).isSome = true
    rw [hc]
    exact Bool.false_ne_true
  rw [toContents_apply, if_neg hnone]

theorem revisionExhausted_advance (hrev : s.revision < maxRevision) :
    (s.advance cmd).revisionExhausted = false :=
  Contents.revisionExhausted_eq_false.mpr hrev

theorem data_apply_put (hop : cmd.op = .put) (hc : s.cached cmd = none)
    (hrev : s.revision < maxRevision) : ∃ kv, (s.apply cmd).1.data = s.data.insert cmd.key kv ∧
      kv.expiresAtMs = (s.advance cmd).expiresAt cmd := by
  rw [apply_eq_execute hc, Contents.execute, hop]
  dsimp only
  rw [revisionExhausted_advance hrev, if_neg Bool.false_ne_true, Contents.data_putEvent]
  exact ⟨_, rfl, rfl⟩

theorem lookup_apply_put (hop : cmd.op = .put) (hc : s.cached cmd = none)
    (hrev : s.revision < maxRevision) : ∃ kv, (s.apply cmd).1.data.lookup cmd.key = some kv ∧
      kv.expiresAtMs = (s.advance cmd).expiresAt cmd := by
  obtain ⟨kv, hdata, hexp⟩ := data_apply_put hop hc hrev
  exact ⟨kv, by rw [hdata, AList.lookup_insert], hexp⟩

theorem Timed.isLive_tick (h : s.Timed) (hop : cmd.op = .tick) (hc : s.cached cmd = none)
    (hrev : s.revision < maxRevision) {key : Bytes}
    (hkv : (s.apply cmd).1.data.lookup key = some kv) : (s.apply cmd).1.isLive kv = true := by
  have hclock := (s.emits_apply cmd).applyTimeMs_eq
  have hdata : (s.apply cmd).1.data = (s.advance cmd).sweepExpiredLocked.1.data := by
    rw [apply_eq_execute hc, Contents.execute, hop]
  rw [hdata] at hkv
  have hlive := Contents.isLive_sweepExpiredLocked (h.advance cmd).expiry
    (revisionExhausted_advance hrev) hkv
  unfold Contents.isLive at hlive ⊢
  rw [hclock]
  exact hlive

/-- A put stores the expiry it asks for, and the key is live, exactly when the expiry is an `int64`;
when this holds of all puts of a history, a tick leaves live keys only. -/
theorem ttl_arithmetic (s : KVStore) (cmd : KvCommand) (log : List KvCommand) :
    (cmd.op = .put → 0 < cmd.ttlSeconds → 0 ≤ (s.advance cmd).applyTimeMs → s.cached cmd = none →
      s.revision < maxRevision → ((∃ kv, (s.apply cmd).1.data.lookup cmd.key = some kv ∧
        kv.expiresAtMs = (s.advance cmd).applyTimeMs + 1000 * cmd.ttlSeconds ∧
        (s.apply cmd).1.isLive kv = true) ↔ s.FitsTTL cmd)) ∧
    (new.FitsTTLs log → cmd.op = .tick → (new.run log).1.cached cmd = none →
      (new.run log).1.revision < maxRevision →
      ∀ key kv, ((new.run log).1.apply cmd).1.data.lookup key = some kv →
        ((new.run log).1.apply cmd).1.isLive kv = true) := by
  refine ⟨fun hop hpos hclock hc hrev ↦ ?_, fun hfits hop hc hrev key kv hkv ↦ ?_⟩
  · have heq := expiresAt_eq_iff hop hpos hclock
    obtain ⟨kv, hkv, hexp⟩ := lookup_apply_put hop hc hrev
    constructor
    · rintro ⟨kv', hkv', hexp', -⟩
      cases hkv.symm.trans hkv'
      exact heq.mp (hexp.symm.trans hexp')
    · intro hfits
      refine ⟨kv, hkv, hexp.trans (heq.mpr hfits), ?_⟩
      unfold Contents.isLive
      rw [(s.emits_apply cmd).applyTimeMs_eq, hexp, heq.mpr hfits, Bool.or_eq_true,
        decide_eq_true_iff, decide_eq_true_iff]
      omega
  · exact (timed_new.run hfits).isLive_tick hop hc hrev hkv

def putFor (ttlSeconds : ℤ) : KvCommand :=
  encodeCommandWithTTL .put (ascii "a") (ascii "1") [] 0 500 ttlSeconds

def tickAt (leaderTimestampMs : ℤ) : KvCommand :=
  encodeCommandWithTTL .tick [] [] [] 0 leaderTimestampMs 0

theorem ttl_arithmetic_second :
    (∃ kv, (new.apply (putFor 1)).1.data.lookup (ascii "a") = some kv ∧
      kv.expiresAtMs = (new.advance (putFor 1)).applyTimeMs + 1000 * 1 ∧
      (new.apply (putFor 1)).1.isLive kv = true) ∧
    ∀ key kv, ((new.run [putFor 1]).1.apply (tickAt 2000)).1.data.lookup key = some kv →
      ((new.run [putFor 1]).1.apply (tickAt 2000)).1.isLive kv = true := by
  refine ⟨?_, (ttl_arithmetic new (tickAt 2000) [putFor 1]).2 (by decide +kernel) rfl
    (by decide +kernel) (by decide +kernel)⟩
  exact ((ttl_arithmetic new (putFor 1) []).1 rfl (by decide) (by decide) (by decide)
    (by decide)).mpr (by decide +kernel)

/-- The longest lifetime overflows: the key is dead from the start, and no tick removes it. -/
theorem ttl_overflows : ((new.apply (putFor maxInt64)).1.data.lookup (ascii "a")).any (fun kv ↦
      kv.expiresAtMs = -500 && !(new.apply (putFor maxInt64)).1.isLive kv) = true ∧
    ((new.run [putFor maxInt64, tickAt 2000]).1.data.lookup (ascii "a")).any (fun kv ↦
      !(new.run [putFor maxInt64, tickAt 2000]).1.isLive kv) = true := by
  decide +kernel

end KVStore

end RaftConsensus.Kv
