import RaftConsensus.Kv.Matching

namespace RaftConsensus.Kv

open Maps List Option

section Eviction

def Precedes (a b : Bytes × ℕ) : Prop := a.2 < b.2 ∨ a.2 = b.2 ∧ bytesLE a.1 b.1 = true

variable {a b c : Bytes × ℕ}

theorem Precedes.refl (a : Bytes × ℕ) : Precedes a a := .inr ⟨rfl, bytesLE_refl _⟩

theorem Precedes.trans (h : Precedes a b) (h' : Precedes b c) : Precedes a c := by
  rcases h with h | ⟨h, hle⟩
  · rcases h' with h' | ⟨h', -⟩
    · exact .inl (h.trans h')
    · exact .inl (h' ▸ h)
  · rcases h' with h' | ⟨h', hle'⟩
    · exact .inl (h ▸ h')
    · exact .inr ⟨h.trans h', bytesLE_trans hle hle'⟩

theorem Precedes.antisymm (h : Precedes a b) (h' : Precedes b a) : a = b := by
  rcases h with h | ⟨h, hle⟩
  · rcases h' with h' | ⟨h', -⟩ <;> omega
  · rcases h' with h' | ⟨-, hle'⟩
    · omega
    · exact Prod.ext (bytesLE_antisymm hle hle') h

def better (best : Option (Bytes × ℕ)) (e : Σ _ : Bytes, DedupEntry) : Option (Bytes × ℕ) :=
  match best with
  | none => some (e.1, e.2.order)
  | some (id, order) =>
    if e.2.order < order ∨ e.2.order = order ∧ !bytesLE id e.1 then some (e.1, e.2.order)
    else best

theorem better_some (a : Bytes × ℕ) (e : Σ _ : Bytes, DedupEntry) :
    ∃ b, better (some a) e = some b ∧ (b = a ∨ b = (e.1, e.2.order)) ∧ Precedes b a ∧
      Precedes b (e.1, e.2.order) := by
  dsimp only [better]
  split_ifs with hlt
  · refine ⟨_, rfl, .inr rfl, ?_, .refl _⟩
    refine hlt.imp_right fun h ↦ ⟨h.1, ?_⟩
    have hnot : ¬bytesLE a.1 e.1 = true := by simpa using h.2
    exact (bytesLE_total a.1 e.1).resolve_left hnot
  · refine ⟨_, rfl, .inl rfl, .refl _, ?_⟩
    obtain ⟨hge, hne⟩ := not_or.mp hlt
    rcases Nat.lt_or_ge a.2 e.2.order with h | h
    · exact .inl h
    · have heq : a.2 = e.2.order := by omega
      refine .inr ⟨heq, ?_⟩
      simpa [heq] using hne

theorem foldl_better (l : List (Σ _ : Bytes, DedupEntry)) (a : Bytes × ℕ) :
    ∃ b, l.foldl better (some a) = some b ∧ (b = a ∨ ∃ e ∈ l, b = (e.1, e.2.order)) ∧
      Precedes b a ∧ ∀ e ∈ l, Precedes b (e.1, e.2.order) := by
  induction l generalizing a with
  | nil => exact ⟨a, rfl, .inl rfl, .refl a, forall_mem_nil _⟩
  | cons e l ih =>
    obtain ⟨b, hb, hfrom, hba, hbe⟩ := better_some a e
    obtain ⟨c, hc, hmem, hcb, hcl⟩ := ih b
    refine ⟨c, by rw [foldl_cons, hb, hc], ?_, hcb.trans hba,
      forall_mem_cons.mpr ⟨hcb.trans hbe, hcl⟩⟩
    rcases hmem with rfl | ⟨e', he', rfl⟩
    · exact hfrom.imp_right fun h ↦ ⟨e, mem_cons_self, h⟩
    · exact .inr ⟨e', mem_cons_of_mem _ he', rfl⟩

/-- The victim comes before every other entry of a table that is not empty. -/
theorem victim_spec {table : DedupTable} (h : table.entries ≠ []) :
    ∃ id e, KVStore.victim table = some id ∧ table.lookup id = some e ∧
      ∀ id' e', table.lookup id' = some e' → Precedes (id, e.order) (id', e'.order) := by
  obtain ⟨first, l, hentries⟩ := exists_cons_of_ne_nil h
  obtain ⟨b, hb, hmem, hfirst, hl⟩ := foldl_better l (first.1, first.2.order)
  have hle : ∀ id' e', table.lookup id' = some e' → Precedes b (id', e'.order) := by
    intro id' e' he'
    have hin : (⟨id', e'⟩ : Σ _ : Bytes, DedupEntry) ∈ table.entries := AList.mem_lookup_iff.mp he'
    rw [hentries] at hin
    rcases mem_cons.mp hin with heq | hin
    · cases heq
      exact hfirst
    · exact hl _ hin
  have hvictim : KVStore.victim table = some b.1 := by
    change (table.entries.foldl better none).map (·.1) = some b.1
    rw [hentries, foldl_cons]
    exact congrArg (Option.map (·.1)) hb
  obtain ⟨e, he, rfl⟩ : ∃ e ∈ table.entries, b = (e.1, e.2.order) := by
    rw [hentries]
    rcases hmem with rfl | ⟨e, he, rfl⟩
    · exact ⟨first, mem_cons_self, rfl⟩
    · exact ⟨e, mem_cons_of_mem _ he, rfl⟩
  exact ⟨e.1, e.2, hvictim, AList.mem_lookup_iff.mpr he, hle⟩

variable {table table' : DedupTable}

theorem victim_eq (h : AgreeBy DedupEntry.order table table') :
    KVStore.victim table = KVStore.victim table' := by
  by_cases hnil : table.entries = []
  · have hnil' : table'.entries = [] := by
      rw [← length_eq_zero_iff, ← h.length_eq, hnil, length_nil]
    rw [KVStore.victim, KVStore.victim, hnil, hnil']
  · have hnil' : table'.entries ≠ [] := by
      rwa [← length_pos_iff, ← h.length_eq, length_pos_iff]
    obtain ⟨id, e, hv, he, hle⟩ := victim_spec hnil
    obtain ⟨id', e', hv', he', hle'⟩ := victim_spec hnil'
    -- Each victim has an entry of the same order in the other table.
    have hx := h id
    rw [he, map_some] at hx
    obtain ⟨x, hx, hxo⟩ := map_eq_some_iff.mp hx.symm
    have hy := h id'
    rw [he', map_some] at hy
    obtain ⟨y, hy, hyo⟩ := map_eq_some_iff.mp hy
    have h₁ := hle id' y hy
    have h₂ := hle' id x hx
    rw [hyo] at h₁
    rw [hxo] at h₂
    have heq : id = id' := congrArg Prod.fst (h₁.antisymm h₂)
    rw [hv, hv', heq]

def Json.view (json : Json) (e : DedupEntry) : ℕ × Bytes × ℕ :=
  (e.seqNum, json.marshal e.result, e.order)

theorem agree_evict (json : Json) (h : AgreeBy json.view table table') (n : ℕ) :
    AgreeBy json.view (KVStore.evict table n) (KVStore.evict table' n) := by
  induction n generalizing table table' with
  | zero => exact h
  | succ n ih =>
    rw [KVStore.evict, KVStore.evict, victim_eq (h.comp fun v ↦ v.2.2)]
    cases KVStore.victim table' with
    | none => exact h
    | some id => exact ih (h.erase id)

end Eviction

theorem Json.view_reread (json : Json) (e : DedupEntry) :
    json.view (json.reread e) = json.view e := by
  rw [view, view, reread, json.marshal_unmarshal]

namespace KVStore

/-- The same key data, revision, apply index, virtual clock and dedup table. -/
structure Matches (json : Json) (s t : KVStore) : Prop where
  contents : s.toContents.Matches t.toContents
  index : s.index = t.index
  dedup : AgreeBy json.view s.dedupTable t.dedupTable

variable {json : Json} {s t : KVStore}

theorem Matches.advance (h : Matches json s t) (cmd : KvCommand) :
    Matches json (s.advance cmd) (t.advance cmd) := by
  refine ⟨⟨h.contents.data, h.contents.revision, ?_⟩, ?_, h.dedup⟩
  · change max s.applyTimeMs _ = max t.applyTimeMs _
    rw [h.contents.applyTimeMs]
  · change s.index + 1 = t.index + 1
    rw [h.index]

theorem Matches.lookup_seqNum (h : Matches json s t) (id : Bytes) :
    (s.dedupTable.lookup id).map DedupEntry.seqNum =
    (t.dedupTable.lookup id).map DedupEntry.seqNum :=
  h.dedup.comp Prod.fst id

theorem Matches.cached (h : Matches json s t) (cmd : KvCommand) :
    (s.cached cmd).map json.marshal = (t.cached cmd).map json.marshal := by
  have hview := h.dedup cmd.clientID
  unfold KVStore.cached
  split_ifs
  · rfl
  · cases hs : s.dedupTable.lookup cmd.clientID with
    | none =>
      cases ht : t.dedupTable.lookup cmd.clientID with
      | none => rfl
      | some f =>
        rw [hs, ht] at hview
        cases hview
    | some e =>
      cases ht : t.dedupTable.lookup cmd.clientID with
      | none =>
        rw [hs, ht] at hview
        cases hview
      | some f =>
        rw [hs, ht] at hview
        simp only [Json.view, map_some, some.injEq, Prod.mk.injEq] at hview
        obtain ⟨hseq, hresult, -⟩ := hview
        rw [filter_some, filter_some, hseq]
        split_ifs
        · exact congrArg some hresult
        · rfl

theorem Matches.evictDedupIfNeeded (h : Matches json s t) :
    Matches json s.evictDedupIfNeeded t.evictDedupIfNeeded := by
  rw [KVStore.evictDedupIfNeeded, KVStore.evictDedupIfNeeded, h.dedup.length_eq]
  generalize t.dedupTable.entries.length - maxDedupEntries = n
  exact ⟨h.contents, h.index, agree_evict json h.dedup n⟩

theorem Matches.record (h : Matches json s t) (cmd : KvCommand) (result : Reply) :
    Matches json (s.record cmd result) (t.record cmd result) := by
  have hany : (s.dedupTable.lookup cmd.clientID).any (cmd.seqNum < ·.seqNum) =
      (t.dedupTable.lookup cmd.clientID).any (cmd.seqNum < ·.seqNum) := by
    have hseq := congrArg (Option.any fun n ↦ decide (cmd.seqNum < n))
      (h.lookup_seqNum cmd.clientID)
    rwa [Option.any_map, Option.any_map] at hseq
  unfold KVStore.record
  rw [hany]
  split_ifs
  · exact h
  · refine Matches.evictDedupIfNeeded ⟨h.contents, h.index, h.dedup.insert _ ?_⟩
    rw [h.index]

theorem Matches.apply (h : Matches json s t) (cmd : KvCommand) :
    json.marshal (s.apply cmd).2 = json.marshal (t.apply cmd).2 ∧
      Matches json (s.apply cmd).1 (t.apply cmd).1 := by
  have hadv := h.advance cmd
  have hcached := h.cached cmd
  obtain ⟨hreply, hcontents⟩ := hadv.contents.execute cmd
  have hnext : Matches json (s.executed cmd) (t.executed cmd) := ⟨hcontents, hadv.index, hadv.dedup⟩
  cases hs : s.cached cmd with
  | none =>
    cases ht : t.cached cmd with
    | none =>
      rw [apply_of_uncached hs, apply_of_uncached ht, ← hreply]
      refine ⟨rfl, ?_⟩
      dsimp only
      split_ifs
      · exact hnext.record cmd _
      · exact hnext
    | some result =>
      rw [hs, ht] at hcached
      cases hcached
  | some result =>
    cases ht : t.cached cmd with
    | none =>
      rw [hs, ht] at hcached
      cases hcached
    | some result' =>
      rw [hs, ht] at hcached
      rw [apply_of_cached hs, apply_of_cached ht]
      exact ⟨some.inj hcached, hadv⟩

theorem Matches.run (h : Matches json s t) (log : List KvCommand) :
    (s.run log).2.map json.marshal = (t.run log).2.map json.marshal ∧
      Matches json (s.run log).1 (t.run log).1 := by
  induction log generalizing s t with
  | nil => exact ⟨rfl, h⟩
  | cons cmd log ih =>
    obtain ⟨hreply, hnext⟩ := h.apply cmd
    obtain ⟨hreplies, hlast⟩ := ih hnext
    simp only [KVStore.run, map_cons]
    exact ⟨by rw [hreply, hreplies], hlast⟩

theorem drop_run (s : KVStore) (log : List KvCommand) (cut : ℕ) :
    (s.run log).2.drop cut = ((s.run (log.take cut)).1.run (log.drop cut)).2 := by
  induction log generalizing s cut with
  | nil => simp [run]
  | cons cmd log ih =>
    cases cut with
    | zero => rfl
    | succ cut => exact ih _ cut

theorem matches_restore (hs : Keyed s.data) (other : KVStore) {bytes : Bytes}
    (h : s.snapshot.Streams json bytes) :
    (other.restore json bytes).2 = .ok () ∧ Matches json (other.restore json bytes).1 s := by
  obtain ⟨data, dedup, heq, hdata, hdedup⟩ := restore_stream hs other h
  rw [heq]
  refine ⟨rfl, ⟨fun key ↦ ?_, rfl, rfl⟩, rfl, fun id ↦ ?_⟩
  · exact congrArg (Option.map _) (hdata key)
  · change (dedup.lookup id).map json.view = (s.dedupTable.lookup id).map json.view
    rw [hdedup, Option.map_map]
    congr 1
    funext e
    exact json.view_reread e

/-- A store that is restored from the snapshot of a prefix of the log goes on as the store that
applies all of it. -/
theorem replay_restored (json : Json) (log : List KvCommand) (cut : ℕ) (other : KVStore)
    {bytes : Bytes} (h : (new.run (log.take cut)).1.snapshot.Streams json bytes) :
    (other.restore json bytes).2 = .ok () ∧
      (((other.restore json bytes).1.run (log.drop cut)).2.map json.marshal =
        ((new.run log).2.drop cut).map json.marshal) ∧
      Matches json ((other.restore json bytes).1.run (log.drop cut)).1 (new.run log).1 := by
  have hkeyed := (sound_new.run (log.take cut)).keyed
  obtain ⟨hok, hrestored⟩ := matches_restore hkeyed other h
  obtain ⟨hreplies, hlast⟩ := hrestored.run (log.drop cut)
  have hrun := run_append new (log.take cut) (log.drop cut)
  rw [take_append_drop] at hrun
  refine ⟨hok, ?_, ?_⟩
  · rw [hreplies, drop_run]
  · rw [hrun]
    exact hlast

def textJson : Json where
  marshal
    | .kv ⟨.plain text, _, _⟩ => text
    | _ => []
  unmarshal := fun bytes ↦ .ok (.plain bytes)
  marshal_unmarshal _ := rfl
  envelope _ := none
  legacy _ := none

def retriedSets : List KvCommand :=
  [encodeCommandWithID .set (ascii "a") (ascii "1") (ascii "c") 1,
    encodeCommandWithID .set (ascii "b") (ascii "2") (ascii "c") 2,
    encodeCommandWithID .set (ascii "b") (ascii "3") (ascii "c") 2]

theorem replay_retriedSets :
    let s := (new.run (retriedSets.take 2)).1
    let bytes := writeSnapshotStream textJson s.revision s.index s.applyTimeMs
      s.data.entries.reverse s.dedupTable.entries
    let restored := (new.run retriedSets).1.restore textJson bytes
    ((restored.1.run (retriedSets.drop 2)).2.map textJson.marshal = [ascii "2"]) ∧
      restored.2 = .ok () ∧
      ((restored.1.run (retriedSets.drop 2)).2.map textJson.marshal =
        ((new.run retriedSets).2.drop 2).map textJson.marshal) ∧
      Matches textJson (restored.1.run (retriedSets.drop 2)).1 (new.run retriedSets).1 := by
  have hfits : (new.run (retriedSets.take 2)).1.snapshot.Fits textJson := by
    constructor <;> decide +kernel
  refine ⟨by decide +kernel, ?_⟩
  exact replay_restored textJson retriedSets 2 _ ⟨hfits, _, _, reverse_perm _, .refl _, rfl⟩

end KVStore

end RaftConsensus.Kv
