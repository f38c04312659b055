import RaftConsensus.Maps
import RaftConsensus.Moves

namespace RaftConsensus

open List

variable {σ : Type} {R : Rules} {L : Warrant} {inp : Input}

inductive Path (R : Rules) (L : Warrant) (inp : Input) (c : Core) : List Effect → Core → Prop
  | refl : Path R L inp c [] c
  | tail {out o : List Effect} {c' c'' : Core} (h : Path R L inp c out c')
      (hm : Move R L inp c' o c'') : Path R L inp c (out ++ o) c''

namespace Path

theorem one {c c' : Core} {out : List Effect} (h : Move R L inp c out c') :
    Path R L inp c out c' := by
  simpa only [nil_append] using Path.refl.tail h

theorem trans {c c' c'' : Core} {out out' : List Effect} (h : Path R L inp c out c')
    (h' : Path R L inp c' out' c'') : Path R L inp c (out ++ out') c'' := by
  induction h' with
  | refl => simpa only [append_nil] using h
  | tail _ hm ih => simpa only [append_assoc] using ih.tail hm

end Path

/-- A stretch of code leads from `r` to `r'` along moves, and after each of its durable
writes the disk is the one some moves lead to. -/
structure Does (R : Rules) (L : Warrant) (inp : Input) (r r' : Raft σ) : Prop where
  path : ∃ out, r'.outbox = r.outbox ++ out ∧ Path R L inp r.core out r'.core
  torn : ∀ x ∈ r'.journal, x ∈ r.journal ∨
    ∃ out c, Path R L inp r.core out c ∧ x = (c.disk, r.outbox ++ out)

namespace Does

variable {a b c : Raft σ}

theorem one {out : List Effect} (hm : Move R L inp a.core out b.core)
    (ho : b.outbox = a.outbox ++ out) (hj : b.journal = a.journal) : Does R L inp a b where
  path := ⟨out, ho, .one hm⟩
  torn _ hx := .inl (hj ▸ hx)

theorem move (hm : Move R L inp a.core [] b.core) (ho : b.outbox = a.outbox)
    (hj : b.journal = a.journal) : Does R L inp a b := one hm (by rw [ho, append_nil]) hj

theorem same (hc : b.core = a.core) (ho : b.outbox = a.outbox) (hj : b.journal = a.journal) :
    Does R L inp a b where
  path := ⟨[], by rw [ho, append_nil], hc ▸ .refl⟩
  torn _ hx := .inl (hj ▸ hx)

theorem refl (a : Raft σ) : Does R L inp a a := same rfl rfl rfl

theorem write (hm : Move R L inp a.core [] b.core) (ho : b.outbox = a.outbox)
    (hj : b.journal = a.journal ++ [(b.disk, b.outbox)]) : Does R L inp a b where
  path := ⟨[], by rw [ho, append_nil], .one hm⟩
  torn x hx := by
    rw [hj, mem_append, mem_singleton] at hx
    rcases hx with hx | rfl
    · exact .inl hx
    · exact .inr ⟨[], b.core, .one hm, by rw [ho, append_nil]; rfl⟩

theorem trans (h : Does R L inp a b) (h' : Does R L inp b c) : Does R L inp a c := by
  obtain ⟨out, ho, hp⟩ := h.path
  obtain ⟨out', ho', hp'⟩ := h'.path
  refine ⟨⟨out ++ out', by rw [ho', ho, append_assoc], hp.trans hp'⟩, fun x hx ↦ ?_⟩
  rcases h'.torn x hx with hx | ⟨o, d, hc, rfl⟩
  · exact h.torn x hx
  · exact .inr ⟨out ++ o, d, hp.trans hc, by rw [ho, append_assoc]⟩

theorem emit {e : Effect} (hm : Move R L inp a.core [e] a.core) : Does R L inp a (a.emit e) :=
  one hm rfl rfl

theorem foldl {α : Type} {f : Raft σ → α → Raft σ} {l : List α} (I : Raft σ → Prop)
    (h : ∀ r x, x ∈ l → I r → Does R L inp r (f r x) ∧ I (f r x)) (hI : I a) :
    Does R L inp a (l.foldl f a) ∧ I (l.foldl f a) := by
  induction l generalizing a with
  | nil => exact ⟨refl a, hI⟩
  | cons x l ih =>
    obtain ⟨hd, hI'⟩ := h a x mem_cons_self hI
    obtain ⟨hd', hI''⟩ := ih (fun a y hy ↦ h a y (mem_cons_of_mem x hy)) hI'
    exact ⟨hd.trans hd', hI''⟩

theorem ite {p : Prop} [Decidable p] (hb : p → Does R L inp a b)
    (hc : ¬ p → Does R L inp a c) : Does R L inp a (if p then b else c) := by
  split
  · exact hb ‹_›
  · exact hc ‹_›

end Does

/-- Only silent notes are handed out, and the protocol state stays as it is. -/
structure Quiet (r r' : Raft σ) : Prop where
  core : r'.core = r.core
  outbox : ∃ notes, (∀ x ∈ notes, ∃ e : Event, e.silent = true ∧ x = .note e) ∧
    r'.outbox = r.outbox ++ notes
  journal : r'.journal = r.journal

namespace Quiet

variable {a b c : Raft σ}

theorem same (hc : b.core = a.core) (ho : b.outbox = a.outbox) (hj : b.journal = a.journal) :
    Quiet a b := ⟨hc, ⟨[], by simp, by rw [ho, append_nil]⟩, hj⟩

theorem refl (a : Raft σ) : Quiet a a := same rfl rfl rfl

theorem trans (h : Quiet a b) (h' : Quiet b c) : Quiet a c := by
  obtain ⟨notes, hn, ho⟩ := h.outbox
  obtain ⟨notes', hn', ho'⟩ := h'.outbox
  refine ⟨h'.core.trans h.core, ⟨notes ++ notes', ?_, ?_⟩, h'.journal.trans h.journal⟩
  · intro x hx
    rcases mem_append.mp hx with hx | hx
    · exact hn x hx
    · exact hn' x hx
  · rw [ho', ho, append_assoc]

theorem note {e : Event} (he : e.silent = true) : Quiet a (a.emit (.note e)) :=
  ⟨rfl, ⟨[.note e], by simpa using he, rfl⟩, rfl⟩

theorem ite {p : Prop} [Decidable p] (hb : p → Quiet a b) (hc : ¬ p → Quiet a c) :
    Quiet a (if p then b else c) := by
  split
  · exact hb ‹_›
  · exact hc ‹_›

theorem does (h : Quiet a b) : Does R L inp a b := by
  obtain ⟨notes, hn, ho⟩ := h.outbox
  refine ⟨⟨notes, ho, ?_⟩, fun x hx ↦ .inl (h.journal ▸ hx)⟩
  rw [h.core]
  clear ho
  induction notes using reverseRecOn with
  | nil => exact .refl
  | append_singleton notes x ih =>
    obtain ⟨e, he, rfl⟩ := hn x (by simp)
    exact (ih fun y hy ↦ hn y (by simp [hy])).tail (.note e he)

end Quiet

section Futures

variable {k i : ℕ} {futures : AList (fun _ : ℕ ↦ ℕ)}

theorem lookup_settle : (settle k futures).lookup i = if k < i then none else futures.lookup i := by
  rw [settle, ← foldl_map (f := Sigma.fst) (g := fun m k ↦ AList.erase k m),
    Maps.lookup_foldl_erase_keys]
  by_cases hk : k < i
  · rw [if_pos hk]
    split
    · rfl
    · rename_i hi
      rw [AList.lookup_eq_none]
      intro hmem
      obtain ⟨f, hf, hfi⟩ := mem_map.mp (AList.mem_keys.mp hmem)
      exact hi (mem_map.mpr ⟨f, mem_filter.mpr ⟨hf, by simpa [hfi] using hk⟩, hfi⟩)
  · rw [if_neg hk, if_neg]
    intro hi
    obtain ⟨f, hf, rfl⟩ := mem_map.mp hi
    exact hk (by simpa using (mem_filter.mp hf).2)

theorem settled_settle {c : Core} (futures : AList (fun _ : ℕ ↦ ℕ))
    (h : c.pendingFutures = settle c.commitIndex futures) : c.Settled := by
  intro i hi
  rw [← AList.lookup_isSome, h, lookup_settle] at hi
  split at hi
  · cases hi
  · omega

end Futures

namespace Raft

variable (r : Raft σ)

theorem foldl_fail (l : List (Σ _ : ℕ, ℕ)) : l.foldl (fun r f ↦
      if r.commitIndex < f.1 then
        { r.respond f.2 (some .leadershipLost) 0 0 [] with
          pendingFutures := r.pendingFutures.erase f.1 }
      else r) r =
    { r with
      pendingFutures := (l.filter (fun f ↦ r.commitIndex < f.1)).foldl (fun m f ↦ m.erase f.1)
        r.pendingFutures
      outbox := r.outbox ++ (l.filter (fun f ↦ r.commitIndex < f.1)).map fun f ↦
        .note (.responded f.2 (some .leadershipLost) 0 0 []) } := by
  induction l generalizing r with
  | nil => simp
  | cons f l ih =>
    rw [foldl_cons]
    split
    · rename_i h
      have hf : (f :: l).filter (fun f ↦ r.commitIndex < f.1) =
          f :: l.filter (fun f ↦ r.commitIndex < f.1) := filter_cons_of_pos (by simpa using h)
      rw [ih, hf, map_cons, append_cons]
      rfl
    · rename_i h
      rw [ih, filter_cons_of_neg (by simpa using h)]

theorem failPendingFutures_eq : r.failPendingFutures = { r with
    pendingFutures := settle r.commitIndex r.pendingFutures
    outbox := r.outbox ++ (overdue r.commitIndex r.pendingFutures).map fun f ↦
      .note (.responded f.2 (some .leadershipLost) 0 0 []) } :=
  r.foldl_fail r.pendingFutures.entries

theorem core_failPendingFutures : r.failPendingFutures.core =
    { r.core with pendingFutures := settle r.commitIndex r.pendingFutures } := by
  rw [failPendingFutures_eq]
  rfl

theorem does_failPendingFutures : Does R L inp r r.failPendingFutures := by
  rw [failPendingFutures_eq]
  exact .one .fail rfl rfl

theorem quiet_finishTransfer (err : Option RaftError) : Quiet r (r.finishTransfer err) := by
  unfold finishTransfer
  split
  · exact .refl r
  · exact Quiet.trans (b := { r with leadershipTransfer := none }) (.same rfl rfl rfl) (.note rfl)

theorem does_failAll (err : RaftError) {batch : List (ℕ × Bytes)}
    (h : ∀ p ∈ batch, L.refuse p.1) : Does R L inp r (r.failAll err batch) :=
  (Does.foldl (fun _ ↦ True) (fun _ p hp _ ↦ ⟨.emit (.refuse p.1 err (h p hp)), trivial⟩) trivial).1

theorem core_failAll (err : RaftError) (batch : List (ℕ × Bytes)) :
    (r.failAll err batch).core = r.core := by
  unfold failAll
  induction batch generalizing r with
  | nil => rfl
  | cons p batch ih => exact ih (r.respond p.1 (some err) 0 0 [])

theorem does_stopFatal : Does R L inp r r.stopFatal := by
  unfold stopFatal
  refine .ite (fun _ ↦ .same rfl rfl rfl) fun _ ↦ ?_
  exact .move (.setState .shutdown (by simp) nofun nofun) rfl rfl

/-- A crash in the middle leaves the new term with the old vote. -/
theorem does_adoptTerm {t : ℕ} (h : r.term < t) (hb : inp.Brings t)
    (hf : r.core.Settled ∨ r.state = .candidate) : Does R L inp r (r.adoptTerm t) := by
  have hm (who : Option ServerID) : Move R L inp r.core [] (r.core.raise t who) :=
    .raise t who h (.inl hb) (hf.imp_right .inl)
  refine ⟨⟨[], by simp [adoptTerm, persistTermAndVotedFor, checkpoint], .one (hm _)⟩, fun x hx ↦ ?_⟩
  simp only [adoptTerm, persistTermAndVotedFor, checkpoint, append_assoc, mem_append,
    mem_cons, not_mem_nil, or_false] at hx
  rcases hx with hx | rfl | rfl
  · exact .inl hx
  · exact .inr ⟨[], r.core.raise t r.stable.votedFor, .one (hm _), by simp; rfl⟩
  · exact .inr ⟨[], r.core.raise t (some ""), .one (hm _), by simp; rfl⟩

end Raft

end RaftConsensus
