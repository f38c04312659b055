import RaftConsensus.Wal.Files

namespace RaftConsensus

open LogRecord List AList

namespace FileWal

section Crash

variable {c : EntryCodec} {fw : FileWal} {w : Wal} {log : List LogEntry} {s : ℕ}
  {seg : Wal.Segment} {segments : List Wal.Segment} {torn : LogRecord} {k : ℕ}

/-- What is on disk when a crash leaves the first `k` bytes of one more record. -/
def crash (fw : FileWal) (torn : LogRecord) (k : ℕ) : List SegmentFile :=
  match fw.segments.getLast? with
  | none => []
  | some cur =>
    fw.segments.dropLast ++ [{ cur with content := cur.content ++ torn.encodeRecord.take k }]

/-- The crash leaves nothing, or enough for a header and no record inside of it. -/
def Recoverable (torn : LogRecord) (k : ℕ) : Prop :=
  k = 0 ∨ recordHeaderSize ≤ k ∧ NoRecordInside (torn.encodeRecord.take k)

variable {fm : FileIndex} {m : AList (fun _ : ℕ ↦ Wal.IndexEntry)} {older : List Wal.Segment}

theorem placed_rebuildIndex
    (hseg : seg ∈ segments) (hidx : ∀ e ∈ seg.records, e.index < 2 ^ 64) (pre : List LogEntry)
    {rs : List LogEntry} (hrs : seg.records = pre ++ rs)
    (h : ∀ i, Placed c segments (fm.lookup i) (m.lookup i)) (i : ℕ) :
    Placed c segments
      ((addRecords seg.baseIndex (encodeAll (pre.map c.toRecord)).length
        (rs.map c.toRecord) fm).lookup i)
      ((Wal.rebuildIndex seg.baseIndex pre.length rs m).lookup i) := by
  induction rs generalizing pre fm m with
  | nil => exact h i
  | cons e rs ih =>
    have hnext := @ih
      (fm.insert (c.toRecord e).index.toNat
      ⟨seg.baseIndex, (encodeAll (pre.map c.toRecord)).length⟩)
      (m.insert e.index ⟨seg.baseIndex, pre.length⟩) (pre ++ [e]) (by rw [hrs, append_assoc]; rfl)
    rw [length_append, map_append, encodeAll_append, length_append] at hnext
    rw [map_cons, addRecords, Wal.rebuildIndex]
    have hone : encodeAll ([e].map c.toRecord) = (c.toRecord e).encodeRecord := append_nil _
    rw [hone] at hnext
    refine hnext fun j ↦ ?_
    rw [c.index_toRecord e (hidx e (hrs ▸ mem_append_right pre mem_cons_self))]
    by_cases hj : j = e.index
    · subst hj
      rw [lookup_insert, lookup_insert]
      have hplaced : Placed c segments _ (some ⟨seg.baseIndex, pre.length⟩) :=
        .some hseg (by rw [hrs, length_append]; omega)
      rwa [show seg.records.take pre.length = pre by rw [hrs, take_left]] at hplaced
    · rw [lookup_insert_ne hj, lookup_insert_ne hj]
      exact h j

theorem rebuildIndex_file {tail : Bytes} (isLast : Bool) (fm : FileIndex)
    (hfit : ∀ e ∈ seg.records, (c.toRecord e).Fits)
    (htail : tail = [] ∨ isLast = true ∧ ∃ (torn : LogRecord) (k : ℕ), torn.Fits ∧
      k < torn.encodeRecord.length ∧ Recoverable torn k ∧ tail = torn.encodeRecord.take k) :
    rebuildIndex seg.baseIndex isLast ((file c seg).content ++ tail)
        (((file c seg).content ++ tail).length + 1) 0 fm =
      .ok (addRecords seg.baseIndex 0 (seg.records.map c.toRecord) fm, (file c seg).content) := by
  have hle := length_le_encodeAll (seg.records.map c.toRecord)
  obtain ⟨n, hn⟩ : ∃ n, ((file c seg).content ++ tail).length + 1 =
      (seg.records.map c.toRecord).length + (n + 1) := by
    refine ⟨((file c seg).content ++ tail).length - (seg.records.map c.toRecord).length, ?_⟩
    rw [length_append]
    change _ ≤ (file c seg).content.length at hle
    omega
  have hscan := rebuildIndex_records seg.baseIndex isLast fm
    (by simpa using hfit : ∀ r ∈ seg.records.map c.toRecord, r.Fits) [] tail (n + 1)
  rw [nil_append, length_nil, Nat.zero_add] at hscan
  rw [hn]
  refine hscan.trans ?_
  rcases htail with rfl | ⟨rfl, torn, k, htorn, hk, hrec, rfl⟩
  · rw [rebuildIndex, append_nil, drop_length, if_pos (by decide)]
    rfl
  · rw [rebuildIndex_torn htorn hk]
    rcases hrec with rfl | ⟨hh, hinside⟩
    · rw [if_pos (by decide), take_zero, append_nil]
      rfl
    · rw [if_neg (by omega), (probeForward_eq_false_iff _ _).mpr hinside, if_neg Bool.false_ne_true]
      rfl

theorem placed_foldl (hsub : older ⊆ segments)
    (hidx : ∀ seg ∈ older, ∀ e ∈ seg.records, e.index < 2 ^ 64)
    (h : ∀ i, Placed c segments (fm.lookup i) (m.lookup i)) (i : ℕ) :
    Placed c segments
      ((older.foldl (fun fm seg ↦ addRecords seg.baseIndex 0 (seg.records.map c.toRecord) fm)
        fm).lookup i)
      ((older.foldl (fun m seg ↦ Wal.rebuildIndex seg.baseIndex 0 seg.records m) m).lookup i) := by
  induction older generalizing fm m with
  | nil => exact h i
  | cons seg older ih =>
    refine ih (fun x hx ↦ hsub (mem_cons_of_mem seg hx))
      (fun x hx ↦ hidx x (mem_cons_of_mem seg hx)) fun j ↦ ?_
    exact placed_rebuildIndex (hsub mem_cons_self) (hidx seg mem_cons_self) []
      rfl h j

theorem rebuildAll_files {cur : Wal.Segment} (fm : FileIndex)
    (hfit : ∀ seg ∈ older ++ [cur], ∀ e ∈ seg.records, (c.toRecord e).Fits) (htorn : torn.Fits)
    (hk : k < torn.encodeRecord.length) (hrec : Recoverable torn k) :
    rebuildAll (older.map (file c) ++
        [{ file c cur with content := (file c cur).content ++ torn.encodeRecord.take k }]) fm =
      .ok ((older ++ [cur]).foldl
        (fun fm seg ↦ addRecords seg.baseIndex 0 (seg.records.map c.toRecord) fm) fm,
        (older ++ [cur]).map (file c)) := by
  induction older generalizing fm with
  | nil =>
    have hscan := rebuildIndex_file true fm (hfit cur (mem_singleton_self _))
      (.inr ⟨rfl, torn, k, htorn, hk, hrec, rfl⟩)
    rw [map_nil, nil_append, rebuildAll, decide_eq_true rfl]
    dsimp only
    rw [show (file c cur).baseIndex = cur.baseIndex from rfl, hscan]
    rfl
  | cons seg older ih =>
    have hscan := rebuildIndex_file false fm (hfit seg mem_cons_self) (.inl rfl)
    rw [append_nil] at hscan
    rw [map_cons, cons_append, rebuildAll, decide_eq_false (by simp)]
    rw [show (file c seg).baseIndex = seg.baseIndex from rfl, hscan]
    dsimp only
    rw [ih _ fun x hx ↦ hfit x (mem_cons_of_mem seg hx)]
    rfl

theorem keys_foldl_max {fm : AList (fun _ : ℕ ↦ Wal.IndexEntry)} (h : ∀ i, i ∈ fm ↔ i ∈ m) :
    fm.keys.foldl max 0 = m.keys.foldl max 0 := by
  have hle {a b : AList (fun _ : ℕ ↦ Wal.IndexEntry)} (hab : ∀ i, i ∈ a → i ∈ b) :
      a.keys.foldl max 0 ≤ b.keys.foldl max 0 := by
    rcases foldl_max_mem (l := a.keys) (m := 0) with h0 | hm
    · omega
    · exact le_foldl_max.2 _ (mem_keys.mp (hab _ (mem_keys.mpr hm)))
  exact le_antisymm (hle fun i ↦ (h i).mp) (hle fun i ↦ (h i).mpr)

theorem Placed.isSome_eq {a b : Option Wal.IndexEntry} (h : Placed c segments a b) :
    a.isSome = b.isSome := by
  cases h <;> rfl

/-- A log is read back after every crash that is recoverable. -/
theorem newWAL_crash (h : fw.segments = w.segments.map (file c)) (hh : w.Holds log s)
    (hw : Writable c log) (htorn : torn.Fits) (hk : k < torn.encodeRecord.length)
    (hrec : Recoverable torn k) :
    ∃ fw', newWAL (fw.crash torn k) = .ok fw' ∧ Represents c fw' w.rebuilt := by
  obtain ⟨cur, hcur, hsegs⟩ := hh.exists_current
  have hfcur : fw.segments.getLast? = some (file c cur) := by
    rw [h, getLast?_map, hcur]
    rfl
  have hlog {seg : Wal.Segment} {e : LogEntry} (hseg : seg ∈ w.segments) (he : e ∈ seg.records) :
      e ∈ log := mem_of_getElem? (hh.record seg hseg e he).2.2
  have hfit : ∀ seg ∈ w.segments.dropLast ++ [cur], ∀ e ∈ seg.records, (c.toRecord e).Fits :=
    fun seg hseg e he ↦ hw.fits e (hlog (hsegs ▸ hseg) he)
  have hidx : ∀ seg ∈ w.segments, ∀ e ∈ seg.records, e.index < 2 ^ 64 := by
    intro seg hseg e he
    have := hh.index_le hseg he
    have := hw.length_lt
    unfold maxUint64 at this
    omega
  have hfiles : fw.crash torn k = w.segments.dropLast.map (file c) ++
      [{ file c cur with content := (file c cur).content ++ torn.encodeRecord.take k }] := by
    unfold crash
    rw [hfcur, h, map_dropLast]
  have hsort : (fw.crash torn k).insertionSort (fun a b ↦ a.baseIndex ≤ b.baseIndex) =
      fw.crash torn k := by
    refine List.Pairwise.insertionSort_eq ?_
    have hb := hh.before
    rw [hsegs] at hb
    obtain ⟨hold, -, hlast⟩ := pairwise_append.mp hb
    rw [hfiles]
    refine pairwise_append.mpr ⟨?_, pairwise_singleton _ _, fun a ha b hb ↦ ?_⟩
    · exact pairwise_map.mpr (hold.imp fun hab ↦ hab.1.le)
    · obtain ⟨x, hx, rfl⟩ := mem_map.mp ha
      cases mem_singleton.mp hb
      exact (hlast x hx cur (mem_singleton_self _)).1.le
  have hall := rebuildAll_files ∅ hfit htorn hk hrec
  rw [← hfiles, ← hsegs] at hall
  let fm := w.segments.foldl
    (fun fm seg ↦ addRecords seg.baseIndex 0 (seg.records.map c.toRecord) fm) ∅
  have hplaced : ∀ i, Placed c w.segments (fm.lookup i) (w.rebuilt.index.lookup i) :=
    placed_foldl (List.Subset.refl _) hidx fun i ↦ .none
  have hmax : fm.keys.foldl max 0 = w.rebuilt.lastIndex := by
    refine keys_foldl_max fun i ↦ ?_
    rw [← lookup_isSome, ← lookup_isSome, (hplaced i).isSome_eq]
    rfl
  have hrep : Represents c ⟨w.segments.map (file c), fm, fm.keys.foldl max 0⟩ w.rebuilt :=
    ⟨rfl, hmax, hplaced⟩
  refine ⟨_, ?_, hrep⟩
  unfold newWAL
  rw [if_neg (by rw [hfiles]; simp), hsort, hall]
  dsimp only
  split_ifs with h0
  · rfl
  · obtain ⟨e, he, -⟩ := hh.rebuilt.get_of_mem (hh.rebuilt.last_mem (hmax ▸ h0))
    have hget := hrep.get hh.rebuilt hw (fm.keys.foldl max 0)
    rw [show w.rebuilt.get (fm.keys.foldl max 0) = _ from hmax ▸ he] at hget
    generalize FileWal.get _ _ = g at hget ⊢
    cases g with
    | error e => cases hget
    | ok r => rfl

theorem newWAL_files (hh : w.Holds log s) (hw : Writable c log) :
    ∃ fw, newWAL (w.segments.map (file c)) = .ok fw ∧ Represents c fw w.rebuilt := by
  obtain ⟨cur, hcur, hsegs⟩ := hh.exists_current
  let closed : FileWal := ⟨w.segments.map (file c), ∅, 0⟩
  have hzero : closed.crash ⟨0, 0, [], 0⟩ 0 = w.segments.map (file c) := by
    unfold crash
    rw [getLast?_map, hcur]
    dsimp only [Option.map]
    rw [take_zero, append_nil, ← map_dropLast]
    nth_rewrite 2 [hsegs]
    rw [map_append]
    rfl
  obtain ⟨fw, hnew, hrep⟩ := newWAL_crash (rfl : closed.segments = _) hh hw
    (by decide : LogRecord.Fits ⟨0, 0, [], 0⟩) (by decide : 0 < _) (.inl rfl)
  exact ⟨fw, hzero ▸ hnew, hrep⟩

end Crash

section Run

variable (c : EntryCodec) {fw : FileWal} {w : Wal} {log : List LogEntry} {s : ℕ}

inductive Op
  | append (entries : List LogEntry)
  | crash (torn : LogRecord) (k : ℕ)

def step (fw : FileWal) : Op → Except WalError FileWal
  | .append entries => .ok (entries.foldl (fun fw e ↦ fw.appendEntry (c.toRecord e)) fw)
  | .crash torn k => newWAL (fw.crash torn k)

def steps (fw : FileWal) : List Op → Except WalError FileWal
  | [] => .ok fw
  | op :: ops =>
    match fw.step c op with
    | .error e => .error e
    | .ok fw => fw.steps ops

def acknowledged : List Op → List LogEntry
  | [] => []
  | .append entries :: ops => entries ++ acknowledged ops
  | .crash _ _ :: ops => acknowledged ops

def Allowed (log : List LogEntry) : Op → Prop
  | .append entries =>
    entries.map LogEntry.index = range' (log.length + 1) entries.length ∧
      log.length + entries.length < maxUint64 ∧ ∀ e ∈ entries, (c.toRecord e).Fits
  | .crash torn k => torn.Fits ∧ k < torn.encodeRecord.length ∧ Recoverable torn k

def AllowedRun (log : List LogEntry) : List Op → Prop
  | [] => True
  | op :: ops => Allowed c log op ∧ AllowedRun (log ++ acknowledged [op]) ops

variable {c}

theorem Writable.append (hw : Writable c log) {entries : List LogEntry}
    (hlen : log.length + entries.length < maxUint64) (hfit : ∀ e ∈ entries, (c.toRecord e).Fits) :
    Writable c (log ++ entries) := by
  refine ⟨by rwa [length_append], fun e he ↦ ?_⟩
  rcases mem_append.mp he with he | he
  · exact hw.fits e he
  · exact hfit e he

theorem Represents.append {entries : List LogEntry} (h : Represents c fw w) (hh : w.Holds log s)
    (hlen : log.length + entries.length < maxUint64)
    (hi : entries.map LogEntry.index = range' (log.length + 1) entries.length) :
    ∃ w', Represents c (entries.foldl (fun fw e ↦ fw.appendEntry (c.toRecord e)) fw) w' ∧
      w'.Holds (log ++ entries) s := by
  induction entries generalizing fw w log with
  | nil => exact ⟨w, h, by rwa [append_nil]⟩
  | cons e rest ih =>
    rw [map_cons, length_cons, range'_succ, List.cons.injEq] at hi
    have he : e.index < 2 ^ 64 := by
      unfold maxUint64 at hlen
      rw [length_cons] at hlen
      omega
    obtain ⟨w', hw', hh'⟩ := ih (h.appendEntry hh he) (hh.appendEntry hi.1)
      (by simp only [length_append, length_cons, length_nil] at hlen ⊢; omega)
      (by simpa using hi.2)
    exact ⟨w', hw', by rwa [append_assoc] at hh'⟩

/-- One step of an allowed run succeeds and keeps all that was acknowledged. -/
theorem Represents.step {op : Op} (h : Represents c fw w) (hh : w.Holds log s) (hw : Writable c log)
    (ho : Allowed c log op) : ∃ fw' w', fw.step c op = .ok fw' ∧ Represents c fw' w' ∧
      w'.Holds (log ++ acknowledged [op]) s ∧ Writable c (log ++ acknowledged [op]) := by
  cases op with
  | append entries =>
    obtain ⟨hi, hlen, hfit⟩ := ho
    obtain ⟨w', hw', hh'⟩ := h.append hh hlen hi
    rw [acknowledged, acknowledged, append_nil]
    exact ⟨_, w', rfl, hw', hh', hw.append hlen hfit⟩
  | crash torn k =>
    obtain ⟨htorn, hk, hrec⟩ := ho
    obtain ⟨fw', hnew, hrep⟩ := newWAL_crash h.segments hh hw htorn hk hrec
    rw [acknowledged, acknowledged, append_nil]
    exact ⟨fw', w.rebuilt, hnew, hrep, hh.rebuilt, hw⟩

theorem Represents.steps {ops : List Op} (h : Represents c fw w) (hh : w.Holds log s)
    (hw : Writable c log) (ho : AllowedRun c log ops) :
    ∃ fw' w', fw.steps c ops = .ok fw' ∧ Represents c fw' w' ∧
      w'.Holds (log ++ acknowledged ops) s ∧ Writable c (log ++ acknowledged ops) := by
  induction ops generalizing fw w log with
  | nil => exact ⟨fw, w, rfl, h, by rwa [acknowledged, append_nil],
      by rwa [acknowledged, append_nil]⟩
  | cons op ops ih =>
    obtain ⟨fw₁, w₁, hstep, h₁, hh₁, hw₁⟩ := h.step hh hw ho.1
    obtain ⟨fw', w', hsteps, h', hh', hw'⟩ := ih h₁ hh₁ hw₁ ho.2
    have hack : acknowledged [op] ++ acknowledged ops = acknowledged (op :: ops) := by
      cases op <;> simp [acknowledged]
    rw [append_assoc, hack] at hh' hw'
    refine ⟨fw', w', ?_, h', hh', hw'⟩
    rw [FileWal.steps, hstep]
    exact hsteps

/-- In a run whose crashes are all recoverable, the log can be opened once more at every point and
serves all entries that were acknowledged before and after the crashes. -/
theorem newWAL_after_crashes {ops : List Op} (h : Represents c fw w) (hh : w.Holds log s)
    (hw : Writable c log) (ho : AllowedRun c log ops) :
    ∃ fw' fw'', fw.steps c ops = .ok fw' ∧ newWAL fw'.segments = .ok fw'' ∧
      ∀ i, s < i → (fw''.get i).toOption = ((log ++ acknowledged ops)[i - 1]?).map c.toRecord := by
  obtain ⟨fw', w', hsteps, h', hh', hw'⟩ := h.steps hh hw ho
  obtain ⟨fw'', hnew, hrep⟩ := newWAL_files hh' hw'
  refine ⟨fw', fw'', hsteps, h'.segments ▸ hnew, fun i hi ↦ ?_⟩
  rw [hrep.get hh'.rebuilt hw', hh'.rebuilt.get_eq hi]

def commandCodec : EntryCodec where
  toRecord e :=
    { term := UInt64.ofNat e.term
      index := UInt64.ofNat e.index
      data := match e.payload with
        | .normal data => data
        | .configuration _ => List.replicate e.size 0
      recordTy := match e.payload with
        | .normal _ => 0
        | .configuration _ => 1 }
  index_toRecord e he := UInt64.toNat_ofNat_of_lt he
  length_data e := by
    obtain ⟨term, index, payload⟩ := e
    cases payload with
    | normal data => rfl
    | configuration data => exact length_replicate

def fresh : FileWal := ⟨[⟨0, []⟩], ∅, 0⟩

theorem represents_fresh : Represents commandCodec fresh .empty := ⟨rfl, rfl, fun _ ↦ .none⟩

def entryOne : LogEntry := ⟨1, 1, .normal [97]⟩

def entryTwo : LogEntry := ⟨1, 2, .normal [98]⟩

theorem newWAL_after_long_cut : AllowedRun commandCodec []
      [.append [entryOne], .crash secondRecord 25, .append [entryTwo]] ∧
    ∃ fw' fw'', fresh.steps commandCodec
        [.append [entryOne], .crash secondRecord 25, .append [entryTwo]] = .ok fw' ∧
      newWAL fw'.segments = .ok fw'' ∧ ∀ i, 0 < i → (fw''.get i).toOption =
        (([] ++ acknowledged [.append [entryOne], .crash secondRecord 25,
          .append [entryTwo]])[i - 1]?).map commandCodec.toRecord := by
  have hrun : AllowedRun commandCodec []
      [.append [entryOne], .crash secondRecord 25, .append [entryTwo]] := by
    refine ⟨⟨rfl, by decide, by decide⟩, ⟨by decide, by decide, .inr ⟨le_rfl, fun pos hpos ↦ ?_⟩⟩,
      ⟨rfl, by decide, by decide⟩, trivial⟩
    refine if_pos ?_
    rw [length_drop, length_take, length_encodeRecord, recordHeaderSize]
    omega
  exact ⟨hrun, newWAL_after_crashes represents_fresh .empty ⟨by decide, by simp⟩ hrun⟩

/-- A crash leaves ten bytes of a record. The log opens, an entry is acknowledged behind them, and
the log does not open again. -/
theorem newWAL_after_short_cut : newWAL [] = .ok fresh ∧ 10 < secondRecord.encodeRecord.length ∧
    ∃ fw fw', fresh.steps commandCodec [.append [entryOne], .crash secondRecord 10] = .ok fw ∧
      fw.steps commandCodec [.append [entryTwo]] = .ok fw' ∧
      newWAL fw'.segments = .error .midSegmentCorruption := by
  have hrun : (match fresh.steps commandCodec [.append [entryOne], .crash secondRecord 10] with
      | .error e => some e
      | .ok fw =>
        match fw.steps commandCodec [.append [entryTwo]] with
        | .error e => some e
        | .ok fw' =>
          match newWAL fw'.segments with
          | .error e => some e
          | .ok _ => none) = some .midSegmentCorruption := by decide +kernel
  refine ⟨rfl, by decide, ?_⟩
  cases hopen : fresh.steps commandCodec [.append [entryOne], .crash secondRecord 10] with
  | error e =>
    have hok : (fresh.steps commandCodec [.append [entryOne], .crash secondRecord 10]).isOk := by
      decide +kernel
    rw [hopen] at hok
    cases hok
  | ok fw =>
    rw [hopen] at hrun
    refine ⟨fw, _, rfl, rfl, ?_⟩
    change (match newWAL _ with
      | .error e => some e
      | .ok _ => none) = _ at hrun
    split at hrun
    · rename_i e he
      rw [he, Option.some.inj hrun]
    · cases hrun

end Run

end FileWal

end RaftConsensus
