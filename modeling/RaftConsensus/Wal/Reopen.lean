import RaftConsensus.Wal.Crash
import RaftConsensus.Scripts

namespace RaftConsensus.Wal

open List Option

variable {w w' : Wal} {log : List LogEntry} {s i lo hi : ℕ} {e : LogEntry} {seg cur : Segment}

namespace Holds

theorem record_unique (h : Holds w log s) {x y : Segment} (hx : x ∈ w.segments)
    (hy : y ∈ w.segments) {m n : ℕ} {a b : LogEntry} (ha : x.records[m]? = some a)
    (hb : y.records[n]? = some b) (hab : a.index = b.index) : x = y ∧ m = n := by
  have hax := (h.record x hx a (mem_of_getElem? ha)).1
  have hby := (h.record y hy b (mem_of_getElem? hb)).1
  rcases h.before_or hx hy with hxy | rfl | hyx
  · have := hxy.2 a (mem_of_getElem? ha)
    omega
  · refine ⟨rfl, ?_⟩
    obtain ⟨hm, rfl⟩ := List.getElem?_eq_some_iff.mp ha
    obtain ⟨hn, rfl⟩ := List.getElem?_eq_some_iff.mp hb
    have hord := pairwise_iff_getElem.mp (h.order x hx)
    rcases lt_trichotomy m n with hlt | heq | hlt
    · exact absurd hab (hord m n hm hn hlt).ne
    · exact heq
    · exact absurd hab (hord n m hn hm hlt).ne'
  · have := hyx.2 b (mem_of_getElem? hb)
    omega

theorem lookup_of_record (h : Holds w log s) (hseg : seg ∈ w.segments) {k : ℕ}
    (he : seg.records[k]? = some e) (hlive : e.index ∈ w.index) :
    w.index.lookup e.index = some ⟨seg.baseIndex, k⟩ := by
  obtain ⟨ie, hie⟩ := isSome_iff_exists.mp (AList.lookup_isSome.mpr hlive)
  obtain ⟨x, hx, hb, y, hy, hyi⟩ := h.found e.index ie hie
  obtain ⟨rfl, hk⟩ := h.record_unique hx hseg hy he hyi
  rw [hie, hb, ← hk]

end Holds

theorem Holds.truncateSegmentAt_clears (h : Holds w log s) (hseg : seg ∈ w.segments)
    (hfirst : ∀ e, seg.records.find? (lo ≤ ·.index) = some e → e.index ∈ w.index)
    (he : e ∈ (w.truncateSegmentAt seg lo).records) : e.index < lo := by
  by_contra hlo
  have hlo := not_lt.mp hlo
  have hsub : e ∈ seg.records := by
    rcases w.truncateSegmentAt_eq lo seg with ⟨heq, -⟩ | ⟨-, k, -, -, heq, -⟩
    · rwa [heq] at he
    · rw [heq] at he
      exact mem_of_mem_take he
  obtain ⟨f, hf⟩ := isSome_iff_exists.mp
    (find?_isSome.mpr ⟨e, hsub, decide_eq_true hlo⟩ :
      (seg.records.find? (lo ≤ ·.index)).isSome = true)
  have hflo : lo ≤ f.index := by simpa using find?_some hf
  obtain ⟨-, n, hn, rfl, hbelow⟩ := find?_eq_some_iff_getElem.mp hf
  have hlook := h.lookup_of_record hseg (getElem?_eq_getElem hn) (hfirst _ hf)
  rcases w.truncateSegmentAt_eq lo seg with ⟨-, hown⟩ | ⟨-, k, -, -, heq, hmin⟩
  · have := hown _ (mem_owned.mpr ⟨_, hlook, rfl⟩)
    omega
  · rw [heq] at he
    obtain ⟨m, hm, rfl⟩ := mem_iff_getElem.mp he
    rw [length_take] at hm
    rw [getElem_take] at hlo
    have hk := hmin _ n hflo hlook
    have := hbelow m (by omega)
    simp at this
    omega

def Tight (w : Wal) : Prop := ∀ seg ∈ w.segments, ∀ e ∈ seg.records, e.index ≤ w.lastIndex

theorem Tight.rebuilt (ht : w.Tight) (h : Holds w log s) : w.rebuilt.lastIndex = w.lastIndex := by
  have hmem (i : ℕ) : i ∈ w.rebuilt.index ↔ ∃ seg ∈ w.segments, ∃ e ∈ seg.records, e.index = i :=
    Holds.mem_rebuilt.trans (or_iff_right (AList.notMem_empty i))
  refine le_antisymm ?_ ?_
  · by_cases h0 : w.rebuilt.lastIndex = 0
    · omega
    · obtain ⟨seg, hseg, e, he, hei⟩ := (hmem _).mp (h.rebuilt.last_mem h0)
      exact hei ▸ ht seg hseg e he
  · by_cases h0 : w.lastIndex = 0
    · omega
    · obtain ⟨ie, hie⟩ := isSome_iff_exists.mp (AList.lookup_isSome.mpr (h.last_mem h0))
      obtain ⟨seg, hseg, -, e, he, hei⟩ := h.found _ ie hie
      exact h.rebuilt.le_last ((hmem _).mpr ⟨seg, hseg, e, mem_of_getElem? he, hei⟩)

theorem Tight.empty : Tight .empty := by
  intro seg hseg
  cases mem_singleton.mp hseg
  nofun

theorem Holds.appendEntry_tight (h : Holds w log s) (hi : e.index = log.length + 1) :
    (w.appendEntry e).Tight := by
  intro seg hseg x hx
  have hle := (h.appendEntry hi).index_le hseg hx
  rw [length_append, length_singleton] at hle
  obtain ⟨cur, hcur, -⟩ := h.exists_current
  have hlast : (w.appendEntry e).lastIndex = e.index := by
    unfold Wal.appendEntry
    rw [hcur]
    dsimp only
    split_ifs <;> rfl
  omega

theorem Holds.deleteRange_tight (hle : lo ≤ hi) (hcur : w.segments.getLast? = some cur)
    (hleft : ∀ seg ∈ w.segmentsLeft lo hi cur, ∀ e ∈ seg.records,
      e.index ≤ (w.dropIndexes lo hi).keys.foldl max 0) : (w.deleteRange lo hi).Tight := by
  unfold Wal.deleteRange
  rw [if_neg (by omega), hcur]
  dsimp only
  split_ifs with hnil
  · intro seg hseg
    rw [hnil] at hseg
    cases mem_singleton.mp hseg
    nofun
  · exact hleft

theorem record_of_segmentsLeft (hcur : w.segments.getLast? = some cur)
    (hx : seg ∈ w.segmentsLeft lo hi cur) (he : e ∈ seg.records) :
    ∃ x ∈ w.segments, e ∈ x.records := by
  rcases mem_segmentsLeft hcur hx with ⟨hm, -⟩ | ⟨rfl, hm, -⟩
  · exact ⟨seg, dropLast_subset _ hm, he⟩
  · exact ⟨cur, hm, (cutCurrent_sublist lo hi cur).subset he⟩

/-- An older segment goes to the deletion from `lo` on with all the records it has there. -/
def cuts (w : Wal) (lo : ℕ) (seg : Segment) : Bool :=
  seg.records.all (·.index < lo) ||
    (lo ≤ seg.baseIndex + w.segmentEntryCount seg && (w.owned seg.baseIndex).all (lo ≤ ·))

def cutsCurrent (w : Wal) (lo : ℕ) (cur : Segment) : Bool :=
  cur.records.all (·.index < lo) ||
    (lo ≤ cur.baseIndex + w.segmentEntryCount cur &&
      (cur.records.find? (lo ≤ ·.index)).all fun e ↦ (w.index.lookup e.index).isSome)

def keepsLast (w : Wal) (lo : ℕ) : Bool :=
  w.segments.all fun seg ↦ seg.records.all fun e ↦
    lo ≤ e.index || w.index.keys.any fun k ↦ e.index ≤ k && k < lo

theorem Holds.segmentsLeft_lt (h : Holds w log s) (hn : log.length ≤ hi) (hle : lo ≤ hi)
    (hcur : w.segments.getLast? = some cur) (hold : ∀ seg ∈ w.segments.dropLast, w.cuts lo seg)
    (hlast : w.cutsCurrent lo cur) (hx : seg ∈ w.segmentsLeft lo hi cur) (he : e ∈ seg.records) :
    e.index < lo := by
  have hbase := h.indexed.segmentsLeft_base hn hcur hx
  rcases mem_segmentsLeft hcur hx with ⟨hm, hkeep⟩ | ⟨rfl, hcm, -⟩
  · have hcuts := hold seg hm
    simp only [cuts, Bool.or_eq_true, Bool.and_eq_true, List.all_eq_true, decide_eq_true_eq]
      at hcuts
    rcases hcuts with hall | ⟨hcount, hown⟩
    · exact hall e he
    · rcases h.indexed.keepSegment_tail hn hm hkeep with hlt | ⟨i, hi', hlo⟩
      · omega
      · have := hown i hi'
        omega
  · rw [cutCurrent_baseIndex] at hbase
    simp only [cutsCurrent, Bool.or_eq_true, Bool.and_eq_true, List.all_eq_true, decide_eq_true_eq]
      at hlast
    rcases hlast with hall | ⟨hcount, hfirst⟩
    · exact hall e ((cutCurrent_sublist lo hi cur).subset he)
    · have hskip : w.skips lo hi cur = false := by
        simp only [skips, Bool.or_eq_false_iff, decide_eq_false_iff_not]
        omega
      have hll := h.last_le
      rw [cutCurrent, hskip, if_neg Bool.false_ne_true, if_pos (by omega)] at he
      refine h.truncateSegmentAt_clears hcm (fun f hf ↦ ?_) he
      rw [hf] at hfirst
      exact AList.lookup_isSome.mp hfirst

theorem Holds.deleteTail (h : Holds w log s) (hn : log.length ≤ hi) (hle : lo ≤ hi)
    (hcur : w.segments.getLast? = some cur) (hold : ∀ seg ∈ w.segments.dropLast, w.cuts lo seg)
    (hlast : w.cutsCurrent lo cur) : Holds (w.deleteRange lo hi) (log.take (lo - 1)) s := by
  refine h.deleteRange hle hcur (fun j ie hj hout hb ↦ ?_) (fun seg hx ↦ ⟨?_, fun e he ↦ ?_⟩)
    fun j hsj hj ↦ ?_
  · have hmem := h.mem_index_le (AList.lookup_isSome.mp (hj ▸ rfl : (w.index.lookup j).isSome))
    exact h.indexed.cutCurrent_spares hj (by omega) hb
  · have hbase := h.indexed.segmentsLeft_base hn hcur hx
    rw [length_take]
    rcases mem_segmentsLeft hcur hx with ⟨hm, -⟩ | ⟨rfl, hm, -⟩
    · have := h.indexed.older_base_le hm
      omega
    · have := h.base_le cur hm
      rw [cutCurrent_baseIndex] at hbase ⊢
      omega
  · have hlt := h.segmentsLeft_lt hn hle hcur hold hlast hx he
    obtain ⟨x, hxm, hxe⟩ := record_of_segmentsLeft hcur hx he
    obtain ⟨-, hpos, hlog⟩ := h.record x hxm e hxe
    rw [getElem?_take_of_lt (by omega), hlog]
  · rw [length_take] at hj
    exact ⟨h.live j hsj (by omega), by omega⟩

theorem Holds.deleteTail_tight (h : Holds w log s) (hn : log.length ≤ hi) (hle : lo ≤ hi)
    (hcur : w.segments.getLast? = some cur) (hold : ∀ seg ∈ w.segments.dropLast, w.cuts lo seg)
    (hlast : w.cutsCurrent lo cur) (hkeep : w.keepsLast lo) : (w.deleteRange lo hi).Tight := by
  refine Holds.deleteRange_tight hle hcur fun seg hx e he ↦ ?_
  have hlt := h.segmentsLeft_lt hn hle hcur hold hlast hx he
  obtain ⟨x, hxm, hxe⟩ := record_of_segmentsLeft hcur hx he
  have hk := List.all_eq_true.mp (List.all_eq_true.mp hkeep x hxm) e hxe
  simp only [Bool.or_eq_true, decide_eq_true_eq, List.any_eq_true, Bool.and_eq_true] at hk
  obtain hlo | ⟨k, hkm, hek, hkl⟩ := hk
  · omega
  · refine hek.trans (le_foldl_max.2 k (AList.mem_keys.mp (AList.lookup_isSome.mp ?_)))
    rw [lookup_dropIndexes, if_neg (by omega), AList.lookup_isSome]
    exact AList.mem_keys.mpr hkm

theorem Holds.firstIndex_le_base (h : Holds w log s) (hseg : seg ∈ w.segments) :
    w.firstIndex ≤ seg.baseIndex := by
  have hb := h.before
  unfold firstIndex
  split
  · exact Nat.zero_le _
  · rename_i x rest hx
    rw [hx] at hseg hb
    rcases mem_cons.mp hseg with rfl | hseg
    · exact le_rfl
    · exact ((pairwise_cons.mp hb).1 seg hseg).1.le

theorem Holds.compact_all (h : Holds w log s) (ht : w.Tight) (hle : w.lastIndex ≤ i)
    (hcur : w.segments.getLast? = some cur)
    (hfirst : 0 < cur.baseIndex ∨ cur.records.head?.all fun e ↦ (w.index.lookup e.index).isSome)
    (hx : seg ∈ w.segmentsLeft w.firstIndex i cur) : e ∉ seg.records := by
  intro he
  have hnone (j : ℕ) : (w.dropIndexes w.firstIndex i).lookup j = none := by
    rw [lookup_dropIndexes]
    split_ifs with hout
    · rfl
    · refine AList.lookup_eq_none.mpr fun hj ↦ hout ?_
      exact ⟨h.firstIndex_le hj, (h.le_last hj).trans hle⟩
  rcases mem_segmentsLeft hcur hx with ⟨hm, hkeep⟩ | ⟨rfl, hm, hbase⟩
  · have hseg := dropLast_subset _ hm
    have hlo := h.firstIndex_le_base hseg
    have hrec := (h.record seg hseg e he).1
    have htight := ht seg hseg e he
    simp only [keepSegment, skips, Bool.or_eq_true, decide_eq_true_eq, List.any_eq_true,
      Bool.not_eq_true', Bool.and_eq_false_iff, decide_eq_false_iff_not] at hkeep
    rcases hkeep with (hlt | hlt) | ⟨j, hj, hout⟩
    · omega
    · omega
    · obtain ⟨ie, hie, -⟩ := mem_owned.mp hj
      have hjm := AList.lookup_isSome.mp (hie ▸ rfl : (w.index.lookup j).isSome)
      have := h.firstIndex_le hjm
      have := h.le_last hjm
      omega
  · have hzero : (w.dropIndexes w.firstIndex i).keys.foldl max 0 = 0 := by
      refine foldl_max_mem.resolve_right fun hmem ↦ ?_
      exact AList.lookup_eq_none.mp (hnone _) (AList.mem_keys.mpr hmem)
    have hlo := h.firstIndex_le_base hm
    have hskip : w.skips w.firstIndex i cur = false := by
      simp only [skips, Bool.or_eq_false_iff, decide_eq_false_iff_not]
      omega
    rw [cutCurrent, hskip, if_neg Bool.false_ne_true, if_pos hle] at he
    have hclear := h.truncateSegmentAt_clears hm (fun f hf ↦ ?_) he
    · omega
    · have hhead := hfirst.resolve_left (by omega)
      cases hr : cur.records with
      | nil =>
        rw [hr] at hf
        cases hf
      | cons a rest =>
        rw [hr, find?_cons_of_pos (by simp; omega)] at hf
        rw [hr] at hhead
        cases hf
        exact AList.lookup_isSome.mp hhead

theorem Holds.compact_tight (h : Holds w log s) (ht : w.Tight)
    (hcur : w.segments.getLast? = some cur)
    (hc : i = 0 ∨ i < w.firstIndex ∨ i < w.lastIndex ∨ 0 < cur.baseIndex ∨
      cur.records.head?.all fun e ↦ (w.index.lookup e.index).isSome) : (w.compact i).Tight := by
  unfold Wal.compact
  split_ifs with hnone
  · exact ht
  rw [not_or] at hnone
  refine Holds.deleteRange_tight (by omega) hcur fun seg hx e he ↦ ?_
  by_cases hlt : i < w.lastIndex
  · obtain ⟨x, hxm, hxe⟩ := record_of_segmentsLeft hcur hx he
    refine (ht x hxm e hxe).trans (le_foldl_max.2 _ (AList.mem_keys.mp (AList.lookup_isSome.mp ?_)))
    rw [lookup_dropIndexes, if_neg (by omega), AList.lookup_isSome]
    exact h.last_mem (by omega)
  · refine absurd he (h.compact_all ht (not_lt.mp hlt) hcur ?_ hx)
    exact ((hc.resolve_left hnone.1).resolve_left hnone.2).resolve_left hlt

/-- A write-ahead log with the log that was written to it: what was appended and not deleted from
the end again, and the highest index up to which it was compacted. -/
structure Journal where
  wal : Wal
  log : List LogEntry
  compacted : ℕ

namespace Journal

variable {c : EntryCodec} {j j' : Journal}

inductive Op
  | append (entries : List LogEntry)
  | deleteRange (lo hi : ℕ)
  | compact (index : ℕ)

def empty : Journal := ⟨.empty, [], 0⟩

def step (j : Journal) : Op → Option Journal
  | .append entries =>
    if entries.map LogEntry.index = range' (j.log.length + 1) entries.length then
      some { j with wal := entries.foldl Wal.appendEntry j.wal, log := j.log ++ entries }
    else none
  | .deleteRange lo hi =>
    if j.log.length ≤ hi then
      some { j with wal := j.wal.deleteRange lo hi, log := j.log.take (lo - 1) }
    else none
  | .compact index =>
    some { j with wal := j.wal.compact index, compacted := max j.compacted index }

/-- The operation leaves no record in a file that a scan would take for an entry of the log, and
none whose length or index does not fit into its fields. -/
def Clean (c : EntryCodec) (j : Journal) : Op → Bool
  | .append entries =>
    j.log.length + entries.length < FileWal.maxUint64 &&
      entries.all fun e ↦ (c.toRecord e).Fits
  | .deleteRange lo hi =>
    let w := j.wal
    hi < lo || w.segments.dropLast.all (w.cuts lo) && w.segments.getLast?.all (w.cutsCurrent lo) &&
      w.keepsLast lo
  | .compact index =>
    let w := j.wal
    index = 0 || index < w.firstIndex || index < w.lastIndex || w.segments.getLast?.all fun cur ↦
      0 < cur.baseIndex || cur.records.head?.all fun e ↦ (w.index.lookup e.index).isSome

def steps : Journal → List Op → Option Journal := Script.run step

def CleanRun (c : EntryCodec) (j : Journal) : List Op → Bool
  | [] => true
  | op :: ops => j.Clean c op && (j.step op).all fun j ↦ j.CleanRun c ops

structure Sound (c : EntryCodec) (j : Journal) : Prop where
  holds : j.wal.Holds j.log j.compacted
  tight : j.wal.Tight
  writable : FileWal.Writable c j.log

theorem Sound.append {entries : List LogEntry}
    (h : w.Holds log s) (ht : w.Tight)
    (hi : entries.map LogEntry.index = range' (log.length + 1) entries.length) :
    (entries.foldl Wal.appendEntry w).Holds (log ++ entries) s ∧
      (entries.foldl Wal.appendEntry w).Tight := by
  induction entries generalizing w log with
  | nil => exact ⟨by rwa [append_nil], ht⟩
  | cons e rest ih =>
    rw [map_cons, length_cons, range'_succ, List.cons.injEq] at hi
    have hrest := ih (h.appendEntry hi.1) (h.appendEntry_tight hi.1) (by simpa using hi.2)
    rwa [append_assoc] at hrest

theorem Sound.step {op : Op} (h : j.Sound c) (hc : j.Clean c op) (hs : j.step op = some j') :
    j'.Sound c := by
  obtain ⟨cur, hcur, -⟩ := h.holds.exists_current
  cases op with
  | append entries =>
    simp only [Journal.step, ite_none_right_eq_some, some.injEq] at hs
    obtain ⟨hi, rfl⟩ := hs
    simp only [Clean, Bool.and_eq_true, decide_eq_true_eq, List.all_eq_true] at hc
    obtain ⟨hholds, htight⟩ := Sound.append h.holds h.tight hi
    exact ⟨hholds, htight, h.writable.append hc.1 hc.2⟩
  | deleteRange lo hi =>
    simp only [Journal.step, ite_none_right_eq_some, some.injEq] at hs
    obtain ⟨hn, rfl⟩ := hs
    simp only [Clean, hcur, Bool.or_eq_true, Bool.and_eq_true, decide_eq_true_eq, all_some,
      List.all_eq_true] at hc
    have hwritable : FileWal.Writable c (j.log.take (lo - 1)) :=
      ⟨(length_take_le' _ _).trans_lt h.writable.length_lt,
        fun e he ↦ h.writable.fits e (mem_of_mem_take he)⟩
    rcases lt_or_ge hi lo with hlt | hle
    · have hsame : j.wal.deleteRange lo hi = j.wal := if_pos hlt
      refine ⟨?_, ?_, hwritable⟩
      · change (j.wal.deleteRange lo hi).Holds (j.log.take (lo - 1)) j.compacted
        rw [hsame, take_of_length_le (by omega)]
        exact h.holds
      · change (j.wal.deleteRange lo hi).Tight
        rw [hsame]
        exact h.tight
    · obtain ⟨⟨hold, hlast⟩, hkeep⟩ := hc.resolve_left (by omega)
      exact ⟨h.holds.deleteTail hn hle hcur hold hlast,
        h.holds.deleteTail_tight hn hle hcur hold hlast hkeep, hwritable⟩
  | compact index =>
    simp only [Journal.step, some.injEq] at hs
    subst hs
    simp only [Clean, hcur, Bool.or_eq_true, decide_eq_true_eq, all_some] at hc
    exact ⟨h.holds.compact, h.holds.compact_tight h.tight hcur (by tauto), h.writable⟩

theorem Sound.steps {ops : List Op} (h : j.Sound c) (hc : j.CleanRun c ops)
    (hs : j.steps ops = some j') : j'.Sound c := by
  induction ops generalizing j with
  | nil =>
    cases hs
    exact h
  | cons op ops ih =>
    obtain ⟨x, hx, hs⟩ := bind_eq_some_iff.mp hs
    simp only [CleanRun, hx, all_some, Bool.and_eq_true] at hc
    exact ih (h.step hc.1 hx) hc.2 hs

/-- The files that the log leaves when it is closed. -/
def files (c : EntryCodec) (j : Journal) : List SegmentFile := j.wal.segments.map (FileWal.file c)

/-- After operations that are all clean, the files can be opened, and the log that is read from
them has the same last index and serves the same entries: those that were appended and not
deleted. -/
theorem newWAL_of_cleanRun {ops : List Op} (hs : empty.steps ops = some j)
    (hc : empty.CleanRun c ops) :
    ∃ fw, FileWal.newWAL (j.files c) = .ok fw ∧ fw.lastIndex = j.wal.lastIndex ∧
      ∀ i, j.compacted < i →
        (fw.get i).toOption = (j.wal.get i).map c.toRecord ∧ j.wal.get i = j.log[i - 1]? := by
  have hsound := Sound.steps ⟨.empty, .empty, by decide, by simp [empty]⟩ hc hs
  obtain ⟨fw, hnew, hrep⟩ := FileWal.newWAL_files hsound.holds hsound.writable
  refine ⟨fw, hnew, hrep.lastIndex.trans (hsound.tight.rebuilt hsound.holds), fun i hi ↦ ?_⟩
  have hget := hsound.holds.get_eq hi
  refine ⟨?_, hget⟩
  rw [hrep.get hsound.holds.rebuilt hsound.writable, hsound.holds.rebuilt.get_eq hi, hget]

def threeAppended : List Op :=
  [.append [⟨1, 1, .normal [1]⟩, ⟨1, 2, .normal [2]⟩], .append [⟨1, 3, .normal [3]⟩]]

theorem newWAL_threeAppended : ∃ j : Journal,
    empty.steps (threeAppended ++ [.deleteRange 3 3, .compact 1]) = some j ∧ j.compacted = 1 ∧
      ∃ fw, FileWal.newWAL (j.files FileWal.commandCodec) = .ok fw ∧
        fw.lastIndex = j.wal.lastIndex ∧ ∀ i, j.compacted < i →
          (fw.get i).toOption = (j.wal.get i).map FileWal.commandCodec.toRecord ∧
            j.wal.get i = j.log[i - 1]? := by
  have hrun : (empty.steps (threeAppended ++ [.deleteRange 3 3, .compact 1])).map
      Journal.compacted = some 1 := by decide +kernel
  obtain ⟨j, hj, h1⟩ := map_eq_some_iff.mp hrun
  exact ⟨j, hj, h1, newWAL_of_cleanRun hj (by decide +kernel)⟩

/-- Entry 3 is deleted and comes back: once the log was compacted, the deletion takes the file for
one that ends before entry 3. -/
theorem deleted_entry_reappears : ∃ (j : Journal) (fw : FileWal),
    empty.steps (threeAppended ++ [.compact 2, .deleteRange 3 3]) = some j ∧ j.compacted = 2 ∧
      j.wal.lastIndex = 0 ∧ j.wal.get 3 = none ∧
      FileWal.newWAL (j.files FileWal.commandCodec) = .ok fw ∧ fw.lastIndex = 3 ∧
      (fw.get 3).toOption = some (FileWal.commandCodec.toRecord ⟨1, 3, .normal [3]⟩) := by
  have hrun : (empty.steps (threeAppended ++ [.compact 2, .deleteRange 3 3])).any (fun j ↦
      j.compacted = 2 ∧ j.wal.lastIndex = 0 ∧ j.wal.get 3 = none ∧
        (FileWal.newWAL (j.files FileWal.commandCodec)).toOption.any fun fw ↦ fw.lastIndex = 3 ∧
          (fw.get 3).toOption = some (FileWal.commandCodec.toRecord ⟨1, 3, .normal [3]⟩)) := by
    decide +kernel
  obtain ⟨j, hj, h⟩ := (any_eq_true _ _).mp hrun
  obtain ⟨hcompacted, hlast, hget, hopen⟩ := of_decide_eq_true h
  cases hnew : FileWal.newWAL (j.files FileWal.commandCodec) with
  | error e =>
    rw [hnew] at hopen
    cases hopen
  | ok fw =>
    rw [hnew] at hopen
    obtain ⟨hlast', hget'⟩ := of_decide_eq_true hopen
    exact ⟨j, fw, hj, hcompacted, hlast, hget, hnew, hlast', hget'⟩

end Journal

end RaftConsensus.Wal
