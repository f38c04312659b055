import RaftConsensus.Snapshots.Closing

namespace RaftConsensus.SnapshotFiles

open List AList

variable {gz : Gzip} {retain : ℕ} {s : Store} {created sorted : List SnapshotMeta}
  {w : Store × FileSnapshotSink} {m oldest : SnapshotMeta}

/-- The list is short, its IDs are distinct, its files are there, and the newest can be opened. -/
structure Retained (s : Store) : Prop where
  length_le : s.snapshots.length ≤ s.retainCount
  nodup : (s.snapshots.map SnapshotMeta.id).Nodup
  files : ∀ m ∈ s.snapshots, m.id ∈ s.dir.snapFiles ∧ m.id ∈ s.dir.metaFiles
  newest : ∀ m ∈ s.snapshots, (∀ m' ∈ s.snapshots, m'.index ≤ m.index) →
    (s.openSnapshot m.id).map FileSnapshot.info = some m

/-- Snapshots are written and closed one after the other, none with the ID of one that is listed. -/
inductive Reach (gz : Gzip) (retain : ℕ) : Store → List SnapshotMeta → Prop
  | empty (compression : Bool) : Reach gz retain (.empty retain compression) []
  | create {s : Store} {created sorted : List SnapshotMeta} {w : Store × FileSnapshotSink}
    (h : Reach gz retain s created) (hw : Writing gz s w)
    (hid : w.2.info.id ∉ s.snapshots.map SnapshotMeta.id)
    (hs : IsSort sorted (s.snapshots ++ [w.2.info])) :
    Reach gz retain (w.1.close gz w.2 sorted) (w.2.info :: created)

/-- Every listed snapshot has the files that closing it wrote. -/
structure Sound (s : Store) : Prop where
  nodup : (s.snapshots.map SnapshotMeta.id).Nodup
  files : ∀ m ∈ s.snapshots, (s.dir.metaFiles.lookup m.id).isSome = true ∧
    s.checksummed.lookup m.id = some true ∧
    ∃ content, s.dir.snapFiles.lookup m.id = some (content ++ footer content)

theorem Sound.open_eq (h : Sound s) (hm : m ∈ s.snapshots) :
    (s.openSnapshot m.id).map FileSnapshot.info = some m := by
  obtain ⟨-, hc, content, hf⟩ := h.files m hm
  have hfind := find_id hm fun m' hm' hid ↦ inj_on_of_nodup_map h.nodup hm' hm hid
  rw [Store.openSnapshot, hf, Option.bind_some, hfind, Option.bind_some, hc, Option.getD_some,
    verifysnapChecksum_footer]
  rfl

theorem Sound.retained (h : Sound s) (hlen : s.snapshots.length ≤ s.retainCount) : Retained s where
  length_le := hlen
  nodup := h.nodup
  files m hm := by
    obtain ⟨hmeta, -, content, hf⟩ := h.files m hm
    exact ⟨lookup_isSome.mp (hf ▸ rfl), lookup_isSome.mp hmeta⟩
  newest m hm _ := h.open_eq hm

theorem map_eraseP (l : List SnapshotMeta) (id : String) :
    (l.eraseP (·.id = id)).map SnapshotMeta.id = (l.map SnapshotMeta.id).erase id := by
  induction l with
  | nil => rfl
  | cons m l ih =>
    by_cases hm : m.id = id
    · rw [eraseP_cons_of_pos (by simpa using hm), map_cons, hm, erase_cons_head]
    · rw [eraseP_cons_of_neg (by simpa using hm), map_cons, map_cons, ih,
        erase_cons_tail (by simpa using hm)]

theorem prune_of_le (n : ℕ) (h : s.snapshots.length ≤ s.retainCount) : s.prune n = s := by
  cases n with
  | zero => rfl
  | succ n => exact if_neg (by omega)

theorem length_deleteLocked (hm : m ∈ s.snapshots) :
    (s.deleteLocked m.id).snapshots.length = s.snapshots.length - 1 :=
  length_eraseP_of_mem hm (by simp)

theorem prune_full {n : ℕ} (hlast : s.snapshots.getLast? = some oldest)
    (hlen : s.snapshots.length = s.retainCount + 1) :
    s.prune (n + 1) = s.deleteLocked oldest.id := by
  rw [Store.prune, if_pos (by omega), hlast]
  dsimp only
  refine prune_of_le n ?_
  rw [length_deleteLocked (mem_of_getLast? hlast), hlen]
  exact le_rfl

theorem Sound.commit (h : Sound s) (hw : Writing gz s w)
    (hid : w.2.info.id ∉ s.snapshots.map SnapshotMeta.id)
    (hs : IsSort sorted (s.snapshots ++ [w.2.info])) : Sound (w.1.commit gz w.2 sorted) := by
  obtain ⟨hsnap, hmeta⟩ := after_commitOps hw.tmp
  rw [hw.rest] at hsnap hmeta
  refine ⟨?_, fun m hm ↦ ?_⟩
  · change (sorted.map SnapshotMeta.id).Nodup
    rw [(hs.1.map SnapshotMeta.id).nodup_iff, map_append]
    exact nodup_append.mpr ⟨h.nodup, nodup_singleton _, fun a ha b hb hab ↦
      hid (mem_singleton.mp hb ▸ hab ▸ ha)⟩
  · unfold Store.commit
    rw [hw.rest, hsnap, hmeta]
    dsimp only
    rcases mem_append.mp (hs.1.mem_iff.mp hm) with hm | hm
    · have hne : m.id ≠ w.2.info.id := fun heq ↦ hid (heq ▸ mem_map_of_mem hm)
      rw [lookup_insert_ne hne, lookup_insert_ne hne, lookup_insert_ne hne]
      exact h.files m hm
    · cases mem_singleton.mp hm
      rw [lookup_insert, lookup_insert, lookup_insert]
      exact ⟨rfl, rfl, _, rfl⟩

theorem Sound.deleteLocked (h : Sound s) (id : String) : Sound (s.deleteLocked id) := by
  have hmap := map_eraseP s.snapshots id
  refine ⟨?_, fun m hm ↦ ?_⟩
  · change ((s.snapshots.eraseP (·.id = id)).map SnapshotMeta.id).Nodup
    rw [hmap]
    exact h.nodup.erase _
  · have hne : m.id ≠ id := by
      have hmem := mem_map_of_mem (f := SnapshotMeta.id) hm
      change m.id ∈ (s.snapshots.eraseP (·.id = id)).map SnapshotMeta.id at hmem
      rw [hmap, h.nodup.mem_erase_iff] at hmem
      exact hmem.1
    have hspared := spared_deleteLocked s hne
    rw [hspared.sidecar, hspared.checksummed, hspared.snap]
    exact h.files m (mem_of_mem_eraseP hm)

theorem close_eq (hw : Writing gz s w) (hlen : s.snapshots.length ≤ s.retainCount)
    (hs : IsSort sorted (s.snapshots ++ [w.2.info])) :
    sorted.length ≤ s.retainCount ∧ w.1.close gz w.2 sorted = w.1.commit gz w.2 sorted ∨
      sorted.length = s.retainCount + 1 ∧ ∃ oldest, sorted.getLast? = some oldest ∧
        w.1.close gz w.2 sorted = (w.1.commit gz w.2 sorted).deleteLocked oldest.id := by
  have hperm := hs.1.length_eq
  rw [length_append, length_singleton] at hperm
  have hretain : w.1.retainCount = s.retainCount := by rw [hw.rest]
  by_cases hle : sorted.length ≤ s.retainCount
  · exact .inl ⟨hle, prune_of_le _ (hle.trans_eq hretain.symm)⟩
  · have hfull : sorted.length = s.retainCount + 1 := by omega
    have hne : sorted ≠ [] := by
      intro hnil
      rw [hnil] at hfull
      cases hfull
    refine .inr ⟨hfull, _, getLast?_eq_some_getLast hne, ?_⟩
    unfold Store.close
    nth_rewrite 1 [hfull]
    exact prune_full (getLast?_eq_some_getLast hne) (hfull.trans (by rw [← hretain]; rfl))

theorem Sound.close (h : Sound s) (hw : Writing gz s w) (hlen : s.snapshots.length ≤ s.retainCount)
    (hid : w.2.info.id ∉ s.snapshots.map SnapshotMeta.id)
    (hs : IsSort sorted (s.snapshots ++ [w.2.info])) :
    Sound (w.1.close gz w.2 sorted) ∧
      (w.1.close gz w.2 sorted).snapshots.length ≤ s.retainCount ∧
      (w.1.close gz w.2 sorted).retainCount = s.retainCount := by
  have hcommit := h.commit hw hid hs
  have hretain : w.1.retainCount = s.retainCount := by rw [hw.rest]
  rcases close_eq hw hlen hs with ⟨hle, heq⟩ | ⟨hfull, oldest, hlast, heq⟩
  · rw [heq]
    exact ⟨hcommit, hle, hretain⟩
  · rw [heq]
    refine ⟨hcommit.deleteLocked _, ?_, hretain⟩
    have hmem : oldest ∈ (w.1.commit gz w.2 sorted).snapshots := mem_of_getLast? hlast
    rw [length_deleteLocked hmem]
    exact Nat.sub_le_of_le_add hfull.le

theorem exists_newer (hr : 1 ≤ s.retainCount) (h : Sound s) (hw : Writing gz s w)
    (hlen : s.snapshots.length ≤ s.retainCount)
    (hid : w.2.info.id ∉ s.snapshots.map SnapshotMeta.id)
    (hs : IsSort sorted (s.snapshots ++ [w.2.info])) (hm : m ∈ s.snapshots ++ [w.2.info]) :
    ∃ m' ∈ (w.1.close gz w.2 sorted).snapshots, m.index ≤ m'.index := by
  have hnodup : (sorted.map SnapshotMeta.id).Nodup := (h.commit hw hid hs).nodup
  have hms : m ∈ sorted := hs.1.mem_iff.mpr hm
  rcases close_eq hw hlen hs with ⟨hle, heq⟩ | ⟨hfull, oldest, hlast, heq⟩
  · rw [heq]
    exact ⟨m, hms, le_rfl⟩
  · rw [heq]
    match sorted, hs, hnodup, hms, hfull, hlast with
    | [], _, _, hms, _, _ => cases hms
    | [a], _, _, _, hfull, _ =>
      rw [length_singleton] at hfull
      omega
    | a :: b :: rest, hs, hnodup, hms, _, hlast =>
      have ha : m.index ≤ a.index := by
        rcases mem_cons.mp hms with rfl | hms
        · exact le_rfl
        · exact (pairwise_cons.mp hs.2).1 m hms
      have hne : a.id ≠ oldest.id := by
        rw [getLast?_cons_cons] at hlast
        rw [map_cons, nodup_cons] at hnodup
        exact fun hx ↦ hnodup.1 (hx ▸ mem_map_of_mem (mem_of_getLast? hlast))
      refine ⟨a, ?_, ha⟩
      change a ∈ (a :: b :: rest).eraseP (·.id = oldest.id)
      rw [eraseP_cons_of_neg (by simpa using hne)]
      exact mem_cons_self

theorem not_retained (hw : Writing gz s w) (hlen : s.snapshots.length ≤ s.retainCount)
    (hid : w.2.info.id ∈ s.snapshots.map SnapshotMeta.id)
    (hs : IsSort sorted (s.snapshots ++ [w.2.info])) : ¬ Retained (w.1.close gz w.2 sorted) := by
  intro hret
  have hcount : 2 ≤ (sorted.map SnapshotMeta.id).count w.2.info.id := by
    rw [(hs.1.map SnapshotMeta.id).count_eq, map_append, count_append]
    have := count_pos_iff.mpr hid
    simp only [map_cons, map_nil, count_cons_self, count_nil]
    omega
  have hone (l : List String) (hl : l.Nodup) : l.count w.2.info.id ≤ 1 :=
    nodup_iff_count_le_one.mp hl _
  rcases close_eq hw hlen hs with ⟨-, heq⟩ | ⟨-, oldest, hlast, heq⟩
  · rw [heq] at hret
    have := hone _ hret.nodup
    change (sorted.map SnapshotMeta.id).count w.2.info.id ≤ 1 at this
    omega
  · rw [heq] at hret
    have hmap := map_eraseP sorted oldest.id
    by_cases hx : oldest.id = w.2.info.id
    · have hmem : w.2.info.id ∈ (sorted.eraseP (·.id = oldest.id)).map SnapshotMeta.id := by
        rw [hmap, hx, ← count_pos_iff, count_erase_self]
        omega
      obtain ⟨m, hm, hmid⟩ := mem_map.mp hmem
      have hfile := (hret.files m hm).1
      change m.id ∈ erase oldest.id _ at hfile
      rw [mem_erase, hmid, hx] at hfile
      exact hfile.1 rfl
    · have hn := hone _ hret.nodup
      change ((sorted.eraseP (·.id = oldest.id)).map SnapshotMeta.id).count w.2.info.id ≤ 1 at hn
      rw [hmap, count_erase_of_ne (Ne.symm hx)] at hn
      omega

theorem Reach.sound (hr : 1 ≤ retain) (h : Reach gz retain s created) :
    s.retainCount = retain ∧ Sound s ∧ s.snapshots.length ≤ s.retainCount ∧
      ∀ m ∈ created, ∃ m' ∈ s.snapshots, m.index ≤ m'.index := by
  induction h with
  | empty compression => exact ⟨rfl, ⟨nodup_nil, nofun⟩, Nat.zero_le _, nofun⟩
  | @create s created sorted w h hw hid hs ih =>
    obtain ⟨hretain, hsound, hlen, hall⟩ := ih
    obtain ⟨hclose, hshort, hkept⟩ := hsound.close hw hlen hid hs
    have hnewer {m : SnapshotMeta} (hm : m ∈ s.snapshots ++ [w.2.info]) :=
      exists_newer (hretain ▸ hr) hsound hw hlen hid hs hm
    refine ⟨hkept.trans hretain, hclose, hshort.trans_eq hkept.symm, fun m hm ↦ ?_⟩
    rcases mem_cons.mp hm with rfl | hm
    · exact hnewer (mem_append_right _ (mem_singleton_self _))
    · obtain ⟨m', hm', hle⟩ := hall m hm
      obtain ⟨m'', hm'', hle'⟩ := hnewer (mem_append_left _ hm')
      exact ⟨m'', hm'', hle.trans hle'⟩

/-- As long as no snapshot is created under the ID of a listed one, the store keeps what it
promises, and the newest snapshot of all; the first one that is breaks it. -/
theorem retained_iff (hr : 1 ≤ retain) (h : Reach gz retain s created) :
    Retained s ∧ (∀ m ∈ created, ∃ m' ∈ s.snapshots, m.index ≤ m'.index) ∧
      ∀ (w : Store × FileSnapshotSink) (sorted : List SnapshotMeta), Writing gz s w →
        IsSort sorted (s.snapshots ++ [w.2.info]) →
        (Retained (w.1.close gz w.2 sorted) ↔
          w.2.info.id ∉ s.snapshots.map SnapshotMeta.id) := by
  obtain ⟨-, hsound, hlen, hall⟩ := h.sound hr
  refine ⟨hsound.retained hlen, hall, fun w sorted hw hs ↦ ⟨fun hret hid ↦ ?_, fun hid ↦ ?_⟩⟩
  · exact not_retained hw hlen hid hs hret
  · obtain ⟨hclose, hshort, hkept⟩ := hsound.close hw hlen hid hs
    exact hclose.retained (hshort.trans_eq hkept.symm)

/-- A snapshot of term 1 with one byte is written. -/
def Store.writeAt (s : Store) (index : ℕ) : Store × FileSnapshotSink :=
  Store.writeAll Gzip.tagged (s.create 1 index 1 ⟨[]⟩) [[7]]

def metaAt (index : ℕ) : SnapshotMeta := ⟨toString 1 ++ "-" ++ toString index, index, 1, ⟨[]⟩, 1⟩

def Store.first : Store := ((Store.empty 1 false).writeAt 1).1.close Gzip.tagged
  ((Store.empty 1 false).writeAt 1).2 [metaAt 1]

theorem reach_first : Reach Gzip.tagged 1 .first [metaAt 1] :=
  .create (.empty false) (writing_writeAll (writing_create _ _ _ _ _ _) _).1 (by decide)
    ⟨List.Perm.refl _, pairwise_singleton _ _⟩

theorem retained_writeAt : ∃ s, Reach Gzip.tagged 1 s [metaAt 2, metaAt 1] ∧ Retained s ∧
    s.snapshots = [metaAt 2] := by
  have htwo : Reach Gzip.tagged 1 ((Store.first.writeAt 2).1.close Gzip.tagged
      (Store.first.writeAt 2).2 [metaAt 2, metaAt 1]) [metaAt 2, metaAt 1] :=
    .create reach_first (writing_writeAll (writing_create _ _ _ _ _ _) _).1 (by decide +kernel)
      ⟨List.Perm.swap _ _ _, by decide⟩
  exact ⟨_, htwo, (retained_iff le_rfl htwo).1, by decide +kernel⟩

/-- The same snapshot is taken twice, and pruning deletes the files of the one that stays listed. -/
theorem snapshot_lost : Reach Gzip.tagged 1 .first [metaAt 1] ∧
    Writing Gzip.tagged .first (Store.first.writeAt 1) ∧
    IsSort [metaAt 1, metaAt 1] (Store.first.snapshots ++ [(Store.first.writeAt 1).2.info]) ∧
    ((Store.first.writeAt 1).1.close Gzip.tagged (Store.first.writeAt 1).2
      [metaAt 1, metaAt 1]).snapshots = [metaAt 1] ∧
    (((Store.first.writeAt 1).1.close Gzip.tagged (Store.first.writeAt 1).2
      [metaAt 1, metaAt 1]).openSnapshot (metaAt 1).id).isNone = true :=
  ⟨reach_first, (writing_writeAll (writing_create _ _ _ _ _ _) _).1,
    ⟨List.Perm.refl _, by decide⟩, by decide +kernel, by decide +kernel⟩

end RaftConsensus.SnapshotFiles
