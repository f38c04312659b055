import RaftConsensus.Agreement.Simulation

namespace RaftConsensus

open List

open Ledger (Committed Grows Sound Steps Step)

open Action (timeout turns)

variable {σ : Type} {cl : Cluster} {F : FSM σ} {w w' : World σ} {C : Configuration} {n m : ServerID}

section Ledger

variable {g : LedgerState}

theorem fixed_micros (hC : cl.Fixed C)
    (h : World.Reach cl F (fun w a ↦ w.within fixedRules a = true) w)
    (h' : World.Steps cl F (fun w a ↦ w.within fixedRules a = true) w w') :
    Micros cl fixedRules (electedBy C) 0 w.view w'.view := by
  have hP (w : World σ) (a : Action)
      (hc : w.within fixedRules a = true ∧ (fixedConfiguration C).Holds w.view) :
      w.Permits fixedRules (electedBy C) a := permits_electedBy hc.1 hc.2
  have hr := World.Steps.and_invariant (fun w ↦ fixedConfiguration_reach hC) h
  have hs := World.Steps.and_invariant (fun w₁ hw ↦ fixedConfiguration_reach hC (h.trans hw)) h'
  have ht := (World.steps_micros hP World.tidy_init (Nat.zero_le _) hr).2
  exact (World.steps_micros hP ht (Nat.zero_le _) hs).1

/-- Every run has a ledger behind it. -/
theorem exists_mirrors (hC : cl.Fixed C)
    (h : World.Reach cl F (fun w a ↦ w.within fixedRules a = true) w) :
    ∃ g, Mirrors C w.view g := by
  obtain ⟨g, -, hg⟩ := Mirrors.init.micros hC (fixed_micros hC .refl h)
  exact ⟨g, hg⟩

theorem World.view_disk (w : World σ) (n : ServerID) :
    (w.view.sites n).disk = (w.hosts n).disk := by
  cases h : w.hosts n <;> simp only [World.view, World.site, h] <;> rfl

theorem Mirrors.holds (h : Mirrors C w.view g) (n : ServerID) :
    (w.hosts n).disk.log.Holds (g.log n) := by
  rw [← w.view_disk n]
  exact (h.disk n).log

theorem Mirrors.committed (h : Mirrors C w.view g) {r : Raft σ} (hn : w.raft? n = some r)
    (hpos : 0 < r.commitIndex) :
    g.term n = r.term ∧ r.disk = (w.hosts n).disk ∧
    Committed g (g.term n) r.commitIndex (g.log n) := by
  obtain ⟨calls, hh⟩ := World.hosts_of_raft? hn
  have hs : w.view.sites n = .up r.core calls := by simp only [World.view, World.site, hh]
  cases hst : r.started with
  | true =>
    exact ⟨(h.toLocal hs hst).term.symm, by rw [hh]; rfl, (h.node n r.core calls hs hst).commit⟩
  | false =>
    obtain ⟨cfg, hc⟩ := (h.ballots.up hs).idle hst
    have h0 : r.commitIndex = 0 := congrArg Core.commitIndex hc
    omega

end Ledger

/-- Two logs that have an entry of the same index and term are the same up to there. -/
theorem logs_match (hC : cl.Fixed C)
    (h : World.Reach cl F (fun w a ↦ w.within fixedRules a = true) w) {i j : ℕ} {e e' : LogEntry}
    (he : (w.hosts n).disk.log.get i = some e) (he' : (w.hosts m).disk.log.get i = some e')
    (ht : e.term = e'.term) (hj : j ≤ i) :
    (w.hosts n).disk.log.get j = (w.hosts m).disk.log.get j := by
  obtain ⟨g, hg⟩ := exists_mirrors hC h
  have htake := hg.sound.log_matching ((hg.holds n).getElem? he) ((hg.holds m).getElem? he') ht
  rcases Nat.eq_zero_or_pos j with rfl | hpos
  · rfl
  · have hlt : j - 1 < i - 1 + 1 := by omega
    have hn := hg.holds n (j - 1)
    have hm := hg.holds m (j - 1)
    rw [Nat.sub_add_cancel hpos] at hn hm
    rw [hn, hm, ← getElem?_take_of_lt hlt, htake, getElem?_take_of_lt hlt]

/-- A commits its first entry with the ack of B. -/
def commitA : List Action := electA ++ [.op "A" (.replicate "B"), .deliver 2, .reply 1]

theorem logs_match_commitA : ∃ w : World (List Bytes),
    World.Reach threeVoters .keeping (fun w a ↦ w.within fixedRules a = true) w ∧
    (w.hosts "A").disk.log.get 1 = some ⟨1, 1, .normal []⟩ ∧
    ∀ j ≤ 1, (w.hosts "A").disk.log.get j = (w.hosts "B").disk.log.get j := by
  obtain ⟨w, hr, hA, hB⟩ := World.exists_checked threeVoters .keeping (·.within fixedRules) commitA
    (fun w ↦ (w.hosts "A").disk.log.get 1 = some ⟨1, 1, .normal []⟩ ∧
      (w.hosts "B").disk.log.get 1 = some ⟨1, 1, .normal []⟩) (by decide +kernel)
  exact ⟨w, hr, hA, fun j hj ↦ logs_match threeVoters_fixed hr hA hB rfl hj⟩

/-- A's first request to C is delayed. C is elected in term 2 with the vote of B, and commits
two entries of that term with the ack of B. -/
def commitC : List Action :=
  electA ++ [.op "A" (.replicate "C")] ++ timeout "C" 3 ++ turns "C" 3 ++ timeout "C" 3 ++
    [.deliver 6, .reply 1] ++ turns "C" 3 ++
    [.op "C" (.propose [(0, [7])]), .op "C" (.replicate "B"), .deliver 7, .reply 2]

/-- C restarts, and handles the delayed request before `Start` has loaded term 2. -/
def overwriteC : List Action := [.crash "C", .create "C", .deliver 2]

theorem logs_differ_before_start :
    ∃ (w : World (List Bytes)) (e e' : LogEntry), threeVoters.Fixed abc ∧
    World.Reach threeVoters .keeping
    (fun w a ↦ w.within { fixedRules with early := true } a = true) w ∧
    (w.hosts "B").disk.log.get 2 = some e ∧ (w.hosts "C").disk.log.get 2 = some e' ∧
    e.term = e'.term ∧ (w.hosts "B").disk.log.get 1 ≠ (w.hosts "C").disk.log.get 1 := by
  obtain ⟨w, hw, hB, hC, hne⟩ := World.exists_checked threeVoters .keeping
    (·.within { fixedRules with early := true }) (commitC ++ overwriteC)
    (fun w ↦ (w.hosts "B").disk.log.get 2 = some ⟨2, 2, .normal [7]⟩ ∧
      (w.hosts "C").disk.log.get 2 = some ⟨2, 2, .normal [7]⟩ ∧
      (w.hosts "B").disk.log.get 1 ≠ (w.hosts "C").disk.log.get 1) (by decide +kernel)
  exact ⟨w, _, _, threeVoters_fixed, hw, hB, hC, rfl, hne⟩

/-- What the commit index of a node covers is in the log of every leader of a later term and
stays in the log of the node; and what is applied at an index is the same everywhere. -/
theorem committed_entries_stay (hC : cl.Fixed C)
    (h : World.Reach cl F (fun w a ↦ w.within fixedRules a = true) w)
    (h' : World.Steps cl F (fun w a ↦ w.within fixedRules a = true) w w') {r : Raft σ} {i : ℕ}
    (hn : w.raft? n = some r) (hpos : 0 < i) (hi : i ≤ r.commitIndex) :
    (∃ e, r.log.get i = some e ∧ (w'.hosts n).disk.log.get i = some e ∧
      ∀ m term el log, (m, .becameLeader term el log) ∈ w'.history → r.term < term →
        log.get i = some e) ∧
    ∀ m m' x x', (m, .applied x) ∈ w'.history → (m', .applied x') ∈ w'.history →
      x.index = x'.index → x = x' := by
  obtain ⟨g, hg⟩ := exists_mirrors hC h
  obtain ⟨g', hst, hg'⟩ := hg.micros hC (fixed_micros hC h h')
  have hq := quorums_intersecting C
  obtain ⟨hterm, hdisk, hcom⟩ := hg.committed hn (hpos.trans_le hi)
  have hcom : Committed g (g.term n) i (g.log n) := hcom.of_le hi
  have hlen := hcom.length_le hg.sound
  have hget : (g.log n)[i - 1]? = some (g.log n)[i - 1] := getElem?_eq_getElem _
  refine ⟨⟨(g.log n)[i - 1], ?_, ?_, fun m term el log hmem hlt ↦ ?_⟩,
    fun m m' x x' hx hx' heq ↦ ?_⟩
  · have hold := (hg.holds n).get hpos hget
    rw [← hdisk] at hold
    exact hold
  · refine (hg'.holds n).get hpos ?_
    rw [hcom.getElem?_steps hg.sound hq hst (by omega), hget]
  · obtain ⟨hled, l, hlog, hbase⟩ := hg'.record.leaders m term el log hmem
    have hcom' : Committed g' (g.term n) i (g.log n) :=
      hcom.mono hg.sound (hg.sound.grows hq hst) le_rfl prefix_rfl
    have hp := (hcom'.base hg'.sound hq (hterm ▸ hlt) (by rw [hled]; simp)).trans hbase
    refine hlog.get hpos (Ledger.getElem?_of_isPrefix hp ?_)
    rw [getElem?_take_of_lt (by omega), hget]
  · obtain ⟨hposx, t, l, hc, hl⟩ := hg'.record.applied m x hx
    obtain ⟨-, t', l', hc', hl'⟩ := hg'.record.applied m' x' hx'
    rw [← heq] at hc' hl'
    have htake := hc.agree hg'.sound hq hc'
    have hlt : x.index - 1 < x.index := by omega
    rw [← getElem?_take_of_lt hlt, htake, getElem?_take_of_lt hlt, hl'] at hl
    exact (Option.some.inj hl).symm

/-- B is elected in the next term with the vote of C. -/
def electB : List Action := timeout "B" 3 ++ [.deliver 4, .reply 2]

theorem committed_entries_stay_electB : ∃ (w w' : World (List Bytes)) (r : Raft (List Bytes)),
    World.Reach threeVoters .keeping (fun w a ↦ w.within fixedRules a = true) w ∧
    World.Steps threeVoters .keeping (fun w a ↦ w.within fixedRules a = true) w w' ∧
    w.raft? "A" = some r ∧ 1 ≤ r.commitIndex ∧ ("B", 2) ∈ w'.leaders ∧
    ∃ e, r.log.get 1 = some e ∧ ∀ m term el log, (m, .becameLeader term el log) ∈ w'.history →
      r.term < term → log.get 1 = some e := by
  have hrun : (World.init.checkedSteps threeVoters .keeping (·.within fixedRules) commitA).bind
      (fun w ↦ (w.checkedSteps threeVoters .keeping (·.within fixedRules) electB).map fun w' ↦
        ((w.raft? "A").map Raft.commitIndex, w'.leaders)) =
        some (some 1, [("A", 1), ("B", 2)]) := by
    decide +kernel
  obtain ⟨w, hw, hrest⟩ := Option.bind_eq_some_iff.mp hrun
  obtain ⟨w', hw', heq⟩ := Option.map_eq_some_iff.mp hrest
  obtain ⟨hA, hl⟩ := Prod.mk.inj heq
  obtain ⟨r, hr, hk⟩ := Option.map_eq_some_iff.mp hA
  have hreach := World.steps_of_checkedSteps hw
  have hsteps := World.steps_of_checkedSteps hw'
  obtain ⟨⟨e, he, -, hall⟩, -⟩ :=
    committed_entries_stay threeVoters_fixed hreach hsteps hr Nat.one_pos hk.ge
  exact ⟨w, w', r, hreach, hsteps, hr, hk.ge, by simp [hl], e, he, hall⟩

theorem committed_entry_lost_before_start : ∃ (w w' : World (List Bytes)) (r : Raft (List Bytes))
    (e : LogEntry), threeVoters.Fixed abc ∧
    World.Reach threeVoters .keeping
    (fun w a ↦ w.within { fixedRules with early := true } a = true) w ∧
    World.Steps threeVoters .keeping
    (fun w a ↦ w.within { fixedRules with early := true } a = true) w w' ∧ w.raft? "C" = some r ∧
    1 ≤ r.commitIndex ∧ r.log.get 1 = some e ∧
    (w'.hosts "C").disk.log.get 1 ≠ some e := by
  have hrun : (World.init.checkedSteps threeVoters .keeping
      (·.within { fixedRules with early := true }) commitC).bind
      (fun w ↦ (w.checkedSteps threeVoters .keeping
        (·.within { fixedRules with early := true }) overwriteC).map fun w' ↦
          ((w.raft? "C").map fun r ↦ (r.commitIndex, r.log.get 1), (w'.hosts "C").disk.log.get 1)) =
        some (some (2, some ⟨2, 1, .normal []⟩), some ⟨1, 1, .normal []⟩) := by
    decide +kernel
  obtain ⟨w, hw, hrest⟩ := Option.bind_eq_some_iff.mp hrun
  obtain ⟨w', hw', heq⟩ := Option.map_eq_some_iff.mp hrest
  obtain ⟨hC, hlost⟩ := Prod.mk.inj heq
  obtain ⟨r, hr, hk⟩ := Option.map_eq_some_iff.mp hC
  obtain ⟨hk, he⟩ := Prod.mk.inj hk
  refine ⟨w, w', r, _, threeVoters_fixed, World.steps_of_checkedSteps hw,
    World.steps_of_checkedSteps hw', hr, by omega, he, ?_⟩
  rw [hlost]
  decide

theorem exists_commitA : ∃ (w : World (List Bytes)) (r : Raft (List Bytes)),
    World.Reach threeVoters .keeping (fun w a ↦ w.within fixedRules a = true) w ∧
    w.raft? "A" = some r ∧ 1 ≤ r.commitIndex := by
  exact World.exists_checked_raft threeVoters .keeping (·.within fixedRules) commitA "A" _
    (by decide +kernel)

/-- What the commit index of a node covers is on the disks of a majority of the voters. -/
theorem committed_on_majority (hC : cl.Fixed C)
    (h : World.Reach cl F (fun w a ↦ w.within fixedRules a = true) w) {r : Raft σ} {i : ℕ}
    (hn : w.raft? n = some r) (hpos : 0 < i) (hi : i ≤ r.commitIndex) :
    ∃ e, r.log.get i = some e ∧ C.Majority fun v ↦ (w.hosts v).disk.log.get i = some e := by
  obtain ⟨g, hg⟩ := exists_mirrors hC h
  have hs := hg.sound
  obtain ⟨-, hdisk, hcom⟩ := hg.committed hn (hpos.trans_le hi)
  obtain ⟨t, -, hk, hp⟩ := hcom.of_le hi
  have hlen := hs.kept.committed_le t
  have hget : ((g.full t).take i)[i - 1]? = some (g.full t)[i - 1] := by
    rw [getElem?_take_of_lt (by omega), getElem?_eq_getElem]
  have hholds {v} (hv : (g.full t).take i <+: g.log v) :=
    (hg.holds v).get hpos (Ledger.getElem?_of_isPrefix hv hget)
  have hold := hholds hp
  rw [← hdisk] at hold
  obtain ⟨-, A, hA, ha⟩ := (hs.kept.committed_acked t).resolve_left (by omega)
  refine ⟨_, hold, Configuration.Majority.mono hA fun v hv ↦ hholds ?_⟩
  -- a leader that started without the entries would have lost what was committed
  rcases hs.kept.acked_log (hk.trans (ha v hv)) with hl | ⟨u, htu, -, hled, hlost⟩
  · exact hl
  · exact absurd (hs.leader_complete (quorums_intersecting C) htu hled hk) hlost

theorem committed_on_majority_commitA : ∃ (w : World (List Bytes)) (r : Raft (List Bytes)),
    World.Reach threeVoters .keeping (fun w a ↦ w.within fixedRules a = true) w ∧
    w.raft? "A" = some r ∧ 1 ≤ r.commitIndex ∧ ∃ e, r.log.get 1 = some e ∧
      abc.Majority fun v ↦ (w.hosts v).disk.log.get 1 = some e := by
  obtain ⟨w, r, h, hr, hk⟩ := exists_commitA
  exact ⟨w, r, h, hr, hk, committed_on_majority threeVoters_fixed h hr Nat.one_pos hk⟩

/-- The ledger behind a reachable state takes steps with every run that goes on from there. -/
theorem cluster_refines_ledger (hC : cl.Fixed C)
    (h : World.Reach cl F (fun w a ↦ w.within fixedRules a = true) w)
    (h' : World.Steps cl F (fun w a ↦ w.within fixedRules a = true) w w') {g : LedgerState}
    (hg : Mirrors C w.view g) : ∃ g', Steps LogEntry.term (quorums C) g g' ∧ Mirrors C w'.view g' :=
  hg.micros hC (fixed_micros hC h h')

theorem cluster_refines_ledger_commitA :
    ∃ (w : World (List Bytes)) (r : Raft (List Bytes)) (g : LedgerState), w.raft? "A" = some r ∧
    1 ≤ r.commitIndex ∧ Steps LogEntry.term (quorums abc) .init g ∧ Mirrors abc w.view g := by
  obtain ⟨w, r, h, hr, hk⟩ := exists_commitA
  obtain ⟨g, hg⟩ := cluster_refines_ledger threeVoters_fixed .refl h .init
  exact ⟨w, r, g, hr, hk, hg⟩

end RaftConsensus
