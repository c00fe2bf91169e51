import SwiftMerge.Compaction.Monitor
import SwiftMerge.Compaction.Proof.Recency
import SwiftMerge.Compaction.Proof.UnitsEnd

/-!
# What the monitor keeps

A round of the monitor leaves every level with at most as many tables as the square of
`targetChunks` (`always_levelsBounded`): a level that has more is compacted, which leaves one table
at most, and what it adds to the next level is there when the loop comes to that one. Only flushes
add to the first level in between.

The time of the next compaction is moved by every compaction, so the time asks for one at most in an
interval (`always_timerApart`), whichever level the loop is at when it comes.

* `exec_checkLevel`: what the turn of the loop does.
* `Compacts.length_levelTables`: a compaction leaves one table of its level at most.
-/

namespace Compaction

open Lib Lsm Mem

variable {P : Platform} {d d' : Disk} {level : Nat}

/-! ## The turn of the loop -/

/-- The disk with the directory of a level. -/
def withLevel (d : Disk) (level : Nat) : Disk := { d with levels := max d.levels level }

theorem keeps_withLevel (d : Disk) (level : Nat) : Disk.Keeps (fun _ => False) d (withLevel d level) :=
  ⟨fun _ => rfl, Nat.le_max_left _ _, Nat.le_refl _⟩

theorem exec_unwrap {α : Type} {o : DiskOp (Except IoError α)} {a : α}
    (h : Disk.step P o d = (.ok a, d')) :
    Prog.exec (Disk.handler P) (MonitorProg.unwrap o) d = (.ok a, d') := by
  have hstep : (Disk.handler P).step o d = (.ok a, d') := h
  rw [MonitorProg.unwrap, Prog.exec_bind_ok (Prog.exec_perform _ o d), hstep]
  rfl

/-- The disk after a compaction, whatever comes of it. -/
def compactedDisk (P : Platform) (m : CompactionCoordinator) (level : Nat) (d : Disk) : Disk :=
  (Prog.exec (Disk.handler P) (sizeTierCompaction P m.targetChunks m.bloomFalsePositiveRate level
    (levelTables d level)) d).2

/-- **The turn of the loop** makes the directory of the level, and compacts it when it is due. -/
theorem exec_checkLevel (m : CompactionCoordinator) (hlevel : 1 ≤ level)
    (hdirs : level ≤ d.levels + 1) :
    Prog.exec (Disk.handler P) (m.checkLevel P level) d =
      if m.due d.clock (levelTables d level) then
        (.ok (m.reset (compactedDisk P m level (withLevel d level)).clock),
          compactedDisk P m level (withLevel d level))
      else (.ok m, withLevel d level) := by
  have hmake : Prog.exec (Disk.handler P) (Prog.when (!decide (1 ≤ level ∧ level ≤ d.levels))
      (MonitorProg.unwrap (.createDir level)) : MonitorProg Unit) d =
        (.ok (), withLevel d level) := by
    by_cases hexists : level ≤ d.levels
    · rw [decide_eq_true ⟨hlevel, hexists⟩]
      rw [withLevel, Nat.max_eq_left hexists]
      rfl
    · rw [decide_eq_false fun h => hexists h.2]
      exact exec_unwrap (Disk.step_createDir hdirs)
  have hread : Disk.step P (.readDir level) (withLevel d level) =
      (.ok ((withLevel d level).dir level), withLevel d level) :=
    if_pos ⟨hlevel, Nat.le_max_right _ _⟩
  have hexists : Prog.exec (Disk.handler P) (Prog.perform (.dirExists level) : MonitorProg Bool) d =
      (.ok (decide (1 ≤ level ∧ level ≤ d.levels)), d) := rfl
  rw [CompactionCoordinator.checkLevel, Prog.exec_bind_ok hexists, Prog.exec_bind_ok hmake,
    Prog.exec_bind_ok (exec_unwrap hread)]
  have hnow : Prog.exec (Disk.handler P) (Prog.perform .now : MonitorProg Nat) (withLevel d level) =
      (.ok d.clock, withLevel d level) := rfl
  rw [Prog.exec_bind_ok hnow]
  change Prog.exec _ (if m.due d.clock (levelTables d level) then _ else _) _ = _
  split
  · rw [Prog.exec_bind_ok (Prog.exec_attempt _ _ _)]
    rfl
  · rfl

/-- A turn that returns has found the directory or made it. -/
theorem dirs_of_exec {m m' : CompactionCoordinator}
    (h : Prog.exec (Disk.handler P) (m.checkLevel P level) d = (.ok m', d')) :
    level ≤ d.levels + 1 := by
  by_contra hdirs
  have hexists : Prog.exec (Disk.handler P) (Prog.perform (.dirExists level) : MonitorProg Bool) d =
      (.ok (decide (1 ≤ level ∧ level ≤ d.levels)), d) := rfl
  rw [CompactionCoordinator.checkLevel, Prog.exec_bind_ok hexists,
    decide_eq_false (fun h => hdirs (h.2.trans (Nat.le_succ _)))] at h
  have hmake : Prog.exec (Disk.handler P) (Prog.when (!false)
      (MonitorProg.unwrap (.createDir level)) : MonitorProg Unit) d = (.error Disk.noSuchFile, d) := by
    have hstep : (Disk.handler P).step (.createDir level) d = (.error Disk.noSuchFile, d) :=
      if_neg hdirs
    change Prog.exec _ (MonitorProg.unwrap (.createDir level)) d = _
    rw [MonitorProg.unwrap, Prog.exec_bind_ok (Prog.exec_perform _ _ d), hstep]
    rfl
  rw [Prog.exec_bind_error hmake] at h
  cases h

/-! ## The number of tables -/

/-- A level has no more tables than before when it has no new ones. -/
theorem length_levelTables_le (h : ∀ name f, lastDotPart name = "bin" →
    d'.file? ⟨level, name⟩ = some f → ∃ g, d.file? ⟨level, name⟩ = some g) :
    (levelTables d' level).length ≤ (levelTables d level).length := by
  refine (List.subperm_of_subset (levelTables_nodup d' level) fun name hname => ?_).length_le
  obtain ⟨hdot, f, hf⟩ := mem_levelTables.1 hname
  exact mem_levelTables.2 ⟨hdot, h name f hdot hf⟩

section
variable {s : TableStore} {c : Cycle} (h : StoreOk P s) (hc : Compacts P s level c d')
include h hc

/-- **A compaction leaves one table of its level** at most. -/
theorem Compacts.length_levelTables : (levelTables d' level).length ≤ 1 := by
  obtain ⟨⟨rest, hsplit, hrest⟩, -⟩ := splitUnits_spec c.targetChunks c.tableNames
  refine (List.subperm_of_subset (levelTables_nodup d' level) fun name hname => ?_).length_le.trans
    hrest
  obtain ⟨hdot, f, hf⟩ := mem_levelTables.1 hname
  rcases compact_file (hc.done h) hf with ⟨j, u, -, hp⟩ | hp | ⟨hf, -, hunits⟩
  · exact absurd (congrArg Path.level hp) (Nat.ne_of_lt (Nat.lt_succ_self level))
  · exact absurd (congrArg Path.level hp) (Nat.ne_of_lt (Nat.lt_succ_self level))
  · -- it was there and is in no unit
    have hmem : name ∈ c.tableNames := hc.names ▸ mem_levelTables.2 ⟨hdot, f, hf⟩
    rw [← hsplit, List.mem_append] at hmem
    refine hmem.resolve_left fun hm => ?_
    obtain ⟨u, hu, hm⟩ := List.mem_flatten.1 hm
    exact hunits rfl u hu hm

theorem Compacts.length_levelTables_other {level' : Nat} (hnext : level' ≠ level + 1) :
    (levelTables d' level').length ≤ (levelTables s.disk level').length := by
  refine length_levelTables_le fun name f _ hf => ?_
  rcases compact_file (hc.done h) hf with ⟨j, u, -, hp⟩ | hp | ⟨hf, -, -⟩
  · exact absurd (congrArg Path.level hp) hnext
  · exact absurd (congrArg Path.level hp) hnext
  · exact ⟨f, hf⟩

end

/-! ## The bound -/

variable {s s' : MonitorState} {h : List (MonitorEvent × MonitorState)} {e : MonitorEvent}

/-- The tables of the store are in order, the loop is at a level or at its end, and no level has too
many tables. -/
structure MonitorOk (P : Platform) (h : List (MonitorEvent × MonitorState)) (s : MonitorState) :
    Prop where
  store : StoreOk P s.tables
  level : 1 ≤ s.level ∧ s.level ≤ 11
  bounded : LevelsBounded h s

theorem MonitorOk.start (hs : MonitorStart s) : MonitorOk P [] s := by
  have hnone : ∀ level, s.listed level = [] := fun level => by
    refine List.eq_nil_iff_forall_not_mem.2 fun name hname => ?_
    obtain ⟨-, f, hf⟩ := mem_levelTables.1 hname
    rw [Disk.file?, hs.store.1, AList.lookup_empty] at hf
    cases hf
  refine ⟨.start hs.store, by simp [hs.level], ⟨?_, fun level _ _ _ => ?_⟩⟩
  · rw [hnone]
    exact Nat.zero_le _
  · rw [hnone]
    exact Nat.zero_le _

/-- The bound when the level that the loop was at is done. -/
theorem LevelsBounded.check (hb : LevelsBounded h s) (hlevel : 1 ≤ s.level)
    {m : CompactionCoordinator} {t : TableStore}
    (hchunks : m.targetChunks = s.coordinator.targetChunks)
    (hdone : (levelTables t.disk s.level).length ≤ s.coordinator.targetChunks.1 ^ 2)
    (hothers : ∀ level, level ≠ s.level + 1 →
      (levelTables t.disk level).length ≤ (s.listed level).length) :
    LevelsBounded ((.checkLevel, s) :: h) ⟨m, t, s.level + 1⟩ := by
  refine ⟨?_, fun level h2 h10 hne => ?_⟩
  · show (levelTables t.disk 1).length ≤ m.targetChunks.1 ^ 2 + flushedSince ((.checkLevel, s) :: h)
    rw [hchunks, flushedSince]
    by_cases hone : s.level = 1
    · rw [if_pos hone, ← hone]
      exact hdone
    · rw [if_neg hone]
      exact (hothers 1 (by omega)).trans hb.first
  · show (levelTables t.disk level).length ≤ m.targetChunks.1 ^ 2
    rw [hchunks]
    by_cases hat : level = s.level
    · rw [hat]
      exact hdone
    · exact (hothers level hne).trans (hb.others level h2 h10 hat)

/-- **The turn of the loop keeps the bound.** -/
theorem MonitorOk.check {m : CompactionCoordinator} (hi : MonitorOk P h s)
    (hfit : MergesFit s .checkLevel) (hlevel : s.level ≤ 10)
    (hx : Prog.exec (Disk.handler P) (s.coordinator.checkLevel P s.level) s.tables.disk = (.ok m, d)) :
    MonitorOk P ((.checkLevel, s) :: h) ⟨m, s.tablesAfter d, s.level + 1⟩ := by
  have hlevel' : 1 ≤ s.level + 1 ∧ s.level + 1 ≤ 11 := ⟨Nat.succ_pos _, Nat.succ_le_succ hlevel⟩
  rw [exec_checkLevel _ hi.level.1 (dirs_of_exec hx)] at hx
  change (if s.due = true then _ else _) = _ at hx
  have hmade := hi.store.idle (keeps_withLevel s.tables.disk s.level)
  cases hdue : s.due with
  | false =>
    rw [hdue] at hx
    obtain ⟨hm, rfl⟩ := Prod.mk.inj hx
    obtain rfl := Except.ok.inj hm
    have htables : s.tablesAfter (withLevel s.tables.disk s.level) =
        { s.tables with disk := withLevel s.tables.disk s.level } := by
      rw [MonitorState.tablesAfter, hdue]
      rfl
    rw [htables]
    refine ⟨hmade, hlevel', hi.bounded.check hi.level.1 rfl ?_ fun level _ => Nat.le_refl _⟩
    have hcount := (Bool.or_eq_false_iff.1 hdue).2
    exact Nat.le_of_not_lt (of_decide_eq_false hcount)
  | true =>
    rw [hdue] at hx
    obtain ⟨hm, rfl⟩ := Prod.mk.inj hx
    obtain rfl := Except.ok.inj hm
    obtain ⟨d', hc⟩ := hmade.exists_compacts (c := s.cycle) hi.level.1 (Nat.le_max_right _ _) rfl
      (hfit hdue)
    have hdisk : compactedDisk P s.coordinator s.level (withLevel s.tables.disk s.level) = d' :=
      congrArg Prod.snd hc.errorFree.returns
    rw [hdisk]
    have htables : s.tablesAfter d' = compacted { s.tables with
        disk := withLevel s.tables.disk s.level } s.level s.cycle d' := by
      rw [MonitorState.tablesAfter, hdue]
      rfl
    rw [htables]
    refine ⟨Compacts.ok hmade hc, hlevel', hi.bounded.check hi.level.1 rfl ?_ fun level hne =>
      hc.length_levelTables_other hmade hne⟩
    exact (hc.length_levelTables hmade).trans (Nat.one_le_pow _ _ (by
      have := s.coordinator.targetChunks.2
      omega))

theorem LevelsBounded.flush {m : Memtable} {writtenAt : Bytes → Nat} {t : TableStore}
    (hok : StoreOk P s.tables) (hb : LevelsBounded h s)
    (hs : StoreStep P s.tables (.flush m writtenAt) t) :
    LevelsBounded ((.flush m writtenAt, s) :: h) { s with tables := t } := by
  cases hs with
  | flush hx hfits hdates =>
    rw [exec_flush (flushable_of_exec hx), Prod.mk.injEq, Prod.mk.injEq] at hx
    obtain ⟨-, -, rfl⟩ := hx
    refine ⟨?_, fun level h2 h10 hne => ?_⟩
    · show (levelTables (flushedDisk P m s.tables.disk) 1).length ≤ _ + (flushedSince h + 1)
      rw [levelTables_flush hok, List.length_cons, ← Nat.add_assoc]
      exact Nat.succ_le_succ hb.first
    · refine (length_levelTables_le fun name f _ hf => ⟨f, ?_⟩).trans (hb.others level h2 h10 hne)
      rw [← hf]
      refine (flushedDisk_keeps.file fun hp => ?_).symm
      have hone : level = 1 := congrArg Path.level hp
      omega

/-- **Every step keeps the bound.** -/
theorem MonitorOk.step (hi : MonitorOk P h s) (hs : MonitorStep P s e s') (hfit : MergesFit s e) :
    MonitorOk P ((e, s) :: h) s' := by
  cases hs with
  | checkLevel hlevel hx => exact hi.check hfit hlevel hx
  | sleep ht hlevel _ =>
    have hk : Disk.Keeps (fun _ => False) s.tables.disk (s.tables.disk.waitUntil _ ht) :=
      ⟨fun _ => rfl, Nat.le_refl _, ht⟩
    refine ⟨hi.store.idle hk, (by decide : 1 ≤ 1 ∧ 1 ≤ 11), hi.bounded.first,
      fun level h2 h10 _ => ?_⟩
    exact hi.bounded.others level h2 h10 (by omega)
  | flush hs => exact ⟨hi.store.step hs, hi.level, hi.bounded.flush hi.store hs⟩
  | idle hk =>
    have hsame : ∀ level, (levelTables _ level).length ≤ (s.listed level).length := fun level =>
      length_levelTables_le fun name f _ hf => ⟨f, (hk.file fun h => h).symm.trans hf⟩
    exact ⟨hi.store.idle hk, hi.level, (hsame 1).trans hi.bounded.first, fun level h2 h10 hne =>
      (hsame level).trans (hi.bounded.others level h2 h10 hne)⟩

/-- **The levels stay bounded**: in every state of a run, no level from 2 to 10 has more tables than
the square of `targetChunks`, except the one that the loop comes to next, and the first level has
more only by the flushes since the loop was there. -/
theorem always_levelsBounded (hr : MonitorRun P h s) (hfit : ∀ x ∈ h, MergesFit x.2 x.1) :
    Always LevelsBounded h s :=
  (hr.always_of (C := MergesFit) .start (fun hi hs hc => hi.step hs hc) hfit).mono
    MonitorOk.bounded

/-! ## The timer -/

theorem compactedDisk_clock (m : CompactionCoordinator) (level : Nat) (d : Disk) :
    d.clock ≤ (compactedDisk P m level d).clock :=
  (Disk.exec_keeps (sizeTierCompaction_within P m.targetChunks m.bloomFalsePositiveRate level
    (levelTables d level))).1.clock

/-- The clock does not go back, and every compaction has put the time of the next one an interval
off. -/
structure TimerOk (h : List (MonitorEvent × MonitorState)) (s : MonitorState) : Prop where
  level : 1 ≤ s.level
  past : ∀ x ∈ h, x.2.tables.disk.clock ≤ s.tables.disk.clock
  compactBy : ∀ x ∈ h, Fires x →
    x.2.tables.disk.clock + seconds s.coordinator.compactionCheckIntervalSeconds ≤
      s.coordinator.compactBy

theorem TimerOk.quiet (hi : TimerOk h s) (hf : ¬Fires (e, s)) {t : TableStore} {level : Nat}
    (hclock : s.tables.disk.clock ≤ t.disk.clock) (hlevel : 1 ≤ level) :
    TimerOk ((e, s) :: h) ⟨s.coordinator, t, level⟩ where
  level := hlevel
  past := List.forall_mem_cons.2 ⟨hclock, fun x hx => (hi.past x hx).trans hclock⟩
  compactBy := List.forall_mem_cons.2 ⟨fun hfires => absurd hfires hf, hi.compactBy⟩

theorem TimerOk.fire (hi : TimerOk h s) {t : TableStore} {level now : Nat}
    (hclock : s.tables.disk.clock ≤ t.disk.clock) (hnow : t.disk.clock = now) (hlevel : 1 ≤ level) :
    TimerOk ((e, s) :: h) ⟨s.coordinator.reset now, t, level⟩ := by
  have hpast : ∀ x ∈ (e, s) :: h, x.2.tables.disk.clock ≤ t.disk.clock :=
    List.forall_mem_cons.2 ⟨hclock, fun x hx => (hi.past x hx).trans hclock⟩
  refine ⟨hlevel, hpast, fun x hx _ => ?_⟩
  have hx := hpast x hx
  rw [hnow] at hx
  exact Nat.add_le_add_right hx (seconds s.coordinator.compactionCheckIntervalSeconds)

theorem StoreStep.clock_le {t t' : TableStore} {e : StoreEvent} (hs : StoreStep P t e t') :
    t.disk.clock ≤ t'.disk.clock := by
  cases hs with
  | flush hx =>
    rw [exec_flush (flushable_of_exec hx), Prod.mk.injEq, Prod.mk.injEq] at hx
    obtain ⟨-, -, rfl⟩ := hx
    exact (flushedDisk_keeps (P := P)).clock
  | compact _ _ _ _ herr =>
    exact (keeps_of_exec (sizeTierCompaction_within P _ _ _ _) herr.returns).clock
  | idle hk => exact hk.clock

/-- **Every step keeps the timer.** -/
theorem TimerOk.step (hi : TimerOk h s) (hs : MonitorStep P s e s') : TimerOk ((e, s) :: h) s' := by
  cases hs with
  | checkLevel _ hx =>
    rw [exec_checkLevel _ hi.level (dirs_of_exec hx)] at hx
    change (if s.due = true then _ else _) = _ at hx
    cases hdue : s.due with
    | false =>
      rw [hdue] at hx
      obtain ⟨hm, rfl⟩ := Prod.mk.inj hx
      obtain rfl := Except.ok.inj hm
      refine hi.quiet (fun hf => ?_) (keeps_withLevel _ _).clock (Nat.succ_pos _)
      exact Bool.false_ne_true (hdue.symm.trans hf.2)
    | true =>
      rw [hdue] at hx
      obtain ⟨hm, rfl⟩ := Prod.mk.inj hx
      obtain rfl := Except.ok.inj hm
      exact hi.fire (compactedDisk_clock s.coordinator s.level (withLevel s.tables.disk s.level))
        rfl (Nat.succ_pos _)
  | sleep ht _ _ =>
    have hf : ¬Fires (.sleep, s) := fun hf => by cases hf.1
    exact hi.quiet hf (t := { s.tables with disk := s.tables.disk.waitUntil _ ht }) ht (Nat.le_refl 1)
  | @flush m writtenAt t hs =>
    have hf : ¬Fires (.flush m writtenAt, s) := fun hf => by cases hf.1
    exact hi.quiet hf hs.clock_le hi.level
  | @idle d hk =>
    have hf : ¬Fires (.idle, s) := fun hf => by cases hf.1
    exact hi.quiet hf (t := { s.tables with disk := d }) hk.clock hi.level

/-- **The time asks for one compaction in an interval** at most, in every run: when it has come, every
compaction before was at least an interval ago. -/
theorem always_timerApart (hr : MonitorRun P h s) : Always TimerApart h s := by
  have hstart : ∀ {s}, MonitorStart s → TimerOk [] s := fun hs =>
    ⟨hs.level.ge, nofun, nofun⟩
  have hall := hr.always_of (I := TimerOk) (C := fun _ _ => True) hstart
    (fun hi hs _ => hi.step hs) fun _ _ => trivial
  exact hall.mono fun hi hdue x hx hf => (hi.compactBy x hx hf).trans hdue

/-! ### A compaction that the time asks for -/

/-- A monitor with the built-in configuration, made when the clock showed 0, at the first level. -/
def plainMonitor (tables : TableStore) : MonitorState := ⟨.new defaultConfig (by decide) 0, tables, 1⟩

theorem flushes_clock_le (n : Nat) {t : Nat} (h : n ≤ t) : (flushes n).disk.clock ≤ t :=
  (flushes_clock n).1.trans_le h

/-- The monitor after two flushes, once the time of the first compaction has come. -/
def dueMonitor : MonitorState :=
  plainMonitor { flushes 2 with
    disk := (flushes 2).disk.waitUntil (seconds 3600) (flushes_clock_le 2 (by decide)) }

theorem dueMonitor_due : dueMonitor.due = true := by
  rw [MonitorState.due, CompactionCoordinator.due, Bool.or_eq_true_iff]
  exact .inl (decide_eq_true (Nat.zero_add (seconds 3600)).le)

/-- Two flushes, their compaction, and a wait from the state `s` after it. -/
def dueRun (s : MonitorState) : List (MonitorEvent × MonitorState) :=
  [(.idle, s), (.checkLevel, dueMonitor), (.idle, plainMonitor (flushes 2)),
    ((.flush oneKey fun _ => (flushes 1).since), plainMonitor (flushes 1)),
    ((.flush oneKey fun _ => (flushes 0).since), plainMonitor (flushes 0))]

/-- The wait is as long as the interval, so the time comes again. -/
theorem dueMonitor_run : ∃ s s', MonitorRun .plain (dueRun s) s' ∧
    s'.coordinator.compactBy ≤ s'.tables.disk.clock := by
  have hstart : MonitorStart (plainMonitor (flushes 0)) :=
    ⟨⟨rfl, fun _ => rfl, Nat.le_refl _⟩, ⟨_, _, rfl⟩, rfl⟩
  have hwait : MonitorRun .plain _ dueMonitor :=
    .step (.step (.step (.start hstart) (.flush (flushOne_step (flushes_run 0).2.since_le)))
      (.flush (flushOne_step (flushes_run 1).2.since_le)))
      (.idle ⟨fun _ => rfl, Nat.le_refl _, flushes_clock_le 2 (by decide)⟩)
  have hx : Prog.exec (Disk.handler .plain) (dueMonitor.coordinator.checkLevel .plain 1)
      dueMonitor.tables.disk = if dueMonitor.due then _ else _ :=
    exec_checkLevel dueMonitor.coordinator (Nat.le_refl 1) (Nat.succ_le_succ (Nat.zero_le _))
  rw [if_pos dueMonitor_due] at hx
  let t := dueMonitor.tablesAfter
    (compactedDisk .plain dueMonitor.coordinator 1 (withLevel dueMonitor.tables.disk 1))
  have hlater : t.disk.clock ≤ t.disk.clock + seconds 3600 := Nat.le_add_right _ _
  exact ⟨_, _, .step (.step hwait (.checkLevel (by decide) hx)) (.idle
    (d := t.disk.waitUntil (t.disk.clock + seconds 3600) hlater) ⟨fun _ => rfl, Nat.le_refl _, hlater⟩),
    Nat.le_refl _⟩

/-- The compaction of the two tables keeps the bound. -/
theorem dueMonitor_bounded : ∃ s s', Always LevelsBounded (dueRun s) s' := by
  obtain ⟨s, s', hr, -⟩ := dueMonitor_run
  refine ⟨s, s', always_levelsBounded hr ?_⟩
  have hfits : MergesFit dueMonitor .checkLevel := fun _ u hu => by
    have hnames : dueMonitor.cycle.tableNames = flushNames 2 := levelTables_flushes 2
    have hsub := sublist_of_mem_splitUnits hu
    rw [hnames] at hsub
    exact flushes_fit (by decide) hsub
  simp only [dueRun, List.forall_mem_cons]
  exact ⟨trivial, hfits, trivial, trivial, trivial, nofun⟩

/-- When the time has come again, the compaction was an interval ago. -/
theorem dueMonitor_apart : ∃ s s', Always TimerApart (dueRun s) s' ∧
    s'.coordinator.compactBy ≤ s'.tables.disk.clock := by
  obtain ⟨s, s', hr, hdue⟩ := dueMonitor_run
  exact ⟨s, s', always_timerApart hr, hdue⟩

end Compaction
