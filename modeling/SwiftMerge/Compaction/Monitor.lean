import SwiftMerge.Compaction.TableStore

/-!
# The monitor of the levels (`lsm_tree/compaction.rs`)

`CompactionCoordinator::monitor` looks at the levels 1 to 10 one after another, sleeps and starts
over. It compacts a level when it has more tables than the square of `targetChunks`, or when the
time `compactBy` has come; every compaction, whatever its reason and its result, moves that time an
interval away (`checkLevel`).

`MonitorRun` is what happens to a store under the monitor: its looks at the levels, its sleeps, and
flushes and the passing of time in between.
-/

namespace Compaction

open Lib Lsm Mem

/-- The coordinator's configuration, taken once, and the time of the next compaction. -/
structure CompactionCoordinator where
  targetChunks : TargetChunks
  bloomFalsePositiveRate : F64
  compactionCheckIntervalSeconds : Nat
  compactBy : Nat

/-- So many seconds, in the nanoseconds of the clock. -/
def seconds (n : Nat) : Nat := 10 ^ 9 * n

/-- `CompactionCoordinator::new`. -/
def CompactionCoordinator.new (config : ConfigInfo) (h : 2 ≤ config.targetChunks) (now : Nat) :
    CompactionCoordinator where
  targetChunks := ⟨config.targetChunks, h⟩
  bloomFalsePositiveRate := config.bloomFalsePositiveRate
  compactionCheckIntervalSeconds := config.compactionCheckIntervalSeconds
  compactBy := now + seconds config.compactionCheckIntervalSeconds

/-- The task of the monitor; an `unwrap` of an error ends it. -/
abbrev MonitorProg := Prog DiskOp IoError

def MonitorProg.unwrap {α : Type} (o : DiskOp (Except IoError α)) : MonitorProg α := do
  Prog.ofExcept (← Prog.perform o)

/-- The tables among the entries of a level directory, newest first. -/
def listTables (entries : List (String × File)) : List String :=
  let tables := entries.filter fun e => lastDotPart e.1 = "bin"
  (tables.mergeSort fun a b => b.2.created ≤ a.2.created).map Prod.fst

/-- A level with these tables is to be compacted. -/
def CompactionCoordinator.due (m : CompactionCoordinator) (now : Nat) (tables : List String) : Bool :=
  decide (m.compactBy ≤ now) || decide (m.targetChunks.1 ^ 2 < tables.length)

/-- Moves the time of the next compaction an interval away. -/
def CompactionCoordinator.reset (m : CompactionCoordinator) (now : Nat) : CompactionCoordinator :=
  { m with compactBy := now + seconds m.compactionCheckIntervalSeconds }

/-- The turn of the loop for one level. -/
def CompactionCoordinator.checkLevel (P : Platform) (m : CompactionCoordinator) (level : Nat) :
    MonitorProg CompactionCoordinator := do
  let levelExists ← Prog.perform (.dirExists level)
  Prog.when (!levelExists) (MonitorProg.unwrap (.createDir level))
  let entries ← MonitorProg.unwrap (.readDir level)
  let tables := listTables entries
  let now ← Prog.perform .now
  if m.due now tables then
    -- its error is dropped
    let _ ← (sizeTierCompaction P m.targetChunks m.bloomFalsePositiveRate level tables).attempt
    let now ← Prog.perform .now
    pure (m.reset now)
  else pure m

/-- How long the monitor sleeps between two rounds. -/
def CompactionCoordinator.pause (m : CompactionCoordinator) : Nat :=
  seconds (max 10 (m.compactionCheckIntervalSeconds / 4))

/-! ## Runs -/

/-- A store under the monitor. -/
structure MonitorState where
  coordinator : CompactionCoordinator
  tables : TableStore
  /-- the level that the loop comes to next; 11 at the end of a round -/
  level : Nat

namespace MonitorState

/-- The tables that the monitor lists. -/
def listed (s : MonitorState) (level : Nat) : List String := levelTables s.tables.disk level

/-- The level that the loop comes to next is to be compacted. -/
def due (s : MonitorState) : Bool := s.coordinator.due s.tables.disk.clock (s.listed s.level)

/-- The arguments of its compaction. -/
def cycle (s : MonitorState) : Cycle where
  targetChunks := s.coordinator.targetChunks
  bloomFalsePositiveRate := s.coordinator.bloomFalsePositiveRate
  tableNames := s.listed s.level

/-- The tables after the turn of the loop, which has left the disk `d`. -/
def tablesAfter (s : MonitorState) (d : Disk) : TableStore where
  disk := d
  written :=
    if s.due then promotedRecords s.tables.written s.level 0 s.cycle.units else s.tables.written
  since := s.tables.since

end MonitorState

inductive MonitorEvent
  | checkLevel
  | sleep
  | flush (m : Memtable) (writtenAt : Bytes → Nat)
  /-- time that passes, writes to the log -/
  | idle

inductive MonitorStep (P : Platform) : MonitorState → MonitorEvent → MonitorState → Prop
  | checkLevel {s : MonitorState} {m : CompactionCoordinator} {d : Disk} :
    s.level ≤ 10 →
    Prog.exec (Disk.handler P) (s.coordinator.checkLevel P s.level) s.tables.disk = (.ok m, d) →
    MonitorStep P s .checkLevel ⟨m, s.tablesAfter d, s.level + 1⟩
  | sleep {s : MonitorState} {t : Nat} (ht : s.tables.disk.clock ≤ t) :
    s.level = 11 → s.tables.disk.clock + s.coordinator.pause ≤ t →
    MonitorStep P s .sleep
      { s with tables := { s.tables with disk := s.tables.disk.waitUntil t ht }, level := 1 }
  | flush {s : MonitorState} {m : Memtable} {writtenAt : Bytes → Nat} {t : TableStore} :
    StoreStep P s.tables (.flush m writtenAt) t →
    MonitorStep P s (.flush m writtenAt) { s with tables := t }
  | idle {s : MonitorState} {d : Disk} : Disk.Keeps (fun _ => False) s.tables.disk d →
    MonitorStep P s .idle { s with tables := { s.tables with disk := d } }

/-- A monitor just made, over a store without tables. -/
structure MonitorStart (s : MonitorState) : Prop where
  store : EmptyStore s.tables
  coordinator : ∃ config h, s.coordinator = .new config h s.tables.disk.clock
  level : s.level = 1

abbrev MonitorRun (P : Platform) : List (MonitorEvent × MonitorState) → MonitorState → Prop :=
  Run MonitorStart (MonitorStep P)

/-- The flushes since the monitor looked at the first level. -/
def flushedSince : List (MonitorEvent × MonitorState) → Nat
  | [] => 0
  | (.checkLevel, s) :: h => if s.level = 1 then 0 else flushedSince h
  | (.flush _ _, _) :: h => flushedSince h + 1
  | (_, _) :: h => flushedSince h

/-- The index of each merge fits its four-byte length. -/
def MergesFit (s : MonitorState) : MonitorEvent → Prop
  | .checkLevel => s.due = true → ∀ u ∈ s.cycle.units,
    ((u.map fun name => undated (s.tables.written ⟨s.level, name⟩)).map indexSize).sum < 2 ^ 32
  | _ => True

/-- The step compacts a level. -/
def Fires (x : MonitorEvent × MonitorState) : Prop := x.1 = .checkLevel ∧ x.2.due = true

/-- No level has more tables than the square of `targetChunks`, except the first one, by the flushes
since the monitor looked at it, and the one that the loop comes to next. -/
structure LevelsBounded (h : List (MonitorEvent × MonitorState)) (s : MonitorState) : Prop where
  first : (s.listed 1).length ≤ s.coordinator.targetChunks.1 ^ 2 + flushedSince h
  others : ∀ level, 2 ≤ level → level ≤ 10 → level ≠ s.level →
    (s.listed level).length ≤ s.coordinator.targetChunks.1 ^ 2

/-- A compaction that the time asks for comes an interval after every other one. -/
def TimerApart (h : List (MonitorEvent × MonitorState)) (s : MonitorState) : Prop :=
  s.coordinator.compactBy ≤ s.tables.disk.clock → ∀ x ∈ h, Fires x →
    x.2.tables.disk.clock + seconds s.coordinator.compactionCheckIntervalSeconds ≤
      s.tables.disk.clock

end Compaction
