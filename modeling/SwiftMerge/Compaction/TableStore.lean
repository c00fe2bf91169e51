import SwiftMerge.Compaction.Runs
import SwiftMerge.Lib.Dated
import SwiftMerge.Memtable.Proof.FlushTable

/-!
# The tables of a store over time

A `TableStore` is the disk with the instant at which every record of every table was written: a
table does not store it, but it follows from where the table comes from. A flush writes the records
of the memtable, which were written after the flush before it; a compaction moves the records that
its merges keep. `StoreRun` is what can happen to the tables from an empty disk on: flushes,
error-free compactions of the levels 1 to 10 as `monitor` starts them, and whatever else leaves the
files alone (writes to the log, time passing, directories that `monitor` makes).

Two properties of every state are what readers rely on: `LevelsByAge` (a level has later writes than
the levels below it) and `CreatedByAge` (within a level, a table created later has later writes).
-/

namespace Compaction

open Lib Lsm Mem

/-- The tables with the instants their records were written at. -/
structure TableStore where
  disk : Disk
  written : Path → Dated Bytes Bytes
  /-- the instant since which the memtable has been filling -/
  since : Nat

namespace TableStore

/-- A table of the store. -/
def Table (s : TableStore) (p : Path) (f : File) : Prop :=
  s.disk.file? p = some f ∧ isBin p.name

/-- The records of a table by key. -/
def source (s : TableStore) (p : Path) : Source Bytes Bytes := fun k => (s.written p).lookup k

/-- The tables hold the records that the store has dates of. -/
def Faithful (s : TableStore) : Prop :=
  ∀ p f, s.Table p f →
    KeySorted (s.written p) ∧ Holds ⟨.ssTable, f.bytes⟩ (undated (s.written p))

/-- **Level order is recency order.** -/
structure LevelsByAge (s : TableStore) : Prop where
  faithful : s.Faithful
  newer : ∀ p q f g, s.Table p f → s.Table q g → p.level < q.level →
    Newer (s.source p) (s.source q)

/-- **Creation order is recency order** within a level. -/
structure CreatedByAge (s : TableStore) : Prop where
  faithful : s.Faithful
  newer : ∀ p q f g, s.Table p f → s.Table q g → p.level = q.level → g.created < f.created →
    Newer (s.source p) (s.source q)

end TableStore

/-! ## The steps -/

/-- A record that the merges keep. -/
def keptRecord : Bytes × Bytes × Nat → Bool := onDated fun r => !isTombstone r

/-- The merge of a unit's tables, with the dates of its records. -/
def unitRecords (written : Path → Dated Bytes Bytes) (level : Nat) (targetFiles : List String) :
    Dated Bytes Bytes :=
  mergeStack keptRecord (targetFiles.map fun name => written ⟨level, name⟩)

/-- The records of the tables once the merges of the units are promoted. -/
def promotedRecords (written : Path → Dated Bytes Bytes) (level : Nat) :
    Nat → List (List String) → Path → Dated Bytes Bytes
  | _, [], p => written p
  | id, u :: units, p =>
    if p = ⟨level + 1, promoted (outputName id u)⟩ then unitRecords written level u
    else promotedRecords written level (id + 1) units p

/-- The records of a memtable with the instants they were written at. -/
def datedRecords (inMemoryRepr : InMemoryRepr) (writtenAt : Bytes → Nat) : Dated Bytes Bytes :=
  (records inMemoryRepr).map fun r => (r.1, r.2, writtenAt r.1)

inductive StoreEvent
  | flush (m : Memtable) (writtenAt : Bytes → Nat)
  | compact (level : Nat) (c : Cycle)
  /-- anything that leaves the files alone -/
  | idle

inductive StoreStep (P : Platform) : TableStore → StoreEvent → TableStore → Prop
  | flush {s : TableStore} {m m' : Memtable} {writtenAt : Bytes → Nat} {d' : Disk} :
    Prog.exec (memHandler P) (flush P) (m, s.disk) = (.ok (), (m', d')) →
    FlushFits P m.inMemoryRepr →
    (∀ r ∈ records m.inMemoryRepr, s.since ≤ writtenAt r.1 ∧ writtenAt r.1 ≤ s.disk.clock) →
    StoreStep P s (.flush m writtenAt)
      ⟨d', Function.update s.written (flushPath P s.disk) (datedRecords m.inMemoryRepr writtenAt),
        d'.clock⟩
  | compact {s : TableStore} {level : Nat} {c : Cycle} {d' : Disk} :
    1 ≤ level ∧ level ≤ 10 → level ≤ s.disk.levels → c.targetChunks.1 ≤ 128 →
    c.tableNames = levelTables s.disk level → ErrorFree P level c s.disk d' →
    StoreStep P s (.compact level c) ⟨d', promotedRecords s.written level 0 c.units, s.since⟩
  | idle {s : TableStore} {d' : Disk} :
    Disk.Keeps (fun _ => False) s.disk d' → StoreStep P s .idle { s with disk := d' }

/-- A store without tables. -/
def EmptyStore (s : TableStore) : Prop :=
  s.disk.files = ∅ ∧ (∀ p, s.written p = []) ∧ s.since ≤ s.disk.clock

/-- A run from an empty store. -/
abbrev StoreRun (P : Platform) : List (StoreEvent × TableStore) → TableStore → Prop :=
  Run EmptyStore (StoreStep P)

/-! ## When a compaction keeps the orders -/

/-- What a reader of a unit's tables, in their order, finds of the records that the merges keep. -/
def TableStore.unitSource (s : TableStore) (level : Nat) (targetFiles : List String) :
    Source Bytes Bytes :=
  overlay (targetFiles.map fun name => (s.written ⟨level, name⟩).filter keptRecord)

/-- A table that the compaction leaves out has later writes than the units. -/
def LeftOutNewer (s : TableStore) : StoreEvent → Prop
  | .compact level c => ∀ name ∈ c.tableNames, name ∉ c.units.flatten → ∀ u ∈ c.units,
    Newer (s.source ⟨level, name⟩) (s.unitSource level u)
  | _ => True

/-- The units have later writes than the units before them and than the tables of the next level
that stay there. -/
structure UnitsNewer (s : TableStore) (level : Nat) (c : Cycle) : Prop where
  units : ∀ (i j : Nat) (u v : List String), i < j → c.units[i]? = some u → c.units[j]? = some v →
    Newer (s.unitSource level v) (s.unitSource level u)
  next : ∀ name f, s.Table ⟨level + 1, name⟩ f → name ∉ c.outputs → ∀ u ∈ c.units,
    Newer (s.unitSource level u) (s.source ⟨level + 1, name⟩)

/-- The compaction creates its outputs in the order of their writes. -/
def OutputsByAge (s : TableStore) : StoreEvent → Prop
  | .compact level c => UnitsNewer s level c
  | _ => True

end Compaction
