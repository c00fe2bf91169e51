import SwiftMerge.Compaction.Coordinator
import SwiftMerge.Lib.Run
import SwiftMerge.Lsm.Proof.TableProof
import Mathlib.Data.Nat.Log

/-!
# Runs of compactions

An error-free compaction is one that returns and in which no unit fails. `LevelRun` is what happens
to a level and the next one over time: error-free compactions, with any change in between that
leaves the next level's tables alone (flushes, compactions of the levels below).
-/

namespace Compaction

open Lib Lsm

/-! ## Outputs -/

/-- The name of a unit's output: the first pair of its last pass. -/
def outputName (id : Nat) (targetFiles : List String) : String :=
  tmpName id (Nat.clog 2 targetFiles.length - 1) 0

/-- The outputs of units numbered from `id` on. -/
def unitOutputs : Nat → List (List String) → List String
  | _, [] => []
  | id, u :: units => outputName id u :: unitOutputs (id + 1) units

/-- The name an output is promoted under. -/
def promoted (compactedFile : String) : String :=
  replace compactedFile transitionMergedSstableExt ssTableFileExt

/-! ## Error-free compactions -/

/-- The arguments of a compaction of a level. -/
structure Cycle where
  targetChunks : TargetChunks
  bloomFalsePositiveRate : F64
  tableNames : List String

def Cycle.units (c : Cycle) : List (List String) := splitUnits c.targetChunks c.tableNames

/-- The names the compaction promotes its outputs under. -/
def Cycle.outputs (c : Cycle) : List String := (unitOutputs 0 c.units).map promoted

/-- The compaction of level `dir` returns, and none of its units fails. -/
structure ErrorFree (P : Platform) (dir : Nat) (c : Cycle) (d d' : Disk) : Prop where
  returns : Prog.exec (Disk.handler P)
    (sizeTierCompaction P c.targetChunks c.bloomFalsePositiveRate dir c.tableNames) d = (.ok (), d')
  units : ∃ outs d1, Prog.exec (Disk.handler P)
    (compactUnits P dir c.bloomFalsePositiveRate 0 c.units) d = (.ok outs, d1) ∧
      outs.length = c.units.length

/-! ## The cycles of a level -/

inductive LevelEvent
  | cycle (c : Cycle)
  /-- anything that leaves the tables of the next level alone -/
  | other

inductive LevelStep (P : Platform) (dir : Nat) : Disk → LevelEvent → Disk → Prop
  | cycle {c : Cycle} {d d' : Disk} : ErrorFree P dir c d d' → LevelStep P dir d (.cycle c) d'
  | other {d d' : Disk} :
    (∀ name, isBin name → d'.file? ⟨dir + 1, name⟩ = d.file? ⟨dir + 1, name⟩) →
    LevelStep P dir d .other d'

/-- A run of a level and the next one, from any disk. -/
abbrev LevelRun (P : Platform) (dir : Nat) : List (LevelEvent × Disk) → Disk → Prop :=
  Run (fun _ => True) (LevelStep P dir)

/-- A table of the level has a record of the key. -/
def KeyIn (level : Nat) (d : Disk) (k : Bytes) : Prop :=
  ∃ name f rs v, isBin name ∧ d.file? ⟨level, name⟩ = some f ∧ Holds ⟨.ssTable, f.bytes⟩ rs ∧
    (k, v) ∈ rs

/-- Every table that the next level had at some point of the run is still there, the same file with
the same bytes, and so is every key it had. -/
structure TablesKept (dir : Nat) (h : List (LevelEvent × Disk)) (d : Disk) : Prop where
  tables : ∀ x ∈ h, ∀ name f, isBin name → x.2.file? ⟨dir + 1, name⟩ = some f →
    d.file? ⟨dir + 1, name⟩ = some f
  keys : ∀ x ∈ h, ∀ k, KeyIn (dir + 1) x.2 k → KeyIn (dir + 1) d k

/-- No output of the compaction is promoted to the name of a table of the next level. -/
def NoCollision (dir : Nat) (d : Disk) : LevelEvent → Prop
  | .cycle c => ∀ name ∈ c.outputs, d.file? ⟨dir + 1, name⟩ = none
  | .other => True

end Compaction
