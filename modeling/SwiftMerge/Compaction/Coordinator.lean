import SwiftMerge.Compaction.Unit

/-!
# The compaction of a level (`lsm_tree/compaction.rs`)

`sizeTierCompaction` splits the level's tables, newest first, into units of `targetChunks` tables
(`splitUnits`; a rest of at least two is a unit too, a rest of one is left out), compacts each unit,
logging the ones that fail, and then promotes every output to the next level. `monitor` is what
calls it, with the tables of a level newest first (`levelTables`).
-/

namespace Compaction

open Lib Lsm

/-- A validated `target_chunks` is at least two. -/
abbrev TargetChunks := { n : Nat // 2 ≤ n }

/-- The loop that splits the tables from index `i` on: the units, and the index it stops at. The
slices of the source are checked. -/
def splitLoop (targetChunks : TargetChunks) (tableNames : List String) (i : Nat) :
    List (List String) × Nat :=
  if i + targetChunks.1 ≤ tableNames.length then
    let unitFiles := (tableNames.drop i).take targetChunks.1
    let (units, stop) := splitLoop targetChunks tableNames (i + targetChunks.1)
    (unitFiles :: units, stop)
  else ([], i)
termination_by tableNames.length - i
decreasing_by
  have := targetChunks.2
  omega

/-- The units of a compaction. -/
def splitUnits (targetChunks : TargetChunks) (tableNames : List String) : List (List String) :=
  let (units, i) := splitLoop targetChunks tableNames 0
  if 2 ≤ tableNames.length - i then units ++ [tableNames.drop i] else units

/-- Compacts the units one after another, from number `id` on: the outputs of those that succeed. -/
def compactUnits (P : Platform) (dir : Nat) (bloomFalsePositiveRate : F64) :
    Nat → List (List String) → CompactionProg (List String)
  | _, [] => pure []
  | id, targetFiles :: units => do
    let result ← (compact P id dir (dir + 1) bloomFalsePositiveRate targetFiles).attempt
    let compactedTmpFiles ← compactUnits P dir bloomFalsePositiveRate (id + 1) units
    match result with
    | .ok compacted => pure (compacted :: compactedTmpFiles)
    -- the error is logged
    | .error _ => pure compactedTmpFiles

/-- Promotes the outputs: from `.tmp` in the level to `.bin` in the next one. -/
def promote (dir : Nat) : List String → CompactionProg Unit
  | [] => pure ()
  | compactedFile :: rest => do
    let newName := replace compactedFile transitionMergedSstableExt ssTableFileExt
    CompactionProg.io (.rename ⟨dir, compactedFile⟩ ⟨dir + 1, newName⟩)
    promote dir rest

/-! ## The level summary -/

/-- The marker of a boundary key in the summary. -/
def keyToU64 (key : Bytes) : UInt64 :=
  key.foldl (fun hash byte => (hash ^^^ byte.toUInt64) * 0x100000001b3) 0xcbf29ce484222325

/-- The least and the greatest key seen so far. -/
structure Boundaries where
  minKey : Option Bytes
  maxKey : Option Bytes

def Boundaries.add (b : Boundaries) (key : Bytes) : Boundaries where
  minKey := match b.minKey with
    | some current => if compare key current != .lt then some current else some key
    | none => some key
  maxKey := match b.maxKey with
    | some current => if compare key current != .gt then some current else some key
    | none => some key

/-- Reads the keys of a data section, from `ptr` on. -/
def sectionKeys (file : Bytes) (ptr size : Nat) (b : Boundaries) :
    Except CompactionError Boundaries :=
  if ptr < size then
    match _ : readDataSectionEntry file with
    | .ok (r, file') => sectionKeys file' (ptr + (encodeRecord r).length) size (b.add r.1)
    | .error e => .error e
  else .ok b
termination_by file.length
decreasing_by
  obtain ⟨h, -⟩ := readDataSectionEntry_eq ‹readDataSectionEntry file = _›
  rw [h, List.length_append]
  simp only [encodeRecord, List.length_append, length_field]
  omega

/-- The boundary keys of a level's tables. -/
def levelBoundaries (level : Nat) : List String → Boundaries → CompactionProg Boundaries
  | [], b => pure b
  | fileName :: rest, b => do
    let file ← CompactionProg.io (.read ⟨level, fileName⟩)
    let (dataSection, size) ← Prog.ofExcept (toDataSection fileName ⟨.ssTable, file.bytes⟩)
    let b ← Prog.ofExcept (sectionKeys dataSection 0 size b)
    levelBoundaries level rest b

def buildLevelSummary (level : Nat) : CompactionProg Unit := do
  let levelExists ← Prog.perform (.dirExists level)
  Prog.ensure levelExists (.compactionIoError
    (.notFound ("level directory missing: data/l" ++ toString level)))
  let entries ← CompactionProg.io (.readDir level)
  let binFiles := (entries.map Prod.fst).filter (endsWith · ssTableFileExt)
  let b ← levelBoundaries level binFiles ⟨none, none⟩
  let minU64 := (b.minKey.map keyToU64).getD 0
  let maxU64 := (b.maxKey.map keyToU64).getD 0
  let bloomSize := bloomFilterSize * binFiles.length
  let levelSummary := leBytes 8 minU64.toNat ++ leBytes 8 maxU64.toNat ++ List.replicate bloomSize 0
  CompactionProg.io (.create ⟨level, levelFilterName⟩)
  CompactionProg.io (.append ⟨level, levelFilterName⟩ levelSummary)

/-! ## A compaction -/

/-- `size_tier_compaction` of `data/l{dirLevel}`. The callbacks that it ends with (a reload of the
reader) are not part of it. -/
def sizeTierCompaction (P : Platform) (targetChunks : TargetChunks) (bloomFalsePositiveRate : F64)
    (dirLevel : Nat) (tableNames : List String) : CompactionProg Unit := do
  let compactionUnits := splitUnits targetChunks tableNames
  let compactedTmpFiles ← compactUnits P dirLevel bloomFalsePositiveRate 0 compactionUnits
  let nextLevel := dirLevel + 1
  let nextExists ← Prog.perform (.dirExists nextLevel)
  Prog.when (!nextExists) (CompactionProg.io (.createDir nextLevel))
  promote dirLevel compactedTmpFiles
  buildLevelSummary nextLevel
  let entries ← CompactionProg.io (.readDir nextLevel)
  let hasBinFiles := entries.any fun e => endsWith e.1 ssTableFileExt
  Prog.when (!hasBinFiles) (removeFile ⟨nextLevel, levelFilterName⟩)

/-- The tables of a level as `monitor` lists them, newest first. -/
def levelTables (d : Disk) (level : Nat) : List String :=
  let tables := (d.dir level).filter fun e => lastDotPart e.1 = "bin"
  (tables.mergeSort fun a b => b.2.created ≤ a.2.created).map Prod.fst

end Compaction
