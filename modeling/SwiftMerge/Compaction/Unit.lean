import SwiftMerge.Lsm.SsTable
import SwiftMerge.Lsm.FileName

/-!
# Compaction units (`lsm_tree/compaction.rs`)

A unit merges its tables, newest first, in pairwise rounds: `[a, b, c] → [ab.tmp, c] → [abc.tmp]`.
`joinTables` is the merge of two tables, which ends at the first record it cannot read and leaves
what it has written. Each source of a pair is drained (renamed from `.bin` to `.drain`) once the
pair is joined; the last output is rebuilt as a table, and then the consumed files are removed.

A round's files and names come from the unit's id, the pass and the pair only (`nextRound`), so the
list of files of the next round is known before the round runs.
-/

namespace Compaction

open Lib Lsm

abbrev CompactionProg := Prog DiskOp CompactionError

/-- A call that may fail, with the conversion of `io::Error`. -/
def CompactionProg.io {α : Type} (o : DiskOp (Except IoError α)) : CompactionProg α := do
  Prog.ofExcept ((← Prog.perform o).mapError .compactionIoError)

/-! ## The merge of two tables -/

/-- A read takes bytes off the file, and more than none when it returns a record. -/
theorem readNext_length {s s' : Section} {r : Option Record}
    (h : readNextNonTombstoneEntry s = .ok (r, s')) :
    s'.file.length + r.isSome.toNat ≤ s.file.length := by
  fun_induction readNextNonTombstoneEntry s with
  | case1 s hlt r' file hr s'' ht ih =>
    have := ih h
    rw [(readDataSectionEntry_eq hr).1, List.length_append]
    simp only [s''] at this
    omega
  | case2 s hlt r' file hr s'' ht =>
    rw [Except.ok.injEq, Prod.mk.injEq] at h
    obtain ⟨rfl, rfl⟩ := h
    rw [(readDataSectionEntry_eq hr).1, List.length_append]
    simp only [s'', encodeRecord, List.length_append, length_field, Option.isSome_some,
      Bool.toNat_true]
    omega
  | case3 s hlt e he => cases h
  | case4 s hlt =>
    rw [Except.ok.injEq, Prod.mk.injEq] at h
    obtain ⟨rfl, rfl⟩ := h
    simp

/-- The bytes a merge has written, and how it ended. -/
abbrev Written := Bytes × Except CompactionError Unit

/-- A record written in front of what is written next. -/
def Written.after (r : Record) (w : Written) : Written := (encodeRecord r ++ w.1, w.2)

/-- The merge loops, from the records at the head of each side on: of two records with equal keys
the left one is written, and both sides advance. -/
def joinLoop (left : Option Record) (l : Section) (right : Option Record) (r : Section) : Written :=
  match left, right with
  | some a, some b =>
    match compare a.1 b.1 with
    | .lt =>
      match _ : readNextNonTombstoneEntry l with
      | .ok (left', l') => .after a (joinLoop left' l' (some b) r)
      | .error e => .after a ([], .error e)
    | .gt =>
      match _ : readNextNonTombstoneEntry r with
      | .ok (right', r') => .after b (joinLoop (some a) l right' r')
      | .error e => .after b ([], .error e)
    | .eq =>
      match _ : readNextNonTombstoneEntry l with
      | .ok (left', l') =>
        match _ : readNextNonTombstoneEntry r with
        | .ok (right', r') => .after a (joinLoop left' l' right' r')
        | .error e => .after a ([], .error e)
      | .error e => .after a ([], .error e)
  | some a, none =>
    match _ : readNextNonTombstoneEntry l with
    | .ok (left', l') => .after a (joinLoop left' l' none r)
    | .error e => .after a ([], .error e)
  | none, some b =>
    match _ : readNextNonTombstoneEntry r with
    | .ok (right', r') => .after b (joinLoop none l right' r')
    | .error e => .after b ([], .error e)
  | none, none => ([], .ok ())
termination_by l.file.length + left.isSome.toNat + (r.file.length + right.isSome.toNat)
decreasing_by
  · have := readNext_length ‹_›
    simp only [Option.isSome_some, Bool.toNat_true]
    omega
  · have := readNext_length ‹_›
    simp only [Option.isSome_some, Bool.toNat_true]
    omega
  · have := readNext_length ‹readNextNonTombstoneEntry l = _›
    have := readNext_length ‹readNextNonTombstoneEntry r = _›
    simp only [Option.isSome_some, Bool.toNat_true]
    omega
  · have := readNext_length ‹_›
    simp only [Option.isSome_some, Bool.toNat_true]
    omega
  · have := readNext_length ‹_›
    simp only [Option.isSome_some, Bool.toNat_true]
    omega

/-- What `join_tables` writes, and how it ends. -/
def joinTables (left : TableType) (lName : String) (right : TableType) (rName : String) : Written :=
  let opened : Except CompactionError _ := do
    let (lFile, lSize) ← toDataSection lName left
    let (rFile, rSize) ← toDataSection rName right
    let (leftEntry, l) ← readNextNonTombstoneEntry ⟨lFile, 0, lSize⟩
    let (rightEntry, r) ← readNextNonTombstoneEntry ⟨rFile, 0, rSize⟩
    pure (leftEntry, l, rightEntry, r)
  match opened with
  | .ok (leftEntry, l, rightEntry, r) => joinLoop leftEntry l rightEntry r
  | .error e => ([], .error e)

/-! ## A unit's rounds -/

def tableTypeFromName (fileName : String) : TableTypeKind :=
  if endsWith fileName ssTableFileExt then .ssTable else .rawDataSection

/-- The name a source has once it is drained; an intermediate file keeps its own. -/
def drainedName (fileName : String) : String :=
  match stripSuffix fileName ssTableFileExt with
  | some baseName => baseName ++ drainedFileExt
  | none => fileName

/-- `mark_drained_file` in `data/l{dir}`. -/
def markDrainedFile (dir : Nat) (fileName : String) : CompactionProg String :=
  match stripSuffix fileName ssTableFileExt with
  | some _ => do
    CompactionProg.io (.rename ⟨dir, fileName⟩ ⟨dir, drainedName fileName⟩)
    pure (drainedName fileName)
  | none => pure fileName

/-- Joins one pair into `outName` and drains it: the names of the consumed files. -/
def joinPair (dir : Nat) (left right outName : String) : CompactionProg (List String) := do
  let leftFile ← CompactionProg.io (.read ⟨dir, left⟩)
  let rightFile ← CompactionProg.io (.read ⟨dir, right⟩)
  CompactionProg.io (.create ⟨dir, outName⟩)
  let joined := joinTables ⟨tableTypeFromName left, leftFile.bytes⟩ left
    ⟨tableTypeFromName right, rightFile.bytes⟩ right
  CompactionProg.io (.append ⟨dir, outName⟩ joined.1)
  Prog.ofExcept joined.2
  let consumedLeft ← markDrainedFile dir left
  let consumedRight ← markDrainedFile dir right
  pure [consumedLeft, consumedRight]

/-- The files of the next round: an output for each pair, and the odd file unchanged. -/
def nextRound (id pass : Nat) : Nat → List String → List String
  | pairIdx, _ :: _ :: rest => tmpName id pass pairIdx :: nextRound id pass (pairIdx + 1) rest
  | _, odd => odd

/-- One round over a unit's files: the names of the consumed ones. -/
def joinRound (dir id pass : Nat) : Nat → List String → CompactionProg (List String)
  | pairIdx, left :: right :: rest => do
    let consumed ← joinPair dir left right (tmpName id pass pairIdx)
    let consumed' ← joinRound dir id pass (pairIdx + 1) rest
    pure (consumed ++ consumed')
  | _, _ => pure []

theorem nextRound_length : ∀ (id pass pairIdx : Nat) (files : List String),
    (nextRound id pass pairIdx files).length ≤ files.length
  | _, _, _, [] => Nat.le_refl _
  | _, _, _, [_] => Nat.le_refl _
  | id, pass, pairIdx, _ :: _ :: rest => by
    have := nextRound_length id pass (pairIdx + 1) rest
    simp only [nextRound, List.length_cons]
    omega

/-- The rounds from `pass` on: the last output and the consumed files. -/
def joinRounds (dir id pass : Nat) (targetFiles consumedFiles : List String) :
    CompactionProg (String × List String) :=
  match targetFiles with
  | [] => Prog.fail (.compactionIoError (.invalidData "compaction finished without output file"))
  | [dataSection] => pure (dataSection, consumedFiles)
  | left :: right :: rest => do
    let consumed ← joinRound dir id pass 0 (left :: right :: rest)
    joinRounds dir id (pass + 1) (nextRound id pass 0 (left :: right :: rest))
      (consumedFiles ++ consumed)
termination_by targetFiles.length
decreasing_by
  have := nextRound_length id pass (0 + 1) rest
  simp only [nextRound, List.length_cons]
  omega

/-- `remove_file`, which passes over a missing file. -/
def removeFile (p : Path) : CompactionProg Unit := do
  match ← Prog.perform (.remove p) with
  | .ok () => pure ()
  | .error (.notFound _) => pure ()
  | .error e => Prog.fail (.compactionIoError e)

/-- Removes consumed files. -/
def removeConsumed (dir : Nat) : List String → CompactionProg Unit
  | [] => pure ()
  | consumed :: rest => do
    removeFile ⟨dir, consumed⟩
    removeConsumed dir rest

/-- `CompactionUnit::compact`: the name of the unit's output in `data/l{dir}`. -/
def compact (P : Platform) (id dir outputLevel : Nat) (bloomFalsePositiveRate : F64)
    (targetFiles : List String) : CompactionProg String := do
  Prog.ensure (!targetFiles.isEmpty)
    (.compactionIoError (.invalidInput "compaction unit has no files"))
  let (dataSection, consumedFiles) ← joinRounds dir id 0 targetFiles []
  let source ← CompactionProg.io (.read ⟨dir, dataSection⟩)
  let output ← Prog.ofExcept
    (buildFromDataSection P source.bytes outputLevel bloomFalsePositiveRate)
  CompactionProg.io (.truncate ⟨dir, dataSection⟩)
  CompactionProg.io (.append ⟨dir, dataSection⟩ output)
  removeConsumed dir consumedFiles
  pure dataSection

end Compaction
