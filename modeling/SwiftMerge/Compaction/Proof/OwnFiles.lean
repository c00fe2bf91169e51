import SwiftMerge.Compaction.Proof.Mirror
import SwiftMerge.Compaction.Proof.UnitsEnd

/-!
# A compaction sees its own files only

A compaction of a level reads and changes the tables it is given, files of the level that are no
tables, and files of the next level (`OwnFiles`). What it does depends on their bytes and on the
names of the next level, and not on the instants they were created at, so it is alike to itself on
disks that agree on these (`sizeTierCompaction_alike`).
-/

namespace Compaction

open Lib Lsm

/-- The set has the given tables of the level, what is no table in it, and the next level. -/
structure OwnFiles (S : Path → Prop) (dir : Nat) (tables : List String) : Prop where
  given : ∀ name ∈ tables, S ⟨dir, name⟩
  tmp : ∀ name, isBin name = false → S ⟨dir, name⟩
  next : ∀ name, S ⟨dir + 1, name⟩

variable {P : Platform} {S : Path → Prop} {n dir id : Nat} {tables : List String}

/-! ## Calls -/

section
variable {α : Type}

theorem alike_io {o : DiskOp (Except IoError α)} {Q : α → α → Prop} (ho : o.Own S n)
    (hQ : ∀ x y, o.Agree x y → Ends Q x y) : Prog.Alike (DiskOp.Own S n) DiskOp.Agree Q
      (CompactionProg.io o) (CompactionProg.io o) :=
  (Prog.Alike.perform ho).bind fun x y h => .ofExcept ((hQ x y h).mapError _)

theorem agree_eq (x y : Except IoError Unit) (h : x = y) : Ends Eq x y := h ▸ ends_refl x

theorem alike_read {p : Path} (h : S p) : Prog.Alike (DiskOp.Own S n) DiskOp.Agree
    (fun f g : File => f.bytes = g.bytes) (CompactionProg.io (.read p))
      (CompactionProg.io (.read p)) :=
  alike_io (o := .read p) h fun _ _ h => h

theorem alike_readDir : Prog.Alike (DiskOp.Own S n) DiskOp.Agree
    (fun es es' : List (String × File) => es.map Prod.fst = es'.map Prod.fst)
      (CompactionProg.io (.readDir n)) (CompactionProg.io (.readDir n)) :=
  alike_io (o := .readDir n) rfl fun _ _ h => h

theorem alike_dirExists (level : Nat) : Prog.Alike (DiskOp.Own S n) DiskOp.Agree Eq
    (Prog.perform (.dirExists level) : CompactionProg Bool) (Prog.perform (.dirExists level)) :=
  Prog.Alike.perform (o := DiskOp.dirExists level) trivial

theorem alike_createDir (level : Nat) : Prog.Alike (DiskOp.Own S n) DiskOp.Agree Eq
    (CompactionProg.io (.createDir level)) (CompactionProg.io (.createDir level)) :=
  alike_io (o := .createDir level) trivial agree_eq

theorem alike_create {p : Path} (h : S p) : Prog.Alike (DiskOp.Own S n) DiskOp.Agree Eq
    (CompactionProg.io (.create p)) (CompactionProg.io (.create p)) :=
  alike_io (o := .create p) h agree_eq

theorem alike_append {p : Path} (h : S p) (bs : Bytes) : Prog.Alike (DiskOp.Own S n) DiskOp.Agree Eq
    (CompactionProg.io (.append p bs)) (CompactionProg.io (.append p bs)) :=
  alike_io (o := .append p bs) h agree_eq

theorem alike_truncate {p : Path} (h : S p) : Prog.Alike (DiskOp.Own S n) DiskOp.Agree Eq
    (CompactionProg.io (.truncate p)) (CompactionProg.io (.truncate p)) :=
  alike_io (o := .truncate p) h agree_eq

theorem alike_rename {src dst : Path} (hs : S src) (hd : S dst) :
    Prog.Alike (DiskOp.Own S n) DiskOp.Agree Eq (CompactionProg.io (.rename src dst))
      (CompactionProg.io (.rename src dst)) :=
  alike_io (o := .rename src dst) ⟨hs, hd⟩ agree_eq

theorem removeFile_alike {p : Path} (h : S p) : Prog.Alike (DiskOp.Own S n) DiskOp.Agree Eq
    (removeFile p) (removeFile p) := by
  refine (Prog.Alike.perform (o := DiskOp.remove p) h).bind fun x y hxy => ?_
  obtain rfl : x = y := hxy
  cases x with
  | ok _ => exact .ret rfl
  | error e =>
    cases e with
    | notFound _ => exact .ret rfl
    | unexpectedEof | invalidData | invalidInput | other => exact .fail _

end

/-! ## A unit -/

theorem isBin_drained_any (stem : String) : isBin (stem ++ drainedFileExt) = false := by
  by_contra h
  obtain ⟨stem', -, he⟩ := isBin_iff.1 (Bool.eq_true_of_not_eq_false h)
  have hrev := congrArg (fun s => s.toList.reverse) he
  simp [drainedFileExt, ssTableFileExt] at hrev

section
variable (hown : OwnFiles S dir tables)
include hown

theorem OwnFiles.drained {name : String} (h : S ⟨dir, name⟩) : S ⟨dir, drainedName name⟩ := by
  unfold drainedName
  split
  · exact hown.tmp _ (isBin_drained_any _)
  · exact h

/-- The name of a file of the set. -/
def OwnName (S : Path → Prop) (dir : Nat) (a a' : String) : Prop := a = a' ∧ S ⟨dir, a⟩

/-- Names of files of the set. -/
def OwnNames (S : Path → Prop) (dir : Nat) (l l' : List String) : Prop :=
  l = l' ∧ ∀ name ∈ l, S ⟨dir, name⟩

theorem markDrainedFile_alike {name : String} (h : S ⟨dir, name⟩) :
    Prog.Alike (DiskOp.Own S n) DiskOp.Agree (OwnName S dir) (markDrainedFile dir name)
      (markDrainedFile dir name) := by
  unfold markDrainedFile
  split
  · refine (alike_rename h (hown.drained h)).bind fun _ _ _ => ?_
    exact .ret ⟨rfl, hown.drained h⟩
  · exact .ret ⟨rfl, h⟩

theorem joinPair_alike {left right out : String} (hl : S ⟨dir, left⟩) (hr : S ⟨dir, right⟩)
    (ho : S ⟨dir, out⟩) : Prog.Alike (DiskOp.Own S n) DiskOp.Agree (OwnNames S dir)
      (joinPair dir left right out) (joinPair dir left right out) := by
  refine (alike_read hl).bind fun f f' hf => (alike_read hr).bind fun g g' hg => ?_
  refine (alike_create ho).bind fun _ _ _ => ?_
  rw [hf, hg]
  refine (alike_append ho _).bind fun _ _ _ => ?_
  refine (Prog.Alike.ofExcept (ends_refl _)).bind fun _ _ _ => ?_
  refine (markDrainedFile_alike hown hl).bind fun a a' ha => ?_
  refine (markDrainedFile_alike hown hr).bind fun b b' hb => ?_
  obtain ⟨rfl, ha⟩ := ha
  obtain ⟨rfl, hb⟩ := hb
  exact .ret ⟨rfl, by simp [ha, hb]⟩

omit hown in
theorem OwnNames.append {l l' m m' : List String} (hl : OwnNames S dir l l')
    (hm : OwnNames S dir m m') : OwnNames S dir (l ++ m) (l' ++ m') := by
  obtain ⟨rfl, hl⟩ := hl
  obtain ⟨rfl, hm⟩ := hm
  refine ⟨rfl, fun name hname => ?_⟩
  rcases List.mem_append.1 hname with h | h
  · exact hl name h
  · exact hm name h

theorem joinRound_alike (pass : Nat) : ∀ (pairIdx : Nat) (files : List String),
    (∀ f ∈ files, S ⟨dir, f⟩) → Prog.Alike (DiskOp.Own S n) DiskOp.Agree (OwnNames S dir)
      (joinRound dir id pass pairIdx files) (joinRound dir id pass pairIdx files)
  | _, [], _ => .ret ⟨rfl, by simp⟩
  | _, [_], _ => .ret ⟨rfl, by simp⟩
  | pairIdx, left :: right :: rest, h => by
    refine (joinPair_alike hown (h _ (.head _)) (h _ (.tail _ (.head _)))
      (hown.tmp _ (isBin_tmpName id pass pairIdx))).bind fun c c' hc => ?_
    refine (joinRound_alike pass (pairIdx + 1) rest
      fun f hf => h f (.tail _ (.tail _ hf))).bind fun l l' hl => ?_
    exact .ret (OwnNames.append hc hl)

/-- The output and the consumed files of the rounds. -/
def OwnRounds (S : Path → Prop) (dir : Nat) (x x' : String × List String) : Prop :=
  OwnName S dir x.1 x'.1 ∧ OwnNames S dir x.2 x'.2

theorem joinRounds_alike (pass : Nat) (files consumed consumed' : List String)
    (hfiles : ∀ f ∈ files, S ⟨dir, f⟩) (hc : OwnNames S dir consumed consumed') :
    Prog.Alike (DiskOp.Own S n) DiskOp.Agree (OwnRounds S dir)
      (joinRounds dir id pass files consumed) (joinRounds dir id pass files consumed') := by
  match files with
  | [] =>
    rw [joinRounds, joinRounds]
    exact .fail _
  | [dataSection] =>
    rw [joinRounds, joinRounds]
    exact .ret ⟨⟨rfl, hfiles _ (.head _)⟩, hc⟩
  | left :: right :: rest =>
    rw [joinRounds, joinRounds]
    refine (joinRound_alike hown pass 0 _ hfiles).bind fun l l' hl => ?_
    refine joinRounds_alike (pass + 1) _ _ _ (fun f hf => ?_) (OwnNames.append hc hl)
    rcases nextRound_mem hf with hf | ⟨i, -, rfl⟩
    · exact hfiles f hf
    · exact hown.tmp _ (isBin_tmpName id pass i)
termination_by files.length
decreasing_by
  rw [length_nextRound]
  simp only [List.length_cons]
  omega

omit hown in
theorem removeConsumed_alike : ∀ {names : List String}, (∀ f ∈ names, S ⟨dir, f⟩) →
    Prog.Alike (DiskOp.Own S n) DiskOp.Agree Eq (removeConsumed dir names) (removeConsumed dir names)
  | [], _ => .ret rfl
  | _ :: _, h => (removeFile_alike (h _ (.head _))).bind fun _ _ _ =>
    removeConsumed_alike fun f hf => h f (.tail _ hf)

theorem compact_alike (outputLevel : Nat) (bloomFalsePositiveRate : F64) {files : List String}
    (hfiles : ∀ f ∈ files, S ⟨dir, f⟩) : Prog.Alike (DiskOp.Own S n) DiskOp.Agree (OwnName S dir)
      (compact P id dir outputLevel bloomFalsePositiveRate files)
      (compact P id dir outputLevel bloomFalsePositiveRate files) := by
  refine (Prog.Alike.ensure _ _).bind fun _ _ _ => ?_
  refine (joinRounds_alike hown 0 files [] [] hfiles ⟨rfl, by simp⟩).bind fun x x' hx => ?_
  obtain ⟨output, consumed⟩ := x
  obtain ⟨output', consumed'⟩ := x'
  obtain ⟨⟨rfl, houtput⟩, rfl, hconsumed⟩ := hx
  refine (alike_read houtput).bind fun f f' hf => ?_
  rw [hf]
  refine (Prog.Alike.ofExcept (ends_refl _)).bind fun b b' hb => ?_
  obtain rfl := hb
  refine (alike_truncate houtput).bind fun _ _ _ => (alike_append houtput b).bind fun _ _ _ => ?_
  exact (removeConsumed_alike hconsumed).bind fun _ _ _ => .ret ⟨rfl, houtput⟩

/-! ## The compaction -/

theorem compactUnits_alike (bloomFalsePositiveRate : F64) : ∀ (id : Nat)
    {units : List (List String)}, (∀ u ∈ units, ∀ f ∈ u, S ⟨dir, f⟩) →
    Prog.Alike (DiskOp.Own S n) DiskOp.Agree (OwnNames S dir)
      (compactUnits P dir bloomFalsePositiveRate id units)
      (compactUnits P dir bloomFalsePositiveRate id units)
  | _, [], _ => .ret ⟨rfl, by simp⟩
  | id, u :: units, h => by
    refine (compact_alike hown (dir + 1) bloomFalsePositiveRate (h u (.head _))).attempt.bind
      fun x x' hx => ?_
    refine (compactUnits_alike bloomFalsePositiveRate (id + 1)
      fun v hv => h v (.tail _ hv)).bind fun l l' hl => ?_
    cases hx with
    | error e => exact .ret hl
    | ok ha =>
      obtain ⟨rfl, ha⟩ := ha
      obtain ⟨rfl, hl⟩ := hl
      exact .ret ⟨rfl, List.forall_mem_cons.2 ⟨ha, hl⟩⟩

theorem promote_alike : ∀ {outs : List String}, (∀ o ∈ outs, S ⟨dir, o⟩) →
    Prog.Alike (DiskOp.Own S n) DiskOp.Agree Eq (promote dir outs) (promote dir outs)
  | [], _ => .ret rfl
  | o :: outs, h => by
    refine (alike_rename (h o (.head _)) (hown.next _)).bind fun _ _ _ => ?_
    exact promote_alike fun o' ho' => h o' (.tail _ ho')

theorem levelBoundaries_alike : ∀ (names : List String) (b : Boundaries),
    Prog.Alike (DiskOp.Own S n) DiskOp.Agree Eq (levelBoundaries (dir + 1) names b)
      (levelBoundaries (dir + 1) names b)
  | [], _ => .ret rfl
  | name :: names, b => by
    refine (alike_read (hown.next name)).bind fun f f' hf => ?_
    rw [hf]
    refine (Prog.Alike.ofExcept (ends_refl _)).bind fun x x' hx => ?_
    obtain rfl := hx
    refine (Prog.Alike.ofExcept (ends_refl _)).bind fun b b' hb => ?_
    obtain rfl := hb
    exact levelBoundaries_alike names b

theorem buildLevelSummary_alike : Prog.Alike (DiskOp.Own S (dir + 1)) DiskOp.Agree Eq
    (buildLevelSummary (dir + 1)) (buildLevelSummary (dir + 1)) := by
  refine (alike_dirExists _).bind fun b b' hb => ?_
  obtain rfl := hb
  refine (Prog.Alike.ensure _ _).bind fun _ _ _ => alike_readDir.bind fun es es' hes => ?_
  rw [hes]
  refine (levelBoundaries_alike hown _ _).bind fun x x' hx => ?_
  obtain rfl := hx
  have hsummary := hown.next levelFilterName
  exact (alike_create hsummary).bind fun _ _ _ => alike_append hsummary _

theorem summarizeNext_alike : Prog.Alike (DiskOp.Own S (dir + 1)) DiskOp.Agree Eq
    (summarizeNext dir) (summarizeNext dir) := by
  refine (buildLevelSummary_alike hown).bind fun _ _ _ => alike_readDir.bind fun es es' hes => ?_
  have hany : ∀ l : List (String × File), (l.any fun e => endsWith e.1 ssTableFileExt) =
      (l.map Prod.fst).any (endsWith · ssTableFileExt) := fun l => by
    rw [List.any_map]
    rfl
  dsimp only
  rw [hany, hany, hes]
  exact (removeFile_alike (hown.next _)).when

omit hown in
theorem makeNextDir_alike : Prog.Alike (DiskOp.Own S n) DiskOp.Agree Eq (makeNextDir dir)
    (makeNextDir dir) := by
  refine (alike_dirExists _).bind fun b b' hb => ?_
  obtain rfl := hb
  exact (alike_createDir (dir + 1)).when

/-- **A compaction sees its own files only.** -/
theorem sizeTierCompaction_alike (targetChunks : TargetChunks) (bloomFalsePositiveRate : F64) :
    Prog.Alike (DiskOp.Own S (dir + 1)) DiskOp.Agree Eq
      (sizeTierCompaction P targetChunks bloomFalsePositiveRate dir tables)
      (sizeTierCompaction P targetChunks bloomFalsePositiveRate dir tables) := by
  rw [sizeTierCompaction_eq]
  refine (compactUnits_alike hown _ 0 fun u hu f hf => ?_).bind fun outs outs' houts => ?_
  · exact hown.given f ((sublist_of_mem_splitUnits hu).subset hf)
  · obtain ⟨rfl, houts⟩ := houts
    exact makeNextDir_alike.bind fun _ _ _ => (promote_alike hown houts).bind fun _ _ _ =>
      summarizeNext_alike hown

end

end Compaction
