import SwiftMerge.Compaction.Runs

/-!
# What a compaction touches, and the names of its outputs

A unit touches its files, what they are drained to and its own intermediate files
(`compact_within`); the name of its output depends on its number and its size only
(`compact_yields`). The level summary touches one file of the next level.
-/

namespace Compaction

open Lib Lsm

variable {P : Platform} {S : Path → Prop}

/-! ## Calls -/

section
variable {p src dst : Path}

theorem within_io {α : Type} {o : DiskOp (Except IoError α)} (h : o.Within S) :
    Prog.All (DiskOp.Within S) (CompactionProg.io o) :=
  (Prog.all_perform.2 h).bind fun _ => Prog.all_ofExcept _

theorem within_read (p : Path) : Prog.All (DiskOp.Within S) (CompactionProg.io (.read p)) :=
  within_io (o := .read p) trivial

theorem within_readDir (level : Nat) :
    Prog.All (DiskOp.Within S) (CompactionProg.io (.readDir level)) :=
  within_io (o := .readDir level) trivial

theorem within_dirExists (level : Nat) :
    Prog.All (DiskOp.Within S) (Prog.perform (.dirExists level) : CompactionProg Bool) :=
  Prog.all_perform.2 (show (DiskOp.dirExists level).Within S from trivial)

theorem within_createDir (level : Nat) :
    Prog.All (DiskOp.Within S) (CompactionProg.io (.createDir level)) :=
  within_io (o := .createDir level) trivial

theorem within_create (h : S p) : Prog.All (DiskOp.Within S) (CompactionProg.io (.create p)) :=
  within_io (o := .create p) h

theorem within_append (h : S p) (bs : Bytes) :
    Prog.All (DiskOp.Within S) (CompactionProg.io (.append p bs)) :=
  within_io (o := .append p bs) h

theorem within_truncate (h : S p) : Prog.All (DiskOp.Within S) (CompactionProg.io (.truncate p)) :=
  within_io (o := .truncate p) h

theorem within_rename (hs : S src) (hd : S dst) :
    Prog.All (DiskOp.Within S) (CompactionProg.io (.rename src dst)) :=
  within_io (o := .rename src dst) ⟨hs, hd⟩

theorem removeFile_within (h : S p) : Prog.All (DiskOp.Within S) (removeFile p) := by
  refine (Prog.all_perform.2 h).bind fun r => ?_
  split <;> trivial

end

/-! ## A unit -/

theorem drainedName_tmpName (id pass i : Nat) :
    drainedName (tmpName id pass i) = tmpName id pass i := by
  rw [drainedName, stripSuffix_none (endsWith_tmpName id pass i)]

section
variable {dir : Nat}

theorem markDrainedFile_within {name : String} (h : S ⟨dir, name⟩) (hd : S ⟨dir, drainedName name⟩) :
    Prog.All (DiskOp.Within S) (markDrainedFile dir name) := by
  unfold markDrainedFile
  split
  · exact (within_rename h hd).bind fun _ => Prog.all_pure _
  · exact Prog.all_pure _

theorem markDrainedFile_yields (name : String) :
    Prog.Yields (· = drainedName name) (markDrainedFile dir name) := by
  unfold markDrainedFile
  split
  · exact .after fun _ => rfl
  · rename_i h
    rw [drainedName, h]
    rfl

theorem joinPair_within {left right out : String} (hl : S ⟨dir, left⟩)
    (hld : S ⟨dir, drainedName left⟩) (hr : S ⟨dir, right⟩) (hrd : S ⟨dir, drainedName right⟩)
    (ho : S ⟨dir, out⟩) : Prog.All (DiskOp.Within S) (joinPair dir left right out) :=
  (within_read _).bind fun _ => (within_read _).bind fun _ => (within_create ho).bind fun _ =>
    (within_append ho _).bind fun _ => (Prog.all_ofExcept _).bind fun _ =>
      (markDrainedFile_within hl hld).bind fun _ => (markDrainedFile_within hr hrd).bind fun _ =>
        Prog.all_pure _

theorem joinPair_yields (left right out : String) :
    Prog.Yields (· = [drainedName left, drainedName right]) (joinPair dir left right out) :=
  .after fun _ => .after fun _ => .after fun _ => .after fun _ => .after fun _ =>
    (markDrainedFile_yields left).bind fun _ hl => (markDrainedFile_yields right).bind fun _ hr => by
      rw [hl, hr]
      rfl

/-! ### A round -/

/-- The names a round's files are drained to: those of its pairs. -/
def drainedNames : List String → List String
  | left :: right :: rest => drainedName left :: drainedName right :: drainedNames rest
  | [_] => []
  | [] => []

variable {id : Nat}

theorem joinRound_within (pass : Nat) : ∀ (pairIdx : Nat) (files : List String),
    (∀ f ∈ files, S ⟨dir, f⟩) → (∀ c ∈ drainedNames files, S ⟨dir, c⟩) →
    (∀ o ∈ nextRound id pass pairIdx files, S ⟨dir, o⟩) →
    Prog.All (DiskOp.Within S) (joinRound dir id pass pairIdx files)
  | _, [], _, _, _ => Prog.all_pure _
  | _, [_], _, _, _ => Prog.all_pure _
  | pairIdx, _ :: _ :: rest, h, hd, ho =>
    (joinPair_within (h _ (.head _)) (hd _ (.head _)) (h _ (.tail _ (.head _)))
      (hd _ (.tail _ (.head _))) (ho _ (.head _))).bind fun _ =>
      (joinRound_within pass (pairIdx + 1) rest (fun f hf => h f (.tail _ (.tail _ hf)))
        (fun c hc => hd c (.tail _ (.tail _ hc))) fun o hm => ho o (.tail _ hm)).bind fun _ =>
          Prog.all_pure _

theorem joinRound_yields (pass : Nat) : ∀ (pairIdx : Nat) (files : List String),
    Prog.Yields (· = drainedNames files) (joinRound dir id pass pairIdx files)
  | _, [] => rfl
  | _, [_] => rfl
  | pairIdx, left :: right :: rest =>
    (joinPair_yields left right _).bind fun _ h =>
      (joinRound_yields pass (pairIdx + 1) rest).bind fun _ h' => by
        rw [h, h']
        rfl

theorem drainedNames_mem : ∀ {files : List String} {name : String}, name ∈ drainedNames files →
    ∃ f ∈ files, name = drainedName f
  | [], _, h => by cases h
  | [_], _, h => by cases h
  | left :: right :: rest, name, h => by
    rcases List.mem_cons.1 h with rfl | h
    · exact ⟨left, .head _, rfl⟩
    rcases List.mem_cons.1 h with rfl | h
    · exact ⟨right, .tail _ (.head _), rfl⟩
    obtain ⟨f, hf, rfl⟩ := drainedNames_mem h
    exact ⟨f, .tail _ (.tail _ hf), rfl⟩

/-- A file of the next round is one of this round's or an output of one of its pairs. -/
theorem nextRound_mem {pass : Nat} : ∀ {pairIdx : Nat} {files : List String} {name : String},
    name ∈ nextRound id pass pairIdx files → name ∈ files ∨ ∃ i, pairIdx ≤ i ∧ name = tmpName id pass i
  | _, [], _, h => .inl h
  | _, [_], _, h => .inl h
  | pairIdx, _ :: _ :: _, name, h => by
    rcases List.mem_cons.1 h with rfl | h
    · exact .inr ⟨pairIdx, Nat.le_refl _, rfl⟩
    rcases nextRound_mem h with h | ⟨i, hi, rfl⟩
    · exact .inl (.tail _ (.tail _ h))
    · exact .inr ⟨i, by omega, rfl⟩

/-- A file is drained by its round or goes on to the next. -/
theorem drained_or_next {pass : Nat} : ∀ {pairIdx : Nat} {files : List String} {f : String},
    f ∈ files → drainedName f ∈ drainedNames files ∨ f ∈ nextRound id pass pairIdx files
  | _, [_], _, h => .inr h
  | pairIdx, left :: right :: rest, f, h => by
    rcases List.mem_cons.1 h with rfl | h
    · exact .inl (.head _)
    rcases List.mem_cons.1 h with rfl | h
    · exact .inl (.tail _ (.head _))
    rcases drained_or_next h with h | h
    · exact .inl (.tail _ (.tail _ h))
    · exact .inr (.tail _ h)

theorem length_nextRound (pass : Nat) : ∀ (pairIdx : Nat) (files : List String),
    (nextRound id pass pairIdx files).length = (files.length + 1) / 2
  | _, [] => rfl
  | _, [_] => by simp [nextRound]
  | pairIdx, _ :: _ :: rest => by
    rw [nextRound, List.length_cons, length_nextRound pass (pairIdx + 1) rest]
    simp only [List.length_cons]
    omega

/-! ### The rounds -/

/-- The names that the rounds from `pass` on leave to be removed. -/
def consumedBy (id pass : Nat) : List String → List String
  | left :: right :: rest =>
    drainedNames (left :: right :: rest) ++
      consumedBy id (pass + 1) (nextRound id pass 0 (left :: right :: rest))
  | [_] => []
  | [] => []
termination_by files => files.length
decreasing_by
  rw [length_nextRound]
  simp only [List.length_cons]
  omega

/-- The output of the rounds from `pass` on over `n` files. -/
def roundsOutput (id pass n : Nat) : String := tmpName id (pass + Nat.clog 2 n - 1) 0

theorem roundsOutput_next {pass : Nat} {files : List String} (h : 2 < files.length) :
    roundsOutput id (pass + 1) (nextRound id pass 0 files).length =
      roundsOutput id pass files.length := by
  rw [roundsOutput, roundsOutput, Nat.clog_of_two_le (n := files.length) (by decide) (by omega),
    length_nextRound, show files.length + 2 - 1 = files.length + 1 by omega]
  congr 1
  omega

theorem nextRound_pair (pass : Nat) (left right : String) :
    nextRound id pass 0 [left, right] = [tmpName id pass 0] := rfl

theorem roundsOutput_pair (pass : Nat) : roundsOutput id pass 2 = tmpName id pass 0 := by
  rw [roundsOutput, Nat.clog_of_two_le (by decide) (by decide)]
  simp

/-- An induction over the rounds of at least two files. -/
theorem rounds_induction (id : Nat)
    {motive : (pass : Nat) → (files : List String) → 2 ≤ files.length → Prop}
    (last : ∀ pass left right h, motive pass [left, right] h)
    (more : ∀ pass left right x rest h,
      (∀ h, motive (pass + 1) (nextRound id pass 0 (left :: right :: x :: rest)) h) →
      motive pass (left :: right :: x :: rest) h) :
    ∀ (pass : Nat) (files : List String) (h : 2 ≤ files.length), motive pass files h
  | _, [], h => by simp at h
  | _, [_], h => by simp at h
  | pass, [left, right], h => last pass left right h
  | pass, left :: right :: x :: rest, h =>
    more pass left right x rest h (rounds_induction id last more (pass + 1) _)
termination_by _ files => files.length
decreasing_by
  rw [length_nextRound]
  simp only [List.length_cons]
  omega

theorem two_le_nextRound (id pass : Nat) (left right x : String) (rest : List String) :
    2 ≤ (nextRound id pass 0 (left :: right :: x :: rest)).length := by
  rw [length_nextRound]
  simp only [List.length_cons]
  omega

theorem consumedBy_mem (id pass : Nat) (files : List String) (h : 2 ≤ files.length) :
    ∀ name ∈ consumedBy id pass files, (∃ f ∈ files, name = drainedName f) ∨
      ∃ p i, pass ≤ p ∧ name = tmpName id p i := by
  induction pass, files, h using rounds_induction id with
  | last pass left right =>
    intro name hm
    rw [consumedBy, nextRound_pair, consumedBy, List.append_nil] at hm
    exact .inl (drainedNames_mem hm)
  | more pass left right x rest h ih =>
    intro name hm
    rw [consumedBy, List.mem_append] at hm
    rcases hm with hm | hm
    · exact .inl (drainedNames_mem hm)
    rcases ih (two_le_nextRound id pass left right x rest) name hm with ⟨f, hf, rfl⟩ | ⟨p, i, hp, rfl⟩
    · rcases nextRound_mem hf with hf | ⟨i, -, rfl⟩
      · exact .inl ⟨f, hf, rfl⟩
      · exact .inr ⟨pass, i, Nat.le_refl _, drainedName_tmpName id pass i⟩
    · exact .inr ⟨p, i, by omega, rfl⟩

/-- Every file of the rounds is drained by one of them. -/
theorem drained_mem_consumedBy (id pass : Nat) (files : List String) (h : 2 ≤ files.length) :
    ∀ f ∈ files, drainedName f ∈ consumedBy id pass files := by
  induction pass, files, h using rounds_induction id with
  | last pass left right =>
    intro f hf
    rw [consumedBy, nextRound_pair, consumedBy, List.append_nil]
    rcases List.mem_cons.1 hf with rfl | hf
    · exact .head _
    · rw [List.mem_singleton.1 hf]
      exact .tail _ (.head _)
  | more pass left right x rest h ih =>
    intro f hf
    rw [consumedBy, List.mem_append]
    rcases drained_or_next hf with h | h
    · exact .inl h
    · exact .inr (ih (two_le_nextRound id pass left right x rest) f h)

theorem joinRounds_within (pass : Nat) (files : List String) (h : 2 ≤ files.length) :
    ∀ consumed, (∀ f ∈ files, S ⟨dir, f⟩) → (∀ c ∈ consumedBy id pass files, S ⟨dir, c⟩) →
      S ⟨dir, roundsOutput id pass files.length⟩ →
      Prog.All (DiskOp.Within S) (joinRounds dir id pass files consumed) := by
  induction pass, files, h using rounds_induction id with
  | last pass left right =>
    intro consumed hf hc ho
    rw [consumedBy, nextRound_pair, consumedBy, List.append_nil] at hc
    rw [List.length_cons, List.length_singleton, roundsOutput_pair] at ho
    rw [joinRounds]
    refine (joinRound_within pass 0 _ hf hc fun o hm => ?_).bind fun _ => ?_
    · rw [nextRound_pair] at hm
      rwa [List.mem_singleton.1 hm]
    · rw [nextRound_pair, joinRounds]
      exact Prog.all_pure _
  | more pass left right x rest h ih =>
    intro consumed hf hc ho
    have hnext : ∀ o ∈ nextRound id pass 0 (left :: right :: x :: rest), S ⟨dir, o⟩ := by
      intro o hm
      rcases nextRound_mem hm with hm' | ⟨i, -, rfl⟩
      · exact hf o hm'
      · have hmem := drained_mem_consumedBy id (pass + 1) _
          (two_le_nextRound id pass left right x rest) _ hm
        rw [drainedName_tmpName] at hmem
        rw [consumedBy] at hc
        exact hc _ (List.mem_append_right _ hmem)
    rw [consumedBy] at hc
    rw [joinRounds]
    refine (joinRound_within pass 0 _ hf (fun c hm => hc c (List.mem_append_left _ hm)) hnext).bind
      fun _ => ih (two_le_nextRound id pass left right x rest) _ hnext
        (fun c hm => hc c (List.mem_append_right _ hm)) ?_
    rwa [roundsOutput_next (by simp)]

theorem joinRounds_yields (dir id pass : Nat) (files : List String) (h : 2 ≤ files.length) :
    ∀ consumed, Prog.Yields (· = (roundsOutput id pass files.length,
      consumed ++ consumedBy id pass files)) (joinRounds dir id pass files consumed) := by
  induction pass, files, h using rounds_induction id with
  | last pass left right =>
    intro consumed
    rw [joinRounds, nextRound_pair]
    refine (joinRound_yields pass 0 _).bind fun names hnames => ?_
    rw [hnames, joinRounds, consumedBy, nextRound_pair, consumedBy, List.append_nil,
      List.length_cons, List.length_singleton, roundsOutput_pair]
    rfl
  | more pass left right x rest h ih =>
    intro consumed
    rw [joinRounds]
    refine (joinRound_yields pass 0 _).bind fun names hnames => ?_
    have hnext := ih (two_le_nextRound id pass left right x rest)
      (consumed ++ drainedNames (left :: right :: x :: rest))
    rw [roundsOutput_next (by simp), List.append_assoc] at hnext
    rw [hnames, consumedBy]
    exact hnext

theorem outputName_eq (files : List String) :
    outputName id files = roundsOutput id 0 files.length := by
  rw [outputName, roundsOutput, Nat.zero_add]

/-! ### The unit -/

/-- The paths a unit touches: its files, what they and the intermediate files are drained to, its
output. -/
def UnitPath (dir id : Nat) (targetFiles : List String) (p : Path) : Prop :=
  p.level = dir ∧ (p.name ∈ targetFiles ∨ p.name ∈ consumedBy id 0 targetFiles ∨
    p.name = outputName id targetFiles)

theorem removeConsumed_within : ∀ {names : List String}, (∀ f ∈ names, S ⟨dir, f⟩) →
    Prog.All (DiskOp.Within S) (removeConsumed dir names)
  | [], _ => Prog.all_pure _
  | _ :: _, h => (removeFile_within (h _ (.head _))).bind fun _ =>
    removeConsumed_within fun f hf => h f (.tail _ hf)

variable {outputLevel : Nat} {bloomFalsePositiveRate : F64} {files : List String}

/-- **What a unit touches.** -/
theorem compact_within (hlen : 2 ≤ files.length) (hs : ∀ p, UnitPath dir id files p → S p) :
    Prog.All (DiskOp.Within S) (compact P id dir outputLevel bloomFalsePositiveRate files) := by
  have hc : ∀ c ∈ consumedBy id 0 files, S ⟨dir, c⟩ := fun c hc => hs _ ⟨rfl, .inr (.inl hc)⟩
  have ho : S ⟨dir, roundsOutput id 0 files.length⟩ :=
    hs _ ⟨rfl, .inr (.inr (outputName_eq files).symm)⟩
  have hrounds := joinRounds_within (S := S) 0 files hlen []
    (fun f hf => hs _ ⟨rfl, .inl hf⟩) hc ho
  refine (Prog.all_ensure _ _).bind fun _ =>
    hrounds.bind_yields (joinRounds_yields dir id 0 files hlen []) fun r hr => ?_
  obtain ⟨dataSection, consumedFiles⟩ := r
  obtain ⟨rfl, rfl⟩ := Prod.mk.inj hr
  exact (within_read _).bind fun _ => (Prog.all_ofExcept _).bind fun _ =>
    (within_truncate ho).bind fun _ => (within_append ho _).bind fun _ =>
      Prog.All.bind (removeConsumed_within hc) fun _ => Prog.all_pure _

/-- **The name of a unit's output.** -/
theorem compact_yields (hlen : 2 ≤ files.length) : Prog.Yields (· = outputName id files)
    (compact P id dir outputLevel bloomFalsePositiveRate files) := by
  refine .after fun _ => (joinRounds_yields dir id 0 files hlen []).bind fun r hr => ?_
  obtain ⟨dataSection, consumedFiles⟩ := r
  obtain ⟨rfl, rfl⟩ := Prod.mk.inj hr
  refine .after fun _ => .after fun _ => .after fun _ => .after fun _ => .after fun _ => ?_
  rw [outputName_eq]
  rfl

end

/-! ## The units of a compaction -/

theorem splitLoop_spec (targetChunks : TargetChunks) (tableNames : List String) (i : Nat)
    (hi : i ≤ tableNames.length) :
    let r := splitLoop targetChunks tableNames i
    r.1.flatten ++ tableNames.drop r.2 = tableNames.drop i ∧ r.2 ≤ tableNames.length ∧
      tableNames.length < r.2 + targetChunks.1 ∧ ∀ u ∈ r.1, u.length = targetChunks.1 := by
  rw [splitLoop]
  split
  · rename_i hfull
    have ih := splitLoop_spec targetChunks tableNames (i + targetChunks.1) hfull
    dsimp only at ih ⊢
    obtain ⟨hflat, hle, hlt, hlen⟩ := ih
    refine ⟨?_, hle, hlt, fun u hu => ?_⟩
    · rw [List.flatten_cons, List.append_assoc, hflat, ← List.drop_drop, List.take_append_drop]
    · rcases List.mem_cons.1 hu with rfl | hu
      · rw [List.length_take, List.length_drop]
        omega
      · exact hlen u hu
  · exact ⟨rfl, hi, by dsimp only; omega, fun u hu => by cases hu⟩
termination_by tableNames.length - i
decreasing_by
  have := targetChunks.2
  omega

/-- **The split of a level**: units of at least two tables, in order, and a rest of at most one. -/
theorem splitUnits_spec (targetChunks : TargetChunks) (tableNames : List String) :
    (∃ rest, (splitUnits targetChunks tableNames).flatten ++ rest = tableNames ∧ rest.length ≤ 1) ∧
      ∀ u ∈ splitUnits targetChunks tableNames, 2 ≤ u.length := by
  obtain ⟨hflat, hle, hlt, hlen⟩ := splitLoop_spec targetChunks tableNames 0 (Nat.zero_le _)
  have hchunks := targetChunks.2
  rw [splitUnits]
  dsimp only at hflat hle hlt hlen ⊢
  rw [List.drop_zero] at hflat
  split
  · rename_i htail
    refine ⟨⟨[], ?_, Nat.zero_le _⟩, fun u hu => ?_⟩
    · rw [List.flatten_append, List.append_nil, List.flatten_singleton, hflat]
    · rcases List.mem_append.1 hu with hu | hu
      · rw [hlen u hu]
        exact hchunks
      · rw [List.mem_singleton.1 hu, List.length_drop]
        exact htail
  · rename_i htail
    refine ⟨⟨_, hflat, ?_⟩, fun u hu => ?_⟩
    · rw [List.length_drop]
      omega
    · rw [hlen u hu]
      exact hchunks

section
variable {targetChunks : TargetChunks} {tableNames : List String}

theorem splitUnits_sublist : (splitUnits targetChunks tableNames).flatten.Sublist tableNames := by
  obtain ⟨⟨rest, hflat, -⟩, -⟩ := splitUnits_spec targetChunks tableNames
  have h := List.sublist_append_left (splitUnits targetChunks tableNames).flatten rest
  rwa [hflat] at h

theorem sublist_of_mem_splitUnits {u : List String} (hu : u ∈ splitUnits targetChunks tableNames) :
    u.Sublist tableNames := (List.sublist_flatten_of_mem hu).trans splitUnits_sublist

end

section
variable {dir : Nat} {bloomFalsePositiveRate : F64} {units : List (List String)}

theorem compactUnits_within : ∀ {id : Nat} {units : List (List String)},
    (∀ u ∈ units, 2 ≤ u.length) →
      (∀ j u, units[j]? = some u → ∀ p, UnitPath dir (id + j) u p → S p) →
      Prog.All (DiskOp.Within S) (compactUnits P dir bloomFalsePositiveRate id units)
  | _, [], _, _ => Prog.all_pure _
  | id, u :: units, hlen, h => by
    have hrest : ∀ j v, units[j]? = some v → ∀ p, UnitPath dir (id + 1 + j) v p → S p := by
      intro j v hv
      rw [show id + 1 + j = id + (j + 1) by omega]
      exact h (j + 1) v hv
    refine (compact_within (hlen u (.head _)) (h 0 u rfl)).attempt.bind fun r =>
      (compactUnits_within (fun v hv => hlen v (.tail _ hv)) hrest).bind fun outs => ?_
    cases r <;> exact Prog.all_pure _

theorem length_unitOutputs : ∀ (id : Nat) (units : List (List String)),
    (unitOutputs id units).length = units.length
  | _, [] => rfl
  | id, _ :: units => congrArg (· + 1) (length_unitOutputs (id + 1) units)

theorem compactUnits_yields : ∀ {id : Nat} {units : List (List String)},
    (∀ u ∈ units, 2 ≤ u.length) → Prog.Yields (fun outs => outs.Sublist (unitOutputs id units))
      (compactUnits P dir bloomFalsePositiveRate id units)
  | _, [], _ => .slnil
  | id, u :: units, hlen => by
    refine (compact_yields (hlen u (.head _))).attempt.bind fun r hr =>
      (compactUnits_yields fun v hv => hlen v (.tail _ hv)).bind fun outs houts => ?_
    cases r with
    | ok out =>
      rw [hr out rfl]
      exact houts.cons_cons _
    | error e => exact houts.cons _

end

/-! ## The level summary -/

theorem levelBoundaries_within (level : Nat) : ∀ (names : List String) (b : Boundaries),
    Prog.All (DiskOp.Within S) (levelBoundaries level names b)
  | [], _ => Prog.all_pure _
  | _ :: names, _ =>
    (within_read _).bind fun _ => (Prog.all_ofExcept _).bind fun _ =>
      (Prog.all_ofExcept _).bind fun _ => levelBoundaries_within level names _

theorem buildLevelSummary_within {level : Nat} (h : S ⟨level, levelFilterName⟩) :
    Prog.All (DiskOp.Within S) (buildLevelSummary level) :=
  .bind (Prog.all_perform.2 trivial) fun _ => (Prog.all_ensure _ _).bind fun _ =>
    (within_readDir _).bind fun _ => (levelBoundaries_within _ _ _).bind fun _ =>
      (within_create h).bind fun _ => within_append h _

/-! ## Promotion -/

theorem promoted_outputName (id : Nat) (u : List String) :
    promoted (outputName id u) = binName id (Nat.clog 2 u.length - 1) 0 := replace_tmpName _ _ _

theorem promote_within {dir : Nat} : ∀ {outs : List String},
    (∀ o ∈ outs, S ⟨dir, o⟩ ∧ S ⟨dir + 1, promoted o⟩) →
    Prog.All (DiskOp.Within S) (promote dir outs)
  | [], _ => Prog.all_pure _
  | _ :: _, h => (within_rename (h _ (.head _)).1 (h _ (.head _)).2).bind fun _ =>
    promote_within fun o ho => h o (.tail _ ho)

/-- A call that returns did so with the answer of the disk. -/
theorem exec_io_ok {α : Type} {o : DiskOp (Except IoError α)} {d d' : Disk} {a : α}
    (h : Prog.exec (Disk.handler P) (CompactionProg.io o) d = (.ok a, d')) :
    Disk.step P o d = (.ok a, d') := by
  rw [CompactionProg.io, Prog.exec_bind_ok (Prog.exec_perform _ o d), Prog.exec_ofExcept,
    Prod.mk.injEq] at h
  obtain ⟨h1, h2⟩ := h
  change (Disk.step P o d).1.mapError _ = _ at h1
  change (Disk.step P o d).2 = _ at h2
  cases hs : (Disk.step P o d).1 with
  | error e =>
    rw [hs] at h1
    cases h1
  | ok b =>
    rw [hs] at h1
    rw [← Except.ok.inj h1, ← hs, ← h2]

theorem exec_rename_ok {src dst : Path} {d d' : Disk} {u : Unit}
    (h : Prog.exec (Disk.handler P) (CompactionProg.io (.rename src dst)) d = (.ok u, d')) :
    ∃ f, d.file? src = some f ∧ d' = d.rename src dst := by
  have h := exec_io_ok h
  rw [Disk.step] at h
  cases hf : d.file? src with
  | none =>
    rw [hf] at h
    cases h
  | some f =>
    rw [hf] at h
    dsimp only at h
    split at h
    · exact ⟨f, rfl, (Prod.mk.inj h).2.symm⟩
    · cases h

theorem next_level_ne {dir : Nat} {a b : String} : (⟨dir, a⟩ : Path) ≠ ⟨dir + 1, b⟩ := fun he =>
  Nat.succ_ne_self dir (congrArg Path.level he).symm

/-- **Promotion moves the outputs**: each to its own name in the next level, over what was there. -/
theorem exec_promote {dir : Nat} : ∀ {outs : List String} {d d' : Disk} {u : Unit},
    (outs.map promoted).Nodup →
    Prog.exec (Disk.handler P) (promote dir outs) d = (.ok u, d') →
    ∀ o ∈ outs, ∃ f, d.file? ⟨dir, o⟩ = some f ∧ d'.file? ⟨dir + 1, promoted o⟩ = some f ∧
      d'.file? ⟨dir, o⟩ = none
  | [], _, _, _, _, _ => by simp
  | o :: outs, d, d', _, hnd, h => by
    rw [List.map_cons, List.nodup_cons] at hnd
    obtain ⟨_, d1, hren, hrest⟩ := Prog.exec_bind_eq_ok h
    obtain ⟨f, hf, rfl⟩ := exec_rename_ok hren
    change Prog.exec _ _ (d.rename ⟨dir, o⟩ ⟨dir + 1, promoted o⟩) = _ at hrest
    have hkeep := (Disk.exec_keeps (P := P) (d := d.rename ⟨dir, o⟩ ⟨dir + 1, promoted o⟩)
      (promote_within (S := fun p => ∃ o ∈ outs, p = ⟨dir, o⟩ ∨ p = ⟨dir + 1, promoted o⟩)
        fun o ho => ⟨⟨o, ho, .inl rfl⟩, ⟨o, ho, .inr rfl⟩⟩)).1
    rw [hrest] at hkeep
    have ho : o ∉ outs := fun ho => hnd.1 (List.mem_map_of_mem ho)
    intro x hx
    rcases List.mem_cons.1 hx with hxo | hx
    · rw [hxo]
      refine ⟨f, hf, ?_, ?_⟩
      · rw [hkeep.file, Disk.file?_rename_dst hf]
        rintro ⟨y, hy, he | he⟩
        · exact next_level_ne he.symm
        · exact hnd.1 (List.mem_map.2 ⟨y, hy, (congrArg Path.name he).symm⟩)
      · rw [hkeep.file, Disk.file?_rename_src hf next_level_ne]
        rintro ⟨y, hy, he | he⟩
        · rw [show o = y from congrArg Path.name he] at ho
          exact ho hy
        · exact next_level_ne he
    · obtain ⟨g, hg, hdst, hsrc⟩ := exec_promote hnd.2 hrest x hx
      have hxo : (⟨dir, x⟩ : Path) ≠ ⟨dir, o⟩ := fun he => by
        rw [show x = o from congrArg Path.name he] at hx
        exact ho hx
      rw [Disk.file?_rename hxo next_level_ne] at hg
      exact ⟨g, hg, hdst, hsrc⟩

end Compaction
