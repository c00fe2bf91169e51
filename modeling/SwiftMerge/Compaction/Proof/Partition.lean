import SwiftMerge.Compaction.Proof.Frame

/-!
# How a compaction divides a level

The split of a level's tables into units, with every slice and the subtraction as the code takes
them, for any `target_chunks` and any number of turns (`splitChecked`). With a validated
`target_chunks` the loop is done within as many turns as there are tables and one more, no check
fails, and the units are those of `splitUnits` (`splitChecked_eq`).
-/

namespace Compaction

open Lib Lsm

/-! ## The split as the code takes it -/

/-- `table_names[i..j].to_vec()`. -/
def namesSlice (tableNames : List String) (i j : Nat) :
    Except (Failure CompactionError) (List String) :=
  if i ≤ j ∧ j ≤ tableNames.length then .ok ((tableNames.drop i).take (j - i))
  else .error (.panic "range end index out of range for slice")

/-- `table_names[i..].to_vec()`. -/
def namesFrom (tableNames : List String) (i : Nat) :
    Except (Failure CompactionError) (List String) :=
  if i ≤ tableNames.length then .ok (tableNames.drop i)
  else .error (.panic "range start index out of range for slice")

/-- The loop from index `i` on, for `fuel` turns at most; `none` when it is not done by then. -/
def splitTurns (targetChunks : Nat) (tableNames : List String) : Nat → Nat → List (List String) →
    Option (Except (Failure CompactionError) (List (List String) × Nat))
  | 0, _, _ => none
  | fuel + 1, i, compactionUnits =>
    if i + targetChunks ≤ tableNames.length then
      match namesSlice tableNames i (i + targetChunks) with
      | .ok unitFiles =>
        splitTurns targetChunks tableNames fuel (i + targetChunks) (compactionUnits ++ [unitFiles])
      | .error e => some (.error e)
    else some (.ok (compactionUnits, i))

/-- The units of a compaction, when the loop takes at most `fuel` turns. -/
def splitChecked (targetChunks : Nat) (tableNames : List String) (fuel : Nat) :
    Option (Except (Failure CompactionError) (List (List String))) :=
  (splitTurns targetChunks tableNames fuel 0 []).map fun loop => do
    let (compactionUnits, i) ← loop
    ensure (i ≤ tableNames.length) (.panic "attempt to subtract with overflow")
    let remaining := tableNames.length - i
    if 2 ≤ remaining then
      let unitFiles ← namesFrom tableNames i
      pure (compactionUnits ++ [unitFiles])
    else pure compactionUnits

section
variable (targetChunks : TargetChunks) (tableNames : List String)

theorem splitTurns_eq : ∀ (fuel i : Nat) (compactionUnits : List (List String)),
    tableNames.length - i < fuel →
      splitTurns targetChunks.1 tableNames fuel i compactionUnits =
        some (.ok (compactionUnits ++ (splitLoop targetChunks tableNames i).1,
          (splitLoop targetChunks tableNames i).2))
  | 0, _, _, h => absurd h (Nat.not_lt_zero _)
  | fuel + 1, i, compactionUnits, h => by
    have hchunks := targetChunks.2
    rw [splitTurns, splitLoop]
    by_cases hfull : i + targetChunks.1 ≤ tableNames.length
    · rw [if_pos hfull, if_pos hfull, namesSlice, if_pos ⟨Nat.le_add_right _ _, hfull⟩]
      dsimp only
      rw [splitTurns_eq fuel _ _ (by omega), Nat.add_sub_cancel_left, List.append_assoc]
      rfl
    · rw [if_neg hfull, if_neg hfull, List.append_nil]

/-- **The loop ends and no check fails.** -/
theorem splitChecked_eq {fuel : Nat} (h : tableNames.length < fuel) :
    splitChecked targetChunks.1 tableNames fuel =
      some (.ok (splitUnits targetChunks tableNames)) := by
  obtain ⟨-, hle, -, -⟩ := splitLoop_spec targetChunks tableNames 0 (Nat.zero_le _)
  rw [splitChecked, splitTurns_eq _ _ _ _ _ (by omega), Option.map_some, ok_bind, List.nil_append,
    splitUnits]
  dsimp only at hle ⊢
  rw [ensure_pos hle, ok_bind]
  split
  · rw [namesFrom, if_pos hle, ok_bind, pure_ok]
  · rw [pure_ok]

theorem splitUnits_le : ∀ u ∈ splitUnits targetChunks tableNames, u.length ≤ targetChunks.1 := by
  obtain ⟨-, -, hlt, hlen⟩ := splitLoop_spec targetChunks tableNames 0 (Nat.zero_le _)
  intro u hu
  rw [splitUnits] at hu
  dsimp only at hlt hlen hu
  split at hu
  · rcases List.mem_append.1 hu with hu | hu
    · exact (hlen u hu).le
    · rw [List.mem_singleton.1 hu, List.length_drop]
      omega
  · exact (hlen u hu).le

/-- **The units divide the level**: they follow each other from the first table on, with two tables
at least and `target_chunks` at most, and leave out at most the last table. -/
theorem splitUnits_partition :
    (∀ fuel, tableNames.length < fuel → splitChecked targetChunks.1 tableNames fuel =
      some (.ok (splitUnits targetChunks tableNames))) ∧
    (∀ u ∈ splitUnits targetChunks tableNames, 2 ≤ u.length ∧ u.length ≤ targetChunks.1) ∧
    (∃ leftOut, (splitUnits targetChunks tableNames).flatten ++ leftOut = tableNames ∧
      leftOut.length ≤ 1) ∧
    (tableNames.Nodup → (splitUnits targetChunks tableNames).flatten.Nodup) := by
  obtain ⟨hpartition, htwo⟩ := splitUnits_spec targetChunks tableNames
  exact ⟨fun _ => splitChecked_eq targetChunks tableNames,
    fun u hu => ⟨htwo u hu, splitUnits_le targetChunks tableNames u hu⟩, hpartition,
    fun hnd => splitUnits_sublist.nodup hnd⟩

end

/-- Three tables in units of two: the last one is left out. -/
theorem three_tables_units :
    splitUnits ⟨2, Nat.le_refl 2⟩ ["c.bin", "b.bin", "a.bin"] = [["c.bin", "b.bin"]] := by
  have hchecked := (splitUnits_partition ⟨2, Nat.le_refl 2⟩ ["c.bin", "b.bin", "a.bin"]).1 4
    (by decide)
  exact (Except.ok.inj (Option.some.inj hchecked)).symm

end Compaction
