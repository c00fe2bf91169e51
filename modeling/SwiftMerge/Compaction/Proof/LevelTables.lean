import SwiftMerge.Compaction.Runs

/-!
# The list of a level's tables

`levelTables` lists the tables of a level, each once (`levelTables_nodup`, `mem_levelTables`), the
one created last first (`levelTables_sorted`). These determine the list (`levelTables_eq`).
-/

namespace Lsm.Disk

theorem dir_nodup (d : Disk) (level : Nat) : ((d.dir level).map Prod.fst).Nodup := by
  have hmap : (d.dir level).map Prod.fst = (d.files.entries.map Sigma.fst).filterMap fun p =>
      if p.level = level then some p.name else none := by
    rw [dir, List.map_filterMap, List.filterMap_map]
    congr 1
    funext e
    dsimp only [Function.comp]
    split <;> rfl
  have hkeys : (d.files.entries.map Sigma.fst).Nodup := d.files.nodupKeys
  rw [hmap]
  refine hkeys.filterMap fun p q name hp hq => ?_
  rw [Option.mem_def] at hp hq
  split at hp
  · split at hq
    · obtain ⟨pl, pn⟩ := p
      obtain ⟨ql, qn⟩ := q
      simp_all
    · cases hq
  · cases hp

end Lsm.Disk

namespace Compaction

open Lib Lsm

variable {d : Disk} {level : Nat} {name : String}

theorem lastDotPart_bin (h : isBin name = true) : lastDotPart name = "bin" := by
  obtain ⟨stem, -, rfl⟩ := isBin_iff.1 h
  have hrev : (stem ++ ssTableFileExt).toList.reverse =
      ['n', 'i', 'b', '.'] ++ stem.toList.reverse := by
    rw [String.toList_append, List.reverse_append]
    rfl
  rw [lastDotPart, hrev]
  simp

theorem lastDotPart_levelFilterName : lastDotPart levelFilterName ≠ "bin" := by decide

theorem mem_levelTables : name ∈ levelTables d level ↔
    lastDotPart name = "bin" ∧ ∃ f, d.file? ⟨level, name⟩ = some f := by
  rw [levelTables]
  constructor
  · intro h
    obtain ⟨⟨n, f⟩, he, rfl⟩ := List.mem_map.1 h
    obtain ⟨he, hdot⟩ := List.mem_filter.1 (List.mem_mergeSort.1 he)
    exact ⟨of_decide_eq_true hdot, f, Disk.mem_dir.1 he⟩
  · rintro ⟨hdot, f, hf⟩
    refine List.mem_map.2 ⟨(name, f), List.mem_mergeSort.2 ?_, rfl⟩
    exact List.mem_filter.2 ⟨Disk.mem_dir.2 hf, decide_eq_true hdot⟩

theorem levelTables_nodup (d : Disk) (level : Nat) : (levelTables d level).Nodup := by
  rw [levelTables, ((List.mergeSort_perm _ _).map _).nodup_iff]
  exact (List.filter_sublist.map _).nodup (d.dir_nodup level)

/-- `name` is listed before `name'`: it was created no earlier. -/
def CreatedAfter (d : Disk) (level : Nat) (name name' : String) : Prop :=
  ∀ f g, d.file? ⟨level, name⟩ = some f → d.file? ⟨level, name'⟩ = some g → g.created ≤ f.created

theorem levelTables_sorted (d : Disk) (level : Nat) :
    (levelTables d level).Pairwise (CreatedAfter d level) := by
  rw [levelTables, List.pairwise_map]
  have hsorted := @List.pairwise_mergeSort (String × File)
    (fun a b => decide (b.2.created ≤ a.2.created)) (fun a b c h1 h2 => by simp at *; omega)
    (fun a b => by simp; omega) ((d.dir level).filter fun e => decide (lastDotPart e.1 = "bin"))
  refine hsorted.imp_of_mem fun ha hb hle f g hf hg => ?_
  have hfile : ∀ {e : String × File}, e ∈ ((d.dir level).filter fun e =>
      decide (lastDotPart e.1 = "bin")).mergeSort (fun a b => decide (b.2.created ≤ a.2.created)) →
      d.file? ⟨level, e.1⟩ = some e.2 := by
    intro e he
    exact Disk.mem_dir.1 (List.mem_filter.1 (List.mem_mergeSort.1 he)).1
  rw [hfile ha, Option.some.injEq] at hf
  rw [hfile hb, Option.some.injEq] at hg
  rw [← hf, ← hg]
  exact of_decide_eq_true hle

/-- **The list is determined** by its members and the order of their creation. -/
theorem levelTables_eq {names : List String} (hnd : names.Nodup)
    (hmem : ∀ name, name ∈ names ↔ name ∈ levelTables d level)
    (hsorted : names.Pairwise (CreatedAfter d level)) : levelTables d level = names := by
  have hp : (levelTables d level).Perm names :=
    (List.perm_ext_iff_of_nodup (levelTables_nodup d level) hnd).2 fun name => (hmem name).symm
  refine hp.eq_of_pairwise (fun a b ha hb hab hba => ?_) (levelTables_sorted d level) hsorted
  obtain ⟨-, f, hf⟩ := mem_levelTables.1 ha
  obtain ⟨-, g, hg⟩ := mem_levelTables.1 ((hmem b).1 hb)
  have he := d.stamped.created_inj hf hg (Nat.le_antisymm (hba g f hg hf) (hab f g hf hg))
  exact congrArg Path.name he

end Compaction
