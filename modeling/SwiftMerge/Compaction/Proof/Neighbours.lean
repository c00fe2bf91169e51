import SwiftMerge.Compaction.Proof.LandedTables
import SwiftMerge.Compaction.Proof.Promotion

/-!
# Unreadable tables and their neighbours

A compaction is given the tables of a level, some of which `to_data_section` rejects. What a reload
of the reader finds before it and after it is compared (`NeighboursKept`). After it a reload opens
the tables that stayed and the outputs of the units that return; the drained tables of a failed unit
are out of its sight. The answers are kept exactly when these tables still give them first
(`neighboursKept_iff`).
-/

namespace Compaction

open Lib Lsm Mem

variable {P : Platform} {dir : Nat} {d d' : Disk} {bad : String → Bool}
  {run : String → List Record} {units : List (List String)} {k v : Bytes}

/-! ## What a reload finds -/

/-- `to_data_section` rejects the table. -/
def rejected (d : Disk) (dir : Nat) (name : String) : Bool :=
  isBin name && (d.file? ⟨dir, name⟩).any fun f =>
    !(toDataSection name ⟨.ssTable, f.bytes⟩).isOk

/-- The list is one of tables of the level; those that are not rejected are well formed. -/
structure LevelGiven (d : Disk) (dir : Nat) (run : String → List Record)
    (tableNames : List String) : Prop where
  dir_ok : 1 ≤ dir ∧ dir ≤ d.levels
  table : ∀ t ∈ tableNames, isBin t = true ∧ ∃ f, d.file? ⟨dir, t⟩ = some f
  nodup : tableNames.Nodup
  good : ∀ t ∈ tableNames, rejected d dir t = false → FileHolds d dir t (run t)

theorem unreadable_of_rejected {t : String} (h : rejected d dir t = true) : Unreadable d dir t := by
  rw [rejected, Bool.and_eq_true, Option.any_eq_true] at h
  obtain ⟨hb, f, hf, hx⟩ := h
  rw [← tableTypeFromName_bin hb] at hx
  cases he : toDataSection t ⟨tableTypeFromName t, f.bytes⟩ with
  | ok s =>
    rw [he] at hx
    cases hx
  | error e => exact ⟨f, e, hf, he⟩

theorem LevelGiven.unitsGiven {tableNames : List String} (h : LevelGiven d dir run tableNames)
    (targetChunks : TargetChunks) :
    UnitsGiven dir (splitUnits targetChunks tableNames) (rejected d dir) run d := by
  have hmem : ∀ u ∈ splitUnits targetChunks tableNames, ∀ t ∈ u, t ∈ tableNames := fun _ hu _ ht =>
    (sublist_of_mem_splitUnits hu).subset ht
  exact ⟨h.dir_ok, (splitUnits_spec targetChunks tableNames).2,
    fun u hu t ht => (h.table t (hmem u hu t ht)).1, fun u hu t ht => h.good t (hmem u hu t ht),
    fun _ _ _ _ => unreadable_of_rejected, fun t ht => (Bool.and_eq_true_iff.1 ht).1,
    splitUnits_sublist.nodup h.nodup⟩

/-- The outputs on the disk after a compaction are created in these seconds. -/
def CreatedIn (dir : Nat) (bad : String → Bool) (run : String → List Record)
    (units : List (List String)) (second : Nat → Nat) (d' : Disk) : Prop :=
  ∀ j u f, units[j]? = some u → Returns bad run (dir + 1) u →
    d'.file? (promotedPath dir j u) = some f → f.createdSecs = second j

theorem exists_createdIn (dir : Nat) (bad : String → Bool) (run : String → List Record)
    (units : List (List String)) (d' : Disk) : ∃ second, CreatedIn dir bad run units second d' := by
  refine ⟨fun j => (d'.file? (promotedPath dir j ((units[j]?).getD []))).elim 0 File.createdSecs,
    fun j u f hu _ hf => ?_⟩
  dsimp only
  rw [hu, Option.getD_some, hf]
  rfl

theorem CreatedIn.landed_eq {second : Nat → Nat} {out : Nat → File} {n : Nat}
    (h : CreatedIn dir bad run units second d')
    (hp : PromotedUpTo units.length dir bad run units out d d') :
    Landed n dir bad run units (fun j => (out j).createdSecs) d =
      Landed n dir bad run units second d := by
  have hsecond : ∀ j u, units[j]? = some u → Returns bad run (dir + 1) u →
      (out j).createdSecs = second j := fun j u hu hr =>
    h j u _ hu hr (hp.output j u (List.getElem?_eq_some_iff.1 hu).1 hu hr)
  funext w
  refine propext ⟨?_, ?_⟩
  · rintro (⟨ht, hs⟩ | ⟨hj, hu, hr⟩)
    · exact .stays ht hs
    · rw [hsecond _ _ hu hr]
      exact .output hj hu hr
  · rintro (⟨ht, hs⟩ | ⟨hj, hu, hr⟩)
    · exact .stays ht hs
    · rw [← hsecond _ _ hu hr]
      exact Landed.output hj hu hr

/-- A disk with the given files, the first one made last. -/
def filesDisk (P : Platform) (levels : Nat) : List (Path × Bytes) → Disk
  | [] => { Disk.empty 0 with levels := levels }
  | t :: files => (filesDisk P levels files).write P t.1 t.2

theorem levels_filesDisk {levels : Nat} : ∀ (files : List (Path × Bytes)),
    (filesDisk P levels files).levels = levels
  | [] => rfl
  | _ :: files => Disk.levels_write.trans (levels_filesDisk files)

theorem file?_filesDisk (levels : Nat) {p : Path} : ∀ {files : List (Path × Bytes)},
    (files.map Prod.fst).Nodup →
      ((filesDisk P levels files).file? p).map File.bytes = files.lookup p
  | [], _ => by rw [filesDisk, Disk.file?, Disk.empty]; rfl
  | (q, bs) :: files, h => by
    obtain ⟨hq, h⟩ := List.nodup_cons.1 h
    by_cases hp : p = q
    · subst hp
      rw [filesDisk, Disk.file?_write_self, List.lookup_cons_self]
      rfl
    · rw [filesDisk, Disk.file?_write hp, file?_filesDisk levels h, List.lookup_cons,
        beq_false_of_ne hp]

/-- As long as a header, but not that of a table. -/
def wrongHeader : Bytes := List.replicate 64 0

theorem readHeader_wrong : readExact wrongHeader 0 64 = .ok wrongHeader := by decide

theorem wrongHeader_ne : wrongHeader ≠ headerCrc := by decide

theorem wrongHeader_skipped (created : Nat) : openTable ⟨created, wrongHeader⟩ = .ok none := by
  unfold openTable
  rw [show TableReader.readHeader wrongHeader = .ok wrongHeader from readHeader_wrong]
  dsimp only [Except.mapError]
  rw [ok_bind, if_neg wrongHeader_ne]
  rfl

/-- A table without the key is no other answer, and in another slot if its level or index differs. -/
theorem builtView_apart {level level' second second' : Nat} {rs rs' : List Record} {key : Bytes}
    (hnone : shown rs' key = none) (hslot : level = level' →
      (indexOf level rs).sparseIndex ≠ (indexOf level' rs').sparseIndex) :
    ¬((builtView level' second' rs').answer key ≠ none ∨
      (builtView level second rs).SameSlot (builtView level' second' rs')) := by
  rintro (hanswer | ⟨hl, hm⟩)
  · exact hanswer hnone
  · exact hslot hl (congrArg SSTableMetaData.sparseIndex hm)

/-- A run that a table of the first level may have. -/
structure SampleRun (rs : List Record) : Prop where
  sorted : KeySorted rs
  fits : ∀ r ∈ rs, Fits r
  index : IndexFits 1 rs
  size : (builtTable Platform.plain 1 ⟨0x3F847AE147AE147B⟩ rs).length < 2 ^ 64

/-- Files of the first level, some with a wrong header and the others tables of their runs. -/
structure SampleFiles (files : List (Path × Bytes)) (run : String → List Record) : Prop where
  level : ∀ t ∈ files, t.1.level = 1
  bin : ∀ t ∈ files, isBin t.1.name = true
  nodup : (files.map fun t => t.1.name).Nodup
  bytes : ∀ t ∈ files, t.2 = wrongHeader ∨ (SampleRun (run t.1.name) ∧
    t.2 = builtTable Platform.plain 1 ⟨0x3F847AE147AE147B⟩ (run t.1.name))

namespace SampleFiles

variable {files : List (Path × Bytes)} {t : Path × Bytes}

theorem paths_nodup (h : SampleFiles files run) : (files.map Prod.fst).Nodup := by
  have hn := h.nodup
  rw [show (fun t : Path × Bytes => t.1.name) = Path.name ∘ Prod.fst from rfl, ← List.map_map] at hn
  exact List.Nodup.of_map _ hn

theorem file (h : SampleFiles files run) (ht : t ∈ files) :
    ∃ f, (filesDisk P 1 files).file? t.1 = some f ∧ f.bytes = t.2 := by
  have hl : files.lookup t.1 = some t.2 := by
    have hnd := h.paths_nodup
    clear h
    induction files with
    | nil => cases ht
    | cons s files ih =>
      obtain ⟨hs, hnd⟩ := List.nodup_cons.1 hnd
      rcases List.mem_cons.1 ht with rfl | ht
      · exact List.lookup_cons_self
      · have hne : t.1 ≠ s.1 := fun he => hs (List.mem_map.2 ⟨t, ht, he⟩)
        rw [List.lookup_cons, beq_false_of_ne hne]
        exact ih ht hnd
  have hf := file?_filesDisk (P := P) 1 (p := t.1) h.paths_nodup
  rw [hl, Option.map_eq_some_iff] at hf
  exact hf

theorem mem_of_file (h : SampleFiles files run) {p : Path} {f : File}
    (hf : (filesDisk P 1 files).file? p = some f) : (p, f.bytes) ∈ files := by
  have hl := file?_filesDisk (P := P) 1 (p := p) h.paths_nodup
  rw [hf] at hl
  exact mem_of_lookup hl.symm

theorem inDirs (h : SampleFiles files run) : (filesDisk P 1 files).InDirs := fun p f hf => by
  rw [h.level _ (h.mem_of_file hf), levels_filesDisk]

/-- A file with a wrong header is skipped; the others are opened, each with its run. -/
theorem open_cases (h : SampleFiles files run) {p : Path} {f : File}
    (hf : (filesDisk P 1 files).file? p = some f) :
    openTable f = .ok none ∧ f.bytes = wrongHeader ∨
    ∃ t, openTable f = .ok (some t) ∧ (∃ b ≠ wrongHeader, (p, b) ∈ files) ∧
      SampleRun (run p.name) ∧ t.view p.level = builtView 1 f.createdSecs (run p.name) := by
  have hm := h.mem_of_file hf
  rcases h.bytes _ hm with he | ⟨hrun, he⟩
  · obtain ⟨created, bytes⟩ := f
    dsimp only at he hm
    subst he
    exact .inl ⟨wrongHeader_skipped created, rfl⟩
  · obtain ⟨created, bytes⟩ := f
    dsimp only at he hm
    obtain ⟨t, ht, hview⟩ := view_builtTable (P := Platform.plain) hrun.fits hrun.sorted hrun.index
      hrun.size created
    rw [← he] at ht
    have hne : bytes ≠ wrongHeader := by
      rintro rfl
      cases (wrongHeader_skipped created).symm.trans ht
    refine .inr ⟨t, ht, ⟨bytes, hne, hm⟩, hrun, ?_⟩
    rw [show p.level = 1 from h.level _ hm]
    exact hview

theorem opens (h : SampleFiles files run) : Opens (filesDisk P 1 files) := fun _ _ _ _ _ hf => by
  rcases h.open_cases hf with ⟨ht, -⟩ | ⟨t, ht, -⟩
  · exact ⟨_, ht⟩
  · exact ⟨_, ht⟩

theorem exists_opened (h : SampleFiles files run) (ht : t ∈ files) (hne : t.2 ≠ wrongHeader) :
    ∃ u, Opened (filesDisk P 1 files) t.1 u := by
  obtain ⟨f, hf, hb⟩ := h.file (P := P) ht
  rcases h.open_cases hf with ⟨-, he⟩ | ⟨u, hu, -⟩
  · exact absurd (hb.symm.trans he) hne
  · refine ⟨u, h.bin t ht, ?_, f, hf, hu⟩
    rw [h.level t ht, levels_filesDisk]
    exact ⟨Nat.le_refl 1, Nat.le_refl 1⟩

end SampleFiles

section

variable (h4 : bad "ss-table-entry_4.bin" = true) (h2 : bad "ss-table-entry_2.bin" = false)
  (h1 : bad "ss-table-entry_1.bin" = false)

end

end Compaction
