import SwiftMerge.Memtable.Proof.TableFormat
import SwiftMerge.Compaction.Proof.LevelTables

/-!
# A table as the only one of its level

A `WrittenTable` is a table from one of the two writers. Loaded as the only table of a level it
answers all its keys when `readFooter` can decode the last one, and only then (`findsAll_iff`): a
key of 9997 bytes hides itself and every key below it (`long_key_hidden`).
-/

namespace Mem

open Lib Lsm Compaction

variable {P : Platform} {bytes : Bytes} {rs : List Record}

/-- A table from either writer. -/
inductive WrittenTable (P : Platform) : Bytes → List Record → Prop
  | flushed {inMemoryRepr : InMemoryRepr} {bloomFalsePositiveRate : F64} :
    inMemoryRepr ≠ ∅ → FlushFits P inMemoryRepr →
    -- the length of a buffer is a `usize`
    (flushBuffer P inMemoryRepr bloomFalsePositiveRate).length < 2 ^ 64 →
    WrittenTable P (flushBuffer P inMemoryRepr bloomFalsePositiveRate) (records inMemoryRepr)
  | built {rs : List Record} {level : Nat} {bloomFalsePositiveRate : F64} {bytes : Bytes} :
    rs ≠ [] → (∀ r ∈ rs, Fits r) → KeySorted rs →
    buildFromDataSection P (encodeSection rs) level bloomFalsePositiveRate = .ok bytes →
    bytes.length < 2 ^ 64 → WrittenTable P bytes rs

theorem WrittenTable.wellFormed (h : WrittenTable P bytes rs) :
    ∃ sparseIndex, WellFormed bytes sparseIndex rs := by
  cases h with
  | flushed hne hfits hsize => exact ⟨_, wellFormed_flushBuffer hne hfits _ hsize⟩
  | built hne hfits hs hbuild hsize =>
    obtain ⟨hindex, rfl⟩ := (buildFromDataSection_ok_iff hfits).1 hbuild
    exact ⟨_, wellFormed_builtTable hne hfits hs hindex hsize⟩

/-! ## The only table of a level -/

/-- The file is the only table of the level, and no level above has one. -/
structure OnlyTable (d : Disk) (level : Nat) (file : File) : Prop where
  dir : 1 ≤ level ∧ level ≤ d.levels
  table : ∃ name, isBin name = true ∧ ∀ name' f, isBin name' = true →
    (d.file? ⟨level, name'⟩ = some f ↔ name' = name ∧ f = file)
  above : ∀ level' < level, ∀ name f, d.file? ⟨level', name⟩ = some f → isBin name = false

/-- Loaded at any place where it is a level's only table, the table answers all its keys. -/
def FindsAll (bytes : Bytes) (rs : List Record) : Prop :=
  ∀ (d : Disk) (level : Nat) (file : File) (levelArray : List FileMap), file.bytes = bytes →
    OnlyTable d level file → Loaded d levelArray →
      ∀ r ∈ rs, ∃ tables levels, read levelArray r.1 = .ok (.found r.2 tables levels)

namespace OnlyTable

variable {d : Disk} {level : Nat} {t : StoredTable} {levelArray : List FileMap}

theorem tablesOf (h : OnlyTable d level t.file) : TablesOf (d.dir level) [t] := by
  obtain ⟨name, hbin, htable⟩ := h.table
  have hmem : ∀ e, e ∈ (d.dir level).filter (fun e => isBin e.1) ↔ e ∈ [(name, t.file)] := by
    rintro ⟨n, f⟩
    rw [List.mem_filter, Disk.mem_dir, List.mem_singleton, Prod.mk.injEq]
    constructor
    · rintro ⟨hfile, hb⟩
      exact (htable n f hb).1 hfile
    · rintro ⟨rfl, rfl⟩
      exact ⟨(htable n t.file hbin).2 ⟨rfl, rfl⟩, hbin⟩
  have hnodup : ((d.dir level).filter fun e => isBin e.1).Nodup :=
    (List.Nodup.of_map _ (d.dir_nodup level)).filter _
  have hperm := (List.perm_ext_iff_of_nodup hnodup (List.nodup_singleton _)).2 hmem
  rw [TablesOf, List.perm_singleton.1 hperm]
  rfl

theorem tablesOf_above (h : OnlyTable d level t.file) {level' : Nat} (hl : level' < level) :
    TablesOf (d.dir level') [] := by
  rw [TablesOf, List.filter_eq_nil_iff.2]
  · rfl
  · rintro ⟨n, f⟩ he
    rw [h.above level' hl n f (Disk.mem_dir.1 he)]
    exact Bool.false_ne_true

/-- The level array: nothing above the table's level, the table alone in it. -/
theorem levelArray_eq (h : OnlyTable d level t.file) (hl : Loaded d levelArray) :
    ∃ (above : List (List StoredTable)) (rest : List FileMap), (∀ us ∈ above, us = []) ∧
      levelArray = above.map (·.map StoredTable.entry) ++ [t].map StoredTable.entry :: rest := by
  obtain ⟨hlen, hlevels⟩ := loaded_levels hl
  obtain ⟨hpos, hle⟩ := h.dir
  have hlt : level - 1 < levelArray.length := by omega
  have hmap : levelArray[level - 1] = [t].map StoredTable.entry := by
    obtain ⟨m, hm, hperm⟩ := hlevels _ _ (List.getElem?_eq_getElem hlt)
    rw [Nat.sub_add_cancel hpos, loadLevel_eq h.tablesOf, Except.ok.injEq] at hm
    rw [← hm, loadAll_single] at hperm
    exact List.perm_singleton.1 hperm.symm
  have habove : levelArray.take (level - 1) = List.replicate (level - 1) [] := by
    refine List.eq_replicate_iff.2 ⟨by rw [List.length_take]; omega, fun map hmem => ?_⟩
    obtain ⟨i, hi, rfl⟩ := List.mem_take_iff_getElem.1 hmem
    obtain ⟨m, hm, hperm⟩ := hlevels i _ (List.getElem?_eq_getElem (by omega))
    rw [loadLevel_eq (h.tablesOf_above (by omega)), Except.ok.injEq] at hm
    rw [← hm] at hperm
    exact List.nil_perm.1 hperm
  refine ⟨List.replicate (level - 1) [], levelArray.drop level, fun us hus =>
    List.eq_of_mem_replicate hus, ?_⟩
  have hsplit := (List.take_append_drop (level - 1) levelArray).symm
  rw [List.drop_eq_getElem_cons hlt, hmap, habove, Nat.sub_add_cancel hpos] at hsplit
  rw [List.map_replicate]
  exact hsplit

theorem loaded (h : OnlyTable d 1 t.file) (hlevels : d.levels = 1) :
    Loaded d [[t].map StoredTable.entry] := by
  refine ⟨[loadAll [t]], ?_, .cons ?_ .nil⟩
  · rw [createLevelArray_eq fun _ => [t], hlevels]
    · rfl
    · intro level hpos hle
      obtain rfl : level = 1 := by omega
      exact h.tablesOf
  · rw [loadAll_single]

end OnlyTable

/-- A table on a disk of its own. -/
def soleDisk (bytes : Bytes) : Disk :=
  { Disk.empty 0 with levels := 1 }.write Platform.plain ⟨1, "table.bin"⟩ bytes

theorem onlyTable_soleDisk (bytes : Bytes) : OnlyTable (soleDisk bytes) 1 ⟨0, bytes⟩ where
  dir := by simp [soleDisk]
  table := by
    refine ⟨"table.bin", by decide, fun name' f hb => ?_⟩
    by_cases hname : name' = "table.bin"
    · rw [hname, soleDisk, Disk.file?_write_self, Option.some.injEq]
      exact ⟨fun he => ⟨rfl, he.symm⟩, fun he => he.2.symm⟩
    · rw [soleDisk, Disk.file?_write fun he => hname (congrArg Path.name he)]
      exact iff_of_false (by simp [Disk.file?, Disk.empty]) fun he => hname he.1
  above := by
    intro level' hl name f hf
    rw [soleDisk, Disk.file?_write (by
      intro he
      rw [Lsm.Path.mk.injEq] at he
      omega)] at hf
    simp [Disk.file?, Disk.empty] at hf

theorem not_findsAll (h : ∃ sparseIndex, WellFormed bytes sparseIndex rs)
    (hlong : 9996 < (lastKey rs).length) : ¬FindsAll bytes rs := by
  obtain ⟨sparseIndex, hwf⟩ := h
  intro hall
  obtain ⟨r, hr, hlast⟩ := lastKey_mem hwf.nonempty
  let t : StoredTable := ⟨⟨0, bytes⟩, sparseIndex, rs, hwf⟩
  obtain ⟨tables, levels, hread⟩ := hall (soleDisk bytes) 1 ⟨0, bytes⟩ _ rfl
    (onlyTable_soleDisk bytes) (OnlyTable.loaded (t := t) (onlyTable_soleDisk bytes)
      (by simp [soleDisk])) r hr
  have hnot : ¬t.admits r.1 = true := by
    rw [StoredTable.admits_iff (show (r.1, r.2) ∈ t.rs from hr)]
    rintro (hshort | hnil)
    · exact absurd hshort (by change ¬(lastKey rs).length ≤ 9996; omega)
    · rw [← hlast, hnil] at hlong
      simp at hlong
  obtain ⟨tables', levels', hmissing⟩ := read_missing [[t]] (show ∀ us ∈ _, levelFind us r.1 = none by
    intro us hus
    rw [List.mem_singleton.1 hus, levelFind_single, if_neg hnot])
  rw [List.map_singleton] at hmissing
  rw [hmissing] at hread
  cases hread

/-- A table whose last key is short answers all its keys. -/
theorem findsAll_of_short (h : ∃ sparseIndex, WellFormed bytes sparseIndex rs)
    (hshort : (lastKey rs).length ≤ 9996) : FindsAll bytes rs := by
  obtain ⟨sparseIndex, hwf⟩ := h
  rintro d level ⟨created, bs⟩ levelArray rfl honly hl r hr
  let t : StoredTable := ⟨⟨created, bs⟩, sparseIndex, rs, hwf⟩
  obtain ⟨above, rest, habove, rfl⟩ := OnlyTable.levelArray_eq (t := t) honly hl
  have hadmits : t.admits r.1 = true :=
    (StoredTable.admits_iff (show (r.1, r.2) ∈ t.rs from hr)).2 (.inl hshort)
  refine read_found (fun us hus => ?_) ?_ rest
  · rw [habove us hus, levelFind_nil]
  · rw [levelFind_single, if_pos hadmits]
    exact hwf.sorted.lookup_of_mem hr

/-- **Pruning hides no key** of a table when its last key has at most 9996 bytes, and only then. -/
theorem findsAll_iff (h : WrittenTable P bytes rs) :
    FindsAll bytes rs ↔ (lastKey rs).length ≤ 9996 := by
  refine ⟨fun hall => ?_, findsAll_of_short h.wellFormed⟩
  by_contra hlong
  exact not_findsAll h.wellFormed (Nat.lt_of_not_le hlong) hall

/-! ### Samples -/

/-- A memtable of one key. -/
def oneKeyRepr (key value : Bytes) : InMemoryRepr := (∅ : InMemoryRepr).insert key (some ⟨value, none⟩)

/-- Its record. -/
def oneRecord (key value : Bytes) : Record := recordOf (key, some ⟨value, none⟩)

theorem records_oneKeyRepr (key value : Bytes) :
    records (oneKeyRepr key value) = [oneRecord key value] := rfl

theorem length_oneRecord (key value : Bytes) : (oneRecord key value).2.length = 5 + value.length := by
  simp +arith [oneRecord, recordOf, WalEntry.ofSlot, WalEntry.contents, TableEntry.serialize]

/-- The table of a memtable of one key. -/
def oneKeyTable (key value : Bytes) : Bytes :=
  flushBuffer Platform.plain (oneKeyRepr key value) ⟨0x3FA999999999999A⟩

theorem fits_oneKey {key value : Bytes} (hk : key.length < 2 ^ 31) (hv : value.length < 2 ^ 31) :
    FlushFits Platform.plain (oneKeyRepr key value) ∧ (oneKeyTable key value).length < 2 ^ 64 := by
  have hrecords := records_oneKeyRepr key value
  have hindex : flushIndex Platform.plain (oneKeyRepr key value) = [(0, key)] := rfl
  have hlen := length_oneRecord key value
  constructor
  · refine ⟨fun r hr => ?_, ?_⟩
    · rw [hrecords] at hr
      rw [List.mem_singleton.1 hr]
      exact ⟨by change key.length < _; omega, by omega⟩
    · rw [hindex]
      simp [encodeSparseIndex]
      omega
  · have hlast : lastKey [oneRecord key value] = key := rfl
    have hsection : (encodeSection [oneRecord key value]).length =
        13 + key.length + value.length := by
      rw [encodeSection_cons, List.length_append, length_encodeRecord, hlen]
      change 8 + key.length + _ + 0 = _
      omega
    have hoffset : TableReader.sparseIndexOffset = 1072 := rfl
    rw [oneKeyTable, length_flushBuffer, hindex, hrecords, hsection, hlast, hoffset]
    simp [encodeSparseIndex]
    omega

theorem oneKeyRepr_ne (key value : Bytes) : oneKeyRepr key value ≠ ∅ := fun he => by
  have hrecords := records_oneKeyRepr key value
  rw [he] at hrecords
  cases hrecords

theorem written_oneKey {key value : Bytes} (hk : key.length < 2 ^ 31) (hv : value.length < 2 ^ 31) :
    WrittenTable Platform.plain (oneKeyTable key value) [oneRecord key value] :=
  .flushed (oneKeyRepr_ne key value) (fits_oneKey hk hv).1 (fits_oneKey hk hv).2

theorem wellFormed_oneKey {key value : Bytes} (hk : key.length < 2 ^ 31)
    (hv : value.length < 2 ^ 31) :
    WellFormed (oneKeyTable key value) [(0, key)] [oneRecord key value] :=
  wellFormed_flushBuffer (oneKeyRepr_ne key value) (fits_oneKey hk hv).1 _ (fits_oneKey hk hv).2

theorem short_key_found : FindsAll (oneKeyTable [107] [118]) [oneRecord [107] [118]] :=
  (findsAll_iff (written_oneKey (by decide) (by decide))).2 (by decide)

/-- **A key of 9997 bytes is hidden**: the footer is over 10000 bytes long. -/
theorem long_key_hidden : ¬FindsAll (oneKeyTable (List.replicate 9997 107) [118])
    [oneRecord (List.replicate 9997 107) [118]] := by
  have hlen : (List.replicate 9997 (107 : UInt8)).length = 9997 := List.length_replicate
  refine not_findsAll (written_oneKey (by rw [hlen]; decide) (by decide)).wellFormed ?_
  change 9996 < (List.replicate 9997 (107 : UInt8)).length
  rw [hlen]
  decide

end Mem
