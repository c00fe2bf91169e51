import SwiftMerge.Lsm.Proof.SearchReads
import SwiftMerge.Memtable.Proof.TableReads

/-!
# Searching the tables of both writers

Up to its last key a table is searched as its records are looked up, within the data section
(`search_lookup`). Above the last key the search of a table in key order fails on the footer; a clean
miss takes a data section out of order (`miss_above_iff`).
-/

namespace Mem

open Lib Lsm Compaction

variable {P : Platform} {bytes : Bytes} {sparseIndex : List (Nat × Bytes)} {rs : List Record}
  {key : Bytes}

/-- **The sparse-index search is a linear lookup** for the keys up to the last one, and reads nothing
behind the data section. -/
theorem search_lookup (h : WrittenTable P bytes rs) (created : Nat)
    (hlast : compare key (lastKey rs) ≠ .gt) :
    ∃ t, TableReader.generateIndex ⟨created, bytes⟩ = .ok t ∧ t.search key = .ok (rs.lookup key) ∧
      t.searchEnd key ≤ t.dataSectionOffset + (encodeSection rs).length := by
  obtain ⟨sparseIndex, hwf⟩ := h.wellFormed
  exact ⟨_, hwf.generateIndex created, hwf.search_eq_lookup created hlast,
    hwf.framed.searchEnd_le created hlast⟩

/-- A table from either writer, its data section in any order. -/
inductive FramedTable (P : Platform) : Bytes → List Record → Prop
  | flushed {inMemoryRepr : InMemoryRepr} {bloomFalsePositiveRate : F64} :
    inMemoryRepr ≠ ∅ → FlushFits P inMemoryRepr →
    (flushBuffer P inMemoryRepr bloomFalsePositiveRate).length < 2 ^ 64 →
    FramedTable P (flushBuffer P inMemoryRepr bloomFalsePositiveRate) (records inMemoryRepr)
  | built {rs : List Record} {level : Nat} {bloomFalsePositiveRate : F64} {bytes : Bytes} :
    rs ≠ [] → (∀ r ∈ rs, Fits r) →
    buildFromDataSection P (encodeSection rs) level bloomFalsePositiveRate = .ok bytes →
    bytes.length < 2 ^ 64 → FramedTable P bytes rs

theorem FramedTable.framed (h : FramedTable P bytes rs) :
    ∃ sparseIndex, Framed bytes sparseIndex rs := by
  cases h with
  | flushed hne hfits hsize => exact ⟨_, (wellFormed_flushBuffer hne hfits _ hsize).framed⟩
  | built hne hf hbuild hsize =>
    obtain ⟨hfits, rfl⟩ := (buildFromDataSection_ok_iff hf).1 hbuild
    exact ⟨_, framed_builtTable hne hf hfits hsize⟩

theorem WrittenTable.framedTable (h : WrittenTable P bytes rs) : FramedTable P bytes rs := by
  cases h with
  | flushed hne hfits hsize => exact .flushed hne hfits hsize
  | built hne hf _ hbuild hsize => exact .built hne hf hbuild hsize

/-- **A search above the last key** is a clean miss exactly when a record above the key, out of
order, stops it; in a table in key order it fails. -/
theorem miss_above_iff (h : FramedTable P bytes rs) (created : Nat)
    (hk : compare key (lastKey rs) = .gt) :
    ∃ t, TableReader.generateIndex ⟨created, bytes⟩ = .ok t ∧
      (t.search key = .ok none ∧ t.searchEnd key ≤ t.dataSectionOffset + (encodeSection rs).length ↔
        StopsEarly t.metadata.sparseIndex rs key) ∧
      (KeySorted rs → t.search key = .error (.unexpectedEof "early eof")) := by
  obtain ⟨sparseIndex, hf⟩ := h.framed
  exact ⟨_, hf.generateIndex created, hf.cleanMiss_iff created key,
    fun hs => hf.search_above hs created hk⟩

/-! ### Samples -/

/-- The flushed table of three keys. -/
def threeKeysTable : Bytes := flushBuffer Platform.plain threeKeysRepr ⟨0x3FA999999999999A⟩

theorem written_threeKeys : WrittenTable Platform.plain threeKeysTable threeRecords := by
  have hne : threeKeysRepr ≠ ∅ := fun he => by
    have hrecords := records_threeKeysRepr
    rw [he] at hrecords
    cases hrecords
  have hwritten : WrittenTable Platform.plain threeKeysTable (records threeKeysRepr) := by
    refine .flushed hne fits_threeKeys ?_
    rw [length_flushBuffer, records_threeKeysRepr]
    decide
  rw [records_threeKeysRepr] at hwritten
  exact hwritten

/-- The search for the deleted key passes a record and finds the tombstone. -/
theorem threeKeys_search : ∃ t, TableReader.generateIndex ⟨0, threeKeysTable⟩ = .ok t ∧
    t.search [108] = .ok (some [255]) ∧
    t.searchEnd [108] ≤ t.dataSectionOffset + (encodeSection threeRecords).length :=
  search_lookup written_threeKeys 0 (by decide)

theorem oneKey_miss : ∃ t, TableReader.generateIndex ⟨0, oneKeyTable [107] [118]⟩ = .ok t ∧
    (t.search [108] = .ok none ∧
        t.searchEnd [108] ≤ t.dataSectionOffset + (encodeSection [oneRecord [107] [118]]).length ↔
      StopsEarly t.metadata.sparseIndex [oneRecord [107] [118]] [108]) ∧
    (KeySorted [oneRecord [107] [118]] → t.search [108] = .error (.unexpectedEof "early eof")) :=
  miss_above_iff (written_oneKey (by decide) (by decide)).framedTable 0 (by decide)

/-- **The footer is read as a record**: a key above the only one of a table is an error. -/
theorem above_one_key : ∃ t, TableReader.generateIndex ⟨0, oneKeyTable [107] [118]⟩ = .ok t ∧
    t.search [108] ≠ .ok none := by
  have hwf : WellFormed (oneKeyTable [107] [118]) [(0, [107])] [oneRecord [107] [118]] :=
    wellFormed_oneKey (by decide) (by decide)
  refine ⟨_, hwf.generateIndex 0, fun he => ?_⟩
  cases (hwf.framed.search_above hwf.sorted 0 (by decide)).symm.trans he

end Mem
