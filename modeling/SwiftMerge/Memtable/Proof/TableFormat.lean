import SwiftMerge.Memtable.Proof.FlushTable
import SwiftMerge.Lsm.Proof.LevelProof

/-!
# The table format and its two writers

The sparse index of a flush has the starts of blocks of its records (`flushState_blocks`), as that of
a rebuilt data section has, with another rule for the blocks (`sparseIndex_blocks`). Its footer is the
last key, so a flushed table is well-formed (`wellFormed_flushBuffer`), as a rebuilt data section is.
What both writers frame, `toDataSection` finds and `readEntries` reads back (`writers_readBack`).
-/

namespace Mem

open Lib Lsm Compaction

variable {P : Platform} {inMemoryRepr : InMemoryRepr}

/-! ## The index of a flush -/

/-- An entry starts a block when there is none yet, and when the block would get too large with it. -/
def flushCut (targetBlockSize filled : Nat) (r : Record) : Bool :=
  filled = 0 ∨ targetBlockSize < filled + encodedSize r

theorem foldl_add_cuts (targetBlockSize : Nat) : ∀ (entries : List (Bytes × Option TableEntry))
    (st : FlushState), (entries.foldl (fun st e => st.add targetBlockSize e) st).sparseIndexArray =
      st.sparseIndexArray ++ (cuts encodedSize (flushCut targetBlockSize) st.blockBytes
        st.ssTableBuffer.length (entries.map recordOf)).map keyAt
  | [], st => (List.append_nil _).symm
  | e :: entries, st => by
    have hsize : (toWalEntry e.1 (.ofSlot e.2)).length = encodedSize (recordOf e) := by
      rw [encodedSize, encodeRecord_recordOf]
    have hkey : (recordOf e).1 = e.1 := rfl
    rw [List.foldl_cons, foldl_add_cuts targetBlockSize entries, List.map_cons, cuts, flushCut]
    -- the entry starts the first block, or it overflows one, or it goes into the block
    by_cases hzero : st.blockBytes = 0
    · simp [FlushState.add, hzero, hsize, keyAt, hkey]
    · by_cases hfull : targetBlockSize < st.blockBytes + encodedSize (recordOf e)
      · simp [FlushState.add, hzero, hfull, hsize, keyAt, hkey, Nat.pos_of_ne_zero]
      · simp [FlushState.add, hzero, hfull, hsize]

/-- **The index of a flush** has the starts of blocks that would get larger than their target. -/
theorem flushState_blocks (targetBlockSize : Nat) (entries : List (Bytes × Option TableEntry)) :
    (flushState targetBlockSize entries).sparseIndexArray =
      blockMarks (blocks encodedSize (flushCut targetBlockSize) (entries.map recordOf)) := by
  rw [flushState, foldl_add_cuts]
  cases entries with
  | nil => rfl
  | cons e entries =>
    rw [List.map_cons, blockMarks, blocks, starts_blocksFrom]
    simp [cuts, flushCut]

/-- A block of two and more records is not larger than the target. -/
theorem target_of_uncut {targetBlockSize : Nat} {b : List Record}
    (h : Uncut encodedSize (flushCut targetBlockSize) b) :
    (encodeSection b).length ≤ targetBlockSize ∨ b.length = 1 := by
  obtain ⟨pre, r, rfl, hpre⟩ := h.last
  rcases hpre with rfl | hcut
  · exact .inr rfl
  · left
    rw [← extent_encodedSize, extent_append, extent_cons, extent_nil]
    simp only [flushCut, decide_eq_false_iff_not, not_or, Nat.not_lt] at hcut
    exact hcut.2

theorem indexes_flushIndex (P : Platform) (inMemoryRepr : InMemoryRepr) :
    Indexes (flushIndex P inMemoryRepr) (records inMemoryRepr) := by
  rw [flushIndex, flushState_blocks]
  exact indexes_blocks _ (records inMemoryRepr)

/-- **Both writers divide the data section into blocks.** Their index has the offset and the first key
of every block. A block of a flush is not larger than the target, unless it is a single record; one of
a rebuilt data section is below the stride without its last record. -/
theorem sparseIndex_blocks (P : Platform) :
    (∀ entries : List (Bytes × Option TableEntry), KeySorted entries →
      (flushState (P.pageSize * pagePerBlock) entries).ssTableBuffer =
        encodeSection (entries.map recordOf) ∧
      BlockIndex
        (fun b => (encodeSection b).length ≤ P.pageSize * pagePerBlock ∨ b.length = 1)
        (flushState (P.pageSize * pagePerBlock) entries).sparseIndexArray
        (entries.map recordOf)) ∧
    ∀ rs level, KeySorted rs → (∀ r ∈ rs, Fits r) →
      ∃ st, indexLoop (encodeSection rs) (64 * 1024 * max 1 level) 0 ⟨[], 0, [], []⟩ = .ok st ∧
        BlockIndex (fun b => (encodeSection b.dropLast).length < 64 * 1024 * max 1 level)
          st.sparseIndex rs := by
  refine ⟨fun entries hs => ⟨?_, ?_⟩, fun rs level hs hfits => ?_⟩
  · exact (foldl_add _ entries ⟨[], [], 0, []⟩).1
  · rw [flushState_blocks]
    exact blockIndex_blocks (List.pairwise_map.2 hs) fun b => target_of_uncut
  · have hloop := indexLoop_section (64 * 1024 * max 1 level) hfits [] ⟨[], 0, [], []⟩
    refine ⟨_, hloop, ?_⟩
    have hstride : 0 < 64 * 1024 * max 1 level := by omega
    rw [List.length_nil, indexRecords_blocks]
    exact blockIndex_blocks hs fun b => stride_of_uncut hstride

/-- Two entries flushed, and their records rebuilt on level 2. -/
theorem two_entries_blocks :
    BlockIndex
      (fun b => (encodeSection b).length ≤ Platform.plain.pageSize * pagePerBlock ∨ b.length = 1)
      (flushState (Platform.plain.pageSize * pagePerBlock)
        [([107], some ⟨[118], none⟩), ([108], none)]).sparseIndexArray
      [([107], [1, 0, 0, 0, 118, 0]), ([108], [255])] ∧
    ∃ st, indexLoop (encodeSection [([107], [1, 0, 0, 0, 118, 0]), ([108], [255])])
        (64 * 1024 * max 1 2) 0 ⟨[], 0, [], []⟩ = .ok st ∧
      BlockIndex (fun b => (encodeSection b.dropLast).length < 64 * 1024 * max 1 2) st.sparseIndex
        [([107], [1, 0, 0, 0, 118, 0]), ([108], [255])] :=
  have hblocks := sparseIndex_blocks Platform.plain
  ⟨(hblocks.1 [([107], some ⟨[118], none⟩), ([108], none)] (by decide)).2,
    hblocks.2 [([107], [1, 0, 0, 0, 118, 0]), ([108], [255])] 2 (by decide) (by decide)⟩

theorem foldl_add_maxKey (targetBlockSize : Nat) : ∀ (entries : List (Bytes × Option TableEntry))
    (st : FlushState), (entries.foldl (fun st e => st.add targetBlockSize e) st).maxKey =
      if entries.map recordOf = [] then st.maxKey else lastKey (entries.map recordOf)
  | [], st => rfl
  | e :: entries, st => by
    rw [List.foldl_cons, foldl_add_maxKey targetBlockSize entries, List.map_cons,
      if_neg (List.cons_ne_nil _ _)]
    by_cases hne : entries.map recordOf = []
    · rw [if_pos hne, hne]
      rfl
    · rw [if_neg hne, lastKey_cons _ hne]

theorem flushMaxKey_eq (P : Platform) (inMemoryRepr : InMemoryRepr) :
    flushMaxKey P inMemoryRepr = lastKey (records inMemoryRepr) := by
  rw [flushMaxKey, flushState, foldl_add_maxKey]
  exact lastKey_of_start (records inMemoryRepr)

theorem records_ne_nil (h : inMemoryRepr ≠ ∅) : records inMemoryRepr ≠ [] := by
  intro hnil
  refine h (Std.ExtTreeMap.isEmpty_iff.1 ?_)
  rw [← Std.ExtTreeMap.isEmpty_toList, List.isEmpty_iff]
  exact List.map_eq_nil_iff.1 hnil

theorem length_flushBuffer (P : Platform) (inMemoryRepr : InMemoryRepr)
    (bloomFalsePositiveRate : F64) :
    (flushBuffer P inMemoryRepr bloomFalsePositiveRate).length =
      TableReader.sparseIndexOffset + 4 + (encodeSparseIndex (flushIndex P inMemoryRepr)).length +
        (encodeSection (records inMemoryRepr)).length +
        (4 + (lastKey (records inMemoryRepr)).length) := by
  have hb : (BloomGenerator.generateFilterFromKeys P (inMemoryRepr.toList.map Prod.fst)
      bloomFalsePositiveRate).length = bloomFilterSize := BloomGenerator.length_build _ _
  rw [flushBuffer_eq, flushMaxKey_eq, length_frame _ _ _ hb, length_field]

/-- **A flushed table is well-formed.** -/
theorem wellFormed_flushBuffer (hne : inMemoryRepr ≠ ∅) (h : FlushFits P inMemoryRepr)
    (bloomFalsePositiveRate : F64)
    (hsize : (flushBuffer P inMemoryRepr bloomFalsePositiveRate).length < 2 ^ 64) :
    WellFormed (flushBuffer P inMemoryRepr bloomFalsePositiveRate) (flushIndex P inMemoryRepr)
      (records inMemoryRepr) where
  layout := by
    refine ⟨BloomGenerator.generateFilterFromKeys P (inMemoryRepr.toList.map Prod.fst)
      bloomFalsePositiveRate, BloomGenerator.length_build _ _, fun r hr => ?_, ?_⟩
    · obtain ⟨e, he, rfl⟩ := List.mem_map.1 hr
      exact BloomGenerator.probablyExist_build _ (List.mem_map_of_mem (f := Prod.fst) he)
    · rw [flushBuffer_eq, flushMaxKey_eq]
  nonempty := records_ne_nil hne
  fits := h.records
  sorted := keySorted_records inMemoryRepr
  indexes := indexes_flushIndex P inMemoryRepr
  indexSize := h.index
  size := hsize

/-! ## Reading back what was written -/

/-- The compaction finds the data section of the table, with its size, and reads the records from
it one by one up to its end. -/
def ReadsBack (bytes : Bytes) (rs : List Record) : Prop :=
  ∃ footer, (∀ name, toDataSection name ⟨.ssTable, bytes⟩ =
      .ok (encodeSection rs ++ footer, (encodeSection rs).length)) ∧
    readEntries ⟨encodeSection rs ++ footer, 0, (encodeSection rs).length⟩ =
      .ok (rs, ⟨footer, (encodeSection rs).length, (encodeSection rs).length⟩)

theorem readsBack_of_holds {bytes : Bytes} {rs : List Record} (h : Holds ⟨.ssTable, bytes⟩ rs) :
    ReadsBack bytes rs := by
  obtain ⟨footer, hsection⟩ := h.dataSection
  exact ⟨footer, hsection, readEntries_section footer h.fits _ _ (Nat.zero_add _)⟩

/-- **The writers and the compaction's reader agree**: of a flushed table the entries of the
memtable are read back, in key order, and of a rebuilt data section its records. -/
theorem writers_readBack (P : Platform) :
    (∀ inMemoryRepr bloomFalsePositiveRate, FlushFits P inMemoryRepr →
      KeySorted (records inMemoryRepr) ∧
        ReadsBack (flushBuffer P inMemoryRepr bloomFalsePositiveRate) (records inMemoryRepr)) ∧
    ∀ rs level bloomFalsePositiveRate, (∀ r ∈ rs, Fits r) →
      (IndexFits level rs → ∃ bytes,
        buildFromDataSection P (encodeSection rs) level bloomFalsePositiveRate = .ok bytes) ∧
      ∀ bytes, buildFromDataSection P (encodeSection rs) level bloomFalsePositiveRate = .ok bytes →
        ReadsBack bytes rs := by
  refine ⟨fun inMemoryRepr rate hfits => ⟨keySorted_records _,
    readsBack_of_holds (holds_flushBuffer hfits rate)⟩, fun rs level rate h => ⟨fun hfits => ?_,
    fun bytes hbuild => ?_⟩⟩
  · exact ⟨_, (buildFromDataSection_ok_iff h).2 ⟨hfits, rfl⟩⟩
  · obtain ⟨hfits, rfl⟩ := (buildFromDataSection_ok_iff h).1 hbuild
    exact readsBack_of_holds (holds_builtTable h hfits)

/-- A memtable of three keys, one of them deleted. -/
def threeKeysRepr : InMemoryRepr :=
  (((∅ : InMemoryRepr).insert [109] (some ⟨[120], none⟩)).insert [107] (some ⟨[118], none⟩)).insert
    [108] none

/-- Its records. -/
def threeRecords : List Record :=
  [([107], [1, 0, 0, 0, 118, 0]), ([108], [255]), ([109], [1, 0, 0, 0, 120, 0])]

theorem records_threeKeysRepr : records threeKeysRepr = threeRecords := by decide

theorem fits_threeKeys : FlushFits Platform.plain threeKeysRepr := by
  constructor <;> decide

/-- A flushed table, and its records rebuilt. -/
theorem threeKeys_readBack :
    ReadsBack (flushBuffer Platform.plain threeKeysRepr ⟨0x3FA999999999999A⟩) threeRecords ∧
    ∃ bytes, buildFromDataSection Platform.plain (encodeSection threeRecords) 1
      ⟨0x3FA999999999999A⟩ = .ok bytes := by
  obtain ⟨hflush, hbuild⟩ := writers_readBack Platform.plain
  have hread := (hflush threeKeysRepr ⟨0x3FA999999999999A⟩ fits_threeKeys).2
  rw [records_threeKeysRepr] at hread
  exact ⟨hread, (hbuild threeRecords 1 ⟨0x3FA999999999999A⟩ (by decide)).1 (by decide)⟩

end Mem
