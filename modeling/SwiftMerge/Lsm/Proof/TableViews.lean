import SwiftMerge.Lsm.Proof.AnyOrder

/-!
# What readers see of well-formed tables

A well-formed table answers its keys with their values when its last key is short enough for
`readFooter`, and the empty key only when it is not (`WellFormed.answer_eq`); so does the table that
a compaction makes of a merge (`view_builtTable`), even of an empty one, which has no well-formed
place for its last key but is opened all the same.
-/

namespace Lsm

open Lib TableReader

variable {key : Bytes} {rs : List Record} {sparseIndex : List (Nat × Bytes)} {bytes : Bytes}

/-- A table without an index passes every key. -/
theorem answer_of_no_index {t : TableReader} (h : t.metadata.sparseIndex = []) (key : Bytes) :
    t.answer key = none := by
  have hsearch : t.search key = .ok none := by
    unfold search
    rw [h]
    rfl
  rw [answer, hsearch]
  exact ite_self _

/-- What a table of the records answers. -/
def shown (rs : List Record) (key : Bytes) : Option (Except IoError Bytes) :=
  if (lastKey rs).length ≤ 9996 ∨ key = [] then (rs.lookup key).map .ok else none

theorem shown_some {v : Bytes} (hs : KeySorted rs) :
    shown rs key = some (.ok v) ↔ (key, v) ∈ rs ∧ ((lastKey rs).length ≤ 9996 ∨ key = []) := by
  unfold shown
  split
  · rename_i hshort
    rw [Option.map_eq_some_iff, and_iff_left hshort]
    exact ⟨fun ⟨w, hw, he⟩ => Except.ok.inj he ▸ mem_of_lookup hw,
      fun h => ⟨v, hs.lookup_of_mem h, rfl⟩⟩
  · rename_i hlong
    exact iff_of_false nofun fun h => hlong h.2

theorem shown_ok {result : Except IoError Bytes} (h : shown rs key = some result) :
    ∃ v, result = .ok v ∧ (key, v) ∈ rs := by
  unfold shown at h
  split at h
  · obtain ⟨v, hv, rfl⟩ := Option.map_eq_some_iff.1 h
    exact ⟨v, rfl, mem_of_lookup hv⟩
  · cases h

namespace WellFormed

theorem openTable (h : WellFormed bytes sparseIndex rs) (created : Nat) :
    Lsm.openTable ⟨created, bytes⟩ = .ok (some (readerOf ⟨created, bytes⟩ sparseIndex rs)) := by
  unfold Lsm.openTable
  rw [h.readHeader, h.generateIndex created]
  rfl

/-- **A well-formed table answers** with its records. -/
theorem answer_eq (h : WellFormed bytes sparseIndex rs) (created : Nat) (key : Bytes) :
    (readerOf ⟨created, bytes⟩ sparseIndex rs).answer key = shown rs key := by
  let t : StoredTable := ⟨⟨created, bytes⟩, sparseIndex, rs, h⟩
  change t.reader.answer key = shown t.rs key
  have hnot (ha : ¬t.admits key = true) : t.reader.answer key = none :=
    TableReader.answer_eq_none (Bool.eq_false_iff.2 ha)
  unfold shown
  cases hlookup : t.rs.lookup key with
  | none =>
    rw [Option.map_none, ite_self]
    by_cases ha : t.admits key = true
    · rw [StoredTable.answer_reader ha, hlookup]
      rfl
    · exact hnot ha
  | some v =>
    have hiff := StoredTable.admits_iff (mem_of_lookup hlookup)
    by_cases ha : t.admits key = true
    · rw [StoredTable.answer_reader ha, if_pos (hiff.1 ha), hlookup]
    · rw [hnot ha, if_neg fun hs => ha (hiff.2 hs)]

end WellFormed

/-! ## The table of a merge -/

/-- The view of the table that a compaction makes of the records. -/
def builtView (level second : Nat) (rs : List Record) : TableView :=
  ⟨level, ⟨second, (indexOf level rs).sparseIndex, footerKey (lastKey rs)⟩, shown rs⟩

variable {P : Platform} {level : Nat} {bloomFalsePositiveRate : F64}

/-- **Readers open the table of a merge**, empty or not. -/
theorem view_builtTable (h : ∀ r ∈ rs, Fits r) (hs : KeySorted rs) (hfits : IndexFits level rs)
    (hsize : (builtTable P level bloomFalsePositiveRate rs).length < 2 ^ 64) (created : Nat) :
    ∃ t, openTable ⟨created, builtTable P level bloomFalsePositiveRate rs⟩ = .ok (some t) ∧
      t.view level = builtView level (created / 10 ^ 9) rs := by
  by_cases hne : rs = []
  · subst hne
    have hbloom : (BloomGenerator.generateFilterFromKeys P [] bloomFalsePositiveRate).length =
        bloomFilterSize := BloomGenerator.length_build _ _
    have hindex := generateIndex_frame [] [] [] hbloom (by decide) nofun (by decide) created
    have hopen : openTable ⟨created, builtTable P level bloomFalsePositiveRate []⟩ = .ok (some
        ⟨builtTable P level bloomFalsePositiveRate [], sparseIndexOffset + 4 + 0,
          ⟨created / 10 ^ 9, [], []⟩⟩) := by
      unfold openTable
      rw [show readHeader (builtTable P level bloomFalsePositiveRate []) = .ok headerCrc from
        readHeader_frame _ _ _ _]
      simp only [Except.mapError, ok_bind, if_true]
      rw [show generateIndex ⟨created, builtTable P level bloomFalsePositiveRate []⟩ = _ from hindex]
      rfl
    exact ⟨_, hopen, congrArg (TableView.mk level _)
      (funext fun key => (answer_of_no_index rfl key).trans (ite_self _).symm)⟩
  · have hwf := wellFormed_builtTable hne h hs hfits hsize
    exact ⟨_, hwf.openTable created,
      congrArg (TableView.mk level _) (funext fun key => hwf.answer_eq created key)⟩

end Lsm
