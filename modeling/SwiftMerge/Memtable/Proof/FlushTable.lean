import SwiftMerge.Compaction.Proof.Join
import SwiftMerge.Memtable.Proof.Writes

/-!
# The table a flush writes

`flushBuffer` has the layout of a table: its data section is the entries of the map in key order,
each as the record that the log has of it (`flushBuffer_eq`). When the records and the sparse index
fit their lengths, the file of a flush holds those records (`holds_flushBuffer`). A flush makes one
new file and changes no other (`flushedDisk_keeps`, `file?_flushedDisk`).
-/

namespace Mem

open Lib Lsm Compaction

variable {P : Platform} {m : Memtable} {d : Disk}

/-! ## The loop over the entries -/

theorem foldl_add (targetBlockSize : Nat) : ∀ (entries : List (Bytes × Option TableEntry))
    (st : FlushState), let st' := entries.foldl (fun st e => st.add targetBlockSize e) st
      st'.ssTableBuffer = st.ssTableBuffer ++ encodeSection (entries.map recordOf) ∧
      (st.maxKey.length < 2 ^ 32 → (∀ e ∈ entries, Fits (recordOf e)) → st'.maxKey.length < 2 ^ 32)
  | [], st => by simp
  | e :: entries, st => by
    obtain ⟨hbuffer, hmax⟩ := foldl_add targetBlockSize entries (st.add targetBlockSize e)
    refine ⟨?_, fun _ h => hmax (h e (.head _)).1 fun x hx => h x (.tail _ hx)⟩
    rw [List.foldl_cons, hbuffer, List.map_cons, encodeSection_cons, encodeRecord_recordOf]
    exact List.append_assoc _ _ _

/-- The records of a memtable, in key order. -/
def records (inMemoryRepr : InMemoryRepr) : List Record := inMemoryRepr.toList.map recordOf

theorem keySorted_records (inMemoryRepr : InMemoryRepr) : KeySorted (records inMemoryRepr) :=
  List.pairwise_map.2 (keySorted_toList inMemoryRepr)

/-- The sparse index that a flush writes. -/
def flushIndex (P : Platform) (inMemoryRepr : InMemoryRepr) : List (Nat × Bytes) :=
  (flushState (P.pageSize * pagePerBlock) inMemoryRepr.toList).sparseIndexArray

/-- The last key that a flush has seen. -/
def flushMaxKey (P : Platform) (inMemoryRepr : InMemoryRepr) : Bytes :=
  (flushState (P.pageSize * pagePerBlock) inMemoryRepr.toList).maxKey

theorem flushBuffer_eq (P : Platform) (inMemoryRepr : InMemoryRepr) (bloomFalsePositiveRate : F64) :
    flushBuffer P inMemoryRepr bloomFalsePositiveRate =
      frame (BloomGenerator.generateFilterFromKeys P (inMemoryRepr.toList.map Prod.fst)
          bloomFalsePositiveRate)
        (encodeSparseIndex (flushIndex P inMemoryRepr)) (encodeSection (records inMemoryRepr))
        (field (flushMaxKey P inMemoryRepr)) := by
  have hcrc : headerCrc.length = 64 := by decide
  have hbuffer := (foldl_add (P.pageSize * pagePerBlock) inMemoryRepr.toList ⟨[], [], 0, []⟩).1
  rw [List.nil_append] at hbuffer
  unfold flushBuffer frame
  dsimp only
  rw [List.take_left' hcrc, List.drop_left' hcrc, flushState, hbuffer]
  rfl

/-- What a table can hold: the parts of the records and the sparse index have four-byte lengths. -/
structure FlushFits (P : Platform) (inMemoryRepr : InMemoryRepr) : Prop where
  records : ∀ r ∈ records inMemoryRepr, Fits r
  index : (encodeSparseIndex (flushIndex P inMemoryRepr)).length < 2 ^ 32

theorem length_flushMaxKey {inMemoryRepr : InMemoryRepr} (h : FlushFits P inMemoryRepr) :
    (flushMaxKey P inMemoryRepr).length < 2 ^ 32 :=
  (foldl_add (P.pageSize * pagePerBlock) inMemoryRepr.toList ⟨[], [], 0, []⟩).2 (by simp)
    fun e he => h.records _ (List.mem_map_of_mem he)

/-- **A flushed table** holds the records of the memtable. -/
theorem holds_flushBuffer {inMemoryRepr : InMemoryRepr} (h : FlushFits P inMemoryRepr)
    (bloomFalsePositiveRate : F64) :
    Holds ⟨.ssTable, flushBuffer P inMemoryRepr bloomFalsePositiveRate⟩ (records inMemoryRepr) := by
  have hmax := length_flushMaxKey h
  rw [flushBuffer_eq]
  refine holds_frame h.records (BloomGenerator.length_build _ _) h.index ?_ (field_ne_nil _)
  rw [length_field]
  omega

/-! ## The disk after a flush -/

theorem flushedDisk_keeps : Disk.Keeps (fun p => p = flushPath P d) d (flushedDisk P m d) := by
  have h1 : Disk.Keeps (fun p => p = flushPath P d) d (withL1 d) :=
    ⟨fun _ => rfl, Nat.le_max_left _ _, Nat.le_refl _⟩
  have h2 : Disk.Keeps (fun p => p = flushPath P d) (withL1 d) (tableWritten P m d) :=
    .trans (Disk.keeps_create rfl) (Disk.keeps_append (S := fun p => p = flushPath P d) rfl _)
  have h3 : Disk.Keeps (fun p => p = flushPath P d) (tableWritten P m d) (flushedDisk P m d) :=
    ⟨fun _ => rfl, Nat.le_refl _, Nat.le_refl _⟩
  exact (h1.trans h2).trans h3

theorem flushedDisk_table : (flushedDisk P m d).file? (flushPath P d) =
    some ⟨(withL1 d).createdAt (flushPath P d),
      flushBuffer P m.inMemoryRepr m.config.bloomFalsePositiveRate⟩ :=
  Disk.file?_append_self Disk.file?_create_self

theorem file?_flushedDisk (h : d.file? (flushPath P d) = none) :
    (flushedDisk P m d).file? (flushPath P d) =
      some ⟨d.clock, flushBuffer P m.inMemoryRepr m.config.bloomFalsePositiveRate⟩ := by
  have hcreated : (withL1 d).createdAt (flushPath P d) = d.clock := by
    rw [Disk.createdAt, show (withL1 d).file? (flushPath P d) = none from h]
    rfl
  rw [flushedDisk_table, hcreated]

theorem levels_flushedDisk : (flushedDisk P m d).levels = max d.levels 1 := by
  simp [flushedDisk, tableWritten, withL1]

theorem clock_flushedDisk (h : d.file? (flushPath P d) = none) :
    (flushedDisk P m d).clock = P.later d.clock := by
  have hcreate : ((withL1 d).create P (flushPath P d)).clock = P.later d.clock :=
    Disk.clock_create (d := withL1 d) h
  rw [← hcreate]
  exact Disk.clock_append

end Mem
