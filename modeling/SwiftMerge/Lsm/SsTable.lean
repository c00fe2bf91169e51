import SwiftMerge.Memtable.Entry
import SwiftMerge.Lsm.Bloom

/-!
# SSTables as the compaction writes and reads them (`lsm_tree/compaction.rs`)

The layout of a table is

`CRC (64) | footer-size (u64) | Bloom filter | sparse-index-size (u32) | sparse index | data | footer`

where the data section is a sequence of records `key-len | key | value-len | value` in key order,
the sparse index holds the first key of each block with its offset in the data section, and the
footer is the last key as a field. `buildFromDataSection` makes a table of a data section,
`toDataSection` finds the data section of a table, and `readNextNonTombstoneEntry` reads its records
one by one. An open file is the bytes from its position on.
-/

namespace Lsm

open Lib Mem

def headerCrc : Bytes := utf8 "054a62a514e1d7d93b2955772fe6070d03a9d58f34a42d85918ac975488dbbe4"
def headerCrcSize : Nat := 64
def footerSizeFieldLen : Nat := 8
def sparseIndexSizeFieldLen : Nat := 4

inductive TableCorruption
  | invalidCRC (crc : Bytes)
  | invalidFooter (msg : String)
  | invalidSparseIndex
  | dataSectionError (msg : String)
  deriving DecidableEq, Repr

inductive CompactionError
  | compactionIoError (e : IoError)
  | invalidTable (fileName : String) (issue : TableCorruption)
  deriving DecidableEq, Repr

/-- A record of a data section: a key and its raw value. -/
abbrev Record := Bytes × Bytes

/-- `write_data_section_entry`: `key-len | key | value-len | value`. -/
def encodeRecord (r : Record) : Bytes := field r.1 ++ field r.2

/-- A data section. -/
def encodeSection (rs : List Record) : Bytes := rs.flatMap encodeRecord

/-- The entries of a sparse index: `key-len | key | offset (u64)`. -/
def encodeSparseIndex (sparseIndex : List (Nat × Bytes)) : Bytes :=
  sparseIndex.flatMap fun e => field e.2 ++ leBytes 8 e.1

/-- The layout of a table. -/
def frame (bloomBlock sparseIndexBytes dataSection footer : Bytes) : Bytes :=
  headerCrc ++ leBytes 8 footer.length ++ bloomBlock ++ leBytes 4 sparseIndexBytes.length ++
    sparseIndexBytes ++ dataSection ++ footer

/-- `read_exact` at a position of a file. -/
def readExact (bytes : Bytes) (pos n : Nat) : Except IoError Bytes :=
  if pos + n ≤ bytes.length then .ok ((bytes.drop pos).take n)
  else .error (.unexpectedEof "early eof")

/-! ## Building a table -/

/-- The entry of a data section at `cursor`: its key and the cursor after it. -/
def sectionEntry (dataSection : Bytes) (cursor : Nat) : Except CompactionError (Bytes × Nat) := do
  let invalid (msg : String) : CompactionError := .compactionIoError (.invalidData msg)
  let get (i n : Nat) : Bytes := (dataSection.drop i).take n
  ensure (cursor + 4 ≤ dataSection.length) (invalid "invalid key length prefix in data section")
  let keyLen := leNat (get cursor 4)
  let cursor := cursor + 4
  ensure (cursor + keyLen ≤ dataSection.length)
    (invalid "key length exceeds remaining data section bytes")
  let key := get cursor keyLen
  let cursor := cursor + keyLen
  ensure (cursor + 4 ≤ dataSection.length) (invalid "invalid value length prefix in data section")
  let valueLen := leNat (get cursor 4)
  let cursor := cursor + 4
  ensure (cursor + valueLen ≤ dataSection.length)
    (invalid "value length exceeds remaining data section bytes")
  pure (key, cursor + valueLen)

theorem sectionEntry_lt {dataSection : Bytes} {cursor cursor' : Nat} {key : Bytes}
    (h : sectionEntry dataSection cursor = .ok (key, cursor')) : cursor < cursor' := by
  unfold sectionEntry at h
  obtain ⟨_, -, h⟩ := bind_ok h
  obtain ⟨_, -, h⟩ := bind_ok h
  obtain ⟨_, -, h⟩ := bind_ok h
  obtain ⟨_, -, h⟩ := bind_ok h
  simp only [pure_ok, Except.ok.injEq, Prod.mk.injEq] at h
  omega

/-- What the pass over a data section collects. -/
structure IndexState where
  sparseIndex : List (Nat × Bytes)
  bytesSinceSparseMark : Nat
  maxKey : Bytes
  bloomKeys : List Bytes

/-- The pass takes in the entry with `key` at `cursor .. cursor'`. -/
def IndexState.add (st : IndexState) (blockStride : Nat) (key : Bytes) (cursor cursor' : Nat) :
    IndexState :=
  let mark := st.sparseIndex.isEmpty || blockStride ≤ st.bytesSinceSparseMark
  { sparseIndex := if mark then st.sparseIndex ++ [(cursor, key)] else st.sparseIndex
    bytesSinceSparseMark :=
      (if mark then 0 else st.bytesSinceSparseMark) + (cursor' - cursor)
    maxKey := key
    bloomKeys := st.bloomKeys ++ [key] }

/-- The pass over a data section from `cursor` on. -/
def indexLoop (dataSection : Bytes) (blockStride cursor : Nat) (st : IndexState) :
    Except CompactionError IndexState :=
  if _ : cursor < dataSection.length then
    match _ : sectionEntry dataSection cursor with
    | .ok (key, cursor') =>
      indexLoop dataSection blockStride cursor' (st.add blockStride key cursor cursor')
    | .error e => .error e
  else .ok st
termination_by dataSection.length - cursor
decreasing_by
  have := sectionEntry_lt ‹_›
  omega

/-- The bytes `build_from_data_section` replaces a data section with. -/
def buildFromDataSection (P : Platform) (dataSection : Bytes) (level : Nat)
    (bloomFalsePositiveRate : F64) : Except CompactionError Bytes := do
  let blockStride := 64 * 1024 * max 1 level
  let st ← indexLoop dataSection blockStride 0 ⟨[], 0, [], []⟩
  let sparseIndexBytes := encodeSparseIndex st.sparseIndex
  let footer := field st.maxKey
  let bloomBlock := BloomGenerator.generateFilterFromKeys P st.bloomKeys bloomFalsePositiveRate
  ensure (sparseIndexBytes.length < 2 ^ 32)
    (.compactionIoError (.invalidData "sparse index size exceeds u32"))
  pure (frame bloomBlock sparseIndexBytes dataSection footer)

/-! ## Reading a data section -/

inductive TableTypeKind
  | ssTable
  | rawDataSection
  deriving DecidableEq

/-- A file opened for reading, with the kind its name gives it. -/
structure TableType where
  kind : TableTypeKind
  bytes : Bytes

/-- The file from the start of its data section on, and the size of the section. -/
def toDataSection (name : String) (file : TableType) : Except CompactionError (Bytes × Nat) :=
  match file.kind with
  | .ssTable => do
    let io {α : Type} (x : Except IoError α) : Except CompactionError α :=
      x.mapError .compactionIoError
    let fileLen := file.bytes.length
    let crcBuff ← io (readExact file.bytes 0 headerCrcSize)
    ensure (crcBuff = headerCrc) (.invalidTable name (.invalidCRC crcBuff))
    let footerBuffer ← io (readExact file.bytes headerCrcSize footerSizeFieldLen)
    let footerSize := leNat footerBuffer
    ensure (¬(footerSize = 0 ∨ fileLen < footerSize)) (.invalidTable name (.invalidFooter
      ("invalid footer size " ++ toString footerSize ++ " for file length " ++ toString fileLen)))
    let sparseIndexLenStart := headerCrcSize + footerSizeFieldLen + bloomFilterSize
    let sparseIndexSizeBuf ← io (readExact file.bytes sparseIndexLenStart sparseIndexSizeFieldLen)
    let sparseIndexSize := leNat sparseIndexSizeBuf
    let dataOffset := sparseIndexLenStart + sparseIndexSizeFieldLen + sparseIndexSize
    ensure (¬(fileLen < dataOffset ∨ fileLen < dataOffset + footerSize))
      (.invalidTable name .invalidSparseIndex)
    pure (file.bytes.drop dataOffset, fileLen - dataOffset - footerSize)
  | .rawDataSection => .ok (file.bytes, file.bytes.length)

/-- An open table: the bytes from the position on, the bytes read of the section, its size. -/
structure Section where
  file : Bytes
  ptr : Nat
  size : Nat

/-- `read_prefixed_bytes`, its end of file an error. -/
def readPrefixedBytes (file : Bytes) : Except CompactionError (Bytes × Bytes) :=
  match readField file with
  | some r => .ok r
  | none => .error (.compactionIoError (.unexpectedEof "early eof"))

/-- `read_data_section_entry`: a record, and the file after it. -/
def readDataSectionEntry (file : Bytes) : Except CompactionError (Record × Bytes) := do
  let (key, file) ← readPrefixedBytes file
  let (value, file) ← readPrefixedBytes file
  pure ((key, value), file)

theorem readDataSectionEntry_eq {file rest : Bytes} {r : Record}
    (h : readDataSectionEntry file = .ok (r, rest)) :
    file = encodeRecord r ++ rest ∧ r.1.length < 2 ^ 32 ∧ r.2.length < 2 ^ 32 := by
  unfold readDataSectionEntry readPrefixedBytes at h
  obtain ⟨⟨key, file'⟩, hk, h⟩ := bind_ok h
  obtain ⟨⟨value, file''⟩, hv, h⟩ := bind_ok h
  simp only [pure_ok, Except.ok.injEq, Prod.mk.injEq] at h
  obtain ⟨rfl, rfl⟩ := h
  split at hk
  · rename_i hk'
    rw [Except.ok.inj hk] at hk'
    split at hv
    · rename_i hv'
      rw [Except.ok.inj hv] at hv'
      obtain ⟨h1, h2⟩ := readField_eq_some hk'
      obtain ⟨h3, h4⟩ := readField_eq_some hv'
      exact ⟨by rw [h1, h3, encodeRecord, List.append_assoc], h2, h4⟩
    · cases hv
  · cases hk

/-- A tombstone, as the merge recognises it. -/
def isTombstone (r : Record) : Bool := r.1.length = 1 && r.2 = [255]

/-- The next record that `isTombstone` does not hold of, within the section. -/
def readNextNonTombstoneEntry (s : Section) : Except CompactionError (Option Record × Section) :=
  if s.ptr < s.size then
    match _ : readDataSectionEntry s.file with
    | .ok (r, file) =>
      let s' : Section := ⟨file, s.ptr + (encodeRecord r).length, s.size⟩
      if isTombstone r then readNextNonTombstoneEntry s' else .ok (some r, s')
    | .error e => .error e
  else .ok (none, s)
termination_by s.file.length
decreasing_by
  obtain ⟨h, -⟩ := readDataSectionEntry_eq ‹readDataSectionEntry s.file = _›
  rw [h, List.length_append]
  simp only [encodeRecord, List.length_append, length_field]
  omega

theorem readNext_end {s : Section} (h : ¬s.ptr < s.size) :
    readNextNonTombstoneEntry s = .ok (none, s) := by
  rw [readNextNonTombstoneEntry, if_neg h]

/-- A read within the section: the record there, or the reads behind it. -/
theorem readNext_turn {s : Section} (h : s.ptr < s.size) :
    readNextNonTombstoneEntry s = readDataSectionEntry s.file >>= fun turn =>
      let s' : Section := ⟨turn.2, s.ptr + (encodeRecord turn.1).length, s.size⟩
      if isTombstone turn.1 then readNextNonTombstoneEntry s' else .ok (some turn.1, s') := by
  rw [readNextNonTombstoneEntry, if_pos h]
  split
  · rename_i hturn
    rw [hturn]
    rfl
  · rename_i hturn
    rw [hturn]
    rfl

end Lsm
