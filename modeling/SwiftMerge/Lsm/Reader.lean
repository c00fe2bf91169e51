import SwiftMerge.Lsm.SsTable
import SwiftMerge.Lsm.FileName
import SwiftMerge.Lib.BinarySearch

/-!
# The tree reader (`lsm_tree/disk.rs`)

`createLevelArray` loads every `.bin` file of `data/l1`, `data/l2`, ..: it decodes the table's
sparse index and last key and keeps the open file under them in the level's `FileMap`, a hash map
that holds one table under a key. A file map is the list of its entries in the order it is iterated
in; since that order is arbitrary, `Loaded` allows any.

`read` looks a key up in a level array: in each level, the tables whose range and filter admit the
key, newest creation second first, and the first level with an answer wins. `TableReader.search`
finds the key's block by binary search in the sparse index and reads on from there.

An open file is its contents at the time it was loaded: a table is never written to under its
`.bin` name, and a file that is renamed or removed stays readable.
-/

namespace Lsm

open Lib

inductive LsmTreeError
  | ioErr (e : IoError)
  | initFailure (msg : String)
  deriving DecidableEq, Repr

structure SSTableMetaData where
  creationTimestamp : Nat
  sparseIndex : List (Nat × Bytes)
  maxKey : Bytes
  deriving DecidableEq

structure TableReader where
  f : Bytes
  dataSectionOffset : Nat
  metadata : SSTableMetaData
  deriving DecidableEq

namespace TableReader

def headerSize : Nat := 64
def footerSizeFieldSize : Nat := 8
def bloomFilterOffset : Nat := headerSize + footerSizeFieldSize
def sparseIndexOffset : Nat := bloomFilterOffset + bloomFilterSize

def readHeader (f : Bytes) : Except IoError Bytes := readExact f 0 headerSize

def getBloomFilter (f : Bytes) : Except IoError Bytes := readExact f bloomFilterOffset bloomFilterSize

/-- The last key; empty when the footer's size is zero or over 10000. -/
def readFooter (f : Bytes) : Except IoError Bytes := do
  let footerSize := leNat (← readExact f headerSize 8)
  if footerSize = 0 ∨ 10000 < footerSize then pure []
  else
    ensure (footerSize ≤ f.length)
      (.invalidInput "invalid seek to a negative or overflowing position")
    let pos := f.length - footerSize
    let maxKeyLen := leNat (← readExact f pos 4)
    readExact f (pos + 4) maxKeyLen

/-- The entry of a sparse index at `pos`, and the position after it. -/
def sparseEntry (buffer : Bytes) (pos : Nat) : Except IoError ((Nat × Bytes) × Nat) := do
  let get (i n : Nat) : Bytes := (buffer.drop i).take n
  ensure (pos + 4 ≤ buffer.length)
    (.unexpectedEof "truncated sparse index: unable to read key length")
  let keyLen := leNat (get pos 4)
  let pos := pos + 4
  ensure (pos + keyLen ≤ buffer.length) (.unexpectedEof
    ("truncated sparse index: unable to read key of length " ++ toString keyLen))
  let key := get pos keyLen
  let pos := pos + keyLen
  ensure (pos + 8 ≤ buffer.length) (.unexpectedEof "truncated sparse index: unable to read offset")
  pure ((leNat (get pos 8), key), pos + 8)

theorem sparseEntry_lt {buffer : Bytes} {pos pos' : Nat} {e : Nat × Bytes}
    (h : sparseEntry buffer pos = .ok (e, pos')) : pos < pos' := by
  unfold sparseEntry at h
  obtain ⟨_, -, h⟩ := bind_ok h
  obtain ⟨_, -, h⟩ := bind_ok h
  obtain ⟨_, -, h⟩ := bind_ok h
  simp only [pure_ok, Except.ok.injEq, Prod.mk.injEq] at h
  omega

/-- The entries of a sparse index from `pos` on. -/
def sparseLoop (buffer : Bytes) (pos : Nat) : Except IoError (List (Nat × Bytes)) :=
  if _ : pos < buffer.length then
    match _ : sparseEntry buffer pos with
    | .ok (e, pos') => (sparseLoop buffer pos').map (e :: ·)
    | .error err => .error err
  else .ok []
termination_by buffer.length - pos
decreasing_by
  have := sparseEntry_lt ‹_›
  omega

/-- `generate_index` on a file opened for the first time: the reader with its metadata. -/
def generateIndex (file : File) : Except IoError TableReader := do
  let f := file.bytes
  let sparseIndexContentSize := leNat (← readExact f sparseIndexOffset 4)
  let sparseIndexBuffer ← readExact f (sparseIndexOffset + 4) sparseIndexContentSize
  let sparseIndex ← sparseLoop sparseIndexBuffer 0
  let maxKey ← readFooter f
  pure ⟨f, sparseIndexOffset + 4 + sparseIndexContentSize,
    ⟨file.createdSecs, sparseIndex, maxKey⟩⟩

/-- The scan of `search`: records one after another until one's key is not below `key`. -/
def scan (file key : Bytes) : Except IoError (Option Bytes) :=
  if file.length < 4 then .ok none
  else
    match _ : readField file with
    | none => .error (.unexpectedEof "early eof")
    | some (entryKey, file') =>
      match _ : readField file' with
      | none => .error (.unexpectedEof "early eof")
      | some (value, file'') =>
        match compare entryKey key with
        | .eq => .ok (some value)
        | .gt => .ok none
        | .lt => scan file'' key
termination_by file.length
decreasing_by
  have h1 := readField_length ‹readField file = _›
  have h2 := readField_length ‹readField file' = _›
  omega

def search (t : TableReader) (key : Bytes) : Except IoError (Option Bytes) :=
  let sparseIndex := t.metadata.sparseIndex
  let from_ (idx : Nat) : Bytes :=
    t.f.drop (t.dataSectionOffset + (sparseIndex[idx]?.elim 0 Prod.fst))
  match binarySearchBy sparseIndex.length fun i => compare (sparseIndex[i]?.elim [] Prod.snd) key with
  | .ok idx => scan (from_ idx) key
  | .error 0 => .ok none
  | .error (idx + 1) => scan (from_ idx) key

end TableReader

/-! ## The level array -/

/-- The entries of a level's hash map, in its iteration order. -/
abbrev FileMap := List (SSTableMetaData × TableReader)

/-- `HashMap::insert`: a value under an equal key is replaced. -/
def FileMap.insert (m : FileMap) (k : SSTableMetaData) (v : TableReader) : FileMap :=
  if m.any (·.1 = k) then m.map fun e => if e.1 = k then (k, v) else e else m ++ [(k, v)]

/-- One entry of a level directory: a `.bin` file with a valid header goes into the map. -/
def loadEntry (m : FileMap) (entry : String × File) : Except LsmTreeError FileMap := do
  if isBin entry.1 then
    let crc ← (TableReader.readHeader entry.2.bytes).mapError .ioErr
    if crc = headerCrc then
      let t ← (TableReader.generateIndex entry.2).mapError .ioErr
      pure (m.insert t.metadata t)
    else pure m
  else pure m

def loadLevel (entries : List (String × File)) : Except LsmTreeError FileMap :=
  entries.foldlM loadEntry []

def createLevelArray (d : Disk) : Except LsmTreeError (List FileMap) :=
  (List.range d.levels).mapM fun i => loadLevel (d.dir (i + 1))

/-- `levelArray` is what loading the disk may give: the hash maps in any iteration order. -/
def Loaded (d : Disk) (levelArray : List FileMap) : Prop :=
  ∃ maps, createLevelArray d = .ok maps ∧ List.Forall₂ List.Perm maps levelArray

/-! ## Reading -/

inductive SearchResult
  /-- the value, the number of tables searched and the number of levels searched -/
  | found (value : Bytes) (ssTablesSearched levelsSearched : Nat)
  | missing (ssTablesSearched levelsSearched : Nat)
  deriving DecidableEq, Repr

/-- Whether the key is in a table's range: `first_key <= key <= max_key`. -/
def inRange (metadata : SSTableMetaData) (key : Bytes) : Bool :=
  let firstKey := (metadata.sparseIndex.head?.map Prod.snd).getD []
  compare firstKey key != .gt && compare key metadata.maxKey != .gt

/-- The tables of a level that may hold the key. -/
def validTables (fileMap : FileMap) (key : Bytes) : Except IoError FileMap :=
  fileMap.filterMapM fun e =>
    if inRange e.1 key then
      (TableReader.getBloomFilter e.2.f).map fun filter =>
        if BloomGenerator.probablyExist filter key then some e else none
    else .ok none

/-- Searches tables in order, counting them. -/
def searchTables (key : Bytes) : FileMap → Nat → Except IoError (Option Bytes × Nat)
  | [], searched => .ok (none, searched)
  | (_, t) :: ts, searched => do
    match ← t.search key with
    | some value => pure (some value, searched + 1)
    | none => searchTables key ts (searched + 1)

/-- The levels from one on, after `levels` levels and `tables` tables were searched. -/
def readLevels (key : Bytes) : List FileMap → Nat → Nat → Except IoError SearchResult
  | [], tables, levels => .ok (.missing tables levels)
  | fileMap :: rest, tables, levels => do
    let valid ← validTables fileMap key
    let sorted := valid.mergeSort fun a b => b.1.creationTimestamp ≤ a.1.creationTimestamp
    match ← searchTables key sorted tables with
    | (some value, tables') => pure (.found value tables' (levels + 1))
    | (none, tables') => readLevels key rest tables' (levels + 1)

/-- `LsmTreeReader::read`. Its counters, a `u16` and a `u8` there, only report. -/
def read (levelArray : List FileMap) (key : Bytes) : Except LsmTreeError SearchResult :=
  (readLevels key levelArray 0 0).mapError .ioErr

end Lsm
