import SwiftMerge.Memtable.Wal
import SwiftMerge.Lsm.Reader

/-!
# The memtable: writes, reads and the flush (`memtable/mem.rs`)

`put`, `delete` and `flush` are programs over the memtable itself and the disk (`MemOp`), so that
what they have changed before an error stays changed. `flush` writes the whole map as one table of
`data/l1` under a fresh name and then empties the log and the map; `manageFlush` runs it after a
write when the map is full or its time has come. The size counter is a 32-bit number, whose
arithmetic panics or wraps around as the build says (`Platform.overflowChecks`). The counters of the
metrics are left out: nothing but the metrics themselves depends on them.
-/

namespace Mem

open Lib Lsm

structure ConfigInfo where
  ramMaxSize : Nat
  ramMaxTime : Nat
  targetChunks : Nat
  compactionCheckIntervalSeconds : Nat
  walEnabled : Bool
  bloomFalsePositiveRate : F64
  maxCompactionThreads : Nat
  localDisk : Bool

def kilobyte : Nat := 1024
def megabyte : Nat := kilobyte * kilobyte

/-- `ConfigInfo::validate`: the checked configuration, its threads capped by the machine's. -/
def ConfigInfo.validate (P : Platform) (c : ConfigInfo) : Except MemInitError ConfigInfo := do
  ensure (¬(c.ramMaxSize < kilobyte ∨ megabyte * 2048 < c.ramMaxSize)) (.invalidArgument
    "key:(ram_max_size) has value outside valid range (1KB,2GB)")
  ensure (¬(c.ramMaxTime < 10 ∨ 10080 < c.ramMaxTime)) (.invalidArgument
    "key:(ram_max_time) has value outside valid range (10,10080) [10 seconds, 168 hours]")
  ensure (¬(c.targetChunks < 2 ∨ 128 < c.targetChunks)) (.invalidArgument
    "key:(target_chunks) has value outside valid range (2,128)")
  ensure (¬(c.compactionCheckIntervalSeconds < 1 ∨ 60 * 60 * 4 < c.compactionCheckIntervalSeconds))
    (.invalidArgument ("key:(compaction_check_interval_seconds) has value outside valid range " ++
      "(1,14400) [1 second, 4 hours]"))
  -- 0.001 and 0.1
  ensure (¬(c.bloomFalsePositiveRate < ⟨0x3F50624DD2F1A9FC⟩ ∨
    (⟨0x3FB999999999999A⟩ : F64) < c.bloomFalsePositiveRate)) (.invalidArgument
    "key:(bloom_false_positive_rate) has value outside valid range (0.001,0.1) [0.1% to 10%]")
  ensure (¬c.maxCompactionThreads < 1) (.invalidArgument
    "key:(max_compaction_threads) has value outside valid range (1,system_thread_max)")
  pure { c with
    maxCompactionThreads := min c.maxCompactionThreads (P.availableParallelism % 2 ^ 8) }

/-- Where a configuration comes from: the JSON text of a file or a request, as the parser leaves
it, or the built-in one. -/
inductive ConfigSource
  | json (parsed : Except MemtableError ConfigInfo)
  | default

def defaultConfig : ConfigInfo where
  ramMaxSize := 512 * 1024
  ramMaxTime := 600
  targetChunks := 4
  compactionCheckIntervalSeconds := 3600
  walEnabled := true
  -- 0.05
  bloomFalsePositiveRate := ⟨0x3FA999999999999A⟩
  maxCompactionThreads := 2
  localDisk := true

def ConfigSource.load (P : Platform) : ConfigSource → Except MemtableError ConfigInfo
  | .json parsed => do (← parsed).validate P |>.mapError .initError
  | .default => .ok defaultConfig

structure Memtable where
  inMemoryRepr : InMemoryRepr
  config : ConfigInfo
  flushBy : Nat
  currentSizeBytes : Nat

/-- `update_config`: the configuration, and the time of the next flush from now on. -/
def Memtable.updateConfig (P : Platform) (m : Memtable) (now : Nat) (content : ConfigSource) :
    Except MemtableError Memtable := do
  let config ← content.load P
  pure { m with config := config, flushBy := now + config.ramMaxTime * 10 ^ 9 }

/-- `Memtable::new` on the log left on the disk. -/
def Memtable.new (P : Platform) (d : Disk) (content : ConfigSource) :
    Except (Failure MemtableError) Memtable := do
  let config ← (content.load P).mapError .err
  let flushBy := d.clock + config.ramMaxTime * 10 ^ 9
  if config.walEnabled then
    let (repr, size) ← rebuildMemtable d.wal ∅ 0
    pure ⟨repr, config, flushBy, size⟩
  else pure ⟨∅, config, flushBy, 0⟩

/-- The operations of the memtable's code: on its own fields and on the disk. -/
inductive MemOp : Type → Type 1
  | get : MemOp Memtable
  | set (m : Memtable) : MemOp Unit
  | disk {α : Type} (o : DiskOp α) : MemOp α

/-- A memtable and the disk. -/
abbrev Store := Memtable × Disk

def memHandler (P : Platform) : Handler MemOp Store where
  step
    | .get, (m, d) => (m, (m, d))
    | .set m', (_, d) => ((), (m', d))
    | .disk o, (m, d) => ((Disk.step P o d).1, (m, (Disk.step P o d).2))
  during
    | .get, _, _ => False
    | .set _, _, _ => False
    | .disk o, (m, d), t => t.1 = m ∧ Disk.during o d t.2

abbrev MemProg := Prog MemOp (Failure MemtableError)

/-- A call that may fail, with the conversion of `std::io::Error`. -/
def MemProg.io {α : Type} (o : DiskOp (Except IoError α)) : MemProg α := do
  Prog.ofExcept ((← Prog.perform (.disk o)).mapError fun e => .err (.writeAheadLog (.ioErr e)))

def MemProg.panic {α : Type} (msg : String) : MemProg α := Prog.fail (.panic msg)

/-- `+=` on a 32-bit counter. -/
def addU32 (P : Platform) (a b : Nat) : MemProg Nat :=
  if P.overflowChecks ∧ 2 ^ 32 ≤ a + b then MemProg.panic "attempt to add with overflow"
  else pure ((a + b) % 2 ^ 32)

/-- `-=` on a 32-bit counter. -/
def subU32 (P : Platform) (a b : Nat) : MemProg Nat :=
  if P.overflowChecks ∧ a < b then MemProg.panic "attempt to subtract with overflow"
  else pure ((a + (2 ^ 32 - b % 2 ^ 32)) % 2 ^ 32)

/-! ## The table a flush writes -/

/-- What the loop over the map has built: the data section, the sparse index, the bytes of the
current block, the last key. -/
structure FlushState where
  ssTableBuffer : Bytes
  sparseIndexArray : List (Nat × Bytes)
  blockBytes : Nat
  maxKey : Bytes

def FlushState.add (st : FlushState) (targetBlockSize : Nat) (e : Bytes × Option TableEntry) :
    FlushState :=
  let here := (st.ssTableBuffer.length, e.1)
  let kvBuffer := toWalEntry e.1 (.ofSlot e.2)
  let entrySize := kvBuffer.length
  -- the first entry of a block always goes to the sparse index
  let index := if st.blockBytes = 0 then st.sparseIndexArray ++ [here] else st.sparseIndexArray
  let full := 0 < st.blockBytes ∧ targetBlockSize < st.blockBytes + entrySize
  { ssTableBuffer := st.ssTableBuffer ++ kvBuffer
    sparseIndexArray := if full then index ++ [here] else index
    blockBytes := (if full then 0 else st.blockBytes) + entrySize
    maxKey := e.1 }

/-- The loop over the entries of the map. -/
def flushState (targetBlockSize : Nat) (entries : List (Bytes × Option TableEntry)) : FlushState :=
  entries.foldl (fun (st : FlushState) e => st.add targetBlockSize e) ⟨[], [], 0, []⟩

def pagePerBlock : Nat := 4

/-- The bytes of the table, with the footer's size spliced in behind the header. -/
def flushBuffer (P : Platform) (inMemoryRepr : InMemoryRepr) (bloomFalsePositiveRate : F64) :
    Bytes :=
  let entries := inMemoryRepr.toList
  let filter := BloomGenerator.generateFilterFromKeys P (entries.map Prod.fst) bloomFalsePositiveRate
  let buffer := headerCrc ++ filter
  let st := flushState (P.pageSize * pagePerBlock) entries
  let eofMetaDataBuffer := field st.maxKey
  let buffer := buffer.take 64 ++ leBytes 8 eofMetaDataBuffer.length ++ buffer.drop 64
  let sparseIndexBuffer := encodeSparseIndex st.sparseIndexArray
  buffer ++ leBytes 4 sparseIndexBuffer.length ++ sparseIndexBuffer ++ st.ssTableBuffer ++
    eofMetaDataBuffer

/-! ## Writes -/

/-- Makes `data` and `data/l1` when they are not there. -/
def createL1 : MemProg Unit := do
  let l1Exists ← Prog.perform (.disk (.dirExists 1))
  Prog.when (!l1Exists) (MemProg.io (.createDir 1))

def flush (P : Platform) : MemProg Unit := do
  let m ← Prog.perform .get
  Prog.ensure (!m.inMemoryRepr.isEmpty) (.err (.flushErr "Cannot flush an empty tree"))
  createL1
  let uuid := P.uuid (← Prog.perform (.disk .now))
  let filepath : Path := ⟨1, ssTableName uuid⟩
  -- `page_size / size`
  Prog.ensure (m.currentSizeBytes ≠ 0) (.panic "attempt to divide by zero")
  let buffer := flushBuffer P m.inMemoryRepr m.config.bloomFalsePositiveRate
  Prog.ensure m.config.localDisk (.panic "not implemented")
  MemProg.io (.create filepath)
  MemProg.io (.append filepath buffer)
  MemProg.io (.sync filepath)
  MemProg.io .walClear
  let now ← Prog.perform (.disk .now)
  Prog.perform (.set { m with
    flushBy := now + m.config.ramMaxTime * 10 ^ 9
    currentSizeBytes := 0
    inMemoryRepr := ∅ })

def shouldFlush (m : Memtable) (now : Nat) : Bool :=
  decide (m.config.ramMaxSize ≤ m.currentSizeBytes) || decide (m.flushBy < now)

def manageFlush (P : Platform) : MemProg Unit := do
  let m ← Prog.perform .get
  let now ← Prog.perform (.disk .now)
  Prog.when (shouldFlush m now) (flush P)

/-- The encoded size of the entry a key has. -/
def getExistingEntrySize (m : Memtable) (key : Bytes) : Option Nat :=
  m.inMemoryRepr[key]?.map fun slot => (toWalEntry key (.ofSlot slot)).length

/-- The counter after a record of `newSize` bytes replaces one of `existing` bytes. -/
def updateSize (P : Platform) (currentSizeBytes newSize : Nat) : Option Nat → MemProg Nat
  | some oldSize =>
    let newSize := newSize % 2 ^ 32
    let oldSize := oldSize % 2 ^ 32
    if oldSize < newSize then addU32 P currentSizeBytes (newSize - oldSize)
    else subU32 P currentSizeBytes (oldSize - newSize)
  | none => addU32 P currentSizeBytes (newSize % 2 ^ 32)

/-- The common body of `put` and `delete`. -/
def write (P : Platform) (key : Bytes) (slot : Option TableEntry) : MemProg Unit := do
  let m ← Prog.perform .get
  let existingSize := getExistingEntrySize m key
  let walEntryRepr := toWalEntry key (.ofSlot slot)
  -- `write_entry` looks at the error of `write` only, not at the number of bytes written
  Prog.when m.config.walEnabled (do
    let _ ← MemProg.io (.walWrite walEntryRepr))
  let size ← updateSize P m.currentSizeBytes walEntryRepr.length existingSize
  Prog.perform (.set { m with
    currentSizeBytes := size, inMemoryRepr := m.inMemoryRepr.insert key slot })
  manageFlush P

def put (P : Platform) (key : Bytes) (value : TableEntry) : MemProg Unit := write P key (some value)

def delete (P : Platform) (key : Bytes) : MemProg Unit := write P key none

/-- `Memtable::get`; `none` is `MissingKey`. -/
def get (m : Memtable) (key : Bytes) : Option (Option TableEntry) := m.inMemoryRepr[key]?

end Mem
