import SwiftMerge.Memtable.Entry

/-!
# Write-ahead log records and their replay (`memtable/mem.rs`)

`toWalEntry` is the record `key-len | key | value-len | value` that the log and the SSTables share;
a tombstone is the one-byte value 255. `rebuildMemtable` replays a log: record by record, from the
index the last one ended at, each decoded value inserted over the earlier ones of its key. The map
of a replay that fails is dropped with its memtable (`Memtable::new`), so a failure carries none.
-/

namespace Mem

open Lib

abbrev InMemoryRepr := Std.ExtTreeMap Bytes (Option TableEntry)

inductive WalEntry
  | value (entry : TableEntry)
  | tombstone
  deriving DecidableEq

/-- The log entry of a memtable slot. -/
def WalEntry.ofSlot : Option TableEntry → WalEntry
  | some entry => .value entry
  | none => .tombstone

/-- The value field of a record. -/
def WalEntry.contents : WalEntry → Bytes
  | .value entry => entry.serialize
  | .tombstone => [tombStoneByteRepresentation]

def toWalEntry (key : Bytes) (value : WalEntry) : Bytes :=
  field key ++
    match value with
    | .tombstone => leBytes 4 1 ++ [tombStoneByteRepresentation]
    | .value entry => field entry.serialize

inductive WalError
  | ioErr (e : IoError)
  | invalidStructure (msg : String)
  | emptyWal
  deriving DecidableEq, Repr

inductive MemInitError
  | missingKey (name : String)
  | invalidArgument (msg : String)
  | missingConfig
  | invalidFormat (msg : String)
  deriving DecidableEq, Repr

inductive MemtableError
  | initError (e : MemInitError)
  | invariant (msg : String)
  | writeAheadLog (e : WalError)
  | flushErr (msg : String)
  | missingKey
  deriving DecidableEq, Repr

def MemtableError.ofDecodingError : DecodingError → MemtableError
  | .ioError err => .writeAheadLog (.ioErr err)
  | .empty => .writeAheadLog .emptyWal
  | .malformedData info => .writeAheadLog (.invalidStructure info)

def tooSmallParsingErr (msg : String) : Failure MemtableError :=
  .err (.writeAheadLog (.invalidStructure msg))

/-- `TableEntry::deserialize(..)?` of the replay. -/
def liftDecoding {α : Type} : Except (Failure DecodingError) α → Except (Failure MemtableError) α
  | .ok a => .ok a
  | .error (.err e) => .error (.err (.ofDecodingError e))
  | .error (.panic msg) => .error (.panic msg)

/-- One turn of the replay loop, from index `currIdx`: the entry and the index after it. -/
def readWalEntry (walContent : Bytes) (currIdx : Nat) :
    Except (Failure MemtableError) ((Bytes × Option TableEntry) × Nat) := do
  let maxSize := walContent.length
  let keyLen := leNat (← slice walContent currIdx (currIdx + 4))
  ensure (keyLen ≠ 0) (tooSmallParsingErr "key-length prefix cannot be 0")
  let currIdx := currIdx + 4
  ensure (currIdx + keyLen < maxSize) (tooSmallParsingErr
    "key-entry contains a length prefix that is larger than the buffer")
  let keyValue ← slice walContent currIdx (currIdx + keyLen)
  let currIdx := currIdx + keyLen
  ensure (currIdx + 4 < maxSize)
    (tooSmallParsingErr "value-len prefix is not present in the buffer")
  let valLen := leNat (← slice walContent currIdx (currIdx + 4))
  let currIdx := currIdx + 4
  ensure (currIdx + valLen ≤ maxSize) (tooSmallParsingErr
    "value-entry contains a length prefix that is larger than the buffer")
  let rawValue ← slice walContent currIdx (currIdx + valLen)
  let currIdx := currIdx + valLen
  if rawValue = [tombStoneByteRepresentation] then
    pure ((keyValue, none), currIdx)
  else
    let x ← liftDecoding (TableEntry.deserialize rawValue)
    pure ((keyValue, some x), currIdx)

theorem readWalEntry_lt {walContent : Bytes} {idx idx' : Nat} {e : Bytes × Option TableEntry}
    (h : readWalEntry walContent idx = .ok (e, idx')) : idx < idx' := by
  unfold readWalEntry at h
  obtain ⟨_, -, h⟩ := bind_ok h
  obtain ⟨_, -, h⟩ := bind_ok h
  obtain ⟨_, -, h⟩ := bind_ok h
  obtain ⟨_, -, h⟩ := bind_ok h
  obtain ⟨_, -, h⟩ := bind_ok h
  obtain ⟨_, -, h⟩ := bind_ok h
  obtain ⟨_, -, h⟩ := bind_ok h
  obtain ⟨_, -, h⟩ := bind_ok h
  split at h
  · simp only [pure_ok, Except.ok.injEq, Prod.mk.injEq] at h
    omega
  · obtain ⟨_, -, h⟩ := bind_ok h
    simp only [pure_ok, Except.ok.injEq, Prod.mk.injEq] at h
    omega

/-- The replay loop, from index `currIdx` into the map `inMemoryRepr`. -/
def rebuildLoop (walContent : Bytes) (currIdx : Nat) (inMemoryRepr : InMemoryRepr) :
    Except (Failure MemtableError) InMemoryRepr :=
  if _ : walContent.length ≤ currIdx then .ok inMemoryRepr
  else
    match _ : readWalEntry walContent currIdx with
    | .ok (tableEntry, idx') =>
      rebuildLoop walContent idx' (inMemoryRepr.insert tableEntry.1 tableEntry.2)
    | .error e => .error e
termination_by walContent.length - currIdx
decreasing_by
  have := readWalEntry_lt ‹_›
  omega

theorem rebuildLoop_end {walContent : Bytes} {idx : Nat} (h : walContent.length ≤ idx)
    (repr : InMemoryRepr) : rebuildLoop walContent idx repr = .ok repr := by
  rw [rebuildLoop, dif_pos h]

/-- A turn of the loop, and the loop from where it ends. -/
theorem rebuildLoop_turn {walContent : Bytes} {idx : Nat} (h : idx < walContent.length)
    (repr : InMemoryRepr) :
    rebuildLoop walContent idx repr = readWalEntry walContent idx >>= fun turn =>
      rebuildLoop walContent turn.2 (repr.insert turn.1.1 turn.1.2) := by
  rw [rebuildLoop, dif_neg (Nat.not_le_of_lt h)]
  split
  · rename_i hturn
    rw [hturn]
    rfl
  · rename_i hturn
    rw [hturn]
    rfl

/-- `rebuild_memtable` on a memtable's map and size counter: the new map and counter. The counter
is the log's length cast to 32 bits, and is left alone by an empty log. -/
def rebuildMemtable (walContent : Bytes) (inMemoryRepr : InMemoryRepr) (currentSizeBytes : Nat) :
    Except (Failure MemtableError) (InMemoryRepr × Nat) :=
  if walContent.length = 0 then .ok (inMemoryRepr, currentSizeBytes)
  else if walContent.length < 4 then .error (.err (.writeAheadLog .emptyWal))
  else do
    let repr ← rebuildLoop walContent 0 inMemoryRepr
    pure (repr, walContent.length % 2 ^ 32)

end Mem
