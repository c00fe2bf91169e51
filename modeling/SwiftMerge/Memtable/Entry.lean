import Mathlib
import SwiftMerge.Lib.Failure

/-!
# Table entries and their encoding (`memtable/mem.rs`)

`TableEntry` is a value with an optional metadata map; `serialize` and `deserialize` are its
on-disk form

`val-len | val | flag | (str-len | str | raw-len | raw | enum_variant)*`,

where the items of the metadata map have no count: they run to the end of the buffer. The byte
writes of `serialize` go to a vector and cannot fail. A Rust `String` is a Lean `String` through
its UTF-8 bytes, a `BTreeMap` an extensional tree map in key order.
-/

namespace Mem

open Lib

def tombStoneByteRepresentation : UInt8 := 255
def metaDataMapDoesntExist : UInt8 := 0
def metaDataMapExist : UInt8 := 1

inductive TrueTypes
  | unspecified
  | bool
  | rawBytes
  | string
  | uint32
  | uint64
  | int32
  | int64
  | float32
  | double
  deriving DecidableEq, Repr

def TrueTypes.enumVariantValue : TrueTypes → UInt8
  | .unspecified => 0
  | .bool => 1
  | .rawBytes => 2
  | .string => 3
  | .uint32 => 4
  | .uint64 => 5
  | .int32 => 6
  | .int64 => 7
  | .float32 => 8
  | .double => 9

def TrueTypes.toEnumVarient : Bytes → TrueTypes
  | [1] => .bool
  | [2] => .rawBytes
  | [3] => .string
  | [4] => .uint32
  | [5] => .uint64
  | [6] => .int32
  | [7] => .int64
  | [8] => .float32
  | [9] => .double
  | _ => .unspecified

structure TypeInfoMetadata where
  raw : Bytes
  trueType : TrueTypes
  deriving DecidableEq

abbrev MetaData := Std.ExtTreeMap String TypeInfoMetadata

structure TableEntry where
  value : Bytes
  metaData : Option MetaData
  deriving DecidableEq

inductive DecodingError
  | ioError (e : IoError)
  | malformedData (msg : String)
  | empty
  deriving DecidableEq, Repr

/-- The bytes of a string (`as_bytes`). -/
def utf8 (s : String) : Bytes := s.toByteArray.data.toList

/-- `String::from_utf8`. -/
def fromUtf8 (bs : Bytes) : Option String := String.fromUTF8? ⟨bs.toArray⟩

namespace TableEntry

/-- One item of the metadata map: `str-len | str | raw_len | raw | enum_varient`. -/
def serializeItem (item : String × TypeInfoMetadata) : Bytes :=
  field (utf8 item.1) ++ (field item.2.raw ++ [item.2.trueType.enumVariantValue])

def serialize (entry : TableEntry) : Bytes :=
  field entry.value ++
    match entry.metaData with
    | some md => metaDataMapExist :: md.toList.flatMap serializeItem
    | none => [metaDataMapDoesntExist]

def malformedError (msg : String) : Failure DecodingError := .err (.malformedData msg)

/-- One turn of `deserialize`'s metadata loop, from index `idx`: the item and the index after it. -/
def deserializeItem (diskBytes : Bytes) (idx : Nat) :
    Except (Failure DecodingError) ((String × TypeInfoMetadata) × Nat) := do
  ensure (idx + 4 ≤ diskBytes.length)
    (malformedError "meta data buffer does not contain enough bytes for key-len prefix")
  let keyLen := leNat (← slice diskBytes idx (idx + 4))
  let idx := idx + 4
  ensure (idx + keyLen ≤ diskBytes.length)
    (malformedError "meta data buffer does not contain enough bytes to decode key bytes")
  let stringVal ← slice diskBytes idx (idx + keyLen)
  let idx := idx + keyLen
  ensure (idx + 4 ≤ diskBytes.length)
    (malformedError "meta data buffer does not contain enough bytes for byte-len prefix")
  let rawBytesLen := leNat (← slice diskBytes idx (idx + 4))
  let idx := idx + 4
  ensure (idx + rawBytesLen ≤ diskBytes.length)
    (malformedError "meta data buffer does not contain enough bytes to decode raw bytes")
  let rawBytes ← slice diskBytes idx (idx + rawBytesLen)
  let idx := idx + rawBytesLen
  ensure (idx + 1 ≤ diskBytes.length)
    (malformedError "meta data buffer does not contain enough bytes for true type byte")
  let trueType ← slice diskBytes idx (idx + 1)
  let idx := idx + 1
  match fromUtf8 stringVal with
  | some stringRepr => pure ((stringRepr, ⟨rawBytes, .toEnumVarient trueType⟩), idx)
  -- `String::from_utf8(..).unwrap()`
  | none => throw (.panic "called `Result::unwrap()` on an `Err` value: FromUtf8Error")

theorem deserializeItem_lt {diskBytes : Bytes} {idx idx' : Nat} {item : String × TypeInfoMetadata}
    (h : deserializeItem diskBytes idx = .ok (item, idx')) : idx < idx' := by
  unfold deserializeItem at h
  obtain ⟨_, -, h⟩ := bind_ok h
  obtain ⟨_, -, h⟩ := bind_ok h
  obtain ⟨_, -, h⟩ := bind_ok h
  obtain ⟨_, -, h⟩ := bind_ok h
  obtain ⟨_, -, h⟩ := bind_ok h
  obtain ⟨_, -, h⟩ := bind_ok h
  obtain ⟨_, -, h⟩ := bind_ok h
  obtain ⟨_, -, h⟩ := bind_ok h
  obtain ⟨_, -, h⟩ := bind_ok h
  obtain ⟨_, -, h⟩ := bind_ok h
  split at h
  · simp only [pure_ok, Except.ok.injEq, Prod.mk.injEq] at h
    omega
  · cases h

/-- `deserialize`'s loop over the items of the metadata map. -/
def deserializeItems (diskBytes : Bytes) (idx : Nat) (metaDataHashmap : MetaData) :
    Except (Failure DecodingError) MetaData :=
  if _ : diskBytes.length ≤ idx then .ok metaDataHashmap
  else
    match _ : deserializeItem diskBytes idx with
    | .ok (item, idx') => deserializeItems diskBytes idx' (metaDataHashmap.insert item.1 item.2)
    | .error e => .error e
termination_by diskBytes.length - idx
decreasing_by
  have := deserializeItem_lt ‹_›
  omega

theorem deserializeItems_end {diskBytes : Bytes} {idx : Nat} (h : diskBytes.length ≤ idx)
    (m : MetaData) : deserializeItems diskBytes idx m = .ok m := by
  rw [deserializeItems, dif_pos h]

/-- A turn of the loop, and the loop from where it ends. -/
theorem deserializeItems_turn {diskBytes : Bytes} {idx : Nat} (h : idx < diskBytes.length)
    (m : MetaData) :
    deserializeItems diskBytes idx m = deserializeItem diskBytes idx >>= fun turn =>
      deserializeItems diskBytes turn.2 (m.insert turn.1.1 turn.1.2) := by
  rw [deserializeItems, dif_neg (Nat.not_le_of_lt h)]
  split
  · rename_i hturn
    rw [hturn]
    rfl
  · rename_i hturn
    rw [hturn]
    rfl

def deserialize (diskBytes : Bytes) : Except (Failure DecodingError) TableEntry := do
  ensure (4 < diskBytes.length)
    (malformedError "value buffer does not contain a length prefix for decoding")
  let valLen := leNat (← slice diskBytes 0 4)
  let idx := 4
  ensure (idx + valLen ≤ diskBytes.length)
    (malformedError "value buffer does not contain enough bytes for value decoding")
  let valueBytes ← slice diskBytes idx (idx + valLen)
  let idx := idx + valLen
  ensure (idx + 1 ≤ diskBytes.length)
    (malformedError "value buffer does not contain meta data flag")
  let metaDataExist ← slice diskBytes idx (idx + 1)
  if metaDataExist = [metaDataMapDoesntExist] then
    pure ⟨valueBytes, none⟩
  else
    let md ← deserializeItems diskBytes (idx + 1) ∅
    pure ⟨valueBytes, some md⟩

end TableEntry

end Mem
