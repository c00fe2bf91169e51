import SwiftMerge.Memtable.Memtable

/-!
# The service (`service.rs`)

The gRPC handlers over a memtable and a tree reader: a put is checked and packaged into a table
entry, a delete goes straight to the memtable, a batch puts first and then deletes what it has not
put, and a get asks the memtable and, when the key is missing there, the tables. A tombstone is
`none` in the memtable; on the disk path every one-byte value counts as one.
-/

namespace Service

open Lib Lsm Mem

/-- `SupportedMetadataTypes`, the wire form of a metadata type. -/
inductive SupportedMetadataTypes
  | unspecified
  | bool
  | rawByte
  | string
  | uint32
  | uint64
  | int32
  | int64
  | float32
  | double
  deriving DecidableEq

/-- The tag of a type on the wire. -/
def SupportedMetadataTypes.toInt : SupportedMetadataTypes → Int
  | .unspecified => 0
  | .bool => 1
  | .rawByte => 2
  | .string => 3
  | .uint32 => 4
  | .uint64 => 5
  | .int32 => 6
  | .int64 => 7
  | .float32 => 8
  | .double => 9

structure TypeInfo where
  raw : Bytes
  trueType : Int
  deriving DecidableEq

structure PutRequest where
  key : Bytes
  value : Bytes
  metadata : Std.ExtTreeMap String TypeInfo

structure FilterParam where
  use : Bool
  metadataKeys : List String

structure GetRequest where
  key : Bytes
  filter : Option FilterParam

structure GetResponse where
  value : Option Bytes
  metadata : Std.ExtTreeMap String TypeInfo
  deriving DecidableEq

inductive Status
  | invalidArgument (msg : String)
  | internal (e : Failure MemtableError)
  | diskReadError (e : LsmTreeError)

/-- The internal type of a wire tag; an unknown tag is unspecified. -/
def trueTypeOf (tag : Int) : TrueTypes :=
  match tag with
  | 1 => .bool
  | 2 => .rawBytes
  | 3 => .string
  | 4 => .uint32
  | 5 => .uint64
  | 6 => .int32
  | 7 => .int64
  | 8 => .float32
  | 9 => .double
  | _ => .unspecified

/-- The wire type of an internal one. -/
def grpcType : TrueTypes → SupportedMetadataTypes
  | .bool => .bool
  | .rawBytes => .rawByte
  | .string => .string
  | .uint32 => .uint32
  | .uint64 => .uint64
  | .int32 => .int32
  | .int64 => .int64
  | .float32 => .float32
  | .double => .double
  | .unspecified => .unspecified

def u32Max : Nat := 2 ^ 32 - 1

def validatePutRequest (req : PutRequest) : Except Status Unit := do
  ensure (req.key ≠ []) (.invalidArgument "key argument cannot be empty")
  ensure (req.value ≠ []) (.invalidArgument "value argument cannot be empty")
  ensure (¬u32Max < req.key.length) (.invalidArgument ("max put key size is " ++ toString u32Max ++
    ", received key of size " ++ toString req.key.length))
  ensure (¬u32Max < req.value.length) (.invalidArgument ("max put value size is " ++
    toString u32Max ++ ", received value of size " ++ toString req.value.length))

/-- The table entry of a put request. -/
def entryOf (req : PutRequest) : TableEntry :=
  ⟨req.value, some (req.metadata.toList.foldl
    (fun md e => md.insert e.1 ⟨e.2.raw, trueTypeOf e.2.trueType⟩) ∅)⟩

/-! ## Handlers -/

abbrev ServiceProg := Prog MemOp Status

/-- A memtable call, its error as a status. -/
def ServiceProg.db {α : Type} (p : MemProg α) : ServiceProg α := do
  match ← p.attempt with
  | .ok a => pure a
  | .error e => Prog.fail (.internal e)

def put (P : Platform) (req : PutRequest) : ServiceProg Unit := do
  Prog.ofExcept (validatePutRequest req)
  ServiceProg.db (Mem.put P req.key (entryOf req))

def delete (P : Platform) (key : Bytes) : ServiceProg Unit := ServiceProg.db (Mem.delete P key)

/-- The puts of a batch, and the keys left to delete, in the order the set is iterated in. -/
def batchPuts (P : Platform) : List PutRequest → List Bytes → ServiceProg (List Bytes)
  | [], deleteKeys => pure deleteKeys
  | req :: puts, deleteKeys => do
    ServiceProg.db (Mem.put P req.key (entryOf req))
    batchPuts P puts (deleteKeys.filter (· ≠ req.key))

def batchDeletes (P : Platform) : List Bytes → ServiceProg Unit
  | [] => pure ()
  | key :: keys => do
    ServiceProg.db (Mem.delete P key)
    batchDeletes P keys

/-- `batch_write`; `deleteKeys` is the hash set of the keys to delete in its iteration order. -/
def batchWrite (P : Platform) (puts : List PutRequest) (deleteKeys : List Bytes) :
    ServiceProg Unit := do
  let rest ← batchPuts P puts deleteKeys
  batchDeletes P rest

/-- The response for a slot of the memtable. -/
def memoryResponse (slot : Option TableEntry) (filter : Option FilterParam) : GetResponse :=
  match slot with
  | some entry =>
    let grpcMetadata : Std.ExtTreeMap String TypeInfo := match entry.metaData with
      | some md => md.map fun _ info => ⟨info.raw, (grpcType info.trueType).toInt⟩
      | none => ∅
    let metadata := match filter with
      | some f => if f.use then grpcMetadata.filter fun k _ => k ∈ f.metadataKeys else grpcMetadata
      | none => grpcMetadata
    ⟨some entry.value, metadata⟩
  | none => ⟨none, ∅⟩

/-- The response for what the tables hold. -/
def diskResponse : Except LsmTreeError SearchResult → Except Status GetResponse
  | .ok (.found value _ _) =>
    -- a tombstone
    if value.length = 1 then .ok ⟨none, ∅⟩ else .ok ⟨some value, ∅⟩
  | .ok (.missing _ _) => .ok ⟨none, ∅⟩
  | .error e => .error (.diskReadError e)

def get (m : Memtable) (levelArray : List FileMap) (req : GetRequest) : Except Status GetResponse :=
  match Mem.get m req.key with
  | some slot => .ok (memoryResponse slot req.filter)
  | none => diskResponse (Lsm.read levelArray req.key)

end Service
