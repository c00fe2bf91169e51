import SwiftMerge.Disk

/-!
# The Bloom filter block (`lsm_tree/disk.rs`)

`BloomGenerator` builds and queries a filter of `bloomFilterSize` bytes: the number `k` of probes as
a 32-bit number, then a bit array of `bloomMBits` bits. A key's probes are `h1 + i * h2` modulo the
number of bits, with two seeds of one 64-bit hash. The probe count comes from floating-point
arithmetic (`Platform.optimalK`).
-/

namespace Lsm

open Lib

def bloomFilterSize : Nat := 1000
def bloomKHeaderLen : Nat := 4
def bloomMBits : Nat := (bloomFilterSize - bloomKHeaderLen) * 8

/-- 64-bit FNV-1a with a seed. -/
def hashKey (key : Bytes) (seed : UInt64) : UInt64 :=
  key.foldl (fun hash b => (hash ^^^ b.toUInt64) * 1099511628211) (14695981039346656037 ^^^ seed)

def setBit (bitmap : Bytes) (bitIdx : Nat) : Bytes :=
  bitmap.modify (bitIdx / 8) fun slot => slot ||| (1 <<< UInt8.ofNat (bitIdx % 8))

def getBit (bitmap : Bytes) (bitIdx : Nat) : Bool :=
  match bitmap[bitIdx / 8]? with
  | some slot => slot &&& (1 <<< UInt8.ofNat (bitIdx % 8)) != 0
  | none => false

/-- The bit of a key's `i`-th probe. -/
def probe (key : Bytes) (i : Nat) : Nat :=
  let h1 := hashKey key 0
  let h2 := hashKey key 1 ||| 1
  ((h1 + UInt64.ofNat i * h2) % UInt64.ofNat bloomMBits).toNat

namespace BloomGenerator

def addKeyBits (bitmap : Bytes) (k : UInt32) (key : Bytes) : Bytes :=
  (List.range k.toNat).foldl (fun bitmap i => setBit bitmap (probe key i)) bitmap

/-- The block for `keys` with `k` probes. -/
def build (k : UInt32) (keys : List Bytes) : Bytes :=
  leBytes bloomKHeaderLen k.toNat ++
    keys.foldl (fun bits key => addKeyBits bits k key)
      (List.replicate (bloomFilterSize - bloomKHeaderLen) 0)

def buildFromKeyIter (P : Platform) (keyCount : Nat) (bloomFalsePositiveRate : F64)
    (keys : List Bytes) : Bytes :=
  build (P.optimalK (max keyCount 1) bloomMBits bloomFalsePositiveRate) keys

/-- `generate_filter_from_keys`; `generate_filter` is it on the keys of a memtable. -/
def generateFilterFromKeys (P : Platform) (keys : List Bytes) (bloomFalsePositiveRate : F64) :
    Bytes := buildFromKeyIter P keys.length bloomFalsePositiveRate keys

/-- Whether a key may have been added; `false` means it was not. -/
def probablyExist (bloom : Bytes) (key : Bytes) : Bool :=
  if bloom.length ≠ bloomFilterSize then true
  -- tables written before there was a filter
  else if bloom.all (· == 0) then true
  else
    let k := leNat (bloom.take bloomKHeaderLen)
    if k < 2 ∨ 30 < k then true
    else (List.range k).all fun i => getBit (bloom.drop bloomKHeaderLen) (probe key i)

end BloomGenerator

end Lsm
