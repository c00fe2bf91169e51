import SwiftMerge.Lsm.Bloom

/-!
# The Bloom filter has no false negatives

Bits are only ever set (`getBit_setBit`), every probe is inside the bit array (`probe_lt`), so the
bits of every added key are set in the block (`getBit_bitsOf_probe`) and the query finds them
(`probablyExist_build`), whatever the number of probes (`added_key_exists`).
-/

namespace Lsm

open Lib

theorem mask_ne_zero {b : Nat} (h : b < 8) : (1 : UInt8) <<< UInt8.ofNat b ≠ 0 := by
  have : ∀ b : Fin 8, (1 : UInt8) <<< UInt8.ofNat b.val ≠ 0 := by decide
  exact this ⟨b, h⟩

theorem or_and_self_right (s m : UInt8) : (s ||| m) &&& m = m := by
  apply UInt8.toBitVec_inj.1
  ext i hi
  simp only [UInt8.toBitVec_and, UInt8.toBitVec_or, BitVec.getElem_and, BitVec.getElem_or]
  cases s.toBitVec[i] <;> cases m.toBitVec[i] <;> rfl

theorem or_and_ne_zero {s m n : UInt8} (h : s &&& m ≠ 0) : (s ||| n) &&& m ≠ 0 := by
  intro h0
  apply h
  have hd : (s ||| n) &&& m = (s &&& m) ||| (n &&& m) := by
    apply UInt8.toBitVec_inj.1
    ext i hi
    simp [Bool.and_or_distrib_right]
  rw [hd] at h0
  have := congrArg UInt8.toBitVec h0
  apply UInt8.toBitVec_inj.1
  ext i hi
  have hb := congrArg (fun v => v.getLsbD i) this
  simp at hb ⊢
  intro h1
  exact hb.1 h1

@[simp] theorem length_setBit (bitmap : Bytes) (i : Nat) :
    (setBit bitmap i).length = bitmap.length := List.length_modify ..

theorem getBit_eq_true {bitmap : Bytes} {i : Nat} : getBit bitmap i = true ↔
    ∃ slot, bitmap[i / 8]? = some slot ∧ slot &&& (1 <<< UInt8.ofNat (i % 8)) ≠ 0 := by
  unfold getBit
  cases bitmap[i / 8]? <;> simp

theorem getBit_setBit {bitmap : Bytes} {i : Nat} (h : getBit bitmap i = true) (j : Nat) :
    getBit (setBit bitmap j) i = true := by
  obtain ⟨slot, hs, hb⟩ := getBit_eq_true.1 h
  rw [getBit_eq_true, setBit, List.getElem?_modify, hs]
  by_cases hij : j / 8 = i / 8
  · simp only [if_pos hij]
    exact ⟨_, rfl, or_and_ne_zero hb⟩
  · simp only [if_neg hij]
    exact ⟨slot, rfl, hb⟩

theorem getBit_setBit_self {bitmap : Bytes} {i : Nat} (h : i / 8 < bitmap.length) :
    getBit (setBit bitmap i) i = true := by
  rw [getBit_eq_true, setBit, List.getElem?_modify, List.getElem?_eq_getElem h]
  refine ⟨_, rfl, ?_⟩
  dsimp only
  rw [if_pos rfl, or_and_self_right]
  exact mask_ne_zero (Nat.mod_lt _ (by decide))

theorem probe_lt (key : Bytes) (i : Nat) : probe key i < bloomMBits := by
  unfold probe
  rw [UInt64.toNat_mod]
  exact Nat.mod_lt _ (by decide)

namespace BloomGenerator

/-! ## The bits of a key -/

theorem length_addKeyBits (bitmap : Bytes) (k : UInt32) (key : Bytes) :
    (addKeyBits bitmap k key).length = bitmap.length := by
  unfold addKeyBits
  generalize List.range k.toNat = is
  induction is generalizing bitmap with
  | nil => rfl
  | cons i is ih => rw [List.foldl_cons, ih, length_setBit]

theorem getBit_addKeyBits {bitmap : Bytes} {i : Nat} (h : getBit bitmap i = true) (k : UInt32)
    (key : Bytes) : getBit (addKeyBits bitmap k key) i = true := by
  unfold addKeyBits
  generalize List.range k.toNat = is
  induction is generalizing bitmap with
  | nil => exact h
  | cons j is ih => exact ih (getBit_setBit h _)

theorem getBit_addKeyBits_probe {bitmap : Bytes} (hl : bitmap.length * 8 = bloomMBits)
    {k : UInt32} {i : Nat} (hi : i < k.toNat) (key : Bytes) :
    getBit (addKeyBits bitmap k key) (probe key i) = true := by
  have hmem : i ∈ List.range k.toNat := List.mem_range.2 hi
  have hp := probe_lt key i
  unfold addKeyBits
  generalize List.range k.toNat = is at hmem ⊢
  induction is generalizing bitmap with
  | nil => cases hmem
  | cons j is ih =>
    rw [List.foldl_cons]
    rcases List.mem_cons.1 hmem with rfl | hmem
    · have hbyte : probe key i / 8 < bitmap.length := by omega
      have hset := getBit_setBit_self hbyte
      clear ih hmem hbyte
      generalize setBit bitmap (probe key i) = bitmap' at hset
      induction is generalizing bitmap' with
      | nil => exact hset
      | cons j is ih => exact ih _ (getBit_setBit hset _)
    · exact ih (by rw [length_setBit]; exact hl) hmem

/-! ## The block -/

/-- The bit array of a block. -/
def bitsOf (k : UInt32) (keys : List Bytes) (bits : Bytes) : Bytes :=
  keys.foldl (fun bits key => addKeyBits bits k key) bits

theorem length_bitsOf (k : UInt32) (keys : List Bytes) (bits : Bytes) :
    (bitsOf k keys bits).length = bits.length := by
  unfold bitsOf
  induction keys generalizing bits with
  | nil => rfl
  | cons key keys ih => rw [List.foldl_cons, ih, length_addKeyBits]

theorem getBit_bitsOf {bits : Bytes} {i : Nat} (h : getBit bits i = true) (k : UInt32)
    (keys : List Bytes) : getBit (bitsOf k keys bits) i = true := by
  unfold bitsOf
  induction keys generalizing bits with
  | nil => exact h
  | cons key keys ih => exact ih (getBit_addKeyBits h k key)

theorem getBit_bitsOf_probe {k : UInt32} {key : Bytes} {i : Nat} (hi : i < k.toNat) :
    ∀ {keys : List Bytes} {bits : Bytes}, bits.length * 8 = bloomMBits → key ∈ keys →
      getBit (bitsOf k keys bits) (probe key i) = true
  | key' :: keys, bits, hl, hm => by
    rcases List.mem_cons.1 hm with rfl | hm
    · exact getBit_bitsOf (getBit_addKeyBits_probe hl hi key) k keys
    · show getBit (bitsOf k keys (addKeyBits bits k key')) _ = true
      exact getBit_bitsOf_probe hi (by rw [length_addKeyBits]; exact hl) hm

theorem build_eq (k : UInt32) (keys : List Bytes) : build k keys =
    leBytes 4 k.toNat ++ bitsOf k keys (List.replicate 996 0) := rfl

@[simp] theorem length_build (k : UInt32) (keys : List Bytes) :
    (build k keys).length = bloomFilterSize := by
  rw [build_eq, List.length_append, length_leBytes, length_bitsOf, List.length_replicate]
  rfl

/-- **No false negatives**: the query on a block finds every key the block was built from. -/
theorem probablyExist_build (k : UInt32) {keys : List Bytes} {key : Bytes} (h : key ∈ keys) :
    probablyExist (build k keys) key = true := by
  have hk : leNat ((build k keys).take bloomKHeaderLen) = k.toNat := by
    rw [build_eq, List.take_left' (by simp [bloomKHeaderLen])]
    exact leNat_leBytes (by simpa using k.toNat_lt)
  have hd : (build k keys).drop bloomKHeaderLen = bitsOf k keys (List.replicate 996 0) := by
    rw [build_eq, List.drop_left' (by simp [bloomKHeaderLen])]
  unfold probablyExist
  rw [if_neg (by rw [length_build]; simp), hk, hd]
  split
  · rfl
  · dsimp only
    split
    · rfl
    · rw [List.all_eq_true]
      intro i hi
      exact getBit_bitsOf_probe (List.mem_range.1 hi) (by rw [List.length_replicate]; rfl) h

/-- **A key the filter is built from is found**, whatever number of probes the platform's
floating-point arithmetic gives, and each of its probes has set a bit of the array. -/
theorem added_key_exists (P : Platform) (keyCount : Nat) (bloomFalsePositiveRate : F64)
    {keys : List Bytes} {key : Bytes} (h : key ∈ keys) :
    let bloom := buildFromKeyIter P keyCount bloomFalsePositiveRate keys
    probablyExist bloom key = true ∧
      ∀ i < (P.optimalK (max keyCount 1) bloomMBits bloomFalsePositiveRate).toNat,
        probe key i / 8 < (bloom.drop bloomKHeaderLen).length ∧
          getBit (bloom.drop bloomKHeaderLen) (probe key i) = true := by
  have hbits : (List.replicate 996 (0 : UInt8)).length * 8 = bloomMBits := by
    rw [List.length_replicate]
    rfl
  refine ⟨probablyExist_build _ h, fun i hi => ⟨?_, ?_⟩⟩
  · rw [List.length_drop, buildFromKeyIter, length_build]
    exact Nat.div_lt_of_lt_mul (probe_lt key i)
  · rw [buildFromKeyIter, build_eq, List.drop_left' (by simp [bloomKHeaderLen])]
    exact getBit_bitsOf_probe hi hbits h

theorem two_keys_exist :
    let bloom := buildFromKeyIter Platform.plain 2 ⟨0x3F847AE147AE147B⟩ [[97], [98]]
    probablyExist bloom [98] = true ∧
      ∀ i < (Platform.plain.optimalK (max 2 1) bloomMBits ⟨0x3F847AE147AE147B⟩).toNat,
        probe [98] i / 8 < (bloom.drop bloomKHeaderLen).length ∧
          getBit (bloom.drop bloomKHeaderLen) (probe [98] i) = true :=
  added_key_exists Platform.plain 2 ⟨0x3F847AE147AE147B⟩ (.tail _ (.head _))

end BloomGenerator

end Lsm
