import Mathlib.Data.List.Basic
import Mathlib.Tactic.Ring

/-!
# Byte strings: little-endian numbers and length-prefixed fields

`leBytes w n` is the `w`-byte little-endian encoding of `n` (the low `8 w` bits, as an unsigned
cast keeps them) and `leNat` reads one back. A *field* is a byte string behind its length as four
little-endian bytes; `readField` takes one off the front of a buffer. A buffer is a sequence of
fields in at most one way:

* `readField_field`: reading back a field of fewer than `2 ^ 32` bytes.
* `readField_eq_some`: whatever `readField` returns was a field at the front of the buffer.
* `fields_inj`: two lists of fields with the same concatenation are the same list.
-/

namespace Lib

/-- A byte string. -/
abbrev Bytes := List UInt8

instance : LawfulBEq Bytes := inferInstance

/-! ## Little-endian numbers -/

/-- The low `w` bytes of `n`, least significant first. -/
def leBytes : Nat → Nat → Bytes
  | 0, _ => []
  | w + 1, n => UInt8.ofNat n :: leBytes w (n / 256)

/-- The number a little-endian byte string stands for. -/
def leNat : Bytes → Nat
  | [] => 0
  | b :: bs => b.toNat + 256 * leNat bs

@[simp] theorem length_leBytes : ∀ (w n : Nat), (leBytes w n).length = w
  | 0, _ => rfl
  | w + 1, n => by simp [leBytes, length_leBytes w]

theorem leNat_leBytes_mod : ∀ (w n : Nat), leNat (leBytes w n) = n % 256 ^ w
  | 0, n => by simp [leBytes, leNat, Nat.mod_one]
  | w + 1, n => by
    have hb : (UInt8.ofNat n).toNat = n % 256 := UInt8.toNat_ofNat'
    rw [leBytes, leNat, leNat_leBytes_mod w, hb, Nat.pow_succ, Nat.mul_comm (256 ^ w), Nat.mod_mul]

theorem leNat_leBytes {w n : Nat} (h : n < 256 ^ w) : leNat (leBytes w n) = n := by
  rw [leNat_leBytes_mod, Nat.mod_eq_of_lt h]

theorem leNat_lt : ∀ bs : Bytes, leNat bs < 256 ^ bs.length
  | [] => by simp [leNat]
  | b :: bs => by
    have hb := b.toNat_lt
    have hbs := leNat_lt bs
    simp only [leNat, List.length_cons, Nat.pow_succ]
    omega

theorem leBytes_leNat : ∀ bs : Bytes, leBytes bs.length (leNat bs) = bs
  | [] => rfl
  | b :: bs => by
    have hb := b.toNat_lt
    simp only [leNat, List.length_cons, leBytes]
    rw [show (b.toNat + 256 * leNat bs) / 256 = leNat bs by omega, leBytes_leNat bs]
    congr 1
    apply UInt8.toNat_inj.1
    rw [UInt8.toNat_ofNat']
    omega

/-! ## Length-prefixed fields -/

/-- A byte string behind its length as a four-byte prefix (the length cast to 32 bits). -/
def field (bs : Bytes) : Bytes := leBytes 4 bs.length ++ bs

/-- Fields one after another. -/
def fields (fs : List Bytes) : Bytes := fs.flatMap field

@[simp] theorem length_field (bs : Bytes) : (field bs).length = 4 + bs.length := by simp [field]

theorem field_ne_nil (bs : Bytes) : field bs ≠ [] := fun h => by
  have hlen := congrArg List.length h
  rw [length_field, List.length_nil] at hlen
  omega

@[simp] theorem fields_nil : fields [] = [] := rfl

@[simp] theorem fields_cons (f : Bytes) (fs : List Bytes) : fields (f :: fs) = field f ++ fields fs :=
  rfl

@[simp] theorem fields_append (fs gs : List Bytes) : fields (fs ++ gs) = fields fs ++ fields gs :=
  List.flatMap_append

/-- The first field of a buffer and what follows it; `none` when the buffer is too short. -/
def readField (bs : Bytes) : Option (Bytes × Bytes) :=
  if 4 ≤ bs.length then
    if leNat (bs.take 4) ≤ (bs.drop 4).length then
      some ((bs.drop 4).take (leNat (bs.take 4)), (bs.drop 4).drop (leNat (bs.take 4)))
    else none
  else none

theorem readField_field {f : Bytes} (h : f.length < 2 ^ 32) (rest : Bytes) :
    readField (field f ++ rest) = some (f, rest) := by
  have ht : (field f ++ rest).take 4 = leBytes 4 f.length := by
    rw [field, List.append_assoc, List.take_left' (length_leBytes _ _)]
  have hd : (field f ++ rest).drop 4 = f ++ rest := by
    rw [field, List.append_assoc, List.drop_left' (length_leBytes _ _)]
  have hn : leNat (leBytes 4 f.length) = f.length := leNat_leBytes (by simpa using h)
  unfold readField
  rw [ht, hd, hn, if_pos (by simp; omega), if_pos (by simp)]
  simp

/-- **What `readField` returns** was a field at the front of the buffer. -/
theorem readField_eq_some {bs f rest : Bytes} (h : readField bs = some (f, rest)) :
    bs = field f ++ rest ∧ f.length < 2 ^ 32 := by
  unfold readField at h
  split at h
  · rename_i h4
    split at h
    · rename_i hle
      simp only [Option.some.injEq, Prod.mk.injEq] at h
      obtain ⟨rfl, rfl⟩ := h
      have hlen : (bs.take 4).length = 4 := by simp; omega
      have hlt := leNat_lt (bs.take 4)
      rw [hlen] at hlt
      have hf : ((bs.drop 4).take (leNat (bs.take 4))).length = leNat (bs.take 4) := by
        rw [List.length_take]; omega
      refine ⟨?_, by rw [hf]; simpa using hlt⟩
      have h4b := leBytes_leNat (bs.take 4)
      rw [hlen] at h4b
      rw [field, hf, h4b, List.append_assoc, List.take_append_drop, List.take_append_drop]
    · cases h
  · cases h

theorem readField_length {bs f rest : Bytes} (h : readField bs = some (f, rest)) :
    rest.length < bs.length := by
  rw [(readField_eq_some h).1, List.length_append, length_field]
  omega

/-- A field stands where a buffer has a length and that many bytes. -/
theorem exists_field {bs : Bytes} {i : Nat} (hlen : i + 4 ≤ bs.length)
    (hle : i + 4 + leNat ((bs.drop i).take 4) ≤ bs.length) :
    ∃ f, f.length = leNat ((bs.drop i).take 4) ∧ f.length < 2 ^ 32 ∧
      bs.drop i = field f ++ bs.drop (i + 4 + f.length) := by
  have hread : readField (bs.drop i) = some (((bs.drop i).drop 4).take (leNat ((bs.drop i).take 4)),
      ((bs.drop i).drop 4).drop (leNat ((bs.drop i).take 4))) := by
    rw [readField, if_pos (by rw [List.length_drop]; omega),
      if_pos (by rw [List.length_drop, List.length_drop]; omega)]
  obtain ⟨hfield, hlt⟩ := readField_eq_some hread
  have hf : (((bs.drop i).drop 4).take (leNat ((bs.drop i).take 4))).length =
      leNat ((bs.drop i).take 4) := by
    rw [List.length_take, List.length_drop, List.length_drop]
    omega
  refine ⟨_, hf, hlt, ?_⟩
  rw [hf, ← List.drop_drop, ← List.drop_drop]
  exact hfield

theorem fields_inj : ∀ {fs gs : List Bytes}, (∀ f ∈ fs, f.length < 2 ^ 32) →
    (∀ g ∈ gs, g.length < 2 ^ 32) → fields fs = fields gs → fs = gs
  | [], [], _, _, _ => rfl
  | [], g :: gs, _, _, h => absurd (List.append_eq_nil_iff.1 h.symm).1 (field_ne_nil g)
  | f :: fs, [], _, _, h => absurd (List.append_eq_nil_iff.1 h).1 (field_ne_nil f)
  | f :: fs, g :: gs, hf, hg, h => by
    have h1 := readField_field (hf f (.head _)) (fields fs)
    rw [← fields_cons, h, fields_cons, readField_field (hg g (.head _))] at h1
    simp only [Option.some.injEq, Prod.mk.injEq] at h1
    obtain ⟨rfl, h2⟩ := h1
    rw [fields_inj (fun f h => hf f (.tail _ h)) (fun g h => hg g (.tail _ h)) h2.symm]

end Lib
