import SwiftMerge.Memtable.Wal
import SwiftMerge.Lib.Overlay

/-!
# The entry codec

`TableEntry.deserialize` undoes `TableEntry.serialize` on every entry whose parts are shorter than
`2 ^ 32` bytes (`deserialize_serialize`), so the encoding is injective on these. The metadata items
carry no count, so the loop over them (`deserializeItems_serialize`) is followed by the cursor to
the end of the buffer; it inserts the items in key order, which rebuilds the map they were listed
from (`foldl_insert_toList`).
-/

namespace Mem

open Lib

/-! ## Maps built by insertion -/

section
variable {κ υ : Type} [BEq κ] [LawfulBEq κ] [Ord κ] [Std.TransOrd κ] [Std.LawfulEqOrd κ]

/-- **Insertion in order is last-writer-wins**: a key maps to its last value in the list. -/
theorem getElem?_foldl_insert (k : κ) : ∀ (l : List (κ × υ)) (m : Std.ExtTreeMap κ υ),
    (l.foldl (fun m r => m.insert r.1 r.2) m)[k]? = (l.reverse.lookup k).or m[k]?
  | [], m => by simp
  | (a, v) :: l, m => by
    rw [List.foldl_cons, getElem?_foldl_insert k l, List.reverse_cons, List.lookup_append,
      Option.or_assoc, Std.ExtTreeMap.getElem?_insert]
    congr 1
    by_cases hk : k = a
    · subst hk
      rw [if_pos Std.ReflCmp.compare_self]
      simp
    · have hc : compare a k ≠ .eq := fun h => hk (Std.LawfulEqOrd.eq_of_compare h).symm
      rw [if_neg hc, lookup_cons_ne hk]
      rfl

omit [BEq κ] [LawfulBEq κ] [Std.LawfulEqOrd κ] in
theorem keySorted_toList (m : Std.ExtTreeMap κ υ) : KeySorted m.toList :=
  Std.ExtTreeMap.ordered_keys_toList

theorem lookup_toList (m : Std.ExtTreeMap κ υ) (k : κ) : m.toList.lookup k = m[k]? := by
  apply Option.ext
  intro v
  rw [(keySorted_toList m).lookup_iff, Std.ExtTreeMap.mem_toList_iff_getElem?_eq_some]

omit [Std.TransOrd κ] in
theorem lookup_reverse {l : List (κ × υ)} (h : KeySorted l) (k : κ) :
    l.reverse.lookup k = l.lookup k := by
  by_cases hk : ∃ v, (k, v) ∈ l
  · obtain ⟨v, hv⟩ := hk
    rw [h.lookup_of_mem hv]
    obtain ⟨w, hw⟩ := Option.isSome_iff_exists.1
      (lookup_isSome.2 ⟨(k, v), List.mem_reverse.2 hv, rfl⟩)
    rw [hw, ← h.lookup_of_mem hv, h.lookup_of_mem (List.mem_reverse.1 (mem_of_lookup hw))]
  · have hn : ∀ r ∈ l, r.1 ≠ k := fun r hr he => hk ⟨r.2, he ▸ hr⟩
    rw [lookup_eq_none.2 hn, lookup_eq_none.2 fun r hr => hn r (List.mem_reverse.1 hr)]

/-- Inserting a map's entries in order rebuilds it. -/
theorem foldl_insert_toList (m : Std.ExtTreeMap κ υ) :
    m.toList.foldl (fun m r => m.insert r.1 r.2) ∅ = m := by
  apply Std.ExtTreeMap.ext_getElem?
  intro k
  rw [getElem?_foldl_insert, lookup_reverse (keySorted_toList m), lookup_toList]
  simp

end

/-! ## The metadata items -/

@[simp] theorem fromUtf8_utf8 (s : String) : fromUtf8 (utf8 s) = some s := by
  have h : (⟨(utf8 s).toArray⟩ : ByteArray) = s.toByteArray := by simp [utf8]
  unfold fromUtf8 String.fromUTF8?
  rw [h, dif_pos s.isValidUTF8]
  rfl

@[simp] theorem toEnumVarient_enumVariantValue (t : TrueTypes) :
    TrueTypes.toEnumVarient [t.enumVariantValue] = t := by cases t <;> rfl

/-- The parts of a metadata item are shorter than `2 ^ 32` bytes. -/
def ItemFits (item : String × TypeInfoMetadata) : Prop :=
  (utf8 item.1).length < 2 ^ 32 ∧ item.2.raw.length < 2 ^ 32

instance (item : String × TypeInfoMetadata) : Decidable (ItemFits item) :=
  inferInstanceAs (Decidable ((utf8 item.1).length < 2 ^ 32 ∧ item.2.raw.length < 2 ^ 32))

/-- The parts of an entry are shorter than `2 ^ 32` bytes. -/
def TableEntry.Fits (e : TableEntry) : Prop :=
  e.value.length < 2 ^ 32 ∧ ∀ md ∈ e.metaData, ∀ item ∈ md.toList, ItemFits item

namespace TableEntry

theorem length_serializeItem (item : String × TypeInfoMetadata) :
    (serializeItem item).length = 4 + (utf8 item.1).length + 4 + item.2.raw.length + 1 := by
  simp only [serializeItem, List.length_append, length_field, List.length_singleton]
  omega

/-- The bytes of a metadata item, its key any bytes and its type any byte. -/
structure RawItem where
  key : Bytes
  raw : Bytes
  trueType : UInt8

namespace RawItem

def encode (item : RawItem) : Bytes := field item.key ++ (field item.raw ++ [item.trueType])

structure Fits (item : RawItem) : Prop where
  key_lt : item.key.length < 2 ^ 32
  raw_lt : item.raw.length < 2 ^ 32

theorem length_encode (item : RawItem) :
    item.encode.length = 4 + item.key.length + 4 + item.raw.length + 1 := by
  simp only [encode, List.length_append, length_field, List.length_singleton]
  omega

end RawItem

theorem deserializeItem_encode {item : RawItem} (h : item.Fits) (pre rest : Bytes) :
    deserializeItem (pre ++ (item.encode ++ rest)) pre.length =
      match fromUtf8 item.key with
      | some s => .ok ((s, ⟨item.raw, .toEnumVarient [item.trueType]⟩),
          pre.length + item.encode.length)
      | none => .error (.panic "called `Result::unwrap()` on an `Err` value: FromUtf8Error") := by
  obtain ⟨key, raw, t⟩ := item
  obtain ⟨hk, hr⟩ := h
  dsimp only at hk hr
  have hkl : leNat (leBytes 4 key.length) = key.length := leNat_leBytes (by simpa using hk)
  have hrl : leNat (leBytes 4 raw.length) = raw.length := leNat_leBytes (by simpa using hr)
  have hlen : (pre ++ (RawItem.encode ⟨key, raw, t⟩ ++ rest)).length =
      pre.length + (4 + key.length + 4 + raw.length + 1) + rest.length := by
    simp only [List.length_append, RawItem.length_encode]
    omega
  -- the buffer, from each part of the item on
  have h1 : pre ++ (RawItem.encode ⟨key, raw, t⟩ ++ rest) = pre ++ (leBytes 4 key.length ++
      (key ++ (leBytes 4 raw.length ++ (raw ++ ([t] ++ rest))))) := by
    simp [RawItem.encode, field]
  have h2 := next_part h1
  have h3 := next_part h2
  have h4 := next_part h3
  have h5 := next_part h4
  unfold deserializeItem
  rw [ensure_pos (by rw [hlen]; omega), ok_bind, slice_at h1 rfl (by simp), ok_bind, hkl]
  dsimp only
  rw [ensure_pos (by rw [hlen]; omega), ok_bind, slice_at h2 (by simp +arith) rfl, ok_bind]
  rw [ensure_pos (by rw [hlen]; omega), ok_bind, slice_at h3 (by simp +arith) (by simp), ok_bind, hrl]
  rw [ensure_pos (by rw [hlen]; omega), ok_bind, slice_at h4 (by simp +arith) rfl, ok_bind]
  rw [ensure_pos (by rw [hlen]; omega), ok_bind, slice_at h5 (by simp +arith) (by simp), ok_bind]
  cases fromUtf8 key with
  | none => rfl
  | some s =>
    simp only [pure_ok, Except.ok.injEq, Prod.mk.injEq, true_and, RawItem.length_encode]
    omega

theorem deserializeItem_serializeItem {item : String × TypeInfoMetadata} (h : ItemFits item)
    (pre rest : Bytes) :
    deserializeItem (pre ++ (serializeItem item ++ rest)) pre.length =
      .ok (item, pre.length + (serializeItem item).length) := by
  obtain ⟨key, raw, t⟩ := item
  have hfits : RawItem.Fits ⟨utf8 key, raw, t.enumVariantValue⟩ := ⟨h.1, h.2⟩
  have hturn := deserializeItem_encode hfits pre rest
  simp only [fromUtf8_utf8, toEnumVarient_enumVariantValue] at hturn
  exact hturn

/-- The loop over serialized items inserts them in order and stops at the end of the buffer. -/
theorem deserializeItems_serialize : ∀ (items : List (String × TypeInfoMetadata)) (pre : Bytes)
    (m : MetaData), (∀ item ∈ items, ItemFits item) →
    deserializeItems (pre ++ items.flatMap serializeItem) pre.length m =
      .ok (items.foldl (fun m r => m.insert r.1 r.2) m)
  | [], pre, m, _ => by
    rw [deserializeItems_end (by simp)]
    rfl
  | item :: items, pre, m, h => by
    have hi := deserializeItem_serializeItem (h item (.head _)) pre (items.flatMap serializeItem)
    have hrec := deserializeItems_serialize items (pre ++ serializeItem item)
      (m.insert item.1 item.2) (fun x hx => h x (.tail _ hx))
    rw [deserializeItems_turn (by
      rw [List.length_append, List.flatMap_cons, List.length_append, length_serializeItem]
      omega), List.flatMap_cons, hi, ok_bind]
    rw [List.length_append, List.append_assoc] at hrec
    exact hrec

/-- At least the length prefix and the metadata flag. -/
theorem length_serialize (e : TableEntry) : e.value.length + 5 ≤ e.serialize.length := by
  unfold serialize
  rw [List.length_append, length_field]
  split
  · rw [List.length_cons]; omega
  · rw [List.length_singleton]; omega

theorem fits_of_length {e : TableEntry} (h : e.serialize.length < 2 ^ 32) : e.Fits := by
  have hvalue := e.length_serialize
  refine ⟨by omega, fun md hmd item hitem => ?_⟩
  have hpart : (serializeItem item).Sublist (md.toList.flatMap serializeItem) :=
    List.sublist_flatten_of_mem (List.mem_map_of_mem hitem)
  have hle := hpart.length_le
  rw [serialize, hmd, List.length_append, length_field] at h
  dsimp only at h
  rw [List.length_cons] at h
  rw [length_serializeItem] at hle
  constructor <;> omega

/-- Decoding a value and a flag, with the items of the metadata map behind them. -/
theorem deserialize_field {value : Bytes} (hv : value.length < 2 ^ 32) (flag : UInt8) (rest : Bytes) :
    deserialize (field value ++ flag :: rest) =
      if flag = metaDataMapDoesntExist then .ok ⟨value, none⟩
      else (deserializeItems ((field value ++ [flag]) ++ rest) (field value ++ [flag]).length ∅).map
        fun md => ⟨value, some md⟩ := by
  have hvl : leNat (leBytes 4 value.length) = value.length := leNat_leBytes (by simpa using hv)
  have hlen : (field value ++ flag :: rest).length = 4 + value.length + (1 + rest.length) := by
    simp +arith
  have h1 : field value ++ flag :: rest =
      [] ++ (leBytes 4 value.length ++ (value ++ ([flag] ++ rest))) := by
    simp [field]
  have h2 := next_part h1
  have h3 := next_part h2
  unfold deserialize
  rw [ensure_pos (by omega), ok_bind, slice_at h1 (by rfl) (by simp), ok_bind, hvl]
  dsimp only
  rw [ensure_pos (by omega), ok_bind, slice_at h2 (by simp +arith) rfl, ok_bind,
    ensure_pos (by omega), ok_bind, slice_at h3 (by simp +arith) (by simp), ok_bind]
  by_cases hflag : flag = metaDataMapDoesntExist
  · rw [if_pos hflag, if_pos (by rw [hflag])]
    rfl
  · rw [if_neg hflag, if_neg fun he => hflag (List.singleton_inj.1 he), List.append_assoc,
      List.singleton_append, List.length_append, length_field]
    rfl

/-- **The entry codec's round trip.** -/
theorem deserialize_serialize {e : TableEntry} (h : e.Fits) : deserialize e.serialize = .ok e := by
  obtain ⟨value, md⟩ := e
  obtain ⟨hv, hmd⟩ := h
  cases md with
  | none => exact (deserialize_field hv _ []).trans (if_pos rfl)
  | some md =>
    refine (deserialize_field hv _ _).trans ?_
    rw [if_neg (by decide), deserializeItems_serialize _ _ _ (hmd md rfl), foldl_insert_toList]
    rfl

theorem serialize_injOn : Set.InjOn serialize {e | e.Fits} := by
  intro e h e' h' heq
  have hdecoded := deserialize_serialize h
  rw [heq, deserialize_serialize h'] at hdecoded
  exact (Except.ok.inj hdecoded).symm

/-- **The codec round trip**, with any metadata: decoding undoes encoding, so different entries have
different bytes, no metadata and an empty map among them. -/
theorem serialize_roundTrip :
    (∀ e : TableEntry, e.Fits → deserialize e.serialize = .ok e) ∧
    Set.InjOn serialize {e | e.Fits} ∧
    ∀ value : Bytes, value.length < 2 ^ 32 →
      serialize ⟨value, none⟩ ≠ serialize ⟨value, some ∅⟩ := by
  refine ⟨fun e => deserialize_serialize, serialize_injOn, fun value hv heq => ?_⟩
  have hnone : TableEntry.Fits ⟨value, none⟩ := ⟨hv, fun md hmd => by cases hmd⟩
  have hempty : TableEntry.Fits ⟨value, some ∅⟩ := by
    refine ⟨hv, fun md hmd item hitem => ?_⟩
    obtain rfl := Option.some.inj hmd
    cases hitem
  cases serialize_injOn hnone hempty heq

/-- An entry with two items of metadata, the key of one of them empty. -/
theorem two_items_roundTrip :
    deserialize (serialize ⟨[1, 2], some ((Std.ExtTreeMap.insert ∅ "é" ⟨[7], .int64⟩).insert ""
      ⟨[], .unspecified⟩)⟩) = .ok ⟨[1, 2], some ((Std.ExtTreeMap.insert ∅ "é" ⟨[7], .int64⟩).insert ""
        ⟨[], .unspecified⟩)⟩ :=
  serialize_roundTrip.1 _ ⟨by decide, fun md hmd => by
    obtain rfl := Option.some.inj hmd
    decide⟩

end TableEntry

end Mem
