import SwiftMerge.Db.Server
import SwiftMerge.Lsm.Proof.TableProof
import SwiftMerge.Memtable.Proof.Replay

/-!
# The records of a request

A record is written once and read by three components: the replay, the disk path of a get and the
merge. The first two look at the value alone; the merge looks at the length of the key as well, and
knows only the tombstones of one-byte keys (`tombstoneAgreed_iff`).

The length prefixes of a record are casts to 32 bits. A request is accepted by the lengths of its key
and its value, but the prefix of the value field counts the whole entry, so all prefixes are true
exactly when the entry is shorter than 2^32 bytes (`prefixesTrue_iff`).
-/

namespace Db

open Lib Lsm Mem Service

variable {key : Bytes} {entry : WalEntry} {req : PutRequest}

theorem toWalEntry_eq_encodeRecord (key : Bytes) (entry : WalEntry) :
    toWalEntry key entry = encodeRecord (key, entry.contents) := toWalEntry_eq key entry

/-- A record reads back when its key and its value field fit their prefixes, and only then. -/
theorem readBack_iff : (∀ rest, readDataSectionEntry (toWalEntry key entry ++ rest) =
    .ok ((key, entry.contents), rest)) ↔ Fits (key, entry.contents) := by
  constructor
  · intro h
    exact (readDataSectionEntry_eq (h [])).2
  · intro h rest
    rw [toWalEntry_eq_encodeRecord, readDataSectionEntry_encodeRecord h]

/-! ## Tombstones -/

/-- The record of an entry reads back, and each of its readers takes it for a tombstone exactly when
it is one. -/
structure TombstoneAgreed (key : Bytes) (entry : WalEntry) : Prop where
  readBack : ∀ rest, readDataSectionEntry (toWalEntry key entry ++ rest) =
    .ok ((key, entry.contents), rest)
  value : entry.contents = [tombStoneByteRepresentation] ↔ entry = .tombstone
  replay : key ≠ [] → ∀ rest,
    (∃ idx, readWalEntry (toWalEntry key entry ++ rest) 0 = .ok ((key, none), idx)) ↔
      entry = .tombstone
  service : ∀ tables levels,
    diskResponse (.ok (.found entry.contents tables levels)) = .ok ⟨none, ∅⟩ ↔ entry = .tombstone
  merge : isTombstone (key, entry.contents) = true ↔ entry = .tombstone

theorem contents_tombstone :
    entry.contents = [tombStoneByteRepresentation] ↔ entry = .tombstone := by
  cases entry with
  | value e =>
    have h := @contents_eq_tombstone (some e)
    refine iff_of_false (fun hc => ?_) nofun
    exact absurd (h.1 hc) nofun
  | tombstone => exact iff_of_true rfl rfl

theorem readWalEntry_tombstone (hne : key ≠ []) (hfits : Fits (key, entry.contents)) (rest : Bytes) :
    (∃ idx, readWalEntry (toWalEntry key entry ++ rest) 0 = .ok ((key, none), idx)) ↔
      entry = .tombstone := by
  have hrest : entry.contents ++ rest ≠ [] := by
    cases entry with
    | value e => exact fun h => contents_ne_nil (some e) (List.append_eq_nil_iff.1 h).1
    | tombstone => exact List.cons_ne_nil _ _
  have hturn := readWalEntry_fields hne hfits.1 hfits.2 [] hrest
  rw [List.nil_append, ← List.append_assoc, ← toWalEntry_eq, List.length_nil] at hturn
  rw [hturn, ← contents_tombstone]
  by_cases ht : entry.contents = [tombStoneByteRepresentation]
  · rw [if_pos ht]
    exact iff_of_true ⟨_, rfl⟩ ht
  · rw [if_neg ht]
    refine iff_of_false ?_ ht
    rintro ⟨idx, h⟩
    cases hd : liftDecoding (TableEntry.deserialize entry.contents) with
    | ok x =>
      rw [hd] at h
      cases h
    | error e =>
      rw [hd] at h
      cases h

theorem diskResponse_tombstone (tables levels : Nat) :
    diskResponse (.ok (.found entry.contents tables levels)) = .ok ⟨none, ∅⟩ ↔
      entry = .tombstone := by
  cases entry with
  | value e =>
    have hlen := e.length_serialize
    refine iff_of_false (fun h => ?_) nofun
    rw [diskResponse, if_neg (by rw [WalEntry.contents]; omega)] at h
    cases h
  | tombstone => exact iff_of_true rfl rfl

theorem isTombstone_contents :
    isTombstone (key, entry.contents) = true ↔ key.length = 1 ∧ entry = .tombstone := by
  rw [isTombstone, Bool.and_eq_true, decide_eq_true_iff, decide_eq_true_iff, ← contents_tombstone]
  rfl

/-- **The readers of a record agree** on whether it is a tombstone exactly when its key fits its
prefix and it is no tombstone, or its key has one byte. -/
theorem tombstoneAgreed_iff (hlen : entry.contents.length < 2 ^ 32) :
    TombstoneAgreed key entry ↔ key.length < 2 ^ 32 ∧ (key.length = 1 ∨ entry ≠ .tombstone) := by
  constructor
  · intro h
    refine ⟨(readBack_iff.1 h.readBack).1, ?_⟩
    by_cases ht : entry = .tombstone
    · exact .inl (isTombstone_contents.1 (h.merge.2 ht)).1
    · exact .inr ht
  · rintro ⟨hkey, hcase⟩
    have hfits : Fits (key, entry.contents) := ⟨hkey, hlen⟩
    refine ⟨readBack_iff.2 hfits, contents_tombstone, fun hne rest => ?_, diskResponse_tombstone, ?_⟩
    · exact readWalEntry_tombstone hne hfits rest
    · rw [isTombstone_contents]
      refine ⟨fun h => h.2, fun ht => ⟨?_, ht⟩⟩
      exact hcase.resolve_right fun hv => hv ht

theorem one_byte_agreed : TombstoneAgreed [107] .tombstone :=
  (tombstoneAgreed_iff (by decide)).2 ⟨by decide, .inl rfl⟩

/-- **The tombstone of a two-byte key** is a value to the merge. -/
theorem two_bytes_disagree : ¬TombstoneAgreed [107, 108] .tombstone := by
  intro h
  have hmerge := h.merge.2 rfl
  revert hmerge
  decide

/-! ## Length prefixes -/

/-- The prefix that `field` writes is the length of what it precedes. -/
def PrefixTrue (bs : Bytes) : Prop := leNat ((field bs).take 4) = bs.length

theorem prefixTrue_iff {bs : Bytes} : PrefixTrue bs ↔ bs.length < 2 ^ 32 := by
  rw [PrefixTrue, field, List.take_left' (length_leBytes _ _), leNat_leBytes_mod]
  omega

/-- Every length prefix of the record of a put is the length of the field behind it, and the record
and the entry in it parse back. -/
structure PrefixesTrue (req : PutRequest) : Prop where
  key : PrefixTrue req.key
  entry : PrefixTrue (entryOf req).serialize
  value : PrefixTrue (entryOf req).value
  items : ∀ md ∈ (entryOf req).metaData, ∀ item ∈ md.toList,
    PrefixTrue (utf8 item.1) ∧ PrefixTrue item.2.raw
  readBack : ∀ rest, readDataSectionEntry (toWalEntry req.key (.value (entryOf req)) ++ rest) =
    .ok ((req.key, (entryOf req).serialize), rest)
  decodes : TableEntry.deserialize (entryOf req).serialize = .ok (entryOf req)

/-- The bytes of the entry of a put: a prefix and a flag around the value, and nine bytes with each
metadata item. -/
def entrySize (req : PutRequest) : Nat :=
  req.value.length + 5 +
    (req.metadata.toList.map fun e => (utf8 e.1).length + e.2.raw.length + 9).sum

/-- The metadata of the entry is the request's, each tag by its type. -/
theorem entryOf_metaData (req : PutRequest) : (entryOf req).metaData =
    some (req.metadata.map fun _ info => ⟨info.raw, trueTypeOf info.trueType⟩) := by
  have h := foldl_insert_toList (req.metadata.map fun _ info =>
    (⟨info.raw, trueTypeOf info.trueType⟩ : TypeInfoMetadata))
  rw [Std.ExtTreeMap.toList_map, List.foldl_map] at h
  exact congrArg some h

theorem length_serialize_entryOf (req : PutRequest) :
    (entryOf req).serialize.length = entrySize req := by
  have hvalue : (entryOf req).value = req.value := rfl
  rw [TableEntry.serialize, entryOf_metaData, hvalue]
  dsimp only
  rw [Std.ExtTreeMap.toList_map, List.length_append, length_field, List.length_cons,
    List.length_flatMap, List.map_map]
  have hitem : ((fun item => (TableEntry.serializeItem item).length) ∘ fun e =>
        (e.1, (⟨e.2.raw, trueTypeOf e.2.trueType⟩ : TypeInfoMetadata))) =
      fun e : String × TypeInfo => (utf8 e.1).length + e.2.raw.length + 9 := by
    funext e
    rw [Function.comp, TableEntry.length_serializeItem]
    dsimp only
    omega
  rw [hitem, entrySize]
  omega

theorem validatePutRequest_ok_iff : validatePutRequest req = .ok () ↔
    req.key ≠ [] ∧ req.value ≠ [] ∧ req.key.length < 2 ^ 32 ∧ req.value.length < 2 ^ 32 := by
  unfold validatePutRequest
  constructor
  · intro h
    obtain ⟨_, hkey, h⟩ := bind_ok h
    obtain ⟨_, hvalue, h⟩ := bind_ok h
    obtain ⟨_, hk, h⟩ := bind_ok h
    have hk := ensure_ok hk
    have hv := ensure_ok h
    unfold u32Max at hk hv
    exact ⟨ensure_ok hkey, ensure_ok hvalue, by omega, by omega⟩
  · rintro ⟨hkey, hvalue, hk, hv⟩
    rw [ensure_pos hkey, ok_bind, ensure_pos hvalue, ok_bind, ensure_pos (by unfold u32Max; omega),
      ok_bind, ensure_pos (by unfold u32Max; omega)]

/-- **The prefixes of an accepted put are true** exactly when its entry, metadata and all, takes less
than 2^32 bytes. -/
theorem prefixesTrue_iff (h : validatePutRequest req = .ok ()) :
    PrefixesTrue req ↔ entrySize req < 2 ^ 32 := by
  obtain ⟨-, -, hkey, hvalue⟩ := validatePutRequest_ok_iff.1 h
  rw [← length_serialize_entryOf]
  constructor
  · intro hp
    exact prefixTrue_iff.1 hp.entry
  · intro hsize
    have hfits := TableEntry.fits_of_length hsize
    refine ⟨prefixTrue_iff.2 hkey, prefixTrue_iff.2 hsize, prefixTrue_iff.2 hfits.1,
      fun md hmd item hitem => ?_, ?_, TableEntry.deserialize_serialize hfits⟩
    · obtain ⟨hk, hr⟩ := hfits.2 md hmd item hitem
      exact ⟨prefixTrue_iff.2 hk, prefixTrue_iff.2 hr⟩
    · exact readBack_iff.2 ⟨hkey, hsize⟩

/-- A put with a value of one byte and no metadata. -/
theorem small_put_true : PrefixesTrue ⟨[107], [118], ∅⟩ :=
  (prefixesTrue_iff rfl).2 (by decide)

/-- The largest value that the service accepts, without metadata. -/
def largestPut : PutRequest := ⟨[107], List.replicate u32Max 0, ∅⟩

theorem length_largestPut : largestPut.value.length = 2 ^ 32 - 1 := List.length_replicate

/-- **The limit of the value leaves no room for the entry**: the largest value is accepted, and its
entry of 2^32 + 4 bytes stands behind the prefix 4. -/
theorem largestPut_truncated : validatePutRequest largestPut = .ok () ∧
    leNat ((field (entryOf largestPut).serialize).take 4) = 4 ∧ ¬PrefixesTrue largestPut := by
  have hlen : (entryOf largestPut).serialize.length = 2 ^ 32 + 4 := by
    rw [length_serialize_entryOf, entrySize, length_largestPut]
    rfl
  refine ⟨?_, ?_, fun h => ?_⟩
  · have hvalue := length_largestPut
    refine validatePutRequest_ok_iff.2 ⟨List.cons_ne_nil _ _, fun hnil => ?_, by decide, by omega⟩
    rw [hnil] at hvalue
    cases hvalue
  · rw [field, List.take_left' (length_leBytes _ _), leNat_leBytes_mod, hlen]
    rfl
  · have hfit := prefixTrue_iff.1 h.entry
    omega

end Db
