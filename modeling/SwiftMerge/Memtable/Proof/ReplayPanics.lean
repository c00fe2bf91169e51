import SwiftMerge.Lsm.Proof.TableProof
import SwiftMerge.Memtable.Proof.Replay

/-!
# The logs on which the replay panics

Every slice of `deserialize` is guarded, so decoding an entry panics only on a metadata key that is
not UTF-8 (`deserialize_panics_iff`). The replay has no check in front of the length prefix of a key,
and panics on one to three bytes behind a record (`rebuildMemtable_panics_iff`). On every other log
it returns
a map or an error of the log (`replay_returns_iff`).
-/

namespace Mem

open Lib Lsm

/-- The call panics. -/
def Panics {ε α : Type} (x : Except (Failure ε) α) : Prop := ∃ msg, x = .error (.panic msg)

section
variable {ε α β : Type}

theorem not_panics_ok (a : α) : ¬Panics (.ok a : Except (Failure ε) α) := nofun

theorem not_panics_err (e : ε) : ¬Panics (.error (.err e) : Except (Failure ε) α) := nofun

theorem panics_map {x : Except (Failure ε) α} (f : α → β) : Panics (x.map f) ↔ Panics x := by
  cases x with
  | ok a => exact iff_of_false (not_panics_ok _) (not_panics_ok _)
  | error e =>
    constructor
    · rintro ⟨msg, h⟩
      cases h
      exact ⟨msg, rfl⟩
    · rintro ⟨msg, h⟩
      cases h
      exact ⟨msg, rfl⟩

end

namespace TableEntry

/-! ## Decoding an item -/

/-- An item stands where its decoding does not run into a bounds check. -/
theorem deserializeItem_shape {bs : Bytes} {idx : Nat}
    (h : ∀ e, deserializeItem bs idx ≠ .error (.err e)) :
    ∃ item : RawItem, item.Fits ∧ bs.drop idx = item.encode ++ bs.drop (idx + item.encode.length) := by
  unfold deserializeItem at h
  by_cases c1 : idx + 4 ≤ bs.length
  swap
  · rw [ensure_neg c1] at h
    exact absurd rfl (h _)
  rw [ensure_pos c1, ok_bind, slice_of_le (Nat.le_add_right _ _) c1, ok_bind,
    Nat.add_sub_cancel_left] at h
  dsimp only at h
  by_cases c2 : idx + 4 + leNat ((bs.drop idx).take 4) ≤ bs.length
  swap
  · rw [ensure_neg c2] at h
    exact absurd rfl (h _)
  obtain ⟨key, hkn, hk, hkey⟩ := exists_field c1 c2
  rw [← hkn] at c2 h
  rw [ensure_pos c2, ok_bind, slice_of_le (Nat.le_add_right _ _) c2, ok_bind] at h
  by_cases c3 : idx + 4 + key.length + 4 ≤ bs.length
  swap
  · rw [ensure_neg c3] at h
    exact absurd rfl (h _)
  rw [ensure_pos c3, ok_bind, slice_of_le (Nat.le_add_right _ _) c3, ok_bind,
    Nat.add_sub_cancel_left] at h
  by_cases c4 : idx + 4 + key.length + 4 + leNat ((bs.drop (idx + 4 + key.length)).take 4) ≤ bs.length
  swap
  · rw [ensure_neg c4] at h
    exact absurd rfl (h _)
  obtain ⟨raw, hrn, hr, hraw⟩ := exists_field c3 c4
  rw [← hrn] at c4 h
  rw [ensure_pos c4, ok_bind, slice_of_le (Nat.le_add_right _ _) c4, ok_bind] at h
  by_cases c5 : idx + 4 + key.length + 4 + raw.length + 1 ≤ bs.length
  swap
  · rw [ensure_neg c5] at h
    exact absurd rfl (h _)
  refine ⟨⟨key, raw, bs[idx + 4 + key.length + 4 + raw.length]⟩, ⟨hk, hr⟩, ?_⟩
  rw [hkey, hraw, List.drop_eq_getElem_cons (by omega)]
  simp +arith [RawItem.encode]

theorem deserializeItem_at {bs rest : Bytes} {idx : Nat} {item : RawItem} (h : item.Fits)
    (hidx : idx ≤ bs.length) (hb : bs.drop idx = item.encode ++ rest) :
    deserializeItem bs idx = match fromUtf8 item.key with
      | some s => .ok ((s, ⟨item.raw, .toEnumVarient [item.trueType]⟩), idx + item.encode.length)
      | none => .error (.panic "called `Result::unwrap()` on an `Err` value: FromUtf8Error") := by
  have hturn := deserializeItem_encode h (bs.take idx) rest
  rwa [← hb, List.take_append_drop, List.length_take, Nat.min_eq_left hidx] at hturn

/-! ## Decoding a metadata map -/

/-- The items of a metadata map that decode. -/
def ItemsDecode (items : List RawItem) : Prop :=
  ∀ item ∈ items, item.Fits ∧ ∃ s, fromUtf8 item.key = some s

/-- Behind items that decode stands one whose key is not UTF-8. -/
def BadItem (bs : Bytes) : Prop :=
  ∃ items bad rest, bs = items.flatMap RawItem.encode ++ (RawItem.encode bad ++ rest) ∧
    ItemsDecode items ∧ bad.Fits ∧ fromUtf8 bad.key = none

theorem badItem_cons {item : RawItem} {rest : Bytes} {s : String} (hf : item.Fits)
    (hs : fromUtf8 item.key = some s) (h : BadItem rest) : BadItem (item.encode ++ rest) := by
  obtain ⟨items, bad, rest', rfl, hitems, hbad⟩ := h
  refine ⟨item :: items, bad, rest', by rw [List.flatMap_cons, List.append_assoc], fun x hx => ?_,
    hbad⟩
  cases hx with
  | head => exact ⟨hf, s, hs⟩
  | tail _ hx => exact hitems x hx

theorem badItem_of_panics {bs : Bytes} {idx : Nat} {m : MetaData}
    (h : Panics (deserializeItems bs idx m)) : BadItem (bs.drop idx) := by
  obtain ⟨msg, h⟩ := h
  fun_induction deserializeItems bs idx m with
  | case1 => cases h
  | case2 idx m hidx item idx' hitem ih =>
    have hshape : ∀ e, deserializeItem bs idx ≠ .error (.err e) := by
      rw [hitem]
      nofun
    obtain ⟨i, hf, hb⟩ := deserializeItem_shape hshape
    have hturn := deserializeItem_at hf (by omega) hb
    rw [hitem] at hturn
    split at hturn
    · rename_i s hs
      rw [Except.ok.injEq, Prod.mk.injEq] at hturn
      rw [hb, ← hturn.2]
      exact badItem_cons hf hs (ih h)
    · cases hturn
  | case3 idx m hidx e hitem =>
    obtain rfl := Except.error.inj h
    have hshape : ∀ e, deserializeItem bs idx ≠ .error (.err e) := by
      rw [hitem]
      nofun
    obtain ⟨i, hf, hb⟩ := deserializeItem_shape hshape
    have hturn := deserializeItem_at hf (by omega) hb
    rw [hitem] at hturn
    split at hturn
    · cases hturn
    · rename_i hnone
      exact ⟨[], i, _, hb, fun _ h => absurd h List.not_mem_nil, hf, hnone⟩

theorem deserializeItems_panics {bad : RawItem} (hbad : bad.Fits)
    (hnone : fromUtf8 bad.key = none) (rest : Bytes) : ∀ {items : List RawItem}, ItemsDecode items →
      ∀ (pre : Bytes) (m : MetaData),
        Panics (deserializeItems (pre ++ (items.flatMap RawItem.encode ++ (bad.encode ++ rest)))
          pre.length m)
  | [], _, pre, m => by
    have hturn := deserializeItem_encode hbad pre rest
    rw [hnone] at hturn
    have hpos := RawItem.length_encode bad
    rw [List.flatMap_nil, List.nil_append, deserializeItems_turn (by
      rw [List.length_append, List.length_append]
      omega), hturn]
    exact ⟨_, rfl⟩
  | item :: items, h, pre, m => by
    obtain ⟨hf, s, hs⟩ := h item (.head _)
    have hturn := deserializeItem_encode hf pre (items.flatMap RawItem.encode ++ (bad.encode ++ rest))
    rw [hs] at hturn
    have htail : ItemsDecode items := fun x hx => h x (.tail _ hx)
    have ih := deserializeItems_panics hbad hnone rest htail
      (pre ++ item.encode) (m.insert s ⟨item.raw, .toEnumVarient [item.trueType]⟩)
    have hpos := RawItem.length_encode item
    rw [List.length_append, List.append_assoc] at ih
    rw [List.flatMap_cons, List.append_assoc, deserializeItems_turn (by
      rw [List.length_append, List.length_append]
      omega), hturn]
    exact ih

/-! ## Decoding an entry -/

/-- The bytes of a value with a metadata map that has an item whose key is not UTF-8. -/
def BadEntry (contents : Bytes) : Prop :=
  ∃ value flag items, contents = field value ++ flag :: items ∧ value.length < 2 ^ 32 ∧
    flag ≠ metaDataMapDoesntExist ∧ BadItem items

theorem BadEntry.length {contents : Bytes} (h : BadEntry contents) : 5 ≤ contents.length := by
  obtain ⟨value, flag, items, rfl, -⟩ := h
  rw [List.length_append, length_field, List.length_cons]
  omega

/-- A value and a flag stand where the decoding does not run into a bounds check before them. -/
theorem deserialize_shape {contents : Bytes} (h : ∀ e, deserialize contents ≠ .error (.err e)) :
    ∃ value flag rest, contents = field value ++ flag :: rest ∧ value.length < 2 ^ 32 := by
  unfold deserialize at h
  by_cases c1 : 4 < contents.length
  swap
  · rw [ensure_neg c1] at h
    exact absurd rfl (h _)
  rw [ensure_pos c1, ok_bind, slice_of_le (Nat.zero_le _) (by omega), ok_bind, Nat.sub_zero] at h
  dsimp only at h
  by_cases c2 : 4 + leNat ((contents.drop 0).take 4) ≤ contents.length
  swap
  · rw [ensure_neg c2] at h
    exact absurd rfl (h _)
  have c1' : 0 + 4 ≤ contents.length := by omega
  obtain ⟨value, hvn, hv, hvalue⟩ := exists_field c1' (by omega)
  rw [← hvn] at c2 h
  rw [ensure_pos c2, ok_bind, slice_of_le (Nat.le_add_right _ _) c2, ok_bind] at h
  by_cases c3 : 4 + value.length + 1 ≤ contents.length
  swap
  · rw [ensure_neg c3] at h
    exact absurd rfl (h _)
  refine ⟨value, contents[4 + value.length], contents.drop (4 + value.length + 1), ?_, hv⟩
  rw [List.drop_zero, Nat.zero_add] at hvalue
  rw [← List.drop_eq_getElem_cons]
  exact hvalue

/-- **Decoding an entry** panics on a metadata key that is not UTF-8, and on nothing else. -/
theorem deserialize_panics_iff {contents : Bytes} :
    Panics (deserialize contents) ↔ BadEntry contents := by
  constructor
  · intro h
    obtain ⟨value, flag, rest, rfl, hv⟩ := deserialize_shape fun e he =>
      not_panics_err e (he ▸ h)
    rw [deserialize_field hv] at h
    by_cases hflag : flag = metaDataMapDoesntExist
    · rw [if_pos hflag] at h
      exact absurd h (not_panics_ok _)
    · rw [if_neg hflag, panics_map] at h
      have hbad := badItem_of_panics h
      rw [List.drop_left] at hbad
      exact ⟨value, flag, rest, rfl, hv, hflag, hbad⟩
  · rintro ⟨value, flag, _, rfl, hv, hflag, items, bad, rest, rfl, hitems, hbad, hnone⟩
    rw [deserialize_field hv, if_neg hflag, panics_map]
    exact deserializeItems_panics hbad hnone rest hitems _ ∅

end TableEntry

/-! ## The turns of the replay -/

/-- A record that the replay takes in: a key that is not empty, with a tombstone or an entry. -/
structure Replayed (r : Record) : Prop where
  key_ne : r.1 ≠ []
  fits : Fits r
  value : r.2 = [tombStoneByteRepresentation] ∨ ∃ e, TableEntry.deserialize r.2 = .ok e

theorem liftDecoding_panics {α : Type} {x : Except (Failure DecodingError) α} :
    Panics (liftDecoding x) ↔ Panics x := by
  cases x with
  | ok a => exact iff_of_false (not_panics_ok _) (not_panics_ok _)
  | error e =>
    cases e with
    | err e => exact iff_of_false (not_panics_err _) (not_panics_err _)
    | panic msg => exact iff_of_true ⟨msg, rfl⟩ ⟨msg, rfl⟩

/-- A record stands where the turn does not run into a check, unless the end of the log is near. -/
theorem readWalEntry_shape {wal : Bytes} {idx : Nat}
    (h : ∀ e, readWalEntry wal idx ≠ .error (.err e)) : wal.length < idx + 4 ∨
    ∃ r : Record, r.1 ≠ [] ∧ Fits r ∧ r.2 ++ wal.drop (idx + (encodeRecord r).length) ≠ [] ∧
      wal.drop idx = encodeRecord r ++ wal.drop (idx + (encodeRecord r).length) := by
  by_cases c1 : idx + 4 ≤ wal.length
  swap
  · exact .inl (by omega)
  right
  unfold readWalEntry at h
  dsimp only at h
  rw [slice_of_le (Nat.le_add_right _ _) c1, ok_bind, Nat.add_sub_cancel_left] at h
  by_cases c2 : leNat ((wal.drop idx).take 4) ≠ 0
  swap
  · rw [ensure_neg c2] at h
    exact absurd rfl (h _)
  rw [ensure_pos c2, ok_bind] at h
  by_cases c3 : idx + 4 + leNat ((wal.drop idx).take 4) < wal.length
  swap
  · rw [ensure_neg c3] at h
    exact absurd rfl (h _)
  obtain ⟨key, hkn, hk, hkey⟩ := exists_field c1 (Nat.le_of_lt c3)
  rw [← hkn] at c2 c3 h
  rw [ensure_pos c3, ok_bind, slice_of_le (Nat.le_add_right _ _) (Nat.le_of_lt c3), ok_bind] at h
  by_cases c4 : idx + 4 + key.length + 4 < wal.length
  swap
  · rw [ensure_neg c4] at h
    exact absurd rfl (h _)
  rw [ensure_pos c4, ok_bind, slice_of_le (Nat.le_add_right _ _) (Nat.le_of_lt c4), ok_bind,
    Nat.add_sub_cancel_left] at h
  by_cases c5 : idx + 4 + key.length + 4 + leNat ((wal.drop (idx + 4 + key.length)).take 4) ≤
      wal.length
  swap
  · rw [ensure_neg c5] at h
    exact absurd rfl (h _)
  obtain ⟨contents, hvn, hv, hcontents⟩ := exists_field (Nat.le_of_lt c4) c5
  rw [← hvn] at c5
  have hidx : idx + 4 + key.length + 4 + contents.length =
      idx + (encodeRecord (key, contents)).length := by
    rw [length_encodeRecord]
    dsimp only
    omega
  refine ⟨(key, contents), fun hn => c2 (List.length_eq_zero_iff.2 hn), ⟨hk, hv⟩, fun hnil => ?_, ?_⟩
  · -- the value prefix is not the end of the log
    obtain ⟨hc, hd⟩ := List.append_eq_nil_iff.1 hnil
    rw [← hidx, List.drop_eq_nil_iff] at hd
    rw [show contents = [] from hc, List.length_nil] at hd
    omega
  · rw [← hidx, hkey, hcontents, encodeRecord, List.append_assoc]

/-- The turn on the bytes of a record, behind `idx` bytes. -/
theorem readWalEntry_at {wal rest : Bytes} {idx : Nat} {r : Record} (hne : r.1 ≠ []) (h : Fits r)
    (hidx : idx ≤ wal.length) (hw : wal.drop idx = encodeRecord r ++ rest) (hrest : r.2 ++ rest ≠ []) :
    readWalEntry wal idx =
      if r.2 = [tombStoneByteRepresentation] then
        .ok ((r.1, none), idx + (encodeRecord r).length)
      else (liftDecoding (TableEntry.deserialize r.2)).map fun x =>
        ((r.1, some x), idx + (encodeRecord r).length) := by
  have hturn := readWalEntry_fields hne h.1 h.2 (wal.take idx) hrest
  rw [← List.append_assoc (field r.1)] at hturn
  change readWalEntry (wal.take idx ++ (encodeRecord r ++ rest)) _ = _ at hturn
  rw [length_encodeRecord]
  rwa [← hw, List.take_append_drop, List.length_take, Nat.min_eq_left hidx] at hturn

/-- The logs on which the replay panics: behind records that it takes in stand one to three bytes, or
a record with a metadata key that is not UTF-8. -/
inductive ReplayPanics : Bytes → Prop
  | cutPrefix {rs : List Record} {rest : Bytes} : (∀ r ∈ rs, Replayed r) → 0 < rest.length →
    rest.length < 4 → ReplayPanics (encodeSection rs ++ rest)
  | badEntry {rs : List Record} {r : Record} {rest : Bytes} : (∀ r ∈ rs, Replayed r) → r.1 ≠ [] →
    Fits r → TableEntry.BadEntry r.2 → ReplayPanics (encodeSection rs ++ (encodeRecord r ++ rest))

theorem ReplayPanics.cons {r : Record} {wal : Bytes} (hr : Replayed r) (h : ReplayPanics wal) :
    ReplayPanics (encodeRecord r ++ wal) := by
  have hall : ∀ {rs : List Record}, (∀ r ∈ rs, Replayed r) → ∀ x ∈ r :: rs, Replayed x := by
    intro rs hrs x hx
    cases hx with
    | head => exact hr
    | tail _ hx => exact hrs x hx
  cases h with
  | cutPrefix hrs hpos hlt =>
    rw [← List.append_assoc, ← encodeSection_cons]
    exact .cutPrefix (hall hrs) hpos hlt
  | badEntry hrs hne hf hbad =>
    rw [← List.append_assoc, ← encodeSection_cons]
    exact .badEntry (hall hrs) hne hf hbad

/-! ## The replay -/

theorem replayPanics_of_loop {wal : Bytes} {idx : Nat} {repr : InMemoryRepr}
    (hidx : idx ≤ wal.length) (h : Panics (rebuildLoop wal idx repr)) :
    ReplayPanics (wal.drop idx) := by
  obtain ⟨msg, h⟩ := h
  fun_induction rebuildLoop wal idx repr with
  | case1 => cases h
  | case2 idx repr hlt e idx' hturn ih =>
    have hshape : ∀ e, readWalEntry wal idx ≠ .error (.err e) := by
      rw [hturn]
      nofun
    rcases readWalEntry_shape hshape with hshort | ⟨r, hne, hf, hrest, hw⟩
    · unfold readWalEntry at hturn
      rw [slice_panic (by omega)] at hturn
      cases hturn
    · have hlen := congrArg List.length hw
      rw [List.length_append, List.length_drop, List.length_drop] at hlen
      rw [readWalEntry_at hne hf hidx hw hrest] at hturn
      have hreplayed : Replayed r ∧ idx' = idx + (encodeRecord r).length := by
        split at hturn
        · rename_i htomb
          exact ⟨⟨hne, hf, .inl htomb⟩, (congrArg Prod.snd (Except.ok.inj hturn)).symm⟩
        · cases hd : TableEntry.deserialize r.2 with
          | ok x =>
            rw [hd] at hturn
            exact ⟨⟨hne, hf, .inr ⟨x, hd⟩⟩, (congrArg Prod.snd (Except.ok.inj hturn)).symm⟩
          | error d =>
            rw [hd] at hturn
            cases d <;> cases hturn
      obtain ⟨hr, rfl⟩ := hreplayed
      rw [hw]
      exact .cons hr (ih (by omega) h)
  | case3 idx repr hlt e hturn =>
    obtain rfl := Except.error.inj h
    have hdrop : (wal.drop idx).length = wal.length - idx := List.length_drop
    have hnil : ∀ r ∈ ([] : List Record), Replayed r := fun _ h => absurd h List.not_mem_nil
    have hshape : ∀ e, readWalEntry wal idx ≠ .error (.err e) := by
      rw [hturn]
      nofun
    rcases readWalEntry_shape hshape with hshort | ⟨r, hne, hf, hrest, hw⟩
    · exact .cutPrefix hnil (by omega) (by omega)
    · have hpanic : Panics (readWalEntry wal idx) := ⟨msg, hturn⟩
      rw [readWalEntry_at hne hf hidx hw hrest] at hpanic
      split at hpanic
      · exact absurd hpanic (not_panics_ok _)
      · rw [panics_map, liftDecoding_panics, TableEntry.deserialize_panics_iff] at hpanic
        rw [hw]
        exact .badEntry hnil hne hf hpanic

theorem Replayed.turn {r : Record} (h : Replayed r) (pre rest : Bytes) :
    ∃ slot, readWalEntry (pre ++ (encodeRecord r ++ rest)) pre.length =
      .ok ((r.1, slot), pre.length + (encodeRecord r).length) := by
  have hvalue : r.2 ++ rest ≠ [] := by
    intro hnil
    rcases h.value with ht | ⟨e, he⟩
    · rw [ht] at hnil
      cases hnil
    · rw [(List.append_eq_nil_iff.1 hnil).1] at he
      cases he
  have hturn := readWalEntry_fields h.key_ne h.fits.1 h.fits.2 pre hvalue
  rw [← List.append_assoc (field r.1)] at hturn
  change readWalEntry (pre ++ (encodeRecord r ++ rest)) _ = _ at hturn
  rw [hturn, length_encodeRecord]
  rcases h.value with ht | ⟨e, he⟩
  · exact ⟨none, if_pos ht⟩
  · by_cases ht : r.2 = [tombStoneByteRepresentation]
    · exact ⟨none, if_pos ht⟩
    · rw [if_neg ht, he]
      exact ⟨some e, rfl⟩

/-- The loop goes through records that are taken in. -/
theorem rebuildLoop_replayed {rest : Bytes} (hrest : ∀ pre repr,
      Panics (rebuildLoop (pre ++ rest) pre.length repr)) :
    ∀ {rs : List Record}, (∀ r ∈ rs, Replayed r) → ∀ (pre : Bytes) (repr : InMemoryRepr),
      Panics (rebuildLoop (pre ++ (encodeSection rs ++ rest)) pre.length repr)
  | [], _, pre, repr => hrest pre repr
  | r :: rs, h, pre, repr => by
    obtain ⟨slot, hturn⟩ := (h r (.head _)).turn pre (encodeSection rs ++ rest)
    have htail : ∀ r ∈ rs, Replayed r := fun x hx => h x (.tail _ hx)
    have ih := rebuildLoop_replayed hrest htail (pre ++ encodeRecord r) (repr.insert r.1 slot)
    rw [List.length_append, List.append_assoc] at ih
    rw [encodeSection_cons, List.append_assoc, rebuildLoop_turn (by
      rw [List.length_append, List.length_append, length_encodeRecord]
      omega), hturn, ok_bind]
    exact ih

theorem rebuildLoop_panics {wal : Bytes} {idx : Nat} (hidx : idx < wal.length)
    (h : Panics (readWalEntry wal idx)) (repr : InMemoryRepr) :
    Panics (rebuildLoop wal idx repr) := by
  obtain ⟨msg, h⟩ := h
  rw [rebuildLoop_turn hidx, h]
  exact ⟨msg, rfl⟩

theorem ReplayPanics.loop {wal : Bytes} (h : ReplayPanics wal) (repr : InMemoryRepr) :
    Panics (rebuildLoop wal 0 repr) := by
  cases h with
  | @cutPrefix rs rest hrs hpos hlt =>
    refine rebuildLoop_replayed (fun pre repr => ?_) hrs [] repr
    have hlen : (pre ++ rest).length = pre.length + rest.length := List.length_append
    refine rebuildLoop_panics (by omega) ⟨"range end index out of range for slice", ?_⟩ repr
    unfold readWalEntry
    rw [slice_panic (by omega)]
    rfl
  | @badEntry rs r rest hrs hne hf hbad =>
    refine rebuildLoop_replayed (fun pre repr => ?_) hrs [] repr
    have hlen : (pre ++ (encodeRecord r ++ rest)).length =
        pre.length + ((encodeRecord r).length + rest.length) := by
      rw [List.length_append, List.length_append]
    have hpos := length_encodeRecord r
    have hlong := hbad.length
    have hrest : r.2 ++ rest ≠ [] := fun hnil => by
      rw [(List.append_eq_nil_iff.1 hnil).1] at hlong
      cases hlong
    refine rebuildLoop_panics (by omega) ?_ repr
    have hturn := readWalEntry_fields hne hf.1 hf.2 pre hrest
    rw [← List.append_assoc (field r.1)] at hturn
    change readWalEntry (pre ++ (encodeRecord r ++ rest)) _ = _ at hturn
    rw [hturn, if_neg, panics_map, liftDecoding_panics, TableEntry.deserialize_panics_iff]
    · exact hbad
    · intro ht
      rw [ht] at hlong
      exact absurd hlong (by decide)

/-- **The replay panics** exactly on these logs of four bytes and more. -/
theorem rebuildMemtable_panics_iff (wal : Bytes) (repr : InMemoryRepr) (size : Nat) :
    Panics (rebuildMemtable wal repr size) ↔ 4 ≤ wal.length ∧ ReplayPanics wal := by
  unfold rebuildMemtable
  by_cases h0 : wal.length = 0
  · rw [if_pos h0]
    exact iff_of_false (not_panics_ok _) fun h => by omega
  rw [if_neg h0]
  by_cases h4 : wal.length < 4
  · rw [if_pos h4]
    exact iff_of_false (not_panics_err _) fun h => by omega
  rw [if_neg h4]
  have hmap : (do
      let repr ← rebuildLoop wal 0 repr
      pure (repr, wal.length % 2 ^ 32)) =
        (rebuildLoop wal 0 repr).map fun repr => (repr, wal.length % 2 ^ 32) := by
    cases rebuildLoop wal 0 repr <;> rfl
  rw [hmap, panics_map]
  constructor
  · intro h
    exact ⟨by omega, replayPanics_of_loop (Nat.zero_le _) h⟩
  · rintro ⟨-, h⟩
    exact h.loop repr

/-! ## The errors of the replay -/

/-- An error that is no panic is one of the log. -/
def LogError (e : Failure MemtableError) : Prop := ∀ err, e = .err err → ∃ w, err = .writeAheadLog w

theorem logError_slice {bs : Bytes} {i j : Nat} {e : Failure MemtableError}
    (h : slice bs i j = .error e) : LogError e := by
  unfold slice at h
  split at h
  · cases h
  · cases h
    nofun

theorem logError_ensure {c : Prop} [Decidable c] {msg : String} {e : Failure MemtableError}
    (h : ensure c (tooSmallParsingErr msg) = .error e) : LogError e := by
  unfold ensure at h
  split at h
  · cases h
  · cases h
    intro err he
    cases he
    exact ⟨_, rfl⟩

theorem logError_liftDecoding {α : Type} {x : Except (Failure DecodingError) α}
    {e : Failure MemtableError} (h : liftDecoding x = .error e) : LogError e := by
  cases x with
  | ok a => cases h
  | error d =>
    cases d with
    | panic msg =>
      cases h
      nofun
    | err d =>
      cases h
      intro err he
      cases he
      cases d <;> exact ⟨_, rfl⟩

theorem logError_readWalEntry {wal : Bytes} {idx : Nat} {e : Failure MemtableError}
    (h : readWalEntry wal idx = .error e) : LogError e := by
  unfold readWalEntry at h
  dsimp only at h
  rcases bind_error h with h | ⟨_, -, h⟩
  · exact logError_slice h
  rcases bind_error h with h | ⟨_, -, h⟩
  · exact logError_ensure h
  rcases bind_error h with h | ⟨_, -, h⟩
  · exact logError_ensure h
  rcases bind_error h with h | ⟨_, -, h⟩
  · exact logError_slice h
  rcases bind_error h with h | ⟨_, -, h⟩
  · exact logError_ensure h
  rcases bind_error h with h | ⟨_, -, h⟩
  · exact logError_slice h
  rcases bind_error h with h | ⟨_, -, h⟩
  · exact logError_ensure h
  rcases bind_error h with h | ⟨_, -, h⟩
  · exact logError_slice h
  split at h
  · cases h
  · rcases bind_error h with h | ⟨_, -, h⟩
    · exact logError_liftDecoding h
    · cases h

theorem logError_rebuildLoop {wal : Bytes} {idx : Nat} {repr : InMemoryRepr}
    {e : Failure MemtableError} (h : rebuildLoop wal idx repr = .error e) : LogError e := by
  fun_induction rebuildLoop wal idx repr with
  | case1 => cases h
  | case2 idx repr hlt entry idx' hturn ih => exact ih h
  | case3 idx repr hlt e' hturn =>
    obtain rfl := Except.error.inj h
    exact logError_readWalEntry hturn

theorem logError_rebuildMemtable {wal : Bytes} {repr : InMemoryRepr} {size : Nat}
    {e : Failure MemtableError} (h : rebuildMemtable wal repr size = .error e) : LogError e := by
  unfold rebuildMemtable at h
  split at h
  · cases h
  · split at h
    · cases h
      intro err he
      cases he
      exact ⟨_, rfl⟩
    · rcases bind_error h with h | ⟨_, -, h⟩
      · exact logError_rebuildLoop h
      · cases h

/-- **The replay returns** a map or an error of the log, except on the logs of four bytes and more
that leave it one to three bytes, or a metadata key that is not UTF-8, behind records it takes in. -/
theorem replay_returns_iff (wal : Bytes) (repr : InMemoryRepr) (size : Nat) :
    ((∃ r, rebuildMemtable wal repr size = .ok r) ∨
        ∃ e, rebuildMemtable wal repr size = .error (.err (.writeAheadLog e))) ↔
      ¬(4 ≤ wal.length ∧ ReplayPanics wal) := by
  rw [← rebuildMemtable_panics_iff wal repr size]
  cases hr : rebuildMemtable wal repr size with
  | ok r => exact iff_of_true (.inl ⟨r, rfl⟩) (not_panics_ok _)
  | error e =>
    cases e with
    | panic msg =>
      refine iff_of_false ?_ fun h => h ⟨msg, rfl⟩
      rintro (⟨r, h⟩ | ⟨e, h⟩)
      · cases h
      · cases h
    | err e =>
      obtain ⟨w, rfl⟩ := logError_rebuildMemtable hr e rfl
      exact iff_of_true (.inr ⟨w, rfl⟩) (not_panics_err _)

/-- **A panic on a torn log**: one byte behind a tombstone. -/
theorem torn_log_panics :
    ¬((∃ r, rebuildMemtable [1, 0, 0, 0, 107, 1, 0, 0, 0, 255, 1] ∅ 0 = .ok r) ∨
      ∃ e, rebuildMemtable [1, 0, 0, 0, 107, 1, 0, 0, 0, 255, 1] ∅ 0 =
        .error (.err (.writeAheadLog e))) := by
  have hrs : ∀ r ∈ [(([107], [255]) : Record)], Replayed r := by
    intro r hr
    rw [List.mem_singleton.1 hr]
    exact ⟨by decide, by decide, .inl rfl⟩
  have hrest : 0 < ([1] : Bytes).length ∧ ([1] : Bytes).length < 4 := by decide
  have hlog : ReplayPanics [1, 0, 0, 0, 107, 1, 0, 0, 0, 255, 1] := .cutPrefix hrs hrest.1 hrest.2
  obtain ⟨msg, hp⟩ := (rebuildMemtable_panics_iff _ ∅ 0).2 ⟨by decide, hlog⟩
  rw [hp]
  rintro (⟨r, h⟩ | ⟨e, h⟩)
  · cases h
  · cases h

end Mem
