import SwiftMerge.Memtable.Proof.ReplayPanics

/-!
# What the decoders accept

The encoders write less than the decoders take in: `deserialize` ignores what stands behind the flag
of an entry without metadata, takes every other flag for one with metadata, lets a later item of a
key win and every unknown type pass; the replay takes the values that `deserialize` takes. `Decodes`
and `Rebuilds` are these grammars, with what the bytes mean, and `deserialize_ok_iff` and
`rebuildMemtable_ok_iff` say that the decoders follow them.
-/

namespace Mem

open Lib Lsm

namespace TableEntry

/-! ## Entries -/

/-- The items of a metadata map, read into `m`. -/
inductive DecodesItems : Bytes → MetaData → MetaData → Prop
  | done {m : MetaData} : DecodesItems [] m m
  | item {item : RawItem} {s : String} {rest : Bytes} {m m' : MetaData} : item.Fits →
    fromUtf8 item.key = some s →
    DecodesItems rest (m.insert s ⟨item.raw, .toEnumVarient [item.trueType]⟩) m' →
    DecodesItems (item.encode ++ rest) m m'

/-- The contents of a record that are an entry. -/
inductive Decodes : Bytes → TableEntry → Prop
  | plain {value rest : Bytes} : value.length < 2 ^ 32 →
    Decodes (field value ++ metaDataMapDoesntExist :: rest) ⟨value, none⟩
  | withMetaData {value items : Bytes} {flag : UInt8} {md : MetaData} : value.length < 2 ^ 32 →
    flag ≠ metaDataMapDoesntExist → DecodesItems items ∅ md →
    Decodes (field value ++ flag :: items) ⟨value, some md⟩

theorem decodesItems_of_ok {bs : Bytes} {idx : Nat} {m m' : MetaData} (hidx : idx ≤ bs.length)
    (h : deserializeItems bs idx m = .ok m') : DecodesItems (bs.drop idx) m m' := by
  fun_induction deserializeItems bs idx m with
  | case1 idx m hend =>
    obtain rfl := Except.ok.inj h
    rw [List.drop_eq_nil_of_le hend]
    exact .done
  | case2 idx m hlt item idx' hitem ih =>
    have hshape : ∀ e, deserializeItem bs idx ≠ .error (.err e) := by
      rw [hitem]
      intro e he
      cases he
    obtain ⟨i, hf, hb⟩ := deserializeItem_shape hshape
    have hlen := congrArg List.length hb
    rw [List.length_append, List.length_drop, List.length_drop] at hlen
    have hturn := deserializeItem_at hf hidx hb
    rw [hitem] at hturn
    split at hturn
    · rename_i s hs
      obtain ⟨rfl, rfl⟩ := Prod.mk.inj (Except.ok.inj hturn)
      rw [hb]
      exact .item hf hs (ih (by omega) h)
    · cases hturn
  | case3 idx m hlt e hitem => cases h

theorem DecodesItems.ok {items : Bytes} {m m' : MetaData} (h : DecodesItems items m m') :
    ∀ pre : Bytes, deserializeItems (pre ++ items) pre.length m = .ok m' := by
  induction h with
  | done => exact fun pre => deserializeItems_end (by simp) _
  | @item item s rest m m' hf hs _ ih =>
    intro pre
    have hturn := deserializeItem_encode hf pre rest
    rw [hs] at hturn
    have hpos := RawItem.length_encode item
    have hrest := ih (pre ++ item.encode)
    rw [List.length_append, List.append_assoc] at hrest
    rw [deserializeItems_turn (by
      rw [List.length_append, List.length_append]
      omega), hturn, ok_bind]
    exact hrest

theorem decodes_of_ok {contents : Bytes} {entry : TableEntry}
    (h : deserialize contents = .ok entry) : Decodes contents entry := by
  have hshape : ∀ e, deserialize contents ≠ .error (.err e) := by
    rw [h]
    intro e he
    cases he
  obtain ⟨value, flag, rest, rfl, hv⟩ := deserialize_shape hshape
  rw [deserialize_field hv] at h
  by_cases hflag : flag = metaDataMapDoesntExist
  · rw [if_pos hflag] at h
    obtain rfl := Except.ok.inj h
    rw [hflag]
    exact .plain hv
  · rw [if_neg hflag] at h
    obtain ⟨md, hmd, rfl⟩ := map_ok h
    have hitems := decodesItems_of_ok (by simp) hmd
    rw [List.drop_left] at hitems
    exact .withMetaData hv hflag hitems

theorem Decodes.ok {contents : Bytes} {entry : TableEntry} (h : Decodes contents entry) :
    deserialize contents = .ok entry := by
  cases h with
  | plain hv => exact (deserialize_field hv _ _).trans (if_pos rfl)
  | withMetaData hv hflag hitems =>
    rw [deserialize_field hv, if_neg hflag, hitems.ok]
    rfl

/-- **What `deserialize` accepts**: a value and a flag, and behind any flag but 0 items of metadata
up to the end. -/
theorem deserialize_ok_iff (contents : Bytes) (entry : TableEntry) :
    deserialize contents = .ok entry ↔ Decodes contents entry :=
  ⟨decodes_of_ok, Decodes.ok⟩

theorem Decodes.length {contents : Bytes} {entry : TableEntry} (h : Decodes contents entry) :
    5 ≤ contents.length := by
  cases h with
  | plain | withMetaData =>
    rw [List.length_append, length_field, List.length_cons]
    omega

end TableEntry

/-! ## Logs -/

/-- The records of a log, read into `repr`. -/
inductive Rebuilds : Bytes → InMemoryRepr → InMemoryRepr → Prop
  | done {repr : InMemoryRepr} : Rebuilds [] repr repr
  | tombstone {key rest : Bytes} {repr repr' : InMemoryRepr} : key ≠ [] → key.length < 2 ^ 32 →
    Rebuilds rest (repr.insert key none) repr' →
    Rebuilds (encodeRecord (key, [tombStoneByteRepresentation]) ++ rest) repr repr'
  | entry {key contents rest : Bytes} {entry : TableEntry} {repr repr' : InMemoryRepr} : key ≠ [] →
    Fits (key, contents) → TableEntry.Decodes contents entry →
    Rebuilds rest (repr.insert key (some entry)) repr' →
    Rebuilds (encodeRecord (key, contents) ++ rest) repr repr'

theorem rebuilds_of_ok {wal : Bytes} {idx : Nat} {repr repr' : InMemoryRepr} (hidx : idx ≤ wal.length)
    (h : rebuildLoop wal idx repr = .ok repr') : Rebuilds (wal.drop idx) repr repr' := by
  fun_induction rebuildLoop wal idx repr with
  | case1 idx repr hend =>
    obtain rfl := Except.ok.inj h
    rw [List.drop_eq_nil_of_le hend]
    exact .done
  | case2 idx repr hlt e idx' hturn ih =>
    have hshape : ∀ e, readWalEntry wal idx ≠ .error (.err e) := by
      rw [hturn]
      intro e he
      cases he
    rcases readWalEntry_shape hshape with hshort | ⟨⟨key, contents⟩, hne, hf, hrest, hw⟩
    · -- the prefix of the key is not checked
      unfold readWalEntry at hturn
      rw [slice_panic (by omega)] at hturn
      cases hturn
    · have hlen := congrArg List.length hw
      rw [List.length_append, List.length_drop, List.length_drop] at hlen
      rw [readWalEntry_at hne hf hidx hw hrest] at hturn
      rw [hw]
      split at hturn
      · rename_i htomb
        obtain ⟨rfl, rfl⟩ := Prod.mk.inj (Except.ok.inj hturn)
        obtain rfl : contents = [tombStoneByteRepresentation] := htomb
        exact .tombstone hne hf.1 (ih (by omega) h)
      · obtain ⟨x, hx, he⟩ := map_ok hturn
        obtain ⟨rfl, rfl⟩ := Prod.mk.inj he
        cases hd : TableEntry.deserialize contents with
        | ok entry =>
          rw [hd] at hx
          obtain rfl := Except.ok.inj hx
          exact .entry hne hf (TableEntry.decodes_of_ok hd) (ih (by omega) h)
        | error e =>
          rw [hd] at hx
          cases e <;> cases hx
  | case3 idx repr hlt e hturn => cases h

theorem rebuildLoop_record {key contents rest pre : Bytes} {slot : Option TableEntry}
    {repr repr' : InMemoryRepr}
    (hturn : readWalEntry (pre ++ (encodeRecord (key, contents) ++ rest)) pre.length =
      .ok ((key, slot), pre.length + (encodeRecord (key, contents)).length))
    (hrest : rebuildLoop ((pre ++ encodeRecord (key, contents)) ++ rest)
      (pre ++ encodeRecord (key, contents)).length (repr.insert key slot) = .ok repr') :
    rebuildLoop (pre ++ (encodeRecord (key, contents) ++ rest)) pre.length repr = .ok repr' := by
  rw [List.length_append, List.append_assoc] at hrest
  rw [rebuildLoop_turn (by
    rw [List.length_append, List.length_append, length_encodeRecord]
    omega), hturn, ok_bind]
  exact hrest

theorem Rebuilds.ok {wal : Bytes} {repr repr' : InMemoryRepr} (h : Rebuilds wal repr repr') :
    ∀ pre : Bytes, rebuildLoop (pre ++ wal) pre.length repr = .ok repr' := by
  have hat : ∀ {wal pre : Bytes}, (pre ++ wal).drop pre.length = wal := List.drop_left
  induction h with
  | done => exact fun pre => rebuildLoop_end (by simp) _
  | @tombstone key rest repr repr' hne hk _ ih =>
    intro pre
    refine rebuildLoop_record ?_ (ih _)
    have hfits : Fits (key, [tombStoneByteRepresentation]) := ⟨hk, by simp⟩
    rw [readWalEntry_at hne hfits (by simp) hat (by simp), if_pos rfl]
  | @entry key contents rest e repr repr' hne hf hd _ ih =>
    intro pre
    refine rebuildLoop_record ?_ (ih _)
    have hlong := hd.length
    have hrest : contents ++ rest ≠ [] := fun hnil => by
      rw [(List.append_eq_nil_iff.1 hnil).1] at hlong
      cases hlong
    have htomb : contents ≠ [tombStoneByteRepresentation] := fun ht => by
      rw [ht] at hlong
      exact absurd hlong (by decide)
    rw [readWalEntry_at hne hf (by simp) hat hrest, if_neg htomb, hd.ok]
    rfl

theorem Rebuilds.length {wal : Bytes} {repr repr' : InMemoryRepr} (h : Rebuilds wal repr repr')
    (hne : wal ≠ []) : 4 ≤ wal.length := by
  cases h with
  | done => exact absurd rfl hne
  | tombstone | entry =>
    rw [List.length_append, length_encodeRecord]
    omega

/-- The size counter after a replay. -/
def replayedSize (wal : Bytes) (size : Nat) : Nat :=
  if wal = [] then size else wal.length % 2 ^ 32

/-- **What the replay accepts**: records with keys that are not empty and values that are a
tombstone or an entry, each put over the earlier ones of its key. -/
theorem rebuildMemtable_ok_iff (wal : Bytes) (repr repr' : InMemoryRepr) (size size' : Nat) :
    rebuildMemtable wal repr size = .ok (repr', size') ↔
      Rebuilds wal repr repr' ∧ size' = replayedSize wal size := by
  rw [rebuildMemtable, replayedSize]
  by_cases h0 : wal = []
  · subst h0
    rw [if_pos List.length_nil, if_pos rfl]
    refine ⟨fun h => ?_, fun h => ?_⟩
    · obtain ⟨rfl, rfl⟩ := Prod.mk.inj (Except.ok.inj h)
      exact ⟨.done, rfl⟩
    · obtain ⟨h, hsize⟩ := h
      have hloop := h.ok []
      rw [rebuildLoop_end (by simp)] at hloop
      rw [Except.ok.inj hloop, hsize]
  · rw [if_neg fun h => h0 (List.length_eq_zero_iff.1 h), if_neg h0]
    refine ⟨fun h => ?_, fun h => ?_⟩
    · split at h
      · cases h
      · obtain ⟨r, hr, h⟩ := bind_ok h
        obtain ⟨rfl, rfl⟩ := Prod.mk.inj (Except.ok.inj h)
        exact ⟨rebuilds_of_ok (Nat.zero_le _) hr, rfl⟩
    · obtain ⟨h, hsize⟩ := h
      have hloop := h.ok []
      rw [List.nil_append, List.length_nil] at hloop
      rw [if_neg (Nat.not_lt_of_le (h.length h0)), hloop, hsize]
      rfl

end Mem
