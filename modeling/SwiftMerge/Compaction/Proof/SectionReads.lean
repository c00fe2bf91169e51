import SwiftMerge.Compaction.Proof.Join
import SwiftMerge.Lsm.Proof.SectionGrammar

/-!
# The sections a merge accepts

A merge that ends without an error has read both its sections to their ends (`joinTables_ok_iff`).
The reads know the size of the section and not where a record in it has to end, so they take a
record that ends in the footer for one of the section. They accept what the rebuild of a table
accepts, and go over the section's bytes only, exactly in the tables without such a record
(`rejectsMalformed_iff`).
-/

namespace Compaction

open Lib Lsm

/-! ## The reads of one side -/

/-- The reads of a section, one after another until no record is left. -/
def readSection (s : Section) : Except CompactionError (List Record × Section) :=
  match _ : readNextNonTombstoneEntry s with
  | .ok (some r, s') => (readSection s').map (Prod.map (r :: ·) id)
  | .ok (none, s') => .ok ([], s')
  | .error e => .error e
termination_by s.file.length
decreasing_by
  have hlen := readNext_length ‹_›
  simp only [Option.isSome_some, Bool.toNat_true] at hlen
  omega

section
variable {s s' : Section}

theorem readSection_some {r : Record} (h : readNextNonTombstoneEntry s = .ok (some r, s')) :
    readSection s = (readSection s').map (Prod.map (r :: ·) id) := by
  rw [readSection]
  split
  · rename_i heq
    rw [h, Except.ok.injEq, Prod.mk.injEq, Option.some.injEq] at heq
    obtain ⟨rfl, rfl⟩ := heq
    rfl
  · rename_i heq
    cases h.symm.trans heq
  · rename_i heq
    cases h.symm.trans heq

theorem readSection_none (h : readNextNonTombstoneEntry s = .ok (none, s')) :
    readSection s = .ok ([], s') := by
  rw [readSection]
  split
  · rename_i heq
    cases h.symm.trans heq
  · rename_i heq
    rw [h, Except.ok.injEq, Prod.mk.injEq] at heq
    rw [heq.2]
  · rename_i heq
    cases h.symm.trans heq

theorem readSection_error {e : CompactionError} (h : readNextNonTombstoneEntry s = .error e) :
    readSection s = .error e := by
  rw [readSection]
  split
  · rename_i heq
    cases h.symm.trans heq
  · rename_i heq
    cases h.symm.trans heq
  · rename_i heq
    exact congrArg Except.error (Except.error.inj (heq.symm.trans h))

theorem readSection_skip (h : readNextNonTombstoneEntry s = readNextNonTombstoneEntry s') :
    readSection s = readSection s' := by
  cases hs : readNextNonTombstoneEntry s with
  | error e => rw [readSection_error hs, readSection_error (h.symm.trans hs)]
  | ok x =>
    obtain ⟨head, t⟩ := x
    cases head with
    | none => rw [readSection_none hs, readSection_none (h.symm.trans hs)]
    | some r => rw [readSection_some hs, readSection_some (h.symm.trans hs)]

/-- The records read are those of the section that are no tombstones. -/
theorem readSection_eq (s : Section) : readSection s = (readEntries s).map (Prod.map live id) := by
  fun_induction readEntries s with
  | case1 s hlt r file hread ih =>
    have hnext : readNextNonTombstoneEntry s =
        if isTombstone r then readNextNonTombstoneEntry ⟨file, s.ptr + (encodeRecord r).length, s.size⟩
        else .ok (some r, ⟨file, s.ptr + (encodeRecord r).length, s.size⟩) := by
      rw [readNext_turn hlt, hread]
      rfl
    by_cases ht : isTombstone r = true
    · rw [if_pos ht] at hnext
      rw [readSection_skip hnext, ih]
      cases readEntries ⟨file, s.ptr + (encodeRecord r).length, s.size⟩ with
      | error e => rfl
      | ok x =>
        refine congrArg Except.ok (Prod.ext ?_ rfl)
        show live x.1 = live (r :: x.1)
        rw [live_cons, if_pos ht]
    · rw [if_neg ht] at hnext
      rw [readSection_some hnext, ih]
      cases readEntries ⟨file, s.ptr + (encodeRecord r).length, s.size⟩ with
      | error e => rfl
      | ok x =>
        refine congrArg Except.ok (Prod.ext ?_ rfl)
        show r :: live x.1 = live (r :: x.1)
        rw [live_cons, if_neg ht]
  | case2 s hlt e hread =>
    refine readSection_error ?_
    rw [readNext_turn hlt, hread, error_bind]
  | case3 s hge =>
    exact readSection_none (readNext_end hge)

/-- **The reads of a section** return when they find records up to its end. -/
theorem readSection_ok_iff {us : List Record} :
    readSection s = .ok (us, s') ↔ ∃ rs, Taken rs s s' ∧ us = live rs := by
  rw [readSection_eq]
  constructor
  · intro h
    obtain ⟨⟨rs, t⟩, hrs, hret⟩ := map_ok h
    obtain ⟨rfl, rfl⟩ := Prod.mk.inj hret
    exact ⟨rs, readEntries_ok_iff.1 hrs, rfl⟩
  · rintro ⟨rs, h, rfl⟩
    rw [readEntries_ok_iff.2 h]
    rfl

end

/-! ## The reads of a merge -/

/-- The reads from here on return. -/
def ReadsThrough (s : Section) : Prop := ∃ us s', readSection s = .ok (us, s')

theorem readsThrough_next {s s' : Section} {head : Option Record}
    (h : readNextNonTombstoneEntry s = .ok (head, s')) :
    ReadsThrough s ↔ (head ≠ none → ReadsThrough s') := by
  cases head with
  | none => exact iff_of_true ⟨_, _, readSection_none h⟩ fun hne => absurd rfl hne
  | some r =>
    constructor
    · rintro ⟨us, t, hus⟩ -
      rw [readSection_some h] at hus
      obtain ⟨x, hx, -⟩ := map_ok hus
      exact ⟨x.1, x.2, hx⟩
    · intro hs
      obtain ⟨us, t, hus⟩ := hs (Option.some_ne_none r)
      exact ⟨r :: us, t, by rw [readSection_some h, hus]; rfl⟩

theorem not_readsThrough {s : Section} {e : CompactionError}
    (h : readNextNonTombstoneEntry s = .error e) :
    ¬ReadsThrough s := by
  rintro ⟨us, t, hus⟩
  cases (readSection_error h).symm.trans hus

/-- The loops of a merge end without an error when the rest of each side that is not at its end can
be read. -/
theorem joinLoop_ok_iff (left : Option Record) (l : Section) (right : Option Record) (r : Section) :
    (joinLoop left l right r).2 = .ok () ↔
      (left ≠ none → ReadsThrough l) ∧ (right ≠ none → ReadsThrough r) := by
  fun_induction joinLoop left l right r with
  | case1 l r a b _ left' l' hl ih =>
    show (joinLoop left' l' (some b) r).2 = .ok () ↔ _
    rw [ih, readsThrough_next hl]
    simp
  | case3 l r a b _ right' r' hr ih =>
    show (joinLoop (some a) l right' r').2 = .ok () ↔ _
    rw [ih, readsThrough_next hr]
    simp
  | case5 l r a b _ left' l' hl right' r' hr ih =>
    show (joinLoop left' l' right' r').2 = .ok () ↔ _
    rw [ih, readsThrough_next hl, readsThrough_next hr]
    simp
  | case8 l r a left' l' hl ih =>
    show (joinLoop left' l' none r).2 = .ok () ↔ _
    rw [ih, readsThrough_next hl]
    simp
  | case10 l r b right' r' hr ih =>
    show (joinLoop none l right' r').2 = .ok () ↔ _
    rw [ih, readsThrough_next hr]
    simp
  | case12 l r => exact iff_of_true rfl ⟨fun h => absurd rfl h, fun h => absurd rfl h⟩
  | case2 l r a b _ e hl =>
    exact iff_of_false nofun fun h => not_readsThrough hl (h.1 (Option.some_ne_none a))
  | case4 l r a b _ e hr =>
    exact iff_of_false nofun fun h => not_readsThrough hr (h.2 (Option.some_ne_none b))
  | case6 l r a b _ left' l' _ e hr =>
    exact iff_of_false nofun fun h => not_readsThrough hr (h.2 (Option.some_ne_none b))
  | case7 l r a b _ e hl =>
    exact iff_of_false nofun fun h => not_readsThrough hl (h.1 (Option.some_ne_none a))
  | case9 l r a e hl =>
    exact iff_of_false nofun fun h => not_readsThrough hl (h.1 (Option.some_ne_none a))
  | case11 l r b e hr =>
    exact iff_of_false nofun fun h => not_readsThrough hr (h.2 (Option.some_ne_none b))

/-- **A merge** ends without an error exactly when both its sections can be read to their ends. -/
theorem joinTables_ok_iff {left right : TableType} {lName rName : String} {lFile rFile : Bytes}
    {lSize rSize : Nat} (hl : toDataSection lName left = .ok (lFile, lSize))
    (hr : toDataSection rName right = .ok (rFile, rSize)) :
    (joinTables left lName right rName).2 = .ok () ↔
      ReadsThrough ⟨lFile, 0, lSize⟩ ∧ ReadsThrough ⟨rFile, 0, rSize⟩ := by
  unfold joinTables
  rw [hl, ok_bind]
  dsimp only
  rw [hr, ok_bind]
  dsimp only
  cases hlNext : readNextNonTombstoneEntry ⟨lFile, 0, lSize⟩ with
  | error e => exact iff_of_false nofun fun h => not_readsThrough hlNext h.1
  | ok x =>
    obtain ⟨leftEntry, l⟩ := x
    cases hrNext : readNextNonTombstoneEntry ⟨rFile, 0, rSize⟩ with
    | error e => exact iff_of_false nofun fun h => not_readsThrough hrNext h.2
    | ok y =>
      obtain ⟨rightEntry, r⟩ := y
      rw [readsThrough_next hlNext, readsThrough_next hrNext]
      exact joinLoop_ok_iff leftEntry l rightEntry r

/-! ## The sections that are accepted -/

theorem toDataSection_le {name : String} {bytes file : Bytes} {size : Nat}
    (h : toDataSection name ⟨.ssTable, bytes⟩ = .ok (file, size)) : size ≤ file.length := by
  unfold toDataSection at h
  dsimp only at h
  obtain ⟨_, -, h⟩ := bind_ok h
  obtain ⟨_, -, h⟩ := bind_ok h
  obtain ⟨_, -, h⟩ := bind_ok h
  obtain ⟨_, -, h⟩ := bind_ok h
  obtain ⟨_, -, h⟩ := bind_ok h
  obtain ⟨_, -, h⟩ := bind_ok h
  obtain ⟨rfl, rfl⟩ := Prod.mk.inj (Except.ok.inj h)
  rw [List.length_drop]
  omega

/-- The reads of a section, when they return, have gone over the records of the section and over
nothing behind it; and they return exactly when the rebuild of a table accepts the section. -/
structure SectionRead (file : Bytes) (size : Nat) : Prop where
  tiles : ∀ us s', readSection ⟨file, 0, size⟩ = .ok (us, s') → ∃ rs, (∀ r ∈ rs, Fits r) ∧
    file.take size = encodeSection rs ∧ us = live rs ∧ s'.file = file.drop size
  accepts : ∀ blockStride st, ReadsThrough ⟨file, 0, size⟩ ↔
    ∃ st', indexLoop (file.take size) blockStride 0 st = .ok st'

theorem sectionRead_iff {file : Bytes} {size : Nat} (hsize : size ≤ file.length) :
    SectionRead file size ↔ ¬Straddles file size := by
  constructor
  · intro h hs
    obtain ⟨rs, s', htaken, hlt⟩ := taken_straddle hs
    obtain ⟨_, -, -, -, hdrop⟩ := h.tiles _ s' (readSection_ok_iff.2 ⟨rs, htaken, rfl⟩)
    have hfile := congrArg List.length htaken.file
    rw [List.length_append, hdrop, List.length_drop] at hfile
    dsimp only at hfile
    omega
  · intro hs
    have htiles : ∀ us s', readSection ⟨file, 0, size⟩ = .ok (us, s') → ∃ rs, (∀ r ∈ rs, Fits r) ∧
        file.take size = encodeSection rs ∧ us = live rs ∧ s'.file = file.drop size := by
      intro us s' h
      obtain ⟨rs, htaken, hus⟩ := readSection_ok_iff.1 h
      obtain ⟨htake, hdrop⟩ := htaken.tiles hs
      exact ⟨rs, htaken.fits, htake, hus, hdrop⟩
    refine ⟨htiles, fun blockStride st => ?_⟩
    rw [indexLoop_ok_iff]
    constructor
    · rintro ⟨us, s', h⟩
      obtain ⟨rs, hrs, htake, -⟩ := htiles us s' h
      exact ⟨rs, hrs, htake⟩
    · rintro ⟨rs, hrs, htake⟩
      have htaken := taken_section hrs (file.drop size)
      rw [← htake, List.take_append_drop, List.length_take, Nat.min_eq_left hsize] at htaken
      exact ⟨_, _, readSection_ok_iff.2 ⟨rs, htaken, rfl⟩⟩

/-- **The reads of a merge reject malformed sections**, for the table of these bytes. -/
def RejectsMalformed (name : String) (bytes : Bytes) : Prop :=
  ∀ file size, toDataSection name ⟨.ssTable, bytes⟩ = .ok (file, size) → SectionRead file size

/-- **The reads of a merge** go over a table's section only, and accept what the rebuild accepts,
exactly when no record begins in the section and ends behind it. -/
theorem rejectsMalformed_iff (name : String) (bytes : Bytes) : RejectsMalformed name bytes ↔
    ∀ file size, toDataSection name ⟨.ssTable, bytes⟩ = .ok (file, size) → ¬Straddles file size := by
  constructor
  · intro h file size hopen
    exact (sectionRead_iff (toDataSection_le hopen)).1 (h file size hopen)
  · intro h file size hopen
    exact (sectionRead_iff (toDataSection_le hopen)).2 (h file size hopen)

/-- A table whose only record has its last four bytes in the footer. -/
def overrunTable : Bytes :=
  frame (List.replicate bloomFilterSize 0) [] (field [107] ++ [5, 0, 0, 0, 118]) (field [107])

theorem overrunTable_opens (name : String) : toDataSection name ⟨.ssTable, overrunTable⟩ =
    .ok ((field [107] ++ [5, 0, 0, 0, 118]) ++ field [107], 10) :=
  toDataSection_frame name List.length_replicate (by decide) (by decide) (by decide)

/-- **A record that ends in the footer** is read, its value with four bytes of the footer; the rebuild
of the section fails. -/
theorem overrunTable_accepted : ¬RejectsMalformed "t.bin" overrunTable := by
  intro h
  refine (sectionRead_iff ?_).1 (h _ _ (overrunTable_opens "t.bin")) ?_
  · decide
  · exact ⟨[], ([107], [118, 1, 0, 0, 0]), [107], nofun, by decide, by decide, by decide, by decide⟩

end Compaction
