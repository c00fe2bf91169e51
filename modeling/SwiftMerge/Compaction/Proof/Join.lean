import SwiftMerge.Compaction.Unit
import SwiftMerge.Lsm.Proof.TableProof
import SwiftMerge.Memtable.Proof.Replay
import SwiftMerge.Lib.Overlay

/-!
# What the merge of two tables writes

On files that hold key-sorted records, `joinTables` reads each side's records without those
`isTombstone` holds of (`live`) and writes their left-biased merge (`joinTables_eq`).

A tombstone of a one-byte key is dropped on reading, so it hides nothing any more: neither the other
side's record nor an older table's. The merge preserves the logical view exactly when there was
nothing to hide (`joinTables_view_iff`).
-/

namespace Compaction

open Lib Lsm Mem

/-! ## Reading a section -/

/-- The records that reading does not skip. -/
def live (rs : List Record) : List Record := rs.filter fun r => !isTombstone r

@[simp] theorem live_nil : live [] = [] := rfl

theorem live_cons (r : Record) (rs : List Record) :
    live (r :: rs) = if isTombstone r then live rs else r :: live rs := by
  cases h : isTombstone r <;> simp [live, h]

/-- The section still holds the records `rs`. -/
structure SectionAt (rs : List Record) (s : Section) : Prop where
  fits : ∀ r ∈ rs, Fits r
  file : ∃ tail, s.file = encodeSection rs ++ tail
  size : s.size = s.ptr + (encodeSection rs).length

theorem SectionAt.read_cons {r : Record} {rs : List Record} {s : Section}
    (h : SectionAt (r :: rs) s) : ∃ file, readDataSectionEntry s.file = .ok (r, file) ∧
      s.ptr < s.size ∧ SectionAt rs ⟨file, s.ptr + (encodeRecord r).length, s.size⟩ := by
  obtain ⟨tail, hfile⟩ := h.file
  have hsize := h.size
  have hlen := length_encodeRecord r
  rw [encodeSection_cons, List.length_append] at hsize
  refine ⟨encodeSection rs ++ tail, ?_, by omega, fun x hx => h.fits x (.tail _ hx), ⟨tail, rfl⟩, ?_⟩
  · rw [hfile, encodeSection_cons, List.append_assoc,
      readDataSectionEntry_encodeRecord (h.fits r (.head _))]
  · dsimp only
    omega

/-- A side of the merge still gives the records `rs`, the first of them read already. -/
structure Stream (rs : List Record) (head : Option Record) (s : Section) : Prop where
  head : head = rs.head?
  rest : ∃ us, SectionAt us s ∧ live us = rs.tail

theorem readNext_live : ∀ {us : List Record} {s : Section}, SectionAt us s →
    ∃ head s', readNextNonTombstoneEntry s = .ok (head, s') ∧ Stream (live us) head s'
  | [], s, h => by
    have hsize : ¬s.ptr < s.size := by
      rw [h.size]
      simp
    exact ⟨none, s, readNext_end hsize, rfl, [], h, rfl⟩
  | r :: us, s, h => by
    obtain ⟨file, hread, hlt, hs⟩ := h.read_cons
    rw [readNext_turn hlt, hread, ok_bind, live_cons]
    by_cases ht : isTombstone r
    · simp only [ht, if_true]
      exact readNext_live hs
    · simp only [ht, if_false, Bool.false_eq_true]
      exact ⟨_, _, rfl, rfl, us, hs, rfl⟩

theorem Stream.next {a : Record} {rs : List Record} {head : Option Record} {s : Section}
    (h : Stream (a :: rs) head s) :
    ∃ head' s', readNextNonTombstoneEntry s = .ok (head', s') ∧ Stream rs head' s' := by
  obtain ⟨us, hs, hlive⟩ := h.rest
  obtain ⟨head', s', hread, hstream⟩ := readNext_live hs
  rw [hlive] at hstream
  exact ⟨head', s', hread, hstream⟩

/-! ## Merging -/

section
variable {a b : Record} {left' right' : Option Record} {l l' r r' : Section}

theorem joinLoop_lt (hc : compare a.1 b.1 = .lt)
    (hl : readNextNonTombstoneEntry l = .ok (left', l')) :
    joinLoop (some a) l (some b) r = .after a (joinLoop left' l' (some b) r) := by
  rw [joinLoop, hc]
  dsimp only
  split
  · rename_i heq
    rw [hl, Except.ok.injEq, Prod.mk.injEq] at heq
    obtain ⟨rfl, rfl⟩ := heq
    rfl
  · rename_i heq
    rw [hl] at heq
    cases heq

theorem joinLoop_gt (hc : compare a.1 b.1 = .gt)
    (hr : readNextNonTombstoneEntry r = .ok (right', r')) :
    joinLoop (some a) l (some b) r = .after b (joinLoop (some a) l right' r') := by
  rw [joinLoop, hc]
  dsimp only
  split
  · rename_i heq
    rw [hr, Except.ok.injEq, Prod.mk.injEq] at heq
    obtain ⟨rfl, rfl⟩ := heq
    rfl
  · rename_i heq
    rw [hr] at heq
    cases heq

theorem joinLoop_eq (hc : compare a.1 b.1 = .eq)
    (hl : readNextNonTombstoneEntry l = .ok (left', l'))
    (hr : readNextNonTombstoneEntry r = .ok (right', r')) :
    joinLoop (some a) l (some b) r = .after a (joinLoop left' l' right' r') := by
  rw [joinLoop, hc]
  dsimp only
  split
  · rename_i heq
    rw [hl, Except.ok.injEq, Prod.mk.injEq] at heq
    obtain ⟨rfl, rfl⟩ := heq
    split
    · rename_i heq
      rw [hr, Except.ok.injEq, Prod.mk.injEq] at heq
      obtain ⟨rfl, rfl⟩ := heq
      rfl
    · rename_i heq
      rw [hr] at heq
      cases heq
  · rename_i heq
    rw [hl] at heq
    cases heq

theorem joinLoop_left (hl : readNextNonTombstoneEntry l = .ok (left', l')) :
    joinLoop (some a) l none r = .after a (joinLoop left' l' none r) := by
  rw [joinLoop]
  split
  · rename_i heq
    rw [hl, Except.ok.injEq, Prod.mk.injEq] at heq
    obtain ⟨rfl, rfl⟩ := heq
    rfl
  · rename_i heq
    rw [hl] at heq
    cases heq

theorem joinLoop_right (hr : readNextNonTombstoneEntry r = .ok (right', r')) :
    joinLoop none l (some b) r = .after b (joinLoop none l right' r') := by
  rw [joinLoop]
  split
  · rename_i heq
    rw [hr, Except.ok.injEq, Prod.mk.injEq] at heq
    obtain ⟨rfl, rfl⟩ := heq
    rfl
  · rename_i heq
    rw [hr] at heq
    cases heq

end

/-- The loops merge what the two sides still give. -/
theorem joinLoop_stream : ∀ {ls rs : List Record} {left right : Option Record} {l r : Section},
    Stream ls left l → Stream rs right r →
    joinLoop left l right r = (encodeSection (mergeLeft ls rs), .ok ())
  | [], [], _, _, l, r, hl, hr => by
    obtain rfl := hl.head
    obtain rfl := hr.head
    rw [List.head?_nil, joinLoop, mergeLeft]
    rfl
  | a :: ls, [], _, _, l, r, hl, hr => by
    obtain ⟨left', l', hread, hl'⟩ := hl.next
    have ih := joinLoop_stream hl' hr
    obtain rfl := hl.head
    obtain rfl := hr.head
    rw [List.head?_nil, mergeLeft_nil] at ih
    rw [List.head?_cons, List.head?_nil, joinLoop_left hread, ih, mergeLeft_nil]
    rfl
  | [], b :: rs, _, _, l, r, hl, hr => by
    obtain ⟨right', r', hread, hr'⟩ := hr.next
    have ih := joinLoop_stream hl hr'
    obtain rfl := hl.head
    obtain rfl := hr.head
    rw [List.head?_nil, mergeLeft] at ih
    rw [List.head?_cons, List.head?_nil, joinLoop_right hread, ih, mergeLeft]
    rfl
  | a :: ls, b :: rs, _, _, l, r, hl, hr => by
    obtain ⟨left', l', hreadl, hl'⟩ := hl.next
    obtain ⟨right', r', hreadr, hr'⟩ := hr.next
    have ihlt := joinLoop_stream hl' hr
    have ihgt := joinLoop_stream hl hr'
    have iheq := joinLoop_stream hl' hr'
    obtain rfl := hl.head
    obtain rfl := hr.head
    rw [List.head?_cons] at ihlt ihgt
    rw [List.head?_cons, List.head?_cons, mergeLeft]
    cases hc : compare a.1 b.1 with
    | lt =>
      rw [joinLoop_lt hc hreadl, ihlt]
      rfl
    | gt =>
      rw [joinLoop_gt hc hreadr, ihgt]
      rfl
    | eq =>
      rw [joinLoop_eq hc hreadl hreadr, iheq]
      rfl
termination_by ls rs => ls.length + rs.length

theorem holds_sectionAt {t : TableType} {rs : List Record} (h : Holds t rs) (name : String) :
    ∃ file size, toDataSection name t = .ok (file, size) ∧ SectionAt rs ⟨file, 0, size⟩ := by
  obtain ⟨tail, ht⟩ := h.dataSection
  exact ⟨_, _, ht name, h.fits, ⟨tail, rfl⟩, by simp⟩

/-- **What the merge writes**: the left-biased merge of the records that it does not skip. -/
theorem joinTables_eq {left right : TableType} {L R : List Record} (hl : Holds left L)
    (hr : Holds right R) (lName rName : String) :
    joinTables left lName right rName = (encodeSection (mergeLeft (live L) (live R)), .ok ()) := by
  obtain ⟨lFile, lSize, hlSection, hl⟩ := holds_sectionAt hl lName
  obtain ⟨rFile, rSize, hrSection, hr⟩ := holds_sectionAt hr rName
  obtain ⟨leftEntry, l, hlRead, hl⟩ := readNext_live hl
  obtain ⟨rightEntry, r, hrRead, hr⟩ := readNext_live hr
  unfold joinTables
  simp only [hlSection, hrSection, hlRead, hrRead, ok_bind, pure_ok]
  exact joinLoop_stream hl hr

/-! ## The merge of a unit's tables -/

theorem live_mergeLeft (L R : List Record) :
    live (mergeLeft (live L) (live R)) = mergeLeft (live L) (live R) := by
  refine List.filter_eq_self.2 fun r hr => ?_
  rcases mem_mergeLeft hr with h | h
  · exact (List.mem_filter.1 h).2
  · exact (List.mem_filter.1 h).2

theorem keySorted_live {rs : List Record} (h : KeySorted rs) : KeySorted (live rs) := h.filter _

/-- The merge of runs, newest first, without the records that reading skips. -/
def merged (runs : List (List Record)) : List Record := mergeStack (fun r => !isTombstone r) runs

theorem merged_cons (run : List Record) (runs : List (List Record)) :
    merged (run :: runs) = mergeLeft (live run) (merged runs) := rfl

theorem indexSize_merged_le : ∀ runs : List (List Record),
    indexSize (merged runs) ≤ (runs.map indexSize).sum
  | [] => Nat.le_refl _
  | run :: runs => by
    have ih := indexSize_merged_le runs
    have hlive : indexSize (live run) ≤ indexSize run :=
      (List.filter_sublist.map fun r : Record => 12 + r.1.length).sum_le_sum fun _ _ => Nat.zero_le _
    have hmerge := sum_mergeLeft_le (fun r : Record => 12 + r.1.length) (live run) (merged runs)
    rw [merged_cons, List.map_cons, List.sum_cons]
    exact hmerge.trans (Nat.add_le_add hlive ih)

/-- The runs of the next round's files. -/
def nextRuns : List (List Record) → List (List Record)
  | left :: right :: rest => mergeLeft (live left) (live right) :: nextRuns rest
  | [run] => [run]
  | [] => []

theorem keySorted_merged {runs : List (List Record)} (h : ∀ run ∈ runs, KeySorted run) :
    KeySorted (merged runs) := keySorted_mergeStack _ h

/-- A round does not change what the runs merge to. -/
theorem merged_nextRuns : ∀ {runs : List (List Record)}, (∀ run ∈ runs, KeySorted run) →
    merged (nextRuns runs) = merged runs
  | [], _ => rfl
  | [_], _ => rfl
  | left :: right :: rest, h => by
    have hrest : ∀ run ∈ rest, KeySorted run := fun run hr => h run (.tail _ (.tail _ hr))
    rw [nextRuns, merged_cons, live_mergeLeft, merged_nextRuns hrest,
      mergeLeft_assoc (keySorted_live (h _ (.head _))) (keySorted_live (h _ (.tail _ (.head _))))
        (keySorted_merged hrest)]
    rfl

/-- **The merge looks up as the stack of the runs**, newest on top, without what reading skips. -/
theorem lookup_merged (k : Bytes) {runs : List (List Record)} (h : ∀ run ∈ runs, KeySorted run) :
    (merged runs).lookup k = overlay (runs.map live) k := lookup_mergeStack _ k h

/-! ## The logical view -/

/-- The answer that a record, or its absence, stands for: the live value, or absent. -/
def answer (value : Option Bytes) : Option Bytes :=
  value.filter (· ≠ [tombStoneByteRepresentation])

@[simp] theorem answer_none : answer none = none := rfl

@[simp] theorem answer_tombstone : answer (some [tombStoneByteRepresentation]) = none := rfl

@[simp] theorem answer_value {v : Bytes} (h : v ≠ [tombStoneByteRepresentation]) :
    answer (some v) = some v := by simp [answer, Option.filter_some, h]

theorem answer_ne {o : Option Bytes} {v : Bytes} (h : answer o = some v) :
    v ≠ [tombStoneByteRepresentation] := by
  simpa using (Option.filter_eq_some_iff.1 h).2

/-- A merge that has written a table which answers, over any older tables, as the two inputs. -/
def PreservesView (w : Written) (L R : List Record) (older : List (List Record)) : Prop :=
  ∃ M, w = (encodeSection M, .ok ()) ∧ (∀ r ∈ M, Fits r) ∧ KeySorted M ∧
    ∀ k, answer (overlay (M :: older) k) = answer (overlay (L :: R :: older) k)

theorem live_fits {rs : List Record} (h : ∀ r ∈ rs, Fits r) : ∀ r ∈ live rs, Fits r :=
  fun r hr => h r (List.mem_of_mem_filter hr)

theorem mergeLeft_live_fits {L R : List Record} (hl : ∀ r ∈ L, Fits r) (hr : ∀ r ∈ R, Fits r) :
    ∀ r ∈ mergeLeft (live L) (live R), Fits r := by
  intro r h
  rcases mem_mergeLeft h with h | h
  · exact live_fits hl r h
  · exact live_fits hr r h

theorem lookup_live {rs : List Record} (h : KeySorted rs) (k : Bytes) :
    (live rs).lookup k = if k.length = 1 then answer (rs.lookup k) else rs.lookup k := by
  rw [live, h.lookup_filter]
  by_cases hk : k.length = 1
  · rw [if_pos hk, answer]
    congr 1
    funext v
    by_cases hv : v = [255]
    · simp [isTombstone, hk, hv, tombStoneByteRepresentation]
    · simp [isTombstone, hv, tombStoneByteRepresentation]
  · cases rs.lookup k <;> simp [isTombstone, hk, Option.filter_some]

/-- When dropping the tombstones of a stack of three changes no answer. -/
theorem answer_or_iff (l r o : Option Bytes) :
    answer (((answer l).or (answer r)).or o) = answer ((l.or r).or o) ↔
      (l.or r = some [tombStoneByteRepresentation] → answer r = none ∧ answer o = none) := by
  cases l with
  | none =>
    cases r with
    | none => simp
    | some v =>
      by_cases hv : v = [tombStoneByteRepresentation]
      · simp [hv]
      · simp [hv]
  | some v =>
    by_cases hv : v = [tombStoneByteRepresentation]
    · subst hv
      cases hr : answer r with
      | none => simp
      | some w => simp [answer_ne hr]
    · simp [hv]

/-- **A merge preserves the logical view exactly when no tombstone that it drops hides a value**:
for every one-byte key whose newest record is a tombstone, neither the older input nor an older
table has a live value. -/
theorem joinTables_view_iff {left right : TableType} {lName rName : String} {L R : List Record}
    (hl : Holds left L) (hr : Holds right R) (hL : KeySorted L) (hR : KeySorted R)
    (older : List (List Record)) :
    PreservesView (joinTables left lName right rName) L R older ↔
      ∀ k : Bytes, k.length = 1 → overlay [L, R] k = some [tombStoneByteRepresentation] →
        answer (R.lookup k) = none ∧ answer (overlay older k) = none := by
  have hlookup : ∀ k, (mergeLeft (live L) (live R)).lookup k =
      ((live L).lookup k).or ((live R).lookup k) :=
    fun k => lookup_mergeLeft k (hL.filter _) (hR.filter _)
  have hpoint : ∀ k, answer (overlay (mergeLeft (live L) (live R) :: older) k) =
      answer (overlay (L :: R :: older) k) ↔
        (k.length = 1 → overlay [L, R] k = some [tombStoneByteRepresentation] →
          answer (R.lookup k) = none ∧ answer (overlay older k) = none) := by
    intro k
    have hstack : overlay (L :: R :: older) k =
        ((L.lookup k).or (R.lookup k)).or (overlay older k) := by
      rw [overlay_cons, overlay_cons, Option.or_assoc]
    rw [hstack, overlay_cons, hlookup, lookup_live hL, lookup_live hR]
    by_cases hk : k.length = 1
    · simp only [hk, if_true, forall_const, answer_or_iff, overlay_cons, overlay_nil, Option.or_none]
    · simp only [hk, if_false, false_imp_iff]
  constructor
  · intro h k
    obtain ⟨M, hM, hfits, -, hview⟩ := h
    rw [joinTables_eq hl hr _ _, Prod.mk.injEq] at hM
    rw [← encodeSection_inj (mergeLeft_live_fits hl.fits hr.fits) hfits hM.1] at hview
    exact (hpoint k).1 (hview k)
  · intro h
    exact ⟨_, joinTables_eq hl hr _ _, mergeLeft_live_fits hl.fits hr.fits,
      keySorted_mergeLeft (hL.filter _) (hR.filter _), fun k => (hpoint k).2 (h k)⟩

/-! ## A deleted key brought back -/

/-- The record of a memtable slot. -/
def recordOf (e : Bytes × Option TableEntry) : Record := (e.1, (WalEntry.ofSlot e.2).contents)

theorem encodeRecord_recordOf (e : Bytes × Option TableEntry) :
    encodeRecord (recordOf e) = toWalEntry e.1 (.ofSlot e.2) := (toWalEntry_eq _ _).symm

theorem two_byte_view : PreservesView
    (joinTables ⟨.rawDataSection, encodeSection [recordOf ([107, 49], none)]⟩ "newer"
      ⟨.rawDataSection, encodeSection [recordOf ([107, 49], some ⟨[118], none⟩)]⟩ "older")
    [recordOf ([107, 49], none)] [recordOf ([107, 49], some ⟨[118], none⟩)] [] :=
  (joinTables_view_iff (holds_raw (by decide)) (holds_raw (by decide)) (by decide) (by decide)
    _).2 fun k hk h => by
      have hne : k ≠ [107, 49] := fun he => by
        rw [he] at hk
        cases hk
      rw [overlay_cons, overlay_cons, recordOf, recordOf, lookup_cons_ne hne,
        lookup_cons_ne hne] at h
      cases h

/-- **A deleted one-byte key comes back**: the merge skips its tombstone and writes the older
table's value. -/
theorem deleted_key_back : ¬PreservesView
    (joinTables ⟨.rawDataSection, encodeSection [recordOf ([107], none)]⟩ "newer"
      ⟨.rawDataSection, encodeSection [recordOf ([107], some ⟨[118], none⟩)]⟩ "older")
    [recordOf ([107], none)] [recordOf ([107], some ⟨[118], none⟩)] [] := by
  intro h
  obtain ⟨M, hM, hfits, -, hview⟩ := h
  rw [joinTables_eq (holds_raw (by decide)) (holds_raw (by decide)) _ _, Prod.mk.injEq] at hM
  rw [← encodeSection_inj (mergeLeft_live_fits (by decide) (by decide)) hfits hM.1] at hview
  have hback := hview [107]
  rw [overlay_cons, lookup_mergeLeft _ (by decide) (by decide)] at hback
  exact absurd hback (by decide)

end Compaction
