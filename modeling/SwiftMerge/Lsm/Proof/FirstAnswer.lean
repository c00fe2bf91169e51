import SwiftMerge.Lsm.Reader

/-!
# Reading as the first answer

A table answers a key when its range and filter admit the key and the search in it does not pass
(`TableReader.answer`). Reading a level array gives the first answer (`read_found_iff`): of the
first level that has one, that of a table of its last second (`firstAnswer_some`), and of several of
that second the one that the map is iterated at first (`firstAnswer_of_head`).
-/

namespace Lsm

open Lib

/-! ## What a table answers -/

namespace TableReader

/-- The table's entry in the map of its level. -/
def entry (t : TableReader) : SSTableMetaData × TableReader := (t.metadata, t)

def second (t : TableReader) : Nat := t.metadata.creationTimestamp

/-- The range and the filter of the table admit the key. -/
def mayHold (t : TableReader) (key : Bytes) : Bool :=
  inRange t.metadata key && match getBloomFilter t.f with
    | .ok filter => BloomGenerator.probablyExist filter key
    | .error _ => false

/-- What ends the search of a level at the table: a record's value, or an error. -/
def answer (t : TableReader) (key : Bytes) : Option (Except IoError Bytes) :=
  if t.mayHold key then
    match t.search key with
    | .ok none => none
    | .ok (some v) => some (.ok v)
    | .error e => some (.error e)
  else none

/-- The filter of the table is there to be read. -/
def HasFilter (t : TableReader) : Prop := ∃ filter, getBloomFilter t.f = .ok filter

variable {t : TableReader} {key v : Bytes}

theorem answer_of_search (h : t.mayHold key = true) : t.answer key = match t.search key with
    | .ok none => none
    | .ok (some v) => some (.ok v)
    | .error e => some (.error e) := by
  rw [answer, if_pos h]

theorem answer_eq_none (h : t.mayHold key = false) : t.answer key = none := by
  rw [answer, h, if_neg Bool.false_ne_true]

theorem mayHold_of_answer (h : t.answer key ≠ none) : t.mayHold key = true := by
  by_contra hm
  exact h (answer_eq_none (Bool.eq_false_iff.2 hm))

end TableReader

open TableReader

/-! ## A level -/

/-- The tables of a level, the last second first. -/
def bySecond (ts : List TableReader) : List TableReader :=
  ts.mergeSort fun a b => b.second ≤ a.second

/-- What ends the search of a level. -/
def levelAnswer (ts : List TableReader) (key : Bytes) : Option (Except IoError Bytes) :=
  (bySecond (ts.filter (·.mayHold key))).findSome? (·.answer key)

variable {ts : List TableReader} {key : Bytes}

theorem validTables_entries : ∀ {ts : List TableReader}, (∀ t ∈ ts, t.HasFilter) →
    validTables (ts.map entry) key = .ok ((ts.filter (·.mayHold key)).map entry)
  | [], _ => rfl
  | t :: ts, h => by
    obtain ⟨filter, hfilter⟩ := h t (.head _)
    have ih := validTables_entries fun u hu => h u (.tail _ hu)
    unfold validTables at ih ⊢
    rw [List.map_cons, List.filterMapM_cons]
    by_cases hrange : inRange t.entry.1 key = true
    · have hmay : t.mayHold key = BloomGenerator.probablyExist filter key := by
        rw [mayHold, show inRange t.metadata key = true from hrange, hfilter, Bool.true_and]
      rw [if_pos hrange, show getBloomFilter t.entry.2.f = .ok filter from hfilter, Except.map]
      by_cases hexist : BloomGenerator.probablyExist filter key = true
      · rw [if_pos hexist, ok_bind, ih]
        dsimp only
        rw [ok_bind, List.filter_cons, if_pos (hmay.trans hexist)]
        rfl
      · rw [if_neg hexist, ok_bind, ih, List.filter_cons_of_neg (by rw [hmay]; exact hexist)]
    · rw [if_neg hrange, ok_bind, ih, List.filter_cons_of_neg]
      rw [mayHold, show inRange t.metadata key = false from Bool.eq_false_iff.2 hrange,
        Bool.false_and]
      exact Bool.false_ne_true

theorem searchTables_entries (key : Bytes) : ∀ {ts : List TableReader},
    (∀ t ∈ ts, t.mayHold key = true) → ∀ searched, ∃ searched',
    searchTables key (ts.map entry) searched =
      match ts.findSome? (·.answer key) with
      | none => .ok (none, searched')
      | some (.ok v) => .ok (some v, searched')
      | some (.error e) => .error e
  | [], _, searched => ⟨searched, rfl⟩
  | t :: ts, h, searched => by
    obtain ⟨searched', ih⟩ := searchTables_entries key (fun u hu => h u (.tail _ hu)) (searched + 1)
    have hanswer := answer_of_search (h t (.head _))
    rw [List.map_cons, searchTables.eq_2, show t.entry.2 = t from rfl, List.findSome?_cons, hanswer]
    cases t.search key with
    | error e => exact ⟨0, rfl⟩
    | ok found =>
      cases found with
      | some v => exact ⟨searched + 1, rfl⟩
      | none => exact ⟨searched', ih⟩

/-- Reading on from a level: its answer, or what the levels below give. -/
theorem readLevels_entries (key : Bytes) (h : ∀ t ∈ ts, t.HasFilter) (rest : List FileMap)
    (tables levels : Nat) : ∃ tables', readLevels key (ts.map entry :: rest) tables levels =
      match levelAnswer ts key with
      | none => readLevels key rest tables' (levels + 1)
      | some (.ok v) => .ok (.found v tables' (levels + 1))
      | some (.error e) => .error e := by
  have hsort : ((ts.filter (·.mayHold key)).map entry).mergeSort
      (fun a b => b.1.creationTimestamp ≤ a.1.creationTimestamp) =
        (bySecond (ts.filter (·.mayHold key))).map entry :=
    (List.map_mergeSort (f := entry) fun _ _ _ _ => rfl).symm
  have hmay : ∀ t ∈ bySecond (ts.filter (·.mayHold key)), t.mayHold key = true := fun t ht =>
    (List.mem_filter.1 (List.mem_mergeSort.1 ht)).2
  obtain ⟨tables', hsearch⟩ := searchTables_entries key hmay tables
  refine ⟨tables', ?_⟩
  rw [readLevels.eq_2, validTables_entries h, ok_bind]
  dsimp only
  rw [hsort, hsearch, levelAnswer]
  split <;> rfl

/-! ## A level array -/

/-- What ends the search of the levels. -/
def firstAnswer (array : List (List TableReader)) (key : Bytes) : Option (Except IoError Bytes) :=
  array.findSome? (levelAnswer · key)

theorem readLevels_found_iff {v : Bytes} : ∀ {array : List (List TableReader)},
    (∀ ts ∈ array, ∀ t ∈ ts, t.HasFilter) → ∀ tables levels,
    ((∃ tables' levels', readLevels key (array.map (·.map entry)) tables levels =
      .ok (.found v tables' levels')) ↔ firstAnswer array key = some (.ok v))
  | [], _, tables, levels => by simp [readLevels, firstAnswer]
  | ts :: array, h, tables, levels => by
    obtain ⟨tables', hread⟩ := readLevels_entries key (h ts (.head _))
      (array.map (·.map entry)) tables levels
    rw [List.map_cons, hread, firstAnswer, List.findSome?_cons]
    cases levelAnswer ts key with
    | none => exact readLevels_found_iff (fun us hus => h us (.tail _ hus)) _ _
    | some result =>
      cases result with
      | error e => simp
      | ok w => simp

/-- **Reading an array** finds what answers first. -/
theorem read_found_iff {array : List (List TableReader)} {v : Bytes}
    (h : ∀ ts ∈ array, ∀ t ∈ ts, t.HasFilter) :
    (∃ tables levels, read (array.map (·.map entry)) key = .ok (.found v tables levels)) ↔
      firstAnswer array key = some (.ok v) := by
  rw [← readLevels_found_iff h 0 0, read]
  cases readLevels key (array.map (·.map entry)) 0 0 with
  | ok r => simp [Except.mapError]
  | error e => simp [Except.mapError]

/-! ## The order of the answers -/

theorem mem_bySecond {t : TableReader} :
    t ∈ bySecond (ts.filter (·.mayHold key)) ↔ t ∈ ts ∧ t.mayHold key = true := by
  rw [bySecond, List.mem_mergeSort, List.mem_filter]

theorem bySecond_sorted (ts : List TableReader) :
    (bySecond ts).Pairwise fun a b => b.second ≤ a.second := by
  have hsorted := @List.pairwise_mergeSort TableReader (fun a b => decide (b.second ≤ a.second))
    (fun a b c h1 h2 => by simp at *; omega) (fun a b => by simp; omega) ts
  exact hsorted.imp fun h => of_decide_eq_true h

theorem levelAnswer_none_iff : levelAnswer ts key = none ↔ ∀ t ∈ ts, t.answer key = none := by
  rw [levelAnswer, List.findSome?_eq_none_iff]
  constructor
  · intro h t ht
    by_contra hne
    exact hne (h t (mem_bySecond.2 ⟨ht, mayHold_of_answer hne⟩))
  · exact fun h t ht => h t (mem_bySecond.1 ht).1

/-- A level's answer is that of a table of the last second with one. -/
theorem levelAnswer_some {result : Except IoError Bytes} (h : levelAnswer ts key = some result) :
    ∃ t ∈ ts, t.answer key = some result ∧
      ∀ u ∈ ts, u.answer key ≠ none → u.second ≤ t.second := by
  obtain ⟨before, t, after, hsplit, ht, hbefore⟩ := List.findSome?_eq_some_iff.1 h
  have hsorted := bySecond_sorted (ts.filter (·.mayHold key))
  rw [hsplit] at hsorted
  have hmem : ∀ {u}, u ∈ before ++ t :: after ↔ u ∈ ts ∧ u.mayHold key = true := by
    intro u
    rw [← hsplit, mem_bySecond]
  refine ⟨t, (hmem.1 (by simp)).1, ht, fun u hu hanswer => ?_⟩
  rcases List.mem_append.1 (hmem.2 ⟨hu, mayHold_of_answer hanswer⟩) with hin | hin
  · exact absurd (hbefore u hin) hanswer
  · cases hin with
    | head => exact Nat.le_refl _
    | tail _ hin => exact (List.pairwise_cons.1 (List.pairwise_append.1 hsorted).2.1).1 u hin

/-- The table at the head of a level answers when it is of the last second with an answer. -/
theorem levelAnswer_of_head {t : TableReader} (ht : t.answer key ≠ none)
    (hlast : ∀ u ∈ ts, u.answer key ≠ none → u.second ≤ t.second) :
    levelAnswer (t :: ts) key = t.answer key := by
  obtain ⟨before, after, hsplit, -, hbefore⟩ := @List.mergeSort_cons TableReader
    (fun a b => decide (b.second ≤ a.second)) (fun a b c h1 h2 => by simp at *; omega)
    (fun a b => by simp; omega) t (ts.filter (·.mayHold key))
  have hfilter : (t :: ts).filter (·.mayHold key) = t :: ts.filter (·.mayHold key) := by
    rw [List.filter_cons, if_pos (mayHold_of_answer ht)]
  rw [levelAnswer, bySecond, hfilter, hsplit, List.findSome?_append]
  -- the tables in front of it are of a later second, so they have no answer
  have hnone : before.findSome? (·.answer key) = none := by
    refine List.findSome?_eq_none_iff.2 fun u hu => ?_
    have hlater : t.second < u.second := by simpa using hbefore u hu
    have hmem : u ∈ t :: ts.filter (·.mayHold key) := by
      rw [← List.mem_mergeSort, hsplit]
      exact List.mem_append_left _ hu
    by_contra hanswer
    rcases List.mem_cons.1 hmem with rfl | hmem
    · exact absurd hlater (Nat.lt_irrefl _)
    · have hle := hlast u (List.mem_filter.1 hmem).1 hanswer
      omega
  rw [hnone, Option.none_or, List.findSome?_cons]
  cases hanswer : t.answer key with
  | none => exact absurd hanswer ht
  | some _ => rfl

/-- A place in the reading order: readers take the levels in order, and of a level the last second
first. -/
structure Rank where
  level : Nat
  second : Nat

/-- Strictly earlier in the reading order. -/
def Rank.Before (a b : Rank) : Prop := a.level < b.level ∨ a.level = b.level ∧ b.second < a.second

theorem Rank.Before.of_not {a b c : Rank} (h : a.Before b) (hc : ¬c.Before b) : a.Before c := by
  unfold Rank.Before at *
  omega

/-- The table is in the array, at the place; the first level is `l1`. -/
def Stands (array : List (List TableReader)) (t : TableReader) (r : Rank) : Prop :=
  ∃ i ts, r.level = i + 1 ∧ array[i]? = some ts ∧ t ∈ ts ∧ t.second = r.second

variable {array : List (List TableReader)}

theorem firstAnswer_none_iff : firstAnswer array key = none ↔
    ∀ t r, Stands array t r → t.answer key = none := by
  rw [firstAnswer, List.findSome?_eq_none_iff]
  constructor
  · rintro h t r ⟨i, ts, -, hts, ht, -⟩
    exact levelAnswer_none_iff.1 (h ts (List.mem_of_getElem? hts)) t ht
  · intro h ts hts
    obtain ⟨i, hi⟩ := List.getElem?_of_mem hts
    exact levelAnswer_none_iff.2 fun t ht => h t ⟨i + 1, t.second⟩ ⟨i, ts, rfl, hi, ht, rfl⟩

/-- **The first answer** is that of a table which no other with an answer is before. -/
theorem firstAnswer_some {result : Except IoError Bytes}
    (h : firstAnswer array key = some result) : ∃ t r, Stands array t r ∧
      t.answer key = some result ∧ ∀ u q, Stands array u q → u.answer key ≠ none → ¬q.Before r := by
  obtain ⟨above, ts, below, rfl, hts, habove⟩ := List.findSome?_eq_some_iff.1 h
  obtain ⟨t, ht, hanswer, hlast⟩ := levelAnswer_some hts
  have hget : (above ++ ts :: below)[above.length]? = some ts := by simp
  refine ⟨t, ⟨above.length + 1, t.second⟩, ⟨_, ts, rfl, hget, ht, rfl⟩, hanswer, ?_⟩
  rintro u ⟨_, second⟩ ⟨i, us, rfl, hus, hu, rfl⟩ hne (hl | ⟨hl, hs⟩)
  · rw [List.getElem?_append_left (Nat.lt_of_succ_lt_succ hl)] at hus
    exact hne (levelAnswer_none_iff.1 (habove us (List.mem_of_getElem? hus)) u hu)
  · obtain rfl : i = above.length := Nat.succ.inj hl
    obtain rfl := Option.some.inj (hget.symm.trans hus)
    exact absurd (hlast u hu hne) (Nat.not_le_of_lt hs)

/-- A table at the head of its level answers when no other with an answer is before it. -/
theorem firstAnswer_of_head {t : TableReader} {i : Nat} (hi : array[i]? = some (t :: ts))
    (ht : t.answer key ≠ none) (hfirst : ∀ u q, Stands array u q → u.answer key ≠ none →
      ¬q.Before ⟨i + 1, t.second⟩) : firstAnswer array key = t.answer key := by
  obtain ⟨hlt, hget⟩ := List.getElem?_eq_some_iff.1 hi
  have hsplit : array = array.take i ++ (t :: ts) :: array.drop (i + 1) := by
    rw [← hget, ← List.drop_eq_getElem_cons hlt, List.take_append_drop]
  have habove : (array.take i).findSome? (levelAnswer · key) = none := by
    refine List.findSome?_eq_none_iff.2 fun us hus => levelAnswer_none_iff.2 fun u hu => ?_
    obtain ⟨j, hj⟩ := List.getElem?_of_mem hus
    have hji : j < i := by
      have := (List.getElem?_eq_some_iff.1 hj).1
      rw [List.length_take] at this
      omega
    rw [List.getElem?_take_of_lt hji] at hj
    by_contra hne
    exact hfirst u ⟨j + 1, u.second⟩ ⟨j, us, rfl, hj, hu, rfl⟩ hne (.inl (Nat.succ_lt_succ hji))
  have hlevel : levelAnswer (t :: ts) key = t.answer key := by
    refine levelAnswer_of_head ht fun u hu hne => ?_
    by_contra hlt
    exact hfirst u ⟨i + 1, u.second⟩ ⟨i, _, rfl, hi, .tail _ hu, rfl⟩ hne
      (.inr ⟨rfl, Nat.lt_of_not_le hlt⟩)
  rw [firstAnswer, hsplit, List.findSome?_append, habove, Option.none_or, List.findSome?_cons,
    hlevel]
  cases hanswer : t.answer key with
  | none => exact absurd hanswer ht
  | some _ => rfl

end Lsm
