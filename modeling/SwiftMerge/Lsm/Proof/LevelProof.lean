import SwiftMerge.Lsm.Proof.FirstAnswer
import SwiftMerge.Lsm.Proof.ReaderProof

/-!
# Loading a level and reading it

A `StoredTable` is a well-formed file with what its writer put into it. Loading a level inserts the
readers of its tables into a map, under their metadata (`loadLevel_eq`); the map has all of them
when no two have the same metadata, and only then (`loadAll_perm_iff`). Reading a loaded level is a
lookup in the tables that admit the key, newest second first (`levelFind`, `read_found`,
`read_missing`); a table admits each of its keys unless its last key is too long for
`readFooter` (`admits_iff`).
-/

namespace Lsm

open Lib TableReader

/-- A file that a writer made, with its sparse index and its records. -/
structure StoredTable where
  file : File
  sparseIndex : List (Nat × Bytes)
  rs : List Record
  wellFormed : WellFormed file.bytes sparseIndex rs

namespace StoredTable

def reader (t : StoredTable) : TableReader := readerOf t.file t.sparseIndex t.rs

/-- The table's entry in the map of its level. -/
def entry (t : StoredTable) : SSTableMetaData × TableReader := (t.reader.metadata, t.reader)

theorem generateIndex_file (t : StoredTable) : generateIndex t.file = .ok t.reader :=
  t.wellFormed.generateIndex t.file.created

end StoredTable

/-! ## Loading -/

/-- The map that the readers of tables are inserted into. -/
def loadAll (ts : List StoredTable) : FileMap :=
  ts.foldl (fun m t => m.insert t.entry.1 t.entry.2) []

/-- The tables of a level directory, in the order it is listed in. -/
def TablesOf (entries : List (String × File)) (ts : List StoredTable) : Prop :=
  (entries.filter fun e => isBin e.1).map Prod.snd = ts.map StoredTable.file

theorem foldlM_loadEntry : ∀ {entries : List (String × File)} {ts : List StoredTable},
    TablesOf entries ts → ∀ m : FileMap, entries.foldlM loadEntry m =
      .ok (ts.foldl (fun m t => m.insert t.entry.1 t.entry.2) m)
  | [], [], _, _ => rfl
  | [], _ :: _, h, _ => by cases h
  | e :: entries, ts, h, m => by
    unfold TablesOf at h
    by_cases hbin : isBin e.1
    · simp only [List.filter_cons_of_pos, hbin, List.map_cons] at h
      cases ts with
      | nil => cases h
      | cons t ts =>
        rw [List.map_cons, List.cons.injEq] at h
        obtain ⟨hfile, hrest⟩ := h
        have hload : loadEntry m e = .ok (m.insert t.entry.1 t.entry.2) := by
          unfold loadEntry
          rw [if_pos hbin, hfile, t.wellFormed.readHeader]
          simp only [Except.mapError, ok_bind, t.generateIndex_file, if_true]
          rfl
        rw [List.foldlM_cons, hload, ok_bind, foldlM_loadEntry hrest]
        rfl
    · rw [List.filter_cons, if_neg hbin] at h
      have hload : loadEntry m e = .ok m := by
        unfold loadEntry
        rw [if_neg hbin]
        rfl
      rw [List.foldlM_cons, hload, ok_bind, foldlM_loadEntry h]

/-- **Loading a level** inserts the readers of its tables. -/
theorem loadLevel_eq {entries : List (String × File)} {ts : List StoredTable}
    (h : TablesOf entries ts) : loadLevel entries = .ok (loadAll ts) := foldlM_loadEntry h []

theorem createLevelArray_ok {d : Disk} {maps : Nat → FileMap}
    (h : ∀ i < d.levels, loadLevel (d.dir (i + 1)) = .ok (maps i)) :
    createLevelArray d = .ok ((List.range d.levels).map maps) := by
  unfold createLevelArray
  have hlevels : ∀ i ∈ List.range d.levels, loadLevel (d.dir (i + 1)) = .ok (maps i) :=
    fun i hi => h i (List.mem_range.1 hi)
  generalize List.range d.levels = is at hlevels
  induction is with
  | nil => rfl
  | cons i is ih =>
    rw [List.mapM_cons, hlevels i (.head _), ok_bind, ih fun j hj => hlevels j (.tail _ hj)]
    rfl

theorem createLevelArray_eq {d : Disk} (tables : Nat → List StoredTable)
    (h : ∀ level, 1 ≤ level → level ≤ d.levels → TablesOf (d.dir level) (tables level)) :
    createLevelArray d = .ok ((List.range d.levels).map fun i => loadAll (tables (i + 1))) :=
  createLevelArray_ok fun i hi => loadLevel_eq (h (i + 1) (by omega) hi)

theorem loaded_levels {d : Disk} {levelArray : List FileMap} (h : Loaded d levelArray) :
    levelArray.length = d.levels ∧ ∀ i map, levelArray[i]? = some map →
      ∃ m, loadLevel (d.dir (i + 1)) = .ok m ∧ m.Perm map := by
  obtain ⟨maps, hmaps, hperm⟩ := h
  have hload := mapM_ok hmaps
  have hlen : maps.length = d.levels := by rw [← hload.length_eq, List.length_range]
  refine ⟨by rw [← hperm.length_eq, hlen], fun i map hi => ?_⟩
  obtain ⟨hilt, rfl⟩ := List.getElem?_eq_some_iff.1 hi
  have hmlt : i < maps.length := by rw [hperm.length_eq]; exact hilt
  have hrlt : i < (List.range d.levels).length := by rw [hload.length_eq]; exact hmlt
  have hloadi := (List.forall₂_iff_get.1 hload).2 i hrlt hmlt
  have hpermi := (List.forall₂_iff_get.1 hperm).2 i hmlt hilt
  rw [List.get_eq_getElem, List.get_eq_getElem, List.getElem_range] at hloadi
  exact ⟨maps[i], hloadi, hpermi⟩

/-! ## The map of a level -/

theorem insert_new {m : FileMap} {k : SSTableMetaData} (h : k ∉ m.map Prod.fst) (v : TableReader) :
    m.insert k v = m ++ [(k, v)] := by
  unfold FileMap.insert
  rw [if_neg]
  intro hany
  obtain ⟨e, he, hk⟩ := List.any_eq_true.1 hany
  exact h (List.mem_map.2 ⟨e, he, of_decide_eq_true hk⟩)

theorem keys_insert_old {m : FileMap} {k : SSTableMetaData} (h : k ∈ m.map Prod.fst)
    (v : TableReader) : (m.insert k v).map Prod.fst = m.map Prod.fst := by
  obtain ⟨e, he, rfl⟩ := List.mem_map.1 h
  unfold FileMap.insert
  rw [if_pos (List.any_eq_true.2 ⟨e, he, decide_eq_true rfl⟩), List.map_map]
  refine List.map_congr_left fun x _ => ?_
  rw [Function.comp]
  split
  · rename_i hx
    exact hx.symm
  · rfl

theorem length_insert_le (m : FileMap) (k : SSTableMetaData) (v : TableReader) :
    (m.insert k v).length ≤ m.length + 1 := by
  unfold FileMap.insert
  split <;> simp

/-- Tables with distinct metadata all stay in the map. -/
theorem foldl_insert_distinct : ∀ {ts : List StoredTable} {m : FileMap},
    (m.map Prod.fst ++ ts.map fun t => t.entry.1).Nodup →
      ts.foldl (fun m t => m.insert t.entry.1 t.entry.2) m = m ++ ts.map StoredTable.entry
  | [], m, _ => by rw [List.map_nil, List.append_nil, List.foldl_nil]
  | t :: ts, m, h => by
    have hnew : t.entry.1 ∉ m.map Prod.fst := by
      intro hmem
      exact (List.nodup_append.1 h).2.2 _ hmem _ (.head _) rfl
    rw [List.foldl_cons, insert_new hnew, foldl_insert_distinct]
    · rw [List.append_assoc]
      rfl
    · rw [List.map_append, List.append_assoc]
      exact h

theorem length_foldl_insert_le : ∀ (ts : List StoredTable) (m : FileMap),
    (ts.foldl (fun m t => m.insert t.entry.1 t.entry.2) m).length ≤ m.length + ts.length
  | [], m => Nat.le_refl _
  | t :: ts, m => by
    have hle := length_foldl_insert_le ts (m.insert t.entry.1 t.entry.2)
    have hinsert := length_insert_le m t.entry.1 t.entry.2
    rw [List.foldl_cons, List.length_cons]
    omega

/-- Two tables with the same metadata leave an entry less. -/
theorem nodup_of_length_insert : ∀ (ts : List StoredTable) (m : FileMap),
    (m.map Prod.fst).Nodup →
    (ts.foldl (fun m t => m.insert t.entry.1 t.entry.2) m).length = m.length + ts.length →
      (m.map Prod.fst ++ ts.map fun t => t.entry.1).Nodup
  | [], m, hm, _ => by
    rw [List.map_nil, List.append_nil]
    exact hm
  | t :: ts, m, hm, hlen => by
    rw [List.foldl_cons, List.length_cons] at hlen
    by_cases hmem : t.entry.1 ∈ m.map Prod.fst
    · have hkeys := congrArg List.length (keys_insert_old hmem t.entry.2)
      rw [List.length_map, List.length_map] at hkeys
      have hle := length_foldl_insert_le ts (m.insert t.entry.1 t.entry.2)
      omega
    · rw [insert_new hmem] at hlen
      have ih := nodup_of_length_insert ts (m ++ [(t.entry.1, t.entry.2)]) (by
        rw [List.map_append]
        refine List.nodup_append.2 ⟨hm, List.nodup_singleton _, fun a ha b hb he => hmem ?_⟩
        rw [List.mem_singleton.1 hb] at he
        rwa [← he]) (by
        rw [hlen, List.length_append, List.length_singleton]
        omega)
      rw [List.map_append, List.append_assoc] at ih
      exact ih

theorem loadAll_distinct {ts : List StoredTable} (h : (ts.map fun t => t.entry.1).Nodup) :
    loadAll ts = ts.map StoredTable.entry := foldl_insert_distinct (m := []) h

/-- **The map of a level has all its tables** when no two have the same metadata, and only then. -/
theorem loadAll_perm_iff (ts : List StoredTable) :
    ((loadAll ts).map Prod.snd).Perm (ts.map StoredTable.reader) ↔
      (ts.map fun t => t.entry.1).Nodup := by
  constructor
  · intro h
    have hlen := h.length_eq
    rw [List.length_map, List.length_map] at hlen
    rw [← Nat.zero_add ts.length] at hlen
    exact nodup_of_length_insert ts [] List.nodup_nil hlen
  · intro h
    rw [loadAll_distinct h, List.map_map]
    exact List.Perm.refl _

theorem loadAll_single (t : StoredTable) : loadAll [t] = [t].map StoredTable.entry := rfl

/-! ## The range and the filter of a table -/

namespace StoredTable

variable {t : StoredTable} {key : Bytes}

/-- The table's range and filter admit the key. -/
def admits (t : StoredTable) (key : Bytes) : Bool :=
  inRange t.entry.1 key && match getBloomFilter t.file.bytes with
    | .ok filter => BloomGenerator.probablyExist filter key
    | .error _ => false

theorem inRange_iff : inRange t.entry.1 key = true ↔
    (∀ r ∈ t.rs.head?, compare r.1 key ≠ .gt) ∧ compare key (footerKey (lastKey t.rs)) ≠ .gt := by
  obtain ⟨r, rs', hrs⟩ := List.exists_cons_of_ne_nil t.wellFormed.nonempty
  have hhead : t.sparseIndex.head? = some (0, r.1) := by
    rw [t.wellFormed.indexes.head, hrs]
    rfl
  have hfirst : (t.entry.1.sparseIndex.head?.map Prod.snd).getD [] = r.1 := by
    rw [show t.entry.1.sparseIndex = t.sparseIndex from rfl, hhead]
    rfl
  unfold inRange
  dsimp only
  rw [hfirst, Bool.and_eq_true, bne_iff_ne, bne_iff_ne]
  refine and_congr_left fun _ => ?_
  rw [hrs]
  simp

theorem compare_nil_right (key : Bytes) : compare key [] ≠ .gt ↔ key = [] := by
  cases key with
  | nil => exact ⟨fun _ => rfl, fun _ => by decide⟩
  | cons b bs => exact ⟨fun h => absurd rfl h, fun h => by cases h⟩

theorem compare_nil_left (key : Bytes) : compare [] key ≠ .gt := by
  cases key with
  | nil => decide
  | cons b bs => exact fun h => by cases h

/-- A key that a table admits is not above its last one. -/
theorem le_lastKey_of_admits (h : t.admits key = true) : compare key (lastKey t.rs) ≠ .gt := by
  have hle := (inRange_iff.1 (Bool.and_eq_true_iff.1 h).1).2
  rw [footerKey] at hle
  split at hle
  · exact hle
  · rw [(compare_nil_right key).1 hle]
    exact compare_nil_left _

/-- **A table admits its keys** when its last key can be decoded; else it admits the empty one
only. -/
theorem admits_iff {v : Bytes} (h : (key, v) ∈ t.rs) :
    t.admits key = true ↔ (lastKey t.rs).length ≤ 9996 ∨ key = [] := by
  obtain ⟨filter, hfilter, hexist⟩ := t.wellFormed.getBloomFilter
  have hsorted := t.wellFormed.sorted
  have hfirst : ∀ r ∈ t.rs.head?, compare r.1 key ≠ .gt := by
    intro r hr hgt
    obtain ⟨rs', hrs⟩ := List.head?_eq_some_iff.1 hr
    rw [hrs] at h hsorted
    cases h with
    | head => exact absurd (Std.LawfulEqOrd.compare_eq_iff_eq.2 rfl) (by rw [hgt]; decide)
    | tail _ h =>
      have hlt : compare r.1 key = .lt := (List.pairwise_cons.1 hsorted).1 _ h
      rw [hgt] at hlt
      cases hlt
  have hlast : compare key (lastKey t.rs) ≠ .gt := by
    rcases le_lastKey hsorted _ h with heq | hlt
    · rw [show key = lastKey t.rs from heq, Std.LawfulEqOrd.compare_eq_iff_eq.2 rfl]
      decide
    · rw [show compare key (lastKey t.rs) = .lt from hlt]
      decide
  have hadmits : t.admits key = inRange t.entry.1 key := by
    rw [admits, hfilter]
    dsimp only
    rw [hexist _ h, Bool.and_true]
  rw [hadmits, inRange_iff, footerKey]
  by_cases hshort : (lastKey t.rs).length ≤ 9996
  · rw [if_pos hshort]
    exact ⟨fun _ => .inl hshort, fun _ => ⟨hfirst, hlast⟩⟩
  · rw [if_neg hshort, compare_nil_right]
    exact ⟨fun hr => .inr hr.2, fun hr => ⟨hfirst, hr.resolve_left hshort⟩⟩

end StoredTable

/-! ## Reading -/

/-- The tables that admit a key, newest second first. -/
def admitted (ts : List StoredTable) (key : Bytes) : List StoredTable :=
  (ts.filter (·.admits key)).mergeSort fun a b => b.file.createdSecs ≤ a.file.createdSecs

/-- What a level answers. -/
def levelFind (ts : List StoredTable) (key : Bytes) : Option Bytes :=
  (admitted ts key).findSome? (·.rs.lookup key)

theorem StoredTable.hasFilter (t : StoredTable) : t.reader.HasFilter := by
  obtain ⟨filter, hfilter, -⟩ := t.wellFormed.getBloomFilter
  exact ⟨filter, hfilter⟩

/-- A table that admits a key answers it with its record. -/
theorem StoredTable.answer_reader {t : StoredTable} {key : Bytes} (h : t.admits key = true) :
    t.reader.answer key = (t.rs.lookup key).map .ok := by
  have hmay : t.reader.mayHold key = true := h
  have hsearch : t.reader.search key = .ok (t.rs.lookup key) :=
    t.wellFormed.search_eq_lookup t.file.created (StoredTable.le_lastKey_of_admits h)
  rw [answer_of_search hmay, hsearch]
  cases t.rs.lookup key with
  | some v => rfl
  | none => rfl

theorem findSome?_reader {key : Bytes} : ∀ {ts : List StoredTable},
    (∀ t ∈ ts, t.admits key = true) → ts.findSome? (·.reader.answer key) =
      (ts.findSome? (·.rs.lookup key)).map .ok
  | [], _ => rfl
  | t :: ts, h => by
    rw [List.findSome?_cons, List.findSome?_cons, StoredTable.answer_reader (h t (.head _))]
    cases t.rs.lookup key with
    | some v => rfl
    | none => exact findSome?_reader fun u hu => h u (.tail _ hu)

/-- What ends the search of the level is what it answers. -/
theorem levelAnswer_readers (ts : List StoredTable) (key : Bytes) :
    levelAnswer (ts.map StoredTable.reader) key = (levelFind ts key).map .ok := by
  have hfilter : (ts.map StoredTable.reader).filter (·.mayHold key) =
      (ts.filter (·.admits key)).map StoredTable.reader := List.filter_map
  have hsort : bySecond ((ts.filter (·.admits key)).map StoredTable.reader) =
      (admitted ts key).map StoredTable.reader :=
    (List.map_mergeSort (f := StoredTable.reader) fun _ _ _ _ => rfl).symm
  rw [levelAnswer, hfilter, hsort, List.findSome?_map]
  exact findSome?_reader fun t ht => (List.mem_filter.1 (List.mem_mergeSort.1 ht)).2

/-- Reading a level: its tables are searched, newest second first. -/
theorem readLevels_cons (ts : List StoredTable) (key : Bytes) (rest : List FileMap)
    (tables levels : Nat) : ∃ tables',
    readLevels key (ts.map StoredTable.entry :: rest) tables levels =
      match levelFind ts key with
      | some v => .ok (.found v tables' (levels + 1))
      | none => readLevels key rest tables' (levels + 1) := by
  have hfilter : ∀ t ∈ ts.map StoredTable.reader, t.HasFilter := by
    intro t ht
    obtain ⟨t, -, rfl⟩ := List.mem_map.1 ht
    exact t.hasFilter
  obtain ⟨tables', hread⟩ := readLevels_entries key hfilter rest tables levels
  refine ⟨tables', ?_⟩
  rw [List.map_map, levelAnswer_readers] at hread
  rw [show ts.map StoredTable.entry = ts.map (TableReader.entry ∘ StoredTable.reader) from rfl, hread]
  cases levelFind ts key with
  | some v => rfl
  | none => rfl

theorem readLevels_pass {key : Bytes} (rest : List FileMap) : ∀ {above : List (List StoredTable)},
    (∀ ts ∈ above, levelFind ts key = none) → ∀ tables levels, ∃ tables',
      readLevels key (above.map (·.map StoredTable.entry) ++ rest) tables levels =
        readLevels key rest tables' (levels + above.length)
  | [], _, tables, levels => ⟨tables, rfl⟩
  | ts :: above, h, tables, levels => by
    obtain ⟨tables', hread⟩ :=
      readLevels_cons ts key (above.map (·.map StoredTable.entry) ++ rest) tables levels
    obtain ⟨tables'', ih⟩ :=
      readLevels_pass rest (fun us hu => h us (.tail _ hu)) tables' (levels + 1)
    refine ⟨tables'', ?_⟩
    rw [List.map_cons, List.cons_append, hread, h ts (.head _)]
    dsimp only
    rw [ih, List.length_cons, Nat.add_right_comm, Nat.add_assoc]

/-- **The first level that answers** gives the result. -/
theorem read_found {key v : Bytes} {above : List (List StoredTable)} {ts : List StoredTable}
    (habove : ∀ us ∈ above, levelFind us key = none) (h : levelFind ts key = some v)
    (rest : List FileMap) : ∃ tables levels,
      read (above.map (·.map StoredTable.entry) ++ ts.map StoredTable.entry :: rest) key =
        .ok (.found v tables levels) := by
  obtain ⟨tables, hpass⟩ := readLevels_pass (ts.map StoredTable.entry :: rest) habove 0 0
  obtain ⟨tables', hread⟩ := readLevels_cons ts key rest tables (0 + above.length)
  rw [h] at hread
  refine ⟨tables', 0 + above.length + 1, ?_⟩
  rw [read, hpass, hread]
  rfl

theorem read_missing {key : Bytes} (above : List (List StoredTable))
    (habove : ∀ us ∈ above, levelFind us key = none) : ∃ tables levels,
      read (above.map (·.map StoredTable.entry)) key = .ok (.missing tables levels) := by
  obtain ⟨tables, hpass⟩ := readLevels_pass [] habove 0 0
  refine ⟨tables, 0 + above.length, ?_⟩
  rw [List.append_nil] at hpass
  rw [read, hpass]
  rfl

/-! ## What a level answers -/

theorem levelFind_none {ts : List StoredTable} {key : Bytes}
    (h : ∀ t ∈ ts, t.admits key = true → t.rs.lookup key = none) : levelFind ts key = none := by
  refine List.findSome?_eq_none_iff.2 fun t ht => ?_
  obtain ⟨hmem, hadmits⟩ := List.mem_filter.1 (List.mem_mergeSort.1 ht)
  exact h t hmem hadmits

@[simp] theorem levelFind_nil (key : Bytes) : levelFind [] key = none :=
  levelFind_none fun _ ht => absurd ht List.not_mem_nil

theorem levelFind_single (t : StoredTable) (key : Bytes) :
    levelFind [t] key = if t.admits key = true then t.rs.lookup key else none := by
  rw [levelFind, admitted, List.filter_cons]
  split
  · simp
  · simp

/-- The table has a record of the key and admits it: its last key can be decoded, or the key is the
empty one. -/
def StoredTable.Shows (t : StoredTable) (key : Bytes) : Prop :=
  (∃ v, (key, v) ∈ t.rs) ∧ ((lastKey t.rs).length ≤ 9996 ∨ key = [])

theorem mem_admitted {ts : List StoredTable} {t : StoredTable} {key : Bytes} :
    t ∈ admitted ts key ↔ t ∈ ts ∧ t.admits key = true := by
  rw [admitted, List.mem_mergeSort, List.mem_filter]

theorem shows_iff {t : StoredTable} {key : Bytes} :
    t.Shows key ↔ t.admits key = true ∧ ∃ v, t.rs.lookup key = some v := by
  constructor
  · rintro ⟨⟨v, hv⟩, hshort⟩
    exact ⟨(StoredTable.admits_iff hv).2 hshort, v, t.wellFormed.sorted.lookup_of_mem hv⟩
  · rintro ⟨hadmits, v, hv⟩
    have hmem := mem_of_lookup hv
    exact ⟨⟨v, hmem⟩, (StoredTable.admits_iff hmem).1 hadmits⟩

theorem admitted_sorted (ts : List StoredTable) (key : Bytes) : (admitted ts key).Pairwise
    fun a b => b.file.createdSecs ≤ a.file.createdSecs := by
  have hsorted := @List.pairwise_mergeSort StoredTable
    (fun a b => decide (b.file.createdSecs ≤ a.file.createdSecs))
    (fun a b c h1 h2 => by simp at *; omega) (fun a b => by simp; omega)
    (ts.filter (·.admits key))
  exact hsorted.imp fun h => of_decide_eq_true h

/-- An answer comes from a table of the last second that shows the key. -/
theorem levelFind_some {ts : List StoredTable} {key v : Bytes} (h : levelFind ts key = some v) :
    ∃ t ∈ ts, t.Shows key ∧ t.rs.lookup key = some v ∧
      ∀ u ∈ ts, u.Shows key → u.file.createdSecs ≤ t.file.createdSecs := by
  obtain ⟨before, t, after, hsplit, hv, hbefore⟩ := List.findSome?_eq_some_iff.1 h
  have hsorted := admitted_sorted ts key
  rw [hsplit] at hsorted
  obtain ⟨hmem, hadmits⟩ := mem_admitted.1 (show t ∈ admitted ts key by rw [hsplit]; simp)
  refine ⟨t, hmem, shows_iff.2 ⟨hadmits, v, hv⟩, hv, fun u hu hshows => ?_⟩
  obtain ⟨huadmits, w, hw⟩ := shows_iff.1 hshows
  have huin : u ∈ before ++ t :: after := by rw [← hsplit]; exact mem_admitted.2 ⟨hu, huadmits⟩
  rcases List.mem_append.1 huin with hin | hin
  · rw [hbefore u hin] at hw
    cases hw
  · cases hin with
    | head => exact Nat.le_refl _
    | tail _ hin => exact (List.pairwise_cons.1 (List.pairwise_append.1 hsorted).2.1).1 u hin

/-- A table that shows the key makes the level answer. -/
theorem levelFind_isSome {ts : List StoredTable} {key : Bytes} {t : StoredTable} (ht : t ∈ ts)
    (h : t.Shows key) : ∃ v, levelFind ts key = some v := by
  obtain ⟨hadmits, v, hv⟩ := shows_iff.1 h
  cases hfind : levelFind ts key with
  | some w => exact ⟨w, rfl⟩
  | none =>
    rw [List.findSome?_eq_none_iff.1 hfind t (mem_admitted.2 ⟨ht, hadmits⟩)] at hv
    cases hv

/-- In some order of the level, a table of the last second that shows the key answers. -/
theorem exists_levelFind {ts : List StoredTable} {key : Bytes} {t : StoredTable} (ht : t ∈ ts)
    (h : t.Shows key) (hlast : ∀ u ∈ ts, u.Shows key → u.file.createdSecs ≤ t.file.createdSecs) :
    ∃ ts' : List StoredTable, ts'.Perm ts ∧ levelFind ts' key = t.rs.lookup key := by
  obtain ⟨pre, post, rfl⟩ := List.append_of_mem ht
  obtain ⟨hadmits, v, hv⟩ := shows_iff.1 h
  refine ⟨t :: (pre ++ post), List.perm_middle.symm, ?_⟩
  obtain ⟨before, after, hsplit, -, hbefore⟩ := @List.mergeSort_cons StoredTable
    (fun a b => decide (b.file.createdSecs ≤ a.file.createdSecs))
    (fun a b c h1 h2 => by simp at *; omega) (fun a b => by simp; omega) t
    ((pre ++ post).filter (·.admits key))
  have hadmitted : admitted (t :: (pre ++ post)) key = before ++ t :: after := by
    rw [admitted, List.filter_cons, if_pos hadmits]
    exact hsplit
  rw [levelFind, hadmitted, hv]
  -- the tables in front of it are of a later second, so they do not show the key
  refine List.findSome?_eq_some_iff.2 ⟨before, t, after, rfl, hv, fun u hu => ?_⟩
  have hlater : t.file.createdSecs < u.file.createdSecs := by simpa using hbefore u hu
  obtain ⟨hmem, huadmits⟩ := mem_admitted.1
    (show u ∈ admitted (t :: (pre ++ post)) key by rw [hadmitted]; exact List.mem_append_left _ hu)
  cases hw : u.rs.lookup key with
  | none => rfl
  | some w =>
    have hle := hlast u (List.perm_middle.symm.subset hmem) (shows_iff.2 ⟨huadmits, w, hw⟩)
    omega

/-- An order of a level's map is an order of its tables. -/
theorem exists_perm_of_map {ts : List StoredTable} {map : FileMap}
    (h : map.Perm (ts.map StoredTable.entry)) :
    ∃ ts' : List StoredTable, ts'.Perm ts ∧ map = ts'.map StoredTable.entry := by
  have hcomp := congrFun (congrFun (List.eq_map_comp_perm StoredTable.entry) map) ts
  obtain ⟨ts', hmap, hperm⟩ := hcomp.mpr h
  exact ⟨ts', hperm, hmap⟩

end Lsm
