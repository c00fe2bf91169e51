import SwiftMerge.Memtable.Proof.TableReads

/-!
# Levels of several tables

A level is loaded whole when no two of its tables agree in the second of their creation, the sparse
index and the decoded last key (`loadsWhole_iff`); tables of one second whose values differ but are
equally long may agree in them (`same_second_lost`). A loaded level answers a key with the record of
the table created last, in every order of its map, when the tables of the last second that show the
key have that record (`readsNewest_iff`); otherwise the order decides (`same_second_older`).
-/

namespace Mem

open Lib Lsm Compaction

/-! ## Loading -/

/-- `readFooter` decodes the last key as the empty one. -/
def Undecoded (key : Bytes) : Prop := key = [] ∨ 9996 < key.length

theorem footerKey_eq_iff {a b : Bytes} :
    footerKey a = footerKey b ↔ a = b ∨ (Undecoded a ∧ Undecoded b) := by
  have hempty : ∀ {key : Bytes}, footerKey key = [] ↔ Undecoded key := by
    intro key
    unfold footerKey Undecoded
    split
    · rename_i hle
      exact ⟨.inl, fun h => h.resolve_right (by omega)⟩
    · rename_i hlong
      exact ⟨fun _ => .inr (by omega), fun _ => rfl⟩
  have hdecoded : ∀ {key : Bytes}, ¬Undecoded key → footerKey key = key := by
    intro key h
    exact if_pos (Nat.le_of_not_lt fun hlt => h (.inr hlt))
  by_cases ha : Undecoded a
  · rw [hempty.2 ha]
    constructor
    · exact fun h => .inr ⟨ha, hempty.1 h.symm⟩
    · rintro (rfl | ⟨-, hb⟩)
      · exact (hempty.2 ha).symm
      · exact (hempty.2 hb).symm
  · rw [hdecoded ha]
    constructor
    · intro h
      by_cases hb : Undecoded b
      · rw [hempty.2 hb] at h
        exact absurd (.inl h) ha
      · exact .inl (h.trans (hdecoded hb))
    · rintro (rfl | ⟨ha', -⟩)
      · exact (hdecoded ha).symm
      · exact absurd ha' ha

/-- The tables have the same key in the map of their level. -/
structure SameMetadata (t u : StoredTable) : Prop where
  second : t.file.createdSecs = u.file.createdSecs
  sparseIndex : t.sparseIndex = u.sparseIndex
  lastKey : lastKey t.rs = lastKey u.rs ∨ (Undecoded (lastKey t.rs) ∧ Undecoded (lastKey u.rs))

theorem sameMetadata_iff {t u : StoredTable} : SameMetadata t u ↔ t.entry.1 = u.entry.1 := by
  have hentry : t.entry.1 = u.entry.1 ↔ t.file.createdSecs = u.file.createdSecs ∧
      t.sparseIndex = u.sparseIndex ∧ footerKey (lastKey t.rs) = footerKey (lastKey u.rs) :=
    SSTableMetaData.mk.injEq .. ▸ Iff.rfl
  rw [hentry, footerKey_eq_iff]
  exact ⟨fun ⟨h1, h2, h3⟩ => ⟨h1, h2, h3⟩, fun ⟨h1, h2, h3⟩ => ⟨h1, h2, h3⟩⟩

/-- Loading the disk gives a reader for each table of each level. -/
def LoadsWhole (d : Disk) (tables : Nat → List StoredTable) : Prop :=
  ∃ maps : List FileMap, createLevelArray d = .ok maps ∧
    ∀ (i : Nat) (map : FileMap), maps[i]? = some map →
    (map.map Prod.snd).Perm ((tables (i + 1)).map StoredTable.reader)

section
variable {d : Disk} {tables : Nat → List StoredTable}

theorem loadsWhole_iff_nodup
    (h : ∀ level, 1 ≤ level → level ≤ d.levels → TablesOf (d.dir level) (tables level)) :
    LoadsWhole d tables ↔
      ∀ level, 1 ≤ level → level ≤ d.levels → ((tables level).map fun t => t.entry.1).Nodup := by
  have harray := createLevelArray_eq tables h
  have hget : ∀ i, i < d.levels → ((List.range d.levels).map fun i => loadAll (tables (i + 1)))[i]? =
      some (loadAll (tables (i + 1))) := by
    intro i hi
    rw [List.getElem?_map, List.getElem?_range hi]
    rfl
  constructor
  · rintro ⟨maps, hmaps, hperm⟩ level hpos hle
    obtain ⟨i, rfl⟩ : ∃ i, level = i + 1 := ⟨level - 1, by omega⟩
    rw [harray, Except.ok.injEq] at hmaps
    subst hmaps
    exact (loadAll_perm_iff _).1 (hperm i _ (hget i hle))
  · intro hnodup
    refine ⟨_, harray, fun i map hi => ?_⟩
    have hlt : i < d.levels := by
      have := (List.getElem?_eq_some_iff.1 hi).1
      rwa [List.length_map, List.length_range] at this
    rw [hget i hlt, Option.some.injEq] at hi
    rw [← hi]
    exact (loadAll_perm_iff _).2 (hnodup (i + 1) (by omega) hlt)

/-- **Every table is loaded** when no two tables of a level have the same metadata, and only
then. -/
theorem loadsWhole_iff
    (h : ∀ level, 1 ≤ level → level ≤ d.levels → TablesOf (d.dir level) (tables level)) :
    LoadsWhole d tables ↔ ∀ level, 1 ≤ level → level ≤ d.levels →
      (tables level).Pairwise fun t u => ¬SameMetadata t u := by
  rw [loadsWhole_iff_nodup h]
  refine forall_congr' fun level => forall_congr' fun _ => forall_congr' fun _ => ?_
  rw [List.nodup_iff_pairwise_ne, List.pairwise_map]
  simp only [sameMetadata_iff, ne_eq]

end

/-! ### Two flushes in one second -/

/-- Two tables of one level, created one nanosecond after the other. -/
def pairDisk (bytes bytes' : Bytes) : Disk :=
  (({ Disk.empty 0 with levels := 1 }.write Platform.plain ⟨1, "a.bin"⟩ bytes).write
    Platform.plain ⟨1, "b.bin"⟩ bytes')

theorem dir_pairDisk (bytes bytes' : Bytes) : (pairDisk bytes bytes').dir 1 =
    [("b.bin", ⟨1, bytes'⟩), ("a.bin", ⟨0, bytes⟩)] := rfl

theorem levels_pairDisk (bytes bytes' : Bytes) : (pairDisk bytes bytes').levels = 1 := rfl

/-- The stored table of a flush of one key. -/
def oneKeyStored (created : Nat) (key value : Bytes) (hk : key.length < 2 ^ 31)
    (hv : value.length < 2 ^ 31) : StoredTable where
  file := ⟨created, oneKeyTable key value⟩
  sparseIndex := [(0, key)]
  rs := [oneRecord key value]
  wellFormed := wellFormed_oneKey hk hv

/-- The tables of a `pairDisk`, as the directory lists them. -/
def pairTables (key key' value value' : Bytes) (hk : key.length < 2 ^ 31) (hk' : key'.length < 2 ^ 31)
    (hv : value.length < 2 ^ 31) (hv' : value'.length < 2 ^ 31) : Nat → List StoredTable :=
  fun _ => [oneKeyStored 1 key' value' hk' hv', oneKeyStored 0 key value hk hv]

theorem tablesOf_pairDisk {key key' value value' : Bytes} (hk : key.length < 2 ^ 31)
    (hk' : key'.length < 2 ^ 31) (hv : value.length < 2 ^ 31) (hv' : value'.length < 2 ^ 31)
    (level : Nat) (hpos : 1 ≤ level)
    (hle : level ≤ (pairDisk (oneKeyTable key value) (oneKeyTable key' value')).levels) :
    TablesOf ((pairDisk (oneKeyTable key value) (oneKeyTable key' value')).dir level)
      (pairTables key key' value value' hk hk' hv hv' level) := by
  obtain rfl : level = 1 := by
    rw [levels_pairDisk] at hle
    omega
  rw [dir_pairDisk, TablesOf, List.filter_cons, if_pos (show isBin "b.bin" = true by decide),
    List.filter_cons, if_pos (show isBin "a.bin" = true by decide)]
  rfl

theorem two_keys_loaded : LoadsWhole (pairDisk (oneKeyTable [107] [118]) (oneKeyTable [108] [118]))
    (pairTables [107] [108] [118] [118] (by decide) (by decide) (by decide) (by decide)) := by
  refine (loadsWhole_iff (tablesOf_pairDisk _ _ _ _)).2 fun level _ _ => ?_
  refine List.pairwise_pair.2 fun h => ?_
  exact absurd h.sparseIndex (show ¬[(0, [108])] = [(0, ([107] : Bytes))] by decide)

/-- **A table is lost**: two flushes of a key within a second, with values of one length. -/
theorem same_second_lost :
    ¬LoadsWhole (pairDisk (oneKeyTable [107] [118]) (oneKeyTable [107] [119]))
      (pairTables [107] [107] [118] [119] (by decide) (by decide) (by decide) (by decide)) := by
  intro h
  have hnodup := (loadsWhole_iff_nodup (tablesOf_pairDisk _ _ _ _)).1 h 1 (Nat.le_refl _)
    (Nat.le_of_eq (levels_pairDisk _ _).symm)
  have hsame : SameMetadata (oneKeyStored 1 [107] [119] (by decide) (by decide))
      (oneKeyStored 0 [107] [118] (by decide) (by decide)) := ⟨rfl, rfl, .inl rfl⟩
  exact List.pairwise_pair.1 (List.pairwise_map.1 (List.nodup_iff_pairwise_ne.1 hnodup))
    (sameMetadata_iff.1 hsame)

/-! ## Reading -/

/-- The table of the level created last of those with a record of the key. -/
structure NewestTable (ts : List StoredTable) (key : Bytes) (newest : StoredTable) : Prop where
  mem : newest ∈ ts
  holds : ∃ v, (key, v) ∈ newest.rs
  last : ∀ t ∈ ts, (∃ v, (key, v) ∈ t.rs) → t.file.created ≤ newest.file.created

/-- In every order of the level's map, and whatever the levels below, reading the key gives the
record of the table created last. -/
def ReadsNewest (above : List (List StoredTable)) (ts : List StoredTable) (key : Bytes) : Prop :=
  ∀ newest, NewestTable ts key newest → ∀ (map : FileMap) (rest : List FileMap),
    map.Perm (ts.map StoredTable.entry) → ∃ v tables levels, (key, v) ∈ newest.rs ∧
      read (above.map (·.map StoredTable.entry) ++ map :: rest) key = .ok (.found v tables levels)

section
variable {above : List (List StoredTable)} {ts : List StoredTable} {key : Bytes}

theorem levelFind_eq_of_read (habove : ∀ us ∈ above, levelFind us key = none) {v : Bytes}
    {tables levels : Nat} (h : read (above.map (·.map StoredTable.entry) ++
      ts.map StoredTable.entry :: []) key = .ok (.found v tables levels)) :
    levelFind ts key = some v := by
  cases hfind : levelFind ts key with
  | some w =>
    obtain ⟨tables', levels', hread⟩ := read_found habove hfind []
    rw [hread, Except.ok.injEq, SearchResult.found.injEq] at h
    rw [h.1]
  | none =>
    have hall : ∀ us ∈ above ++ [ts], levelFind us key = none := by
      intro us hus
      cases List.mem_append.1 hus with
      | inl hin => exact habove us hin
      | inr hin => rw [List.mem_singleton.1 hin, hfind]
    obtain ⟨tables', levels', hread⟩ := read_missing _ hall
    rw [List.map_append, List.map_singleton, h, Except.ok.injEq] at hread
    cases hread

/-- **The newest table wins in every order** when some table shows the key and those of the last
second that do have its newest record, and only then. -/
theorem readsNewest_iff {newest : StoredTable} (h : NewestTable ts key newest)
    (habove : ∀ us ∈ above, ∀ t ∈ us, t.rs.lookup key = none) :
    ReadsNewest above ts key ↔ (∃ t ∈ ts, t.Shows key) ∧ ∀ newest, NewestTable ts key newest →
      ∀ t ∈ ts, t.Shows key → (∀ u ∈ ts, u.Shows key → u.file.createdSecs ≤ t.file.createdSecs) →
        t.rs.lookup key = newest.rs.lookup key := by
  have hpass : ∀ us ∈ above, levelFind us key = none := fun us hus =>
    levelFind_none fun t ht _ => habove us hus t ht
  constructor
  · intro hreads
    constructor
    · obtain ⟨v, tables, levels, -, hread⟩ := hreads newest h _ [] (List.Perm.refl _)
      obtain ⟨t, ht, hshows, -⟩ := levelFind_some (levelFind_eq_of_read hpass hread)
      exact ⟨t, ht, hshows⟩
    · intro newest' h' t ht hshows hlast
      obtain ⟨ts', hperm, hfind⟩ := exists_levelFind ht hshows hlast
      obtain ⟨v, tables, levels, hv, hread⟩ := hreads newest' h' _ [] (hperm.map _)
      rw [← hfind, levelFind_eq_of_read hpass hread, newest'.wellFormed.sorted.lookup_of_mem hv]
  · rintro ⟨⟨t, ht, hshows⟩, hagree⟩ newest' h' map rest hmap
    obtain ⟨ts', hperm, rfl⟩ := exists_perm_of_map hmap
    obtain ⟨v, hfind⟩ := levelFind_isSome (hperm.symm.subset ht) hshows
    obtain ⟨u, hu, hushows, huv, hulast⟩ := levelFind_some hfind
    have hnewest := hagree newest' h' u (hperm.subset hu) hushows fun x hx hxshows =>
      hulast x (hperm.symm.subset hx) hxshows
    obtain ⟨tables, levels, hread⟩ := read_found hpass hfind rest
    exact ⟨v, tables, levels, mem_of_lookup (hnewest.symm.trans huv), hread⟩

end

/-! ### Two tables with the key -/

/-- A memtable of the keys `[106]` and `[107]`. -/
def twoKeyRepr : InMemoryRepr := (oneKeyRepr [107] [119]).insert [106] (some ⟨[120], none⟩)

theorem records_twoKey : records twoKeyRepr = [oneRecord [106] [120], oneRecord [107] [119]] := by
  decide

/-- Its stored table. -/
def twoKeyStored (created : Nat) : StoredTable where
  file := ⟨created, flushBuffer Platform.plain twoKeyRepr ⟨0x3FA999999999999A⟩⟩
  sparseIndex := flushIndex Platform.plain twoKeyRepr
  rs := records twoKeyRepr
  wellFormed := wellFormed_flushBuffer (fun he => by
    have hrecords := records_twoKey
    rw [he] at hrecords
    cases hrecords) (by constructor <;> decide) _ (by rw [length_flushBuffer]; decide)

/-- A level with an older and a newer table of the key `[107]`. -/
def twoTables (created : Nat) : List StoredTable :=
  [oneKeyStored 0 [107] [118] (by decide) (by decide), twoKeyStored created]

theorem newest_twoTables {created : Nat} (h : 0 < created) {newest : StoredTable} :
    NewestTable (twoTables created) [107] newest ↔ newest = twoKeyStored created := by
  have holds : ∃ v, (([107] : Bytes), v) ∈ (twoKeyStored created).rs := by
    refine ⟨(oneRecord [107] [119]).2, ?_⟩
    change oneRecord [107] [119] ∈ records twoKeyRepr
    rw [records_twoKey]
    exact .tail _ (.head _)
  constructor
  · rintro ⟨hmem, -, hlast⟩
    have hle : created ≤ newest.file.created := hlast _ (.tail _ (.head _)) holds
    cases hmem with
    | head => exact absurd hle (by change ¬created ≤ 0; omega)
    | tail _ hmem => exact List.mem_singleton.1 hmem
  · rintro rfl
    refine ⟨.tail _ (.head _), holds, fun t ht _ => ?_⟩
    cases ht with
    | head => exact Nat.zero_le _
    | tail _ ht =>
      rw [List.mem_singleton.1 ht]

theorem lookup_twoKey (created : Nat) :
    (twoKeyStored created).rs.lookup [107] = some (oneRecord [107] [119]).2 := by
  change (records twoKeyRepr).lookup [107] = _
  rw [records_twoKey]
  decide

theorem shows_twoKey (created : Nat) : (twoKeyStored created).Shows [107] := by
  refine ⟨⟨_, mem_of_lookup (lookup_twoKey created)⟩, .inl ?_⟩
  change (lastKey (records twoKeyRepr)).length ≤ 9996
  rw [records_twoKey]
  decide

theorem later_second_wins : ReadsNewest [] (twoTables (10 ^ 9)) [107] := by
  have hpos : 0 < 10 ^ 9 := by decide
  refine (readsNewest_iff ((newest_twoTables hpos).2 rfl) (by simp)).2
    ⟨⟨_, .tail _ (.head _), shows_twoKey _⟩, fun newest h t ht _ hlast => ?_⟩
  rw [(newest_twoTables hpos).1 h]
  have hle := hlast _ (.tail _ (.head _)) (shows_twoKey _)
  cases ht with
  | head => exact absurd hle (show ¬10 ^ 9 / 10 ^ 9 ≤ 0 / 10 ^ 9 by decide)
  | tail _ ht => rw [List.mem_singleton.1 ht]

/-- **Within a second the order decides**: iterated first, the older table answers. -/
theorem same_second_older : ¬ReadsNewest [] (twoTables 1) [107] := by
  intro h
  have hshows : (oneKeyStored 0 [107] [118] (by decide) (by decide)).Shows [107] :=
    ⟨⟨_, .head _⟩, .inl (show (lastKey [oneRecord [107] [118]]).length ≤ 9996 by decide)⟩
  -- both tables are of the second 0
  have hlast : ∀ u ∈ twoTables 1, u.Shows [107] → u.file.createdSecs ≤
      (oneKeyStored 0 [107] [118] (by decide) (by decide)).file.createdSecs := by
    intro u hu _
    cases hu with
    | head => exact Nat.le_refl _
    | tail _ hu =>
      rw [List.mem_singleton.1 hu]
      exact (show 1 / 10 ^ 9 ≤ 0 / 10 ^ 9 by decide)
  obtain ⟨ts', hperm, hfind⟩ := exists_levelFind (.head _) hshows hlast
  obtain ⟨v, tables, levels, hv, hread⟩ :=
    h _ ((newest_twoTables Nat.one_pos).2 rfl) _ [] (hperm.map _)
  have hnewest := (twoKeyStored 1).wellFormed.sorted.lookup_of_mem hv
  have hv' := levelFind_eq_of_read (fun us hus => absurd hus List.not_mem_nil) hread
  rw [lookup_twoKey] at hnewest
  rw [hfind, ← hnewest] at hv'
  exact absurd hv' (show ¬[oneRecord [107] [118]].lookup [107] = some (oneRecord [107] [119]).2 by
    decide)

end Mem
