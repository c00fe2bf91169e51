import SwiftMerge.Lsm.Proof.LevelProof

/-!
# Reading the whole array of levels

A level is readable when the last keys of its tables can be decoded and its tables of one second
share no key. Then ranges, filters, the sparse indexes and the order of the map leave no trace: the
level answers as its tables stacked, the one created last on top (`levelFind_eq_overlay`), and so
does the array, level by level (`read_eq_overlay`).
-/

namespace Lsm

open Lib

/-! ## A level -/

/-- The tables have no key in common. -/
def KeysApart (t u : StoredTable) : Prop := ∀ r ∈ t.rs, ∀ r' ∈ u.rs, r.1 ≠ r'.1

theorem KeysApart.symm {t u : StoredTable} (h : KeysApart t u) : KeysApart u t :=
  fun r hr r' hr' he => h r' hr' r hr he.symm

/-- A level that its reader can tell the tables of. -/
structure Readable (ts : List StoredTable) : Prop where
  short : ∀ t ∈ ts, (lastKey t.rs).length ≤ 9996
  apart : ts.Pairwise fun t u => t.file.createdSecs = u.file.createdSecs → KeysApart t u

/-- The tables of a level, the one created last first. -/
def newestFirst (ts : List StoredTable) : List StoredTable :=
  ts.mergeSort fun a b => b.file.created ≤ a.file.created

/-- The runs of a level, in the order of their age. -/
def levelRuns (ts : List StoredTable) : List (List Record) := (newestFirst ts).map StoredTable.rs

variable {ts : List StoredTable} {key : Bytes}

theorem mem_newestFirst {t : StoredTable} : t ∈ newestFirst ts ↔ t ∈ ts := List.mem_mergeSort

theorem newestFirst_sorted (ts : List StoredTable) :
    (newestFirst ts).Pairwise fun a b => b.file.created ≤ a.file.created := by
  have hsorted := @List.pairwise_mergeSort StoredTable
    (fun a b => decide (b.file.created ≤ a.file.created))
    (fun a b c h1 h2 => by simp at *; omega) (fun a b => by simp; omega) ts
  exact hsorted.imp fun h => of_decide_eq_true h

/-- Two tables of one second that have a key are one. -/
theorem Readable.eq_of_second (h : Readable ts) {t u : StoredTable} (ht : t ∈ ts) (hu : u ∈ ts)
    {v w : Bytes} (htv : (key, v) ∈ t.rs) (huw : (key, w) ∈ u.rs)
    (hsec : t.file.createdSecs = u.file.createdSecs) : t = u := by
  by_contra hne
  have hsymm : Std.Symm fun t u : StoredTable =>
      t.file.createdSecs = u.file.createdSecs → KeysApart t u :=
    ⟨fun _ _ h he => (h he.symm).symm⟩
  exact h.apart.forall ht hu hne hsec _ htv _ huw rfl

/-- **A readable level answers as its stacked tables.** -/
theorem levelFind_eq_overlay (h : Readable ts) (key : Bytes) :
    levelFind ts key = overlay (levelRuns ts) key := by
  have hshows : ∀ {t v}, t ∈ ts → t.rs.lookup key = some v → t.Shows key :=
    fun ht hv => ⟨⟨_, mem_of_lookup hv⟩, .inl (h.short _ ht)⟩
  rw [overlay, levelRuns, List.findSome?_map]
  cases hstack : (newestFirst ts).findSome? fun t => t.rs.lookup key with
  | none =>
    refine (levelFind_none fun t ht _ => ?_).trans hstack.symm
    exact List.findSome?_eq_none_iff.1 hstack t (mem_newestFirst.2 ht)
  | some v =>
    refine Eq.trans ?_ hstack.symm
    obtain ⟨before, t, after, hsplit, hv, hbefore⟩ := List.findSome?_eq_some_iff.1 hstack
    have ht : t ∈ ts := mem_newestFirst.1 (by rw [hsplit]; simp)
    obtain ⟨w, hw⟩ := levelFind_isSome ht (hshows ht hv)
    obtain ⟨u, hu, -, hu', hlast⟩ := levelFind_some hw
    -- the table that answers is behind the first of the stack, and of no earlier second
    have hle : u.file.created ≤ t.file.created := by
      have hsorted := newestFirst_sorted ts
      rw [hsplit] at hsorted
      have hmem := mem_newestFirst.2 hu
      rw [hsplit] at hmem
      rcases List.mem_append.1 hmem with hmem | hmem
      · rw [hbefore u hmem] at hu'
        cases hu'
      · cases hmem with
        | head => exact Nat.le_refl _
        | tail _ hmem => exact (List.pairwise_cons.1 (List.pairwise_append.1 hsorted).2.1).1 u hmem
    have hsec : t.file.createdSecs = u.file.createdSecs :=
      Nat.le_antisymm (hlast t ht (hshows ht hv)) (Nat.div_le_div_right hle)
    rw [h.eq_of_second ht hu (mem_of_lookup hv) (mem_of_lookup hu') hsec, hu'] at hv
    rw [hw, hv]

/-- **The order of the level's map** does not matter. -/
theorem Readable.levelFind_perm (h : Readable ts) {ts' : List StoredTable} (hp : ts'.Perm ts)
    (key : Bytes) : levelFind ts' key = levelFind ts key := by
  cases hfind : levelFind ts key with
  | none =>
    cases hfind' : levelFind ts' key with
    | none => rfl
    | some v =>
      obtain ⟨t, ht, hshows, -⟩ := levelFind_some hfind'
      obtain ⟨w, hw⟩ := levelFind_isSome (hp.subset ht) hshows
      rw [hfind] at hw
      cases hw
  | some v =>
    obtain ⟨t, ht, hshows, hv, hlast⟩ := levelFind_some hfind
    obtain ⟨w, hw⟩ := levelFind_isSome (hp.symm.subset ht) hshows
    obtain ⟨u, hu, hushows, hu', hulast⟩ := levelFind_some hw
    have hsec : t.file.createdSecs = u.file.createdSecs :=
      Nat.le_antisymm (hulast t (hp.symm.subset ht) hshows) (hlast u (hp.subset hu) hushows)
    rw [h.eq_of_second ht (hp.subset hu) (mem_of_lookup hv) (mem_of_lookup hu') hsec, hu'] at hv
    rw [hw, hv]

/-- Its tables have keys of their own in the level's map. -/
theorem Readable.nodup (h : Readable ts) : (ts.map fun t => t.entry.1).Nodup := by
  rw [List.nodup_iff_pairwise_ne, List.pairwise_map]
  refine h.apart.imp fun {t u} hapart he => ?_
  -- tables of one sparse index have the first key in common
  have hsec : t.file.createdSecs = u.file.createdSecs :=
    congrArg SSTableMetaData.creationTimestamp he
  have hindex : t.sparseIndex = u.sparseIndex := congrArg SSTableMetaData.sparseIndex he
  obtain ⟨r, rs, hr⟩ := List.exists_cons_of_ne_nil t.wellFormed.nonempty
  obtain ⟨r', rs', hr'⟩ := List.exists_cons_of_ne_nil u.wellFormed.nonempty
  have hhead := t.wellFormed.indexes.head
  rw [hindex, u.wellFormed.indexes.head, hr, hr'] at hhead
  have hkey : some (0, r'.1) = some (0, r.1) := hhead
  have hkey : r.1 = r'.1 := (congrArg Prod.snd (Option.some.inj hkey)).symm
  exact hapart hsec r (hr ▸ .head _) r' (hr' ▸ .head _) hkey

/-! ## The array -/

/-- The levels above the first one that has the key. -/
def levelsAbove (levels : List (List (List Record))) (key : Bytes) : List (List (List Record)) :=
  levels.takeWhile fun runs => (overlay runs key).isNone

/-- What reading a stack of levels gives, after `searched` tables and `passed` levels. -/
def stackAnswer (levels : List (List (List Record))) (key : Bytes) (searched passed : Nat) :
    SearchResult :=
  match overlay levels.flatten key with
  | some v => .found v searched (passed + (levelsAbove levels key).length + 1)
  | none => .missing searched (passed + levels.length)

theorem readLevels_eq (key : Bytes) : ∀ {levels : List (List StoredTable)} {maps : List FileMap},
    (∀ ts ∈ levels, Readable ts) →
    List.Forall₂ List.Perm (levels.map (·.map StoredTable.entry)) maps →
    ∀ tables passed, ∃ tables', readLevels key maps tables passed =
      .ok (stackAnswer (levels.map levelRuns) key tables' passed)
  | [], [], _, _, tables, passed => ⟨tables, rfl⟩
  | ts :: levels, map :: maps, h, hmaps, tables, passed => by
    obtain ⟨hmap, hrest⟩ := List.forall₂_cons.1 hmaps
    obtain ⟨ts', hperm, rfl⟩ := exists_perm_of_map hmap.symm
    have hts := h ts (.head _)
    obtain ⟨tables', hread⟩ := readLevels_cons ts' key maps tables passed
    rw [hts.levelFind_perm hperm, levelFind_eq_overlay hts] at hread
    rw [hread, List.map_cons]
    cases hfind : overlay (levelRuns ts) key with
    | some v =>
      refine ⟨tables', ?_⟩
      simp [stackAnswer, levelsAbove, hfind]
    | none =>
      obtain ⟨tables'', ih⟩ :=
        readLevels_eq key (fun us hus => h us (.tail _ hus)) hrest tables' (passed + 1)
      refine ⟨tables'', ?_⟩
      dsimp only
      rw [ih]
      simp [stackAnswer, levelsAbove, hfind, Nat.add_assoc, Nat.add_comm 1]

/-- **A loaded array answers as its levels stacked**, in every order of their maps. -/
theorem read_eq_overlay {d : Disk} {levelArray : List FileMap} {tables : Nat → List StoredTable}
    (htables : ∀ level, 1 ≤ level → level ≤ d.levels → TablesOf (d.dir level) (tables level))
    (hreadable : ∀ level, 1 ≤ level → level ≤ d.levels → Readable (tables level))
    (hloaded : Loaded d levelArray) (key : Bytes) :
    let levels := (List.range d.levels).map fun i => levelRuns (tables (i + 1))
    ∃ searched, read levelArray key = .ok (stackAnswer levels key searched 0) := by
  obtain ⟨maps, hmaps, hperm⟩ := hloaded
  rw [createLevelArray_eq tables htables, Except.ok.injEq] at hmaps
  subst hmaps
  have hlevel : ∀ i ∈ List.range d.levels, Readable (tables (i + 1)) := fun i hi =>
    hreadable (i + 1) (Nat.succ_pos i) (List.mem_range.1 hi)
  have hmaps : (List.range d.levels).map (fun i => loadAll (tables (i + 1))) =
      ((List.range d.levels).map fun i => tables (i + 1)).map (·.map StoredTable.entry) := by
    rw [List.map_map]
    exact List.map_congr_left fun i hi => loadAll_distinct (hlevel i hi).nodup
  rw [hmaps] at hperm
  obtain ⟨searched, hread⟩ := readLevels_eq key (fun ts hts => by
    obtain ⟨i, hi, rfl⟩ := List.mem_map.1 hts
    exact hlevel i hi) hperm 0 0
  refine ⟨searched, ?_⟩
  rw [read, hread, List.map_map]
  rfl

end Lsm
