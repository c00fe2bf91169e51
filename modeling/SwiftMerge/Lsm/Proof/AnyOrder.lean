import SwiftMerge.Lsm.Proof.FirstAnswer
import SwiftMerge.Lsm.Proof.LevelProof

/-!
# What a reload finds, in any order

`read_dir` lists a directory in any order and a hash map is iterated in any order, so what a reload
gives is not determined by the disk: of several tables with the same metadata, the one listed last
is loaded, and of several of one second, the one iterated at first is searched first. A key is found
by every reload exactly when all the `.bin` files can be opened and a table answers it that is sure
to be loaded, or another of its slot that answers as well (`foundByReload_iff`).
-/

namespace Lsm

open Lib TableReader

/-! ## Opening a table -/

/-- What `loadEntry` opens a `.bin` file as: nothing when the header is another. -/
def openTable (f : File) : Except LsmTreeError (Option TableReader) := do
  let crc ← (readHeader f.bytes).mapError .ioErr
  if crc = headerCrc then
    let t ← (generateIndex f).mapError .ioErr
    pure (some t)
  else pure none

/-- The table that an entry of a directory is opened as. -/
def tableOf (e : String × File) : Option TableReader :=
  if isBin e.1 then
    match openTable e.2 with
    | .ok t => t
    | .error _ => none
  else none

/-- The map of the tables of a directory. -/
def loadMap (entries : List (String × File)) : FileMap :=
  (entries.filterMap tableOf).foldl (fun m t => m.insert t.metadata t) []

theorem mapError_ok {ε ε' α : Type} {x : Except ε α} {f : ε → ε'} {a : α}
    (h : x.mapError f = .ok a) : x = .ok a := by
  cases x with
  | ok b => exact congrArg Except.ok (Except.ok.inj h)
  | error e => cases h

theorem openTable_some {f : File} {t : TableReader} (h : openTable f = .ok (some t)) :
    generateIndex f = .ok t := by
  unfold openTable at h
  obtain ⟨crc, -, h⟩ := bind_ok h
  split at h
  · obtain ⟨u, hu, h⟩ := bind_ok h
    rw [pure_ok, Except.ok.injEq, Option.some.injEq] at h
    exact h ▸ mapError_ok hu
  · cases h

/-- The filter of an open table stands in front of the index that was read. -/
theorem hasFilter_of_open {f : File} {t : TableReader} (h : openTable f = .ok (some t)) :
    t.HasFilter := by
  have hindex := openTable_some h
  unfold generateIndex at hindex
  obtain ⟨size, hsize, hindex⟩ := bind_ok hindex
  obtain ⟨_, -, hindex⟩ := bind_ok hindex
  obtain ⟨_, -, hindex⟩ := bind_ok hindex
  obtain ⟨_, -, hindex⟩ := bind_ok hindex
  rw [pure_ok, Except.ok.injEq] at hindex
  subst hindex
  unfold readExact at hsize
  split at hsize
  · rename_i hlen
    refine ⟨_, if_pos ?_⟩
    rw [sparseIndexOffset] at hlen
    dsimp only
    omega
  · cases hsize

/-! ## Loading a level -/

theorem loadEntry_eq (m : FileMap) (e : String × File)
    (h : isBin e.1 = true → ∃ t, openTable e.2 = .ok t) :
    loadEntry m e = .ok ((tableOf e).elim m fun t => m.insert t.metadata t) := by
  unfold loadEntry tableOf
  by_cases hbin : isBin e.1 = true
  · obtain ⟨t, ht⟩ := h hbin
    rw [if_pos hbin, if_pos hbin, ht]
    unfold openTable at ht
    obtain ⟨crc, hcrc, ht⟩ := bind_ok ht
    rw [hcrc, ok_bind]
    split at ht
    · rename_i hc
      obtain ⟨u, hu, ht⟩ := bind_ok ht
      rw [pure_ok, Except.ok.injEq] at ht
      subst ht
      rw [if_pos hc, hu]
      rfl
    · rename_i hc
      rw [pure_ok, Except.ok.injEq] at ht
      subst ht
      rw [if_neg hc]
      rfl
  · rw [if_neg hbin, if_neg hbin]
    rfl

theorem open_of_loadEntry {m m' : FileMap} {e : String × File} (h : loadEntry m e = .ok m')
    (hbin : isBin e.1 = true) : ∃ t, openTable e.2 = .ok t := by
  unfold loadEntry at h
  rw [if_pos hbin] at h
  unfold openTable
  obtain ⟨crc, hcrc, h⟩ := bind_ok h
  rw [hcrc, ok_bind]
  split at h
  · rename_i hc
    obtain ⟨t, ht, -⟩ := bind_ok h
    exact ⟨some t, by rw [if_pos hc, ht]; rfl⟩
  · rename_i hc
    exact ⟨none, if_neg hc⟩

/-- **Loading a level** succeeds when each of its `.bin` files can be opened, and only then. -/
theorem loadLevel_ok_iff {entries : List (String × File)} {m : FileMap} :
    loadLevel entries = .ok m ↔
      (∀ e ∈ entries, isBin e.1 = true → ∃ t, openTable e.2 = .ok t) ∧ m = loadMap entries := by
  have hfold : ∀ {entries : List (String × File)} {m m' : FileMap},
      entries.foldlM loadEntry m' = .ok m ↔
        (∀ e ∈ entries, isBin e.1 = true → ∃ t, openTable e.2 = .ok t) ∧
          m = (entries.filterMap tableOf).foldl (fun m t => m.insert t.metadata t) m' := by
    intro entries
    induction entries with
    | nil =>
      intro m m'
      rw [List.foldlM_nil, pure_ok, Except.ok.injEq]
      exact ⟨fun h => ⟨fun e he => absurd he List.not_mem_nil, h.symm⟩, fun h => h.2.symm⟩
    | cons e entries ih =>
      intro m m'
      rw [List.foldlM_cons, List.forall_mem_cons]
      constructor
      · intro h
        obtain ⟨m1, h1, h⟩ := bind_ok h
        have hopen := open_of_loadEntry h1
        rw [loadEntry_eq m' e hopen, Except.ok.injEq] at h1
        obtain ⟨hrest, rfl⟩ := ih.1 h
        refine ⟨⟨hopen, hrest⟩, ?_⟩
        rw [← h1, List.filterMap_cons]
        cases tableOf e <;> rfl
      · rintro ⟨⟨hopen, hrest⟩, rfl⟩
        rw [loadEntry_eq m' e hopen, ok_bind]
        refine ih.2 ⟨hrest, ?_⟩
        rw [List.filterMap_cons]
        cases tableOf e <;> rfl
  exact hfold

theorem mem_insert {m : FileMap} {k : SSTableMetaData} {v : TableReader}
    {x : SSTableMetaData × TableReader} :
    x ∈ m.insert k v ↔ x = (k, v) ∨ (x ∈ m ∧ x.1 ≠ k) := by
  unfold FileMap.insert
  by_cases hany : m.any (·.1 = k) = true
  · rw [if_pos hany, List.mem_map]
    obtain ⟨e, he, hk⟩ := List.any_eq_true.1 hany
    constructor
    · rintro ⟨y, hy, rfl⟩
      by_cases hyk : y.1 = k
      · exact .inl (if_pos hyk)
      · rw [if_neg hyk]
        exact .inr ⟨hy, hyk⟩
    · rintro (rfl | ⟨hx, hxk⟩)
      · exact ⟨e, he, if_pos (of_decide_eq_true hk)⟩
      · exact ⟨x, hx, if_neg hxk⟩
  · rw [if_neg hany, List.mem_append, List.mem_singleton, or_comm]
    refine or_congr_right (iff_self_and.2 fun hx hxk => hany ?_)
    exact List.any_eq_true.2 ⟨x, hx, decide_eq_true hxk⟩

theorem loadMap_append (entries : List (String × File)) (e : String × File) :
    loadMap (entries ++ [e]) =
      (tableOf e).elim (loadMap entries) fun t => (loadMap entries).insert t.metadata t := by
  rw [loadMap, List.filterMap_append, List.foldl_append, List.filterMap_cons, List.filterMap_nil]
  cases tableOf e <;> rfl

/-- The tables of a level's map are those of its directory listed last of their metadata. -/
theorem loadMap_last {R : String × File → String × File → Prop} (entries : List (String × File)) :
    ∀ {x}, entries.Pairwise R → x ∈ loadMap entries → ∃ e ∈ entries, ∃ t, tableOf e = some t ∧
      x = t.entry ∧ ∀ e' ∈ entries, ∀ u, tableOf e' = some u → u.metadata = t.metadata →
        e' = e ∨ R e' e := by
  induction entries using List.reverseRecOn with
  | nil => exact fun _ hx => absurd hx List.not_mem_nil
  | append_singleton entries a ih =>
    intro x hR hx
    obtain ⟨hR, -, ha⟩ := List.pairwise_append.1 hR
    rw [loadMap_append] at hx
    cases hopen : tableOf a with
    | none =>
      rw [hopen] at hx
      obtain ⟨e, he, t, ht, hxt, hlast⟩ := ih hR hx
      refine ⟨e, List.mem_append_left _ he, t, ht, hxt, fun e' he' u hu hm => ?_⟩
      rcases List.mem_append.1 he' with he' | he'
      · exact hlast e' he' u hu hm
      · rw [List.mem_singleton.1 he', hopen] at hu
        cases hu
    | some s =>
      rw [hopen] at hx
      rcases mem_insert.1 hx with rfl | ⟨hx, hne⟩
      · refine ⟨a, by simp, s, hopen, rfl, fun e' he' u _ _ => ?_⟩
        rcases List.mem_append.1 he' with he' | he'
        · exact .inr (ha e' he' a (.head _))
        · exact .inl (List.mem_singleton.1 he')
      · obtain ⟨e, he, t, ht, hxt, hlast⟩ := ih hR hx
        refine ⟨e, List.mem_append_left _ he, t, ht, hxt, fun e' he' u hu hm => ?_⟩
        rcases List.mem_append.1 he' with he' | he'
        · exact hlast e' he' u hu hm
        · rw [List.mem_singleton.1 he', hopen] at hu
          obtain rfl := Option.some.inj hu
          exact absurd ((congrArg Prod.fst hxt).trans hm.symm) hne

/-- A level's map has a table of each metadata. -/
theorem loadMap_covers {e : String × File} {t : TableReader} (ht : tableOf e = some t)
    (entries : List (String × File)) (he : e ∈ entries) :
    ∃ u : TableReader, u.metadata = t.metadata ∧ u.entry ∈ loadMap entries := by
  induction entries using List.reverseRecOn with
  | nil => exact absurd he List.not_mem_nil
  | append_singleton entries a ih =>
    rw [loadMap_append]
    rcases List.mem_append.1 he with he | he
    · obtain ⟨u, hm, hu⟩ := ih he
      cases hopen : tableOf a with
      | none => exact ⟨u, hm, hu⟩
      | some s =>
        by_cases hsame : u.metadata = s.metadata
        · exact ⟨s, hsame.symm.trans hm, mem_insert.2 (.inl rfl)⟩
        · exact ⟨u, hm, mem_insert.2 (.inr ⟨hu, hsame⟩)⟩
    · rw [← List.mem_singleton.1 he, ht]
      exact ⟨t, rfl, mem_insert.2 (.inl rfl)⟩

/-! ## Reloads -/

/-- The disk with its directories listed in another order. -/
structure Relisted (d t : Disk) : Prop where
  levels : t.levels = d.levels
  file : ∀ p, t.file? p = d.file? p

/-- What a reload may give: the directories are listed in any order. -/
def Reloads (d : Disk) (levelArray : List FileMap) : Prop :=
  ∃ t, Relisted d t ∧ Loaded t levelArray

/-- Every reload finds the key, with such a value. -/
def FoundByReload (d : Disk) (key : Bytes) (ok : Bytes → Prop) : Prop :=
  (∃ levelArray, Reloads d levelArray) ∧ ∀ levelArray, Reloads d levelArray →
    ∃ v tables levels, read levelArray key = .ok (.found v tables levels) ∧ ok v

/-- A table of the disk that a reload opens. -/
structure Opened (d : Disk) (p : Path) (t : TableReader) : Prop where
  bin : isBin p.name = true
  level : 1 ≤ p.level ∧ p.level ≤ d.levels
  file : ∃ f, d.file? p = some f ∧ openTable f = .ok (some t)

/-- Each `.bin` file of the levels can be opened, or is skipped. -/
def Opens (d : Disk) : Prop := ∀ p f, isBin p.name = true → 1 ≤ p.level → p.level ≤ d.levels →
  d.file? p = some f → ∃ t, openTable f = .ok t

/-- The tables that a reload has loaded: some table of each metadata that a level has. -/
structure LoadedFrom (d : Disk) (array : List (List TableReader)) : Prop where
  opened : ∀ t r, Stands array t r → ∃ p, p.level = r.level ∧ Opened d p t
  covers : ∀ p t, Opened d p t → ∃ u, u.metadata = t.metadata ∧ Stands array u ⟨p.level, u.second⟩

variable {d t : Disk} {array : List (List TableReader)}

theorem Relisted.symm (h : Relisted d t) : Relisted t d :=
  ⟨h.levels.symm, fun p => (h.file p).symm⟩

theorem Relisted.opened (h : Relisted d t) {p : Path} {u : TableReader} (hu : Opened t p u) :
    Opened d p u := by
  obtain ⟨f, hf, hopen⟩ := hu.file
  exact ⟨hu.bin, h.levels ▸ hu.level, f, (h.file p).symm.trans hf, hopen⟩

theorem Relisted.opens (h : Relisted d t) (ho : Opens t) : Opens d :=
  fun p f hb h1 hl hf => ho p f hb h1 (h.levels.symm ▸ hl) ((h.file p).trans hf)

theorem Opened.unique {p : Path} {u v : TableReader} (h : Opened d p u) (h' : Opened d p v) :
    u = v := by
  obtain ⟨f, hf, hu⟩ := h.file
  obtain ⟨g, hg, hv⟩ := h'.file
  obtain rfl := Option.some.inj (hf.symm.trans hg)
  exact Option.some.inj (Except.ok.inj (hu.symm.trans hv))

theorem Opened.hasFilter {p : Path} {u : TableReader} (h : Opened d p u) : u.HasFilter := by
  obtain ⟨f, -, hf⟩ := h.file
  exact hasFilter_of_open hf

theorem opened_iff_tableOf {name : String} {i : Nat} (hi : i < d.levels) {u : TableReader} :
    Opened d ⟨i + 1, name⟩ u ↔ ∃ f, (name, f) ∈ d.dir (i + 1) ∧ tableOf (name, f) = some u := by
  constructor
  · rintro ⟨hbin, -, f, hf, hopen⟩
    exact ⟨f, Disk.mem_dir.2 hf, by rw [tableOf, if_pos hbin, hopen]⟩
  · rintro ⟨f, hf, hopen⟩
    unfold tableOf at hopen
    split at hopen
    · rename_i hbin
      refine ⟨hbin, ⟨Nat.succ_pos i, hi⟩, f, Disk.mem_dir.1 hf, ?_⟩
      split at hopen
      · rename_i heq
        rw [heq, hopen]
      · cases hopen
    · cases hopen

/-- The maps of a disk that can be loaded are those of its directories. -/
theorem createLevelArray_ok_iff {maps : List FileMap} : createLevelArray d = .ok maps ↔
    Opens d ∧ maps = (List.range d.levels).map fun i => loadMap (d.dir (i + 1)) := by
  constructor
  · intro h
    have hload := mapM_ok h
    have hmap : maps = (List.range d.levels).map fun i => loadMap (d.dir (i + 1)) := by
      have heq := hload.imp fun i m (hm : loadLevel _ = _) => (loadLevel_ok_iff.1 hm).2.symm
      rw [← List.forall₂_map_left_iff, List.forall₂_eq_eq_eq] at heq
      exact heq.symm
    refine ⟨fun p f hb h1 hl hf => ?_, hmap⟩
    obtain ⟨level, name⟩ := p
    obtain ⟨i, rfl⟩ : ∃ i, level = i + 1 := ⟨level - 1, (Nat.sub_add_cancel h1).symm⟩
    have hm := (List.forall₂_iff_get.1 hload).2 i (by rwa [List.length_range])
      (by rwa [← hload.length_eq, List.length_range])
    rw [List.get_eq_getElem, List.getElem_range] at hm
    exact (loadLevel_ok_iff.1 hm).1 (name, f) (Disk.mem_dir.2 hf) hb
  · rintro ⟨hopens, rfl⟩
    refine createLevelArray_ok fun i hi => loadLevel_ok_iff.2 ⟨fun e he hb => ?_, rfl⟩
    exact hopens ⟨i + 1, e.1⟩ e.2 hb (Nat.succ_pos i) hi (Disk.mem_dir.1 he)

/-- The tables of a loaded array are those of the maps. -/
theorem stands_iff (h : Loaded d (array.map (·.map entry))) {u : TableReader} {r : Rank} :
    Stands array u r ↔ ∃ i < d.levels, r = ⟨i + 1, u.second⟩ ∧
      u.entry ∈ loadMap (d.dir (i + 1)) := by
  obtain ⟨hlen, hget⟩ := loaded_levels h
  rw [List.length_map] at hlen
  have hmem : ∀ {i ts}, array[i]? = some ts →
      (u ∈ ts ↔ u.entry ∈ loadMap (d.dir (i + 1))) := by
    intro i ts hts
    obtain ⟨m, hm, hperm⟩ := hget i (ts.map entry) (by rw [List.getElem?_map, hts]; rfl)
    rw [← (loadLevel_ok_iff.1 hm).2, hperm.mem_iff, List.mem_map]
    exact ⟨fun hu => ⟨u, hu, rfl⟩, fun ⟨v, hv, he⟩ => by
      rwa [← show v = u from congrArg Prod.snd he]⟩
  obtain ⟨level, second⟩ := r
  constructor
  · rintro ⟨i, ts, rfl, hts, hu, rfl⟩
    exact ⟨i, hlen ▸ (List.getElem?_eq_some_iff.1 hts).1, rfl, (hmem hts).1 hu⟩
  · rintro ⟨i, hi, he, hu⟩
    obtain ⟨rfl, rfl⟩ := Rank.mk.inj he
    have hts := List.getElem?_eq_getElem (hlen ▸ hi)
    exact ⟨i, _, rfl, hts, (hmem hts).2 hu, rfl⟩

theorem Relisted.loadedFrom (hlist : Relisted d t) (h : Loaded t (array.map (·.map entry))) :
    LoadedFrom d array := by
  refine ⟨fun u r hu => ?_, fun p u hu => ?_⟩
  · obtain ⟨i, hi, rfl, hmem⟩ := (stands_iff h).1 hu
    obtain ⟨e, he, v, hv, hx, -⟩ := loadMap_last (R := fun _ _ => True) _
      (List.pairwise_of_forall fun _ _ => trivial) hmem
    obtain rfl : u = v := congrArg Prod.snd hx
    exact ⟨⟨i + 1, e.1⟩, rfl, hlist.opened ((opened_iff_tableOf hi).2 ⟨e.2, he, hv⟩)⟩
  · obtain ⟨level, name⟩ := p
    obtain ⟨h1, hl⟩ := (hlist.symm.opened hu).level
    obtain ⟨i, rfl⟩ : ∃ i, level = i + 1 := ⟨level - 1, (Nat.sub_add_cancel h1).symm⟩
    obtain ⟨f, hf, ht⟩ := (opened_iff_tableOf hl).1 (hlist.symm.opened hu)
    obtain ⟨v, hm, hv⟩ := loadMap_covers ht _ hf
    exact ⟨v, hm, (stands_iff h).2 ⟨i, hl, rfl, hv⟩⟩

/-- The entries of a level's map are those of its tables. -/
theorem loadMap_entries (entries : List (String × File)) :
    ((loadMap entries).map Prod.snd).map entry = loadMap entries := by
  rw [List.map_map]
  refine (List.map_congr_left fun x hx => ?_).trans (List.map_id _)
  obtain ⟨e, -, u, -, rfl, -⟩ := loadMap_last (R := fun _ _ => True) entries
    (List.pairwise_of_forall fun _ _ => trivial) hx
  rfl

/-- A reload has loaded the tables of the disk. -/
theorem Reloads.loadedFrom {levelArray : List FileMap} (h : Reloads d levelArray) :
    Opens d ∧ ∃ array, levelArray = array.map (·.map entry) ∧ LoadedFrom d array := by
  obtain ⟨t, hlist, hload⟩ := h
  have hopens : Opens t := by
    obtain ⟨maps, hmaps, -⟩ := hload
    exact (createLevelArray_ok_iff.1 hmaps).1
  have hentries : levelArray = (levelArray.map (·.map Prod.snd)).map (·.map entry) := by
    rw [List.map_map]
    refine (List.map_id _).symm.trans (List.map_congr_left fun map hmap => ?_)
    obtain ⟨i, hi⟩ := List.getElem?_of_mem hmap
    obtain ⟨m, hm, hperm⟩ := (loaded_levels hload).2 i map hi
    rw [id, Function.comp, List.map_map]
    refine (List.map_id _).symm.trans (List.map_congr_left fun x hx => ?_)
    rw [← hperm.mem_iff, (loadLevel_ok_iff.1 hm).2, ← loadMap_entries] at hx
    obtain ⟨u, -, rfl⟩ := List.mem_map.1 hx
    rfl
  refine ⟨hlist.opens hopens, _, hentries, hlist.loadedFrom ?_⟩
  rwa [← hentries]

/-! ### A reload of one's choice -/

/-- The directories listed by priority. -/
theorem exists_relisted (d : Disk) (priority : Path → Nat) : ∃ t, Relisted d t ∧
    ∀ level, (t.dir level).Pairwise fun a b => priority ⟨level, a.1⟩ ≤ priority ⟨level, b.1⟩ := by
  let le (a b : (_ : Path) × File) : Bool := priority a.1 ≤ priority b.1
  have hperm := List.mergeSort_perm d.files.entries le
  have hsorted : (d.files.entries.mergeSort le).Pairwise fun a b => le a b = true :=
    List.pairwise_mergeSort (fun a b c h1 h2 => by simp [le] at *; omega)
      (fun a b => by simp [le]; omega) _
  let files : Files := ⟨d.files.entries.mergeSort le,
    (List.perm_nodupKeys hperm.symm).1 d.files.nodupKeys⟩
  have hlookup : ∀ p, files.lookup p = d.files.lookup p := fun p => AList.perm_lookup hperm
  refine ⟨{ d with files := files, stamped := ?_ }, ⟨rfl, hlookup⟩, fun level => ?_⟩
  · exact ⟨fun {p f} hf => d.stamped.created_lt ((hlookup p).symm.trans hf),
      fun {p q f g} hf hg he => d.stamped.created_inj ((hlookup p).symm.trans hf)
        ((hlookup q).symm.trans hg) he⟩
  · refine List.Pairwise.filterMap _ (fun a b hle x hx y hy => ?_) hsorted
    obtain ⟨rfl, rfl⟩ : a.1.level = level ∧ (a.1.name, a.2) = x := by
      simpa [Option.ite_none_right_eq_some] using hx
    obtain ⟨hl, rfl⟩ : b.1.level = a.1.level ∧ (b.1.name, b.2) = y := by
      simpa [Option.ite_none_right_eq_some] using hy
    have hle : priority a.1 ≤ priority b.1 := of_decide_eq_true hle
    rwa [show (⟨a.1.level, b.1.name⟩ : Path) = b.1 by rw [← hl]]

/-- The list with an element of it moved to its head. -/
def toFront (t : TableReader) (ts : List TableReader) : List TableReader :=
  if t ∈ ts then t :: ts.erase t else ts

theorem toFront_perm (t : TableReader) (ts : List TableReader) : ts.Perm (toFront t ts) := by
  unfold toFront
  split
  · exact List.perm_cons_erase ‹_›
  · exact .refl ts

/-- A reload may load, of each metadata, any table that no other has priority over, and iterate the
levels at any table first. -/
theorem exists_reload (hopens : Opens d) (priority : Path → Nat) (target : TableReader) :
    ∃ array, Reloads d (array.map (·.map entry)) ∧ LoadedFrom d array ∧
      (∀ u r, Stands array u r → ∃ p, p.level = r.level ∧ Opened d p u ∧ ∀ q v, Opened d q v →
        q.level = p.level → v.metadata = u.metadata → priority q ≤ priority p) ∧
      ∀ r, Stands array target r → ∃ i ts, r.level = i + 1 ∧ array[i]? = some (target :: ts) := by
  obtain ⟨t, hlist, hsorted⟩ := exists_relisted d priority
  let array : List (List TableReader) := (List.range t.levels).map fun i =>
    toFront target ((loadMap (t.dir (i + 1))).map Prod.snd)
  have hload : Loaded t (array.map (·.map entry)) := by
    refine ⟨_, createLevelArray_ok_iff.2 ⟨hlist.symm.opens hopens, rfl⟩, ?_⟩
    rw [List.map_map]
    refine List.forall₂_map_left_iff.2 (List.forall₂_map_right_iff.2
      (List.forall₂_same.2 fun i _ => ?_))
    have hperm := (toFront_perm target ((loadMap (t.dir (i + 1))).map Prod.snd)).map entry
    rwa [loadMap_entries] at hperm
  refine ⟨array, ⟨t, hlist, hload⟩, hlist.loadedFrom hload, fun u r hu => ?_, fun r hr => ?_⟩
  · obtain ⟨i, hi, rfl, hmem⟩ := (stands_iff hload).1 hu
    obtain ⟨e, he, v, hv, hx, hlast⟩ := loadMap_last _ (hsorted (i + 1)) hmem
    obtain rfl : u = v := congrArg Prod.snd hx
    refine ⟨⟨i + 1, e.1⟩, rfl, hlist.opened ((opened_iff_tableOf hi).2 ⟨e.2, he, hv⟩), ?_⟩
    rintro ⟨level, name⟩ w hw rfl hm
    obtain ⟨f, hf, hopen⟩ := (opened_iff_tableOf hi).1 (hlist.symm.opened hw)
    rcases hlast _ hf w hopen hm with he | hle
    · rw [← he]
    · exact hle
  · obtain ⟨i, ts, hl, hts, hmem, -⟩ := hr
    rw [List.getElem?_map, Option.map_eq_some_iff] at hts
    obtain ⟨j, hj, rfl⟩ := hts
    rw [← (toFront_perm _ _).mem_iff] at hmem
    refine ⟨i, ((loadMap (t.dir (j + 1))).map Prod.snd).erase target, hl, ?_⟩
    rw [List.getElem?_map, hj, Option.map_some, toFront, if_pos hmem]

/-! ## What every reload finds -/

/-- What a reader sees of a table. -/
structure TableView where
  level : Nat
  metadata : SSTableMetaData
  answer : Bytes → Option (Except IoError Bytes)

def TableReader.view (t : TableReader) (level : Nat) : TableView := ⟨level, t.metadata, t.answer⟩

namespace TableView

def rank (w : TableView) : Rank := ⟨w.level, w.metadata.creationTimestamp⟩

/-- A level's map has one of the two only. -/
def SameSlot (w w' : TableView) : Prop := w.level = w'.level ∧ w.metadata = w'.metadata

/-- The table has a value for the key. -/
def Shows (w : TableView) (key : Bytes) : Prop := ∃ v, w.answer key = some (.ok v)

/-- Some reload meets the first table instead of the second one, and does not get a value from it: it
is loaded in its slot without an answer, or it is not read after it and fails. -/
def Masks (w' w : TableView) (key : Bytes) : Prop :=
  (w.SameSlot w' ∧ w'.answer key = none) ∨
    ((∃ e, w'.answer key = some (.error e)) ∧ ¬w.rank.Before w'.rank)

/-- Each table that shows the key is masked. -/
def AllMasked (S : Set TableView) (key : Bytes) : Prop :=
  ∀ w ∈ S, w.Shows key → ∃ w' ∈ S, w'.Masks w key

/-- The level's map has a table in the slot that answers, whichever is loaded. -/
def Sure (S : Set TableView) (key : Bytes) (w : TableView) : Prop :=
  w ∈ S ∧ ∀ w' ∈ S, w.SameSlot w' → w'.answer key ≠ none

end TableView

open TableView

/-- The tables that a reload opens. -/
def views (d : Disk) : Set TableView := {w | ∃ p t, Opened d p t ∧ w = t.view p.level}

/-- Some slot is sure to answer, and what may answer first has such a value. -/
def FoundFirst (S : Set TableView) (key : Bytes) (ok : Bytes → Prop) : Prop :=
  ∃ w, Sure S key w ∧ ∀ w' ∈ S, w'.answer key ≠ none → ¬w.rank.Before w'.rank →
    ∃ v, w'.answer key = some (.ok v) ∧ ok v

variable {key : Bytes} {ok : Bytes → Prop} {S : Set TableView} {w : TableView}

theorem TableView.not_before_self (w : TableView) : ¬w.rank.Before w.rank := by
  rintro (hlt | ⟨-, hlt⟩)
  · exact Nat.lt_irrefl _ hlt
  · exact Nat.lt_irrefl _ hlt

/-- Some value is found exactly when not all the tables that show one are masked. -/
theorem foundFirst_any_iff : FoundFirst S key (fun _ => True) ↔ ¬AllMasked S key := by
  constructor
  · rintro ⟨w, ⟨hw, hsure⟩, hfirst⟩ hmasked
    obtain ⟨v, hv, -⟩ := hfirst w hw (hsure w hw ⟨rfl, rfl⟩) w.not_before_self
    obtain ⟨w', hw', hmask⟩ := hmasked w hw ⟨v, hv⟩
    rcases hmask with ⟨hslot, hnone⟩ | ⟨⟨e, he⟩, hnot⟩
    · exact hsure w' hw' hslot hnone
    · obtain ⟨v', hv', -⟩ := hfirst w' hw' (by rw [he]; exact nofun) hnot
      cases he.symm.trans hv'
  · intro hmasked
    obtain ⟨w, hw, -, hmask⟩ : ∃ w ∈ S, w.Shows key ∧ ∀ w' ∈ S, ¬w'.Masks w key := by
      by_contra hnone
      refine hmasked fun w hw hs => ?_
      by_contra hmask
      exact hnone ⟨w, hw, hs, fun w' hw' hm => hmask ⟨w', hw', hm⟩⟩
    refine ⟨w, ⟨hw, fun w' hw' hslot hnone => hmask w' hw' (.inl ⟨hslot, hnone⟩)⟩,
      fun w' hw' hne hnot => ?_⟩
    obtain ⟨result, hresult⟩ := Option.ne_none_iff_exists'.1 hne
    cases result with
    | ok v => exact ⟨v, hresult, trivial⟩
    | error e => exact absurd (.inr ⟨⟨e, hresult⟩, hnot⟩) (hmask w' hw')

/-- What is found first is the value of some table. -/
theorem FoundFirst.shown (h : FoundFirst S key ok) :
    ∃ w ∈ S, ∃ v, w.answer key = some (.ok v) ∧ ok v := by
  obtain ⟨w, hsure, hfirst⟩ := h
  exact ⟨w, hsure.1, hfirst w hsure.1 (hsure.2 w hsure.1 ⟨rfl, rfl⟩) w.not_before_self⟩

/-- A value is found first where one table alone answers the key and no other shares its slot. -/
theorem foundFirst_of_only {v : Bytes} (hw : w ∈ S) (hv : w.answer key = some (.ok v))
    (honly : ∀ w' ∈ S, w'.answer key ≠ none ∨ w.SameSlot w' → w' = w) (hok : ok v) :
    FoundFirst S key ok := by
  have hne : w.answer key ≠ none := by rw [hv]; exact nofun
  refine ⟨w, ⟨hw, fun w' hw' hs => ?_⟩, fun w' hw' hanswer _ => ?_⟩
  · rwa [honly w' hw' (.inr hs)]
  · rw [honly w' hw' (.inl hanswer)]
    exact ⟨v, hv, hok⟩

theorem LoadedFrom.hasFilter (h : LoadedFrom d array) : ∀ ts ∈ array, ∀ t ∈ ts, t.HasFilter := by
  intro ts hts t ht
  obtain ⟨i, hi⟩ := List.getElem?_of_mem hts
  obtain ⟨p, -, hp⟩ := h.opened t ⟨i + 1, t.second⟩ ⟨i, ts, rfl, hi, ht, rfl⟩
  exact hp.hasFilter

theorem LoadedFrom.view_mem (h : LoadedFrom d array) {u : TableReader} {r : Rank}
    (hu : Stands array u r) : u.view r.level ∈ views d ∧ (u.view r.level).rank = r := by
  obtain ⟨p, hl, hp⟩ := h.opened u r hu
  obtain ⟨i, ts, -, -, -, hs⟩ := hu
  exact ⟨⟨p, u, hp, by rw [hl]⟩, by rw [rank]; exact congrArg (Rank.mk r.level) hs⟩

/-- A table of a sure slot is in the array, and answers. -/
theorem LoadedFrom.sure (h : LoadedFrom d array) {w : TableView} (hw : Sure (views d) key w) :
    ∃ u, Stands array u w.rank ∧ u.answer key ≠ none := by
  obtain ⟨⟨p, t, ht, rfl⟩, hsure⟩ := hw
  obtain ⟨u, hm, hu⟩ := h.covers p t ht
  have hrank : (⟨p.level, u.second⟩ : Rank) = (t.view p.level).rank :=
    congrArg (Rank.mk p.level) (congrArg SSTableMetaData.creationTimestamp hm)
  exact ⟨u, hrank ▸ hu, hsure _ (h.view_mem hu).1 ⟨rfl, hm.symm⟩⟩

/-- What may answer first has such a value: so does every reload. -/
theorem LoadedFrom.found (h : LoadedFrom d array) (hfound : FoundFirst (views d) key ok) :
    ∃ v, firstAnswer array key = some (.ok v) ∧ ok v := by
  obtain ⟨w, hsure, hfirst⟩ := hfound
  obtain ⟨u, hu, hne⟩ := h.sure hsure
  cases hanswer : firstAnswer array key with
  | none => exact absurd (firstAnswer_none_iff.1 hanswer u _ hu) hne
  | some result =>
    obtain ⟨t, r, ht, hresult, hbefore⟩ := firstAnswer_some hanswer
    obtain ⟨hmem, hrank⟩ := h.view_mem ht
    have htne : t.answer key ≠ none := by rw [hresult]; exact nofun
    obtain ⟨v, hv, hok⟩ := hfirst _ hmem htne (by rw [hrank]; exact hbefore u _ hu hne)
    exact ⟨v, by rw [← hresult]; exact hv, hok⟩

/-- A table that is loaded although those that pass have priority over it is of a sure slot. -/
theorem sure_of_priority {priority : Path → Nat} {p : Path} {u : TableReader}
    (hpass : ∀ q v, Opened d q v → v.answer key = none → 0 < priority q) (hp : Opened d p u)
    (hmax : ∀ q v, Opened d q v → q.level = p.level → v.metadata = u.metadata →
      priority q ≤ priority p) (h0 : priority p = 0) : Sure (views d) key (u.view p.level) := by
  refine ⟨⟨p, u, hp, rfl⟩, ?_⟩
  rintro _ ⟨q, v, hq, rfl⟩ ⟨hl, hm⟩ hnone
  have hle := hmax q v hq hl.symm hm.symm
  have hpos := hpass q v hq hnone
  omega

open Classical in
/-- The tables that pass have priority, and the one at `target`, if any, over them. -/
noncomputable def passingFirst (d : Disk) (key : Bytes) (target : Option Path) (p : Path) : Nat :=
  if target = some p then 2 else if ∃ t, Opened d p t ∧ t.answer key = none then 1 else 0

section
variable {target : Option Path} {p q : Path} {u v : TableReader}

theorem passingFirst_pos (hq : Opened d q v) (hnone : v.answer key = none) :
    0 < passingFirst d key target q := by
  unfold passingFirst
  split
  · exact Nat.two_pos
  · rw [if_pos ⟨v, hq, hnone⟩]
    exact Nat.one_pos

theorem passingFirst_zero (hp : Opened d p u) (hne : u.answer key ≠ none)
    (ht : target ≠ some p) : passingFirst d key target p = 0 := by
  rw [passingFirst, if_neg ht, if_neg]
  rintro ⟨t, hopen, hnone⟩
  exact hne (hp.unique hopen ▸ hnone)

theorem eq_of_passingFirst (h : passingFirst d key target q ≤ passingFirst d key target p)
    (hq : target = some q) : p = q := by
  rw [passingFirst, if_pos hq] at h
  unfold passingFirst at h
  split at h
  · rename_i hp
    exact Option.some.inj (hp.symm.trans hq)
  · split at h <;> omega

end

/-- What every reload finds comes first. -/
theorem FoundByReload.foundFirst (h : FoundByReload d key ok) (hopens : Opens d) :
    FoundFirst (views d) key ok := by
  have hfound : ∀ array : List (List TableReader), Reloads d (array.map (·.map entry)) →
      LoadedFrom d array → ∃ v, firstAnswer array key = some (.ok v) ∧ ok v := by
    intro array hreload hfrom
    obtain ⟨v, tables, levels, hread, hok⟩ := h.2 _ hreload
    exact ⟨v, (read_found_iff hfrom.hasFilter).1 ⟨tables, levels, hread⟩, hok⟩
  -- a reload that loads a table that passes in every slot that has one
  obtain ⟨array, hreload, hfrom, hmax, -⟩ :=
    exists_reload hopens (passingFirst d key none) ⟨[], 0, ⟨0, [], []⟩⟩
  obtain ⟨v, hv, -⟩ := hfound array hreload hfrom
  obtain ⟨t, r, ht, hresult, hfirst⟩ := firstAnswer_some hv
  have htne : t.answer key ≠ none := by rw [hresult]; exact nofun
  obtain ⟨p, hl, hp, hpmax⟩ := hmax t r ht
  have hsure : Sure (views d) key (t.view p.level) :=
    sure_of_priority (fun q v => passingFirst_pos) hp hpmax (passingFirst_zero hp htne nofun)
  have hrank : (t.view p.level).rank = r := by rw [hl]; exact (hfrom.view_mem ht).2
  -- no sure slot is before that of its answer
  have hleast : ∀ w, Sure (views d) key w → ¬w.rank.Before r := fun w hw hb => by
    obtain ⟨u, hu, hne⟩ := hfrom.sure hw
    exact hfirst u _ hu hne hb
  refine ⟨_, hsure, ?_⟩
  rintro _ ⟨p', t', hp', rfl⟩ hne' hnot
  rw [hrank] at hnot
  -- a reload that loads this table, and searches it before those of its second
  obtain ⟨array', hreload', hfrom', hmax', hhead⟩ :=
    exists_reload hopens (passingFirst d key (some p')) t'
  have hloaded : Stands array' t' (t'.view p'.level).rank := by
    obtain ⟨u, hm, hu⟩ := hfrom'.covers p' t' hp'
    obtain ⟨q, hql, hq, hqmax⟩ := hmax' u _ hu
    obtain rfl := eq_of_passingFirst (hqmax p' t' hp' hql.symm hm.symm) rfl
    rwa [hp'.unique hq]
  obtain ⟨i, ts, hi, hget⟩ := hhead _ hloaded
  have hanswer : firstAnswer array' key = t'.answer key := by
    refine firstAnswer_of_head hget hne' fun u q hu hne hb => ?_
    obtain ⟨s, hsl, hs, hsmax⟩ := hmax' u q hu
    have hb : q.Before (t'.view p'.level).rank := by
      rw [rank, show (t'.view p'.level).level = i + 1 from hi]
      exact hb
    by_cases hsame : s = p'
    · -- the table itself
      subst hsame
      obtain rfl := hs.unique hp'
      rw [hsl, (hfrom'.view_mem hu).2] at hb
      unfold Rank.Before at hb
      omega
    · have hsure' : Sure (views d) key (u.view s.level) :=
        sure_of_priority (fun q v => passingFirst_pos) hs hsmax
          (passingFirst_zero hs hne fun he => hsame (Option.some.inj he).symm)
      refine hleast _ hsure' ?_
      rw [hsl, (hfrom'.view_mem hu).2]
      exact hb.of_not hnot
  obtain ⟨v', hv', hok⟩ := hfound array' hreload' hfrom'
  exact ⟨v', by rw [← hv', hanswer]; rfl, hok⟩

/-- **What every reload finds.** -/
theorem foundByReload_iff :
    FoundByReload d key ok ↔ Opens d ∧ FoundFirst (views d) key ok := by
  constructor
  · intro h
    obtain ⟨levelArray, hreload⟩ := h.1
    have hopens := hreload.loadedFrom.1
    exact ⟨hopens, h.foundFirst hopens⟩
  · rintro ⟨hopens, hfound⟩
    obtain ⟨array, hreload, -⟩ := exists_reload hopens (fun _ => 0) ⟨[], 0, ⟨0, [], []⟩⟩
    refine ⟨⟨_, hreload⟩, fun levelArray hreload => ?_⟩
    obtain ⟨-, array, rfl, hfrom⟩ := hreload.loadedFrom
    obtain ⟨v, hv, hok⟩ := hfrom.found hfound
    obtain ⟨tables, levels, hread⟩ := (read_found_iff hfrom.hasFilter).2 hv
    exact ⟨v, tables, levels, hread, hok⟩

end Lsm
