import SwiftMerge.Compaction.Proof.OutputTables
import SwiftMerge.Compaction.Proof.Recency
import SwiftMerge.Lib.Latest
import SwiftMerge.Lsm.Proof.ArrayReads
import SwiftMerge.Memtable.Proof.TableReads

/-!
# A freshly loaded reader finds what was flushed last

The tables of a store are a set of dated records. `lastFlushed` is what the flushes of a run say of a
key, and in every state of a run whose steps keep what readers find (`KeepsReads`) it is the view of
those records (`ReadsOk`): a flush puts newer records in front, a compaction moves the latest ones
and drops others. A reader that loads the tables of such a state answers every key with it
(`ReadsOk.read`): its levels and the creation times within them are by age.
-/

namespace Compaction

open Lib Lsm Mem TableStore

variable {P : Platform} {s s' : TableStore} {level : Nat} {c : Cycle} {d d' : Disk}

/-- The records of the tables. -/
def TableStore.records (s : TableStore) : Set (Bytes × Bytes × Nat) :=
  {x | ∃ p f, s.Table p f ∧ x ∈ s.written p}

/-- What the flushes of a run, the last one first, say of a key. -/
def lastFlushed : List StoreEvent → Source Bytes Bytes
  | [], _ => none
  | .flush m writtenAt :: events, k =>
    ((datedRecords m.inMemoryRepr writtenAt).lookup k).or (lastFlushed events k)
  | _ :: events, k => lastFlushed events k

/-- The compaction loses nothing that a reader is to find: the names of its outputs are free, and
its merges have some records, the latest ones of the unit's keys among them. -/
structure LosesNothing (s : TableStore) (level : Nat) (c : Cycle) : Prop where
  free : ∀ name f, s.Table ⟨level + 1, name⟩ f → name ∉ c.outputs
  kept : ∀ u ∈ c.units, ∀ name ∈ u, ∀ r ∈ s.written ⟨level, name⟩, Latest s.records r.1 r.2 →
    keptRecord r = true
  nonempty : ∀ u ∈ c.units, unitRecords s.written level u ≠ []

/-- The step keeps what readers find: a flush has something to write, a compaction takes its tables
by age and loses nothing. -/
def KeepsReads (s : TableStore) : StoreEvent → Prop
  | .flush m _ => m.inMemoryRepr ≠ ∅
  | .compact level c =>
    LeftOutNewer s (.compact level c) ∧ OutputsByAge s (.compact level c) ∧ LosesNothing s level c
  | .idle => True

/-- The table is one that a reader can load, if its size is a `usize`. -/
def LoadableTable (s : TableStore) (p : Path) (f : File) : Prop :=
  f.bytes.length < 2 ^ 64 → ∃ sparseIndex, WellFormed f.bytes sparseIndex (undated (s.written p))

/-- A store whose tables a reader can load. -/
structure LoadOk (P : Platform) (s : TableStore) : Prop where
  ok : StoreOk P s
  dirs : s.disk.InDirs
  loadable : ∀ p f, s.Table p f → LoadableTable s p f

/-- What holds in every state of a run whose steps keep what readers find. -/
structure ReadsOk (P : Platform) (events : List StoreEvent) (s : TableStore) : Prop
    extends LoadOk P s where
  levels : s.LevelsByAge
  created : s.CreatedByAge
  view : IsView s.records (lastFlushed events)

/-! ## A flush -/

section
variable {m : Memtable} {writtenAt : Bytes → Nat}

theorem mem_datedRecords {r : Bytes × Bytes × Nat} : r ∈ datedRecords m.inMemoryRepr writtenAt ↔
    (r.1, r.2.1) ∈ records m.inMemoryRepr ∧ r.2.2 = writtenAt r.1 := by
  obtain ⟨k, v, t⟩ := r
  simp [datedRecords, eq_comm]

theorem records_flush (h : StoreOk P s) : (flushedStore P s m writtenAt).records =
    {x | x ∈ datedRecords m.inMemoryRepr writtenAt} ∪ s.records := by
  have hself : (flushedStore P s m writtenAt).written (flushPath P s.disk) =
      datedRecords m.inMemoryRepr writtenAt := Function.update_self ..
  have hother : ∀ {p f}, s.Table p f → (flushedStore P s m writtenAt).written p = s.written p := by
    intro p f ht
    apply Function.update_of_ne
    intro he
    rw [he] at ht
    cases h.flushPath_new.symm.trans ht.1
  ext x
  refine ⟨fun ⟨p, f, ht, hx⟩ => ?_, fun hx => ?_⟩
  · rcases flush_table h ht with ⟨rfl, -⟩ | ⟨ht, -⟩
    · rw [hself] at hx
      exact .inl hx
    · rw [hother ht] at hx
      exact .inr ⟨p, f, ht, hx⟩
  · rcases hx with hx | ⟨p, f, ht, hx⟩
    · refine ⟨_, _, ⟨file?_flushedDisk h.flushPath_new, isBin_ssTableName _⟩, ?_⟩
      rwa [hself]
    · refine ⟨p, f, ⟨?_, ht.2⟩, (hother ht).symm ▸ hx⟩
      refine (flushedDisk_keeps.file fun he => ?_).trans ht.1
      rw [he] at ht
      cases h.flushPath_new.symm.trans ht.1

theorem datedRecords_above (h : StoreOk P s) (hdates : ∀ r ∈ records m.inMemoryRepr,
    s.since ≤ writtenAt r.1 ∧ writtenAt r.1 ≤ s.disk.clock) :
    Above {x | x ∈ datedRecords m.inMemoryRepr writtenAt} s.records := by
  intro k r r' hr ⟨p, f, _, hr'⟩
  obtain ⟨hmem, hdate⟩ := mem_datedRecords.1 hr
  have hold := h.dates p _ hr'
  have hnew := (hdates _ hmem).1
  dsimp only at hdate hold hnew
  omega

theorem LoadOk.flush (h : LoadOk P s) (hne : m.inMemoryRepr ≠ ∅)
    (hfits : FlushFits P m.inMemoryRepr)
    (hdates : ∀ r ∈ records m.inMemoryRepr,
      s.since ≤ writtenAt r.1 ∧ writtenAt r.1 ≤ s.disk.clock) :
    LoadOk P (flushedStore P s m writtenAt) where
  ok := h.ok.flush hfits hdates
  dirs := by
    intro p f hf
    change p.level ≤ (flushedDisk P m s.disk).levels
    rw [levels_flushedDisk]
    by_cases hp : p = flushPath P s.disk
    · rw [hp]
      exact Nat.le_max_right _ _
    · exact (h.dirs p f ((flushedDisk_keeps.file hp).symm.trans hf)).trans (Nat.le_max_left _ _)
  loadable := by
    intro p f ht hsize
    by_cases hp : p = flushPath P s.disk
    · subst hp
      obtain rfl := Option.some.inj ((file?_flushedDisk h.ok.flushPath_new).symm.trans ht.1)
      have hw : (flushedStore P s m writtenAt).written (flushPath P s.disk) =
          datedRecords m.inMemoryRepr writtenAt := Function.update_self ..
      rw [hw, records_datedRecords]
      exact ⟨_, wellFormed_flushBuffer hne hfits _ hsize⟩
    · have hw : (flushedStore P s m writtenAt).written p = s.written p := Function.update_of_ne hp ..
      rw [hw]
      exact h.loadable p f ⟨(flushedDisk_keeps.file hp).symm.trans ht.1, ht.2⟩ hsize

theorem ReadsOk.flush {events : List StoreEvent} (h : ReadsOk P events s)
    (hne : m.inMemoryRepr ≠ ∅) (hfits : FlushFits P m.inMemoryRepr)
    (hdates : ∀ r ∈ records m.inMemoryRepr,
      s.since ≤ writtenAt r.1 ∧ writtenAt r.1 ≤ s.disk.clock) :
    ReadsOk P (.flush m writtenAt :: events) (flushedStore P s m writtenAt) where
  toLoadOk := h.toLoadOk.flush hne hfits hdates
  levels := LevelsByAge.flush h.ok h.levels hfits hdates
  created := CreatedByAge.flush h.ok h.created hfits hdates
  view := by
    rw [records_flush h.ok]
    have hsorted : KeySorted (datedRecords m.inMemoryRepr writtenAt) := by
      rw [← keySorted_undated, records_datedRecords]
      exact keySorted_records _
    exact h.view.push hsorted.isView (datedRecords_above h.ok hdates)

end

/-! ## A compaction -/

section
variable (h : StoreOk P s) (hc : Compacts P s level c d')
include h hc

/-- A table that is in no unit stays, unless an output takes its name. -/
theorem Compacts.table_stays {p : Path} {f : File} (ht : s.Table p f)
    (hunit : p.level = level → p.name ∉ c.units.flatten)
    (hout : p.level = level + 1 → p.name ∉ c.outputs) :
    (compacted s level c d').Table p f ∧ (compacted s level c d').written p = s.written p := by
  have hready := hc.ready h
  have hpromoted : ∀ j u, c.units[j]? = some u → p ≠ promotedPath level j u := by
    intro j u hj he
    apply hout (congrArg Path.level he)
    refine List.mem_map.2 ⟨_, mem_unitOutputs.2 ⟨j, u, hj, rfl⟩, ?_⟩
    rw [Nat.zero_add]
    exact (congrArg Path.name he).symm
  refine ⟨⟨?_, ht.2⟩, Compacts.written_other hpromoted⟩
  change d'.file? p = _
  rw [(hc.done h).frame.file, ht.1]
  intro hp
  rcases hp with ⟨j, u, hj, hp | hp⟩ | hp
  · have hu := List.mem_of_getElem? hj
    obtain rfl : p.level = level := hp.1
    exact not_unitPath (hready.len u hu) (hready.bin u hu) ht.2
      (fun hm => hunit rfl (List.mem_flatten.2 ⟨u, hu, hm⟩)) hp
  · exact hpromoted j u hj hp
  · have hb := ht.2
    rw [hp] at hb
    exact absurd (isBin_levelFilterName.symm.trans hb) (by decide)

/-- **The merge of a unit keeps the latest record** of a key that one of its tables has. -/
theorem Compacts.unit_keeps (ha : s.CreatedByAge) (hk : LosesNothing s level c) {u : List String}
    (hu : u ∈ c.units) {name : String} (hn : name ∈ u) {k : Bytes} {r : Bytes × Nat}
    (hr : (k, r) ∈ s.written ⟨level, name⟩) (hlatest : Latest s.records k r) :
    (k, r) ∈ unitRecords s.written level u := by
  have hsorted := hc.sorted h hu
  have hruns : ∀ run ∈ u.map fun name => s.written ⟨level, name⟩, KeySorted run := by
    intro run hrun
    obtain ⟨name', hn', rfl⟩ := List.mem_map.1 hrun
    exact hsorted name' hn'
  obtain ⟨newer, older, hsplit⟩ := List.append_of_mem hn
  apply mem_of_lookup
  rw [unitRecords, lookup_mergeStack _ _ hruns, overlay, List.map_map, List.findSome?_map]
  refine List.findSome?_eq_some_iff.2 ⟨newer, name, older, hsplit, ?_, fun name' hn' => ?_⟩
  · apply ((hsorted name hn).filter _).lookup_of_mem
    exact List.mem_filter.2 ⟨hr, hk.kept u hu name hn _ hr hlatest⟩
  · -- a table in front of it is newer, so it has no record of the key
    apply lookup_eq_none.2
    intro x hx he
    obtain ⟨k', r'⟩ := x
    obtain rfl : k' = k := he
    have hx := (List.mem_filter.1 hx).1
    have hu' : name' ∈ u := hsplit ▸ List.mem_append_left _ hn'
    obtain ⟨f, hf⟩ := hc.table_mem h hu hn
    obtain ⟨f', hf'⟩ := hc.table_mem h hu hu'
    have hsub : u.Sublist (levelTables s.disk level) := hc.names ▸ sublist_of_mem_splitUnits hu
    have horder := (levelTables_sorted s.disk level).sublist hsub
    have hnd := (levelTables_nodup s.disk level).sublist hsub
    rw [hsplit] at horder hnd
    have hle : f.created ≤ f'.created :=
      (List.pairwise_append.1 horder).2.2 name' hn' name (.head _) f' f hf'.1 hf.1
    have hne : name' ≠ name := (List.nodup_append.1 hnd).2.2 name' hn' name (.head _)
    have hlt : f.created < f'.created := by
      refine Nat.lt_of_le_of_ne hle fun he => hne ?_
      exact congrArg Path.name (s.disk.stamped.created_inj hf'.1 hf.1 he.symm)
    have hnewer := ha.newer _ _ f' f hf' hf rfl hlt k' r'.1 r'.2 r.1 r.2
      ((hsorted name' hu').lookup_of_mem hx) ((hsorted name hn).lookup_of_mem hr)
    by_cases heq : r' = r
    · rw [heq] at hnewer
      exact Nat.lt_irrefl _ hnewer
    · exact Nat.lt_asymm hnewer (hlatest.last r' ⟨_, f', hf', hx⟩ heq)

theorem Compacts.records_subset : (compacted s level c d').records ⊆ s.records := by
  rintro ⟨k, r⟩ ⟨p, f, ht, hx⟩
  rcases hc.table_cases h ht with ⟨j, u, hj, rfl⟩ | ⟨ht', hsp, -⟩
  · rw [Compacts.written_output hj] at hx
    obtain ⟨run, hrun, hx⟩ := mem_mergeStack hx
    obtain ⟨name, hn, rfl⟩ := List.mem_map.1 hrun
    obtain ⟨f', hf'⟩ := hc.table_mem h (List.mem_of_getElem? hj) hn
    exact ⟨_, f', hf', hx⟩
  · have hk : (compacted s level c d').source p k = some r :=
      ((Compacts.ok h hc).faithful p f ht).1.lookup_of_mem hx
    rw [hsp] at hk
    exact ⟨p, f, ht', mem_of_lookup hk⟩

/-- **A compaction keeps the latest records.** -/
theorem Compacts.keeps_latest (ha : s.CreatedByAge) (hk : LosesNothing s level c) {k : Bytes}
    {r : Bytes × Nat} (hlatest : Latest s.records k r) :
    (k, r) ∈ (compacted s level c d').records := by
  obtain ⟨p, f, ht, hr⟩ := hlatest.mem
  by_cases hunit : p.level = level ∧ p.name ∈ c.units.flatten
  · obtain ⟨u, hu, hn⟩ := List.mem_flatten.1 hunit.2
    obtain ⟨j, hj⟩ := List.getElem?_of_mem hu
    obtain ⟨g, hg, -⟩ := hc.output h hj
    refine ⟨_, g, hg, ?_⟩
    rw [Compacts.written_output hj]
    obtain ⟨pl, pn⟩ := p
    obtain rfl : pl = level := hunit.1
    exact hc.unit_keeps h ha hk hu hn hr hlatest
  · obtain ⟨pl, pn⟩ := p
    obtain ⟨ht', hw⟩ := hc.table_stays h ht (fun hl hm => hunit ⟨hl, hm⟩) fun hl => by
      dsimp only at hl
      subst hl
      exact hk.free pn f ht
    exact ⟨_, f, ht', hw ▸ hr⟩

end

theorem LoadOk.compact (h : LoadOk P s) (hc : Compacts P s level c d')
    (hnonempty : ∀ u ∈ c.units, unitRecords s.written level u ≠ []) :
    LoadOk P (compacted s level c d') where
  ok := Compacts.ok h.ok hc
  dirs := by
    have hx := hc.errorFree.returns
    have hdirs := Disk.exec_inDirs (P := P) (sizeTierCompaction P c.targetChunks
      c.bloomFalsePositiveRate level c.tableNames) h.dirs
    rwa [hx] at hdirs
  loadable := by
    intro p f ht hsize
    rcases compact_file (hc.done h.ok) ht.1 with ⟨j, u, hj, rfl⟩ | rfl | ⟨hf, hother, -⟩
    · rw [Compacts.written_output hj, undated_unitRecords]
      refine errorFree_wellFormed hc.errorFree (hc.ready h.ok) hj ?_ ht.1 hsize
      intro hnil
      apply hnonempty u (List.mem_of_getElem? hj)
      rw [← undated_unitRecords, undated, List.map_eq_nil_iff] at hnil
      exact hnil
    · exact absurd (isBin_levelFilterName.symm.trans ht.2) (by decide)
    · rw [Compacts.written_other hother]
      exact h.loadable p f ⟨hf, ht.2⟩ hsize

theorem ReadsOk.compact {events : List StoreEvent} (h : ReadsOk P events s)
    (hc : Compacts P s level c d') (hkeeps : KeepsReads s (.compact level c)) :
    ReadsOk P (.compact level c :: events) (compacted s level c d') where
  toLoadOk := h.toLoadOk.compact hc hkeeps.2.2.nonempty
  levels := (levelsByAge_compact_iff h.ok hc h.levels).2 hkeeps.1
  created := (createdByAge_compact_iff h.ok hc h.created).2 hkeeps.2.1
  view := h.view.subset (Compacts.records_subset h.ok hc) fun _ _ hlatest =>
    Compacts.keeps_latest h.ok hc h.created hkeeps.2.2 hlatest

/-! ## Runs -/

theorem LoadOk.start (h : EmptyStore s) : LoadOk P s where
  ok := .start h
  dirs := by
    intro p f hf
    rw [Disk.file?, h.1, AList.lookup_empty] at hf
    cases hf
  loadable := fun _ _ ht => absurd ht h.no_table

theorem ReadsOk.start (h : EmptyStore s) : ReadsOk P [] s where
  toLoadOk := .start h
  levels := h.levelsByAge
  created := h.createdByAge
  view := ⟨nofun, fun _ _ _ ⟨_, _, ht, _⟩ => h.no_table ht⟩

section
variable (hk : Disk.Keeps (fun _ => False) s.disk d')
include hk

theorem LoadOk.idle (h : LoadOk P s) : LoadOk P { s with disk := d' } where
  ok := h.ok.idle hk
  dirs := h.dirs.of_same (fun _ f hf => ⟨f, (hk.file fun h => h).symm.trans hf⟩) hk.levels
  loadable := fun p f ht => h.loadable p f (idle_table hk ht)

theorem records_idle : ({ s with disk := d' } : TableStore).records = s.records := by
  ext x
  refine ⟨fun ⟨p, f, ht, hx⟩ => ⟨p, f, idle_table hk ht, hx⟩, fun ⟨p, f, ht, hx⟩ => ?_⟩
  exact ⟨p, f, ⟨(hk.file fun h => h).trans ht.1, ht.2⟩, hx⟩

theorem ReadsOk.idle {events : List StoreEvent} (h : ReadsOk P events s) :
    ReadsOk P (.idle :: events) { s with disk := d' } where
  toLoadOk := h.toLoadOk.idle hk
  levels := ⟨(h.ok.idle hk).faithful, fun p q f g hp hq hlt =>
    h.levels.newer p q f g (idle_table hk hp) (idle_table hk hq) hlt⟩
  created := ⟨(h.ok.idle hk).faithful, fun p q f g hp hq hl hlt =>
    h.created.newer p q f g (idle_table hk hp) (idle_table hk hq) hl hlt⟩
  view := by
    rw [records_idle hk]
    exact h.view

end

/-- An event that leaves the tables alone is nothing to what was flushed. -/
theorem ReadsOk.idle_iff {events : List StoreEvent} :
    ReadsOk P (.idle :: events) s ↔ ReadsOk P events s :=
  ⟨fun h => ⟨h.toLoadOk, h.levels, h.created, h.view⟩,
    fun h => ⟨h.toLoadOk, h.levels, h.created, h.view⟩⟩

/-- **The invariant is kept by every step that keeps what readers find.** -/
theorem ReadsOk.step {events : List StoreEvent} {e : StoreEvent} (h : ReadsOk P events s)
    (hs : StoreStep P s e s') (hkeeps : KeepsReads s e) : ReadsOk P (e :: events) s' := by
  cases hs with
  | flush hx hfits hdates =>
    rw [exec_flush (flushable_of_exec hx), Prod.mk.injEq, Prod.mk.injEq] at hx
    obtain ⟨-, -, rfl⟩ := hx
    exact h.flush hkeeps hfits hdates
  | compact hlevel hdir _ hnames herr => exact h.compact ⟨hlevel.1, hdir, hnames, herr⟩ hkeeps
  | idle hk => exact h.idle hk

/-- It holds in every state of a run of such steps. -/
theorem always_readsOk {h : List (StoreEvent × TableStore)} (hr : StoreRun P h s)
    (hkeeps : ∀ x ∈ h, KeepsReads x.2 x.1) :
    Always (fun h s => ReadsOk P (h.map Prod.fst) s) h s :=
  hr.always_of (C := KeepsReads) .start (fun hinv hs hc => hinv.step hs hc) hkeeps

/-! ## Reading -/

namespace TableStore

/-- A store whose tables a reader can tell apart: the last keys can be decoded, sizes are `usize`s,
and the tables of a level from one second share no key. -/
structure Readable (s : TableStore) : Prop where
  size : ∀ p f, s.Table p f → f.bytes.length < 2 ^ 64
  short : ∀ p f, s.Table p f → (lastKey (undated (s.written p))).length ≤ 9996
  apart : ∀ p q f g, s.Table p f → s.Table q g → p ≠ q → p.level = q.level →
    f.createdSecs = g.createdSecs → ∀ r ∈ s.written p, ∀ r' ∈ s.written q, r.1 ≠ r'.1

/-- The records of a level's tables, the table created last first. -/
def levelStack (s : TableStore) (level : Nat) : List (Dated Bytes Bytes) :=
  (levelTables s.disk level).map fun name => s.written ⟨level, name⟩

/-- The records of all tables, level by level. -/
def stack (s : TableStore) : List (List (Dated Bytes Bytes)) :=
  (List.range s.disk.levels).map fun i => s.levelStack (i + 1)

end TableStore

theorem TableStore.Readable.subset (h : s.Readable) (ht : ∀ p f, s'.Table p f → s.Table p f)
    (hw : s'.written = s.written) : s'.Readable := by
  refine ⟨fun p f hp => h.size p f (ht p f hp), fun p f hp => ?_, fun p q f g hp hq => ?_⟩
  · rw [hw]
    exact h.short p f (ht p f hp)
  · rw [hw]
    exact h.apart p q f g (ht p f hp) (ht q g hq)

/-- A flush whose keys no table of this second has. -/
theorem TableStore.Readable.flush {m : Memtable} {writtenAt : Bytes → Nat} (h : s.Readable)
    (hok : StoreOk P s)
    (hsize : (flushBuffer P m.inMemoryRepr m.config.bloomFalsePositiveRate).length < 2 ^ 64)
    (hshort : (lastKey (Mem.records m.inMemoryRepr)).length ≤ 9996)
    (hnew : ∀ q g, s.Table q g → g.createdSecs = s.disk.clock / 10 ^ 9 →
      ∀ r ∈ Mem.records m.inMemoryRepr, ∀ r' ∈ s.written q, r.1 ≠ r'.1) :
    (flushedStore P s m writtenAt).Readable := by
  have hself : (flushedStore P s m writtenAt).written (flushPath P s.disk) =
      datedRecords m.inMemoryRepr writtenAt := Function.update_self ..
  -- a table is the flushed one or was there before
  have hcases : ∀ {p f}, (flushedStore P s m writtenAt).Table p f → p = flushPath P s.disk ∨
      s.Table p f ∧ (flushedStore P s m writtenAt).written p = s.written p := by
    intro p f ht
    by_cases hp : p = flushPath P s.disk
    · exact .inl hp
    · exact .inr ⟨⟨(flushedDisk_keeps.file hp).symm.trans ht.1, ht.2⟩, Function.update_of_ne hp _ _⟩
  have hsecs : ∀ {f}, (flushedStore P s m writtenAt).Table (flushPath P s.disk) f →
      f.createdSecs = s.disk.clock / 10 ^ 9 := fun ht => by
    obtain rfl := Option.some.inj ((file?_flushedDisk hok.flushPath_new).symm.trans ht.1)
    rfl
  have hkeys : ∀ {q g}, s.Table q g → g.createdSecs = s.disk.clock / 10 ^ 9 →
      ∀ r ∈ datedRecords m.inMemoryRepr writtenAt, ∀ r' ∈ s.written q, r.1 ≠ r'.1 :=
    fun hq hsec r hr r' hr' => hnew _ _ hq hsec _ (mem_datedRecords.1 hr).1 r' hr'
  refine ⟨fun p f ht => ?_, fun p f ht => ?_, fun p q f g hp hq hne hl hsec => ?_⟩
  · rcases hcases ht with rfl | ⟨ht, -⟩
    · obtain rfl := Option.some.inj ((file?_flushedDisk hok.flushPath_new).symm.trans ht.1)
      exact hsize
    · exact h.size p f ht
  · rcases hcases ht with rfl | ⟨ht, hw⟩
    · rw [hself, records_datedRecords]
      exact hshort
    · rw [hw]
      exact h.short p f ht
  · have hpt := hp
    have hqt := hq
    rcases hcases hp with rfl | ⟨hp, hwp⟩
    · rcases hcases hq with rfl | ⟨hq, hwq⟩
      · exact absurd rfl hne
      · rw [hself, hwq]
        exact hkeys hq (hsec.symm.trans (hsecs hpt))
    · rcases hcases hq with rfl | ⟨hq, hwq⟩
      · rw [hself, hwp]
        exact fun r hr r' hr' he => hkeys hp (hsec.trans (hsecs hqt)) r' hr' r hr he.symm
      · rw [hwp, hwq]
        exact h.apart p q f g hp hq hne hl hsec

section
variable {events : List StoreEvent}

theorem LoadOk.mem_levelTables (h : LoadOk P s) {name : String} :
    name ∈ levelTables s.disk level ↔ ∃ f, s.Table ⟨level, name⟩ f := by
  rw [Compaction.mem_levelTables]
  refine ⟨fun ⟨hdot, f, hf⟩ => ⟨f, hf, ?_⟩, fun ⟨f, hf⟩ => ⟨lastDotPart_bin hf.2, f, hf.1⟩⟩
  rcases h.ok.names _ f hf with hb | hb
  · exact hb
  · rw [show name = levelFilterName from hb] at hdot
    exact absurd hdot lastDotPart_levelFilterName

theorem LoadOk.mem_stack (h : LoadOk P s) {run : Dated Bytes Bytes} :
    run ∈ s.stack.flatten ↔ ∃ p f, s.Table p f ∧ s.written p = run := by
  rw [List.mem_flatten]
  refine ⟨fun ⟨runs, hruns, hrun⟩ => ?_, fun ⟨p, f, ht, hw⟩ => ?_⟩
  · obtain ⟨i, -, rfl⟩ := List.mem_map.1 hruns
    obtain ⟨name, hname, rfl⟩ := List.mem_map.1 hrun
    obtain ⟨f, hf⟩ := h.mem_levelTables.1 hname
    exact ⟨_, f, hf, rfl⟩
  · obtain ⟨level, name⟩ := p
    obtain ⟨i, rfl⟩ : ∃ i, level = i + 1 := ⟨level - 1, by
      have := h.ok.level_pos _ f ht.1
      dsimp only at this
      omega⟩
    refine ⟨_, List.mem_map_of_mem (List.mem_range.2 (h.dirs _ f ht.1)), ?_⟩
    exact List.mem_map.2 ⟨name, h.mem_levelTables.2 ⟨f, ht⟩, hw⟩

/-- **The stack is by age**, so it is the view of the records. -/
theorem ReadsOk.overlay_stack (h : ReadsOk P events s) :
    overlay s.stack.flatten = lastFlushed events := by
  have hrecords : recordsOf s.stack.flatten = s.records := by
    ext x
    refine ⟨fun ⟨run, hrun, hx⟩ => ?_, fun ⟨p, f, ht, hx⟩ => ⟨_, h.mem_stack.2 ⟨p, f, ht, rfl⟩, hx⟩⟩
    obtain ⟨p, f, ht, rfl⟩ := h.mem_stack.1 hrun
    exact ⟨p, f, ht, hx⟩
  refine (hrecords ▸ isView_overlay (fun run hrun => ?_) ?_ :
    IsView s.records (overlay s.stack.flatten)).unique h.view
  · obtain ⟨p, f, ht, rfl⟩ := h.mem_stack.1 hrun
    exact (h.ok.faithful p f ht).1
  · refine List.pairwise_flatten.2 ⟨fun runs hruns => ?_, ?_⟩
    · -- within a level, by creation
      obtain ⟨i, -, rfl⟩ := List.mem_map.1 hruns
      refine List.pairwise_map.2 ?_
      refine ((levelTables_sorted s.disk (i + 1)).and
        (levelTables_nodup s.disk (i + 1))).imp_of_mem fun {a b} ha hb hab => ?_
      obtain ⟨f, hf⟩ := h.mem_levelTables.1 ha
      obtain ⟨g, hg⟩ := h.mem_levelTables.1 hb
      refine h.created.newer _ _ f g hf hg rfl (Nat.lt_of_le_of_ne (hab.1 f g hf.1 hg.1) ?_)
      exact fun he => hab.2 (congrArg Path.name (s.disk.stamped.created_inj hf.1 hg.1 he.symm))
    · -- and level by level
      refine List.pairwise_map.2 (List.pairwise_lt_range.imp fun {i j} hij a ha b hb => ?_)
      obtain ⟨name, hname, rfl⟩ := List.mem_map.1 ha
      obtain ⟨name', hname', rfl⟩ := List.mem_map.1 hb
      obtain ⟨f, hf⟩ := h.mem_levelTables.1 hname
      obtain ⟨g, hg⟩ := h.mem_levelTables.1 hname'
      exact h.levels.newer _ _ f g hf hg (Nat.succ_lt_succ hij)

theorem LoadOk.exists_tables (h : LoadOk P s) (hread : s.Readable) (level : Nat) :
    ∃ ts, TablesOf (s.disk.dir level) ts ∧ Lsm.Readable ts ∧
      levelRuns ts = (s.levelStack level).map undated := by
  let entries := (s.disk.dir level).filter fun e => isBin e.1
  have htable : ∀ e ∈ entries, s.Table ⟨level, e.1⟩ e.2 := fun e he => by
    obtain ⟨he, hb⟩ := List.mem_filter.1 he
    exact ⟨Disk.mem_dir.1 he, hb⟩
  have hstored : ∀ e : { e // e ∈ entries }, ∃ t : StoredTable,
      t.file = e.1.2 ∧ t.rs = undated (s.written ⟨level, e.1.1⟩) := fun e => by
    have ht := htable e.1 e.2
    obtain ⟨sparseIndex, hwf⟩ := h.loadable _ _ ht (hread.size _ _ ht)
    exact ⟨⟨e.1.2, sparseIndex, _, hwf⟩, rfl, rfl⟩
  choose stored hfile hrs using hstored
  refine ⟨entries.attach.map stored, ?_, ⟨fun t ht => ?_, ?_⟩, ?_⟩
  · rw [TablesOf, List.map_map, show StoredTable.file ∘ stored = fun e => e.1.2 from funext hfile,
      List.attach_map_val (f := Prod.snd)]
  · obtain ⟨e, -, rfl⟩ := List.mem_map.1 ht
    rw [hrs]
    exact hread.short _ _ (htable e.1 e.2)
  · -- different entries have different names
    have hnames : entries.Pairwise fun a b => a.1 ≠ b.1 :=
      List.pairwise_map.1 (List.nodup_iff_pairwise_ne.1
        ((List.filter_sublist.map _).nodup (s.disk.dir_nodup level)))
    rw [← List.attach_map_subtype_val entries, List.pairwise_map] at hnames
    refine List.pairwise_map.2 (hnames.imp fun {a b} hne hsec r hr r' hr' => ?_)
    rw [hfile, hfile] at hsec
    rw [hrs] at hr hr'
    obtain ⟨x, hx, rfl⟩ := List.mem_map.1 hr
    obtain ⟨x', hx', rfl⟩ := List.mem_map.1 hr'
    exact hread.apart _ _ _ _ (htable a.1 a.2) (htable b.1 b.2)
      (fun he => hne (congrArg Path.name he)) rfl hsec x hx x' hx'
  · let newer (a b : String × File) : Bool := decide (b.2.created ≤ a.2.created)
    have hstored : newestFirst (entries.attach.map stored) =
        (entries.attach.mergeSort fun a b => newer a.1 b.1).map stored :=
      (List.map_mergeSort fun a _ b _ => by rw [hfile, hfile]).symm
    have hentries : (entries.attach.mergeSort fun a b => newer a.1 b.1).map Subtype.val =
        entries.mergeSort newer := by
      rw [List.map_mergeSort (s := newer) fun _ _ _ _ => rfl, List.attach_map_subtype_val]
    have hlevel : levelTables s.disk level = (entries.mergeSort newer).map Prod.fst := by
      have hfilter : (s.disk.dir level).filter (fun e => decide (lastDotPart e.1 = "bin")) =
          entries := by
        refine List.filter_congr fun e he => ?_
        by_cases hb : isBin e.1 = true
        · rw [hb, lastDotPart_bin hb, decide_eq_true rfl]
        · rcases h.ok.names _ e.2 (Disk.mem_dir.1 he) with hb' | hb'
          · exact absurd hb' hb
          · rw [Bool.not_eq_true _ |>.mp hb, show e.1 = levelFilterName from hb',
              decide_eq_false lastDotPart_levelFilterName]
      rw [levelTables, ← hfilter]
    rw [levelRuns, hstored, levelStack, hlevel, ← hentries]
    simp [hrs]

/-- The answer of a reader that finds `r`. -/
def found? (r : Option (Bytes × Nat)) (searched levels : Nat) : SearchResult :=
  match r with
  | some r => .found r.1 searched levels
  | none => .missing searched levels

/-- A reader that loads the tables answers as their records stacked. -/
theorem LoadOk.read (h : LoadOk P s) (hread : s.Readable) {levelArray : List FileMap}
    (hloaded : Loaded s.disk levelArray) (key : Bytes) : ∃ searched levels,
      Lsm.read levelArray key = .ok (found? (overlay s.stack.flatten key) searched levels) := by
  choose tables htables hreadable hruns using h.exists_tables hread
  obtain ⟨searched, hx⟩ := read_eq_overlay (fun level _ _ => htables level)
    (fun level _ _ => hreadable level) hloaded key
  -- without their dates, the stacked levels of the reader are those of the store
  have hstack : (List.range s.disk.levels).map (fun i => levelRuns (tables (i + 1))) =
      s.stack.map (·.map undated) := by
    rw [stack, List.map_map]
    exact List.map_congr_left fun i _ => hruns (i + 1)
  rw [hstack, stackAnswer, ← List.map_flatten, overlay_undated] at hx
  cases hlast : overlay s.stack.flatten key with
  | some r =>
    rw [hlast] at hx
    exact ⟨_, _, hx⟩
  | none =>
    rw [hlast] at hx
    exact ⟨_, _, hx⟩

/-- **A reader that loads the tables finds what was flushed last**, and nothing else. -/
theorem ReadsOk.read (h : ReadsOk P events s) (hread : s.Readable) {levelArray : List FileMap}
    (hloaded : Loaded s.disk levelArray) (key : Bytes) : ∃ searched levels,
      Lsm.read levelArray key = .ok (found? (lastFlushed events key) searched levels) := by
  rw [← h.overlay_stack]
  exact h.toLoadOk.read hread hloaded key

theorem LoadOk.exists_loaded (h : LoadOk P s) (hread : s.Readable) :
    ∃ levelArray, Loaded s.disk levelArray := by
  choose tables htables _ _ using h.exists_tables hread
  exact ⟨_, _, createLevelArray_eq tables fun level _ _ => htables level,
    List.forall₂_same.2 fun map _ => List.Perm.refl map⟩

end

/-- **Reads survive flushes and compactions**: after a run whose steps keep what readers find, a
reader that loads the tables answers every key with the record that was flushed last. -/
theorem finds_last_flush {h : List (StoreEvent × TableStore)} (hr : StoreRun P h s)
    (hkeeps : ∀ x ∈ h, KeepsReads x.2 x.1) (hread : s.Readable) {levelArray : List FileMap}
    (hloaded : Loaded s.disk levelArray) (key : Bytes) : ∃ searched levels,
      Lsm.read levelArray key =
        .ok (found? (lastFlushed (h.map Prod.fst) key) searched levels) :=
  (always_readsOk hr hkeeps).now.read hread hloaded key

/-! ### A level merged whole -/

/-- All tables are in the first level and make one unit. -/
structure OneUnit (s : TableStore) (c : Cycle) : Prop where
  units : c.units = [c.tableNames]
  first : ∀ {p f}, s.disk.file? p = some f → p.level = 1

namespace OneUnit

variable (ho : OneUnit s c)
include ho

theorem unit_eq {j : Nat} {u : List String} (hj : c.units[j]? = some u) :
    j = 0 ∧ u = c.tableNames := by
  rw [ho.units] at hj
  cases j with
  | zero => exact ⟨rfl, (Option.some.inj hj).symm⟩
  | succ j => simp at hj

theorem keepsReads
    (hkept : ∀ name ∈ c.tableNames, ∀ r ∈ s.written ⟨1, name⟩, keptRecord r = true)
    (hne : unitRecords s.written 1 c.tableNames ≠ []) : KeepsReads s (.compact 1 c) := by
  have hnext : ∀ name f, ¬s.Table ⟨1 + 1, name⟩ f := fun name f ht => by
    cases ho.first ht.1
  refine ⟨fun name hname hout => ?_, ⟨fun i j u v hij hi hj => ?_, fun name f ht => ?_⟩,
    fun name f ht => ?_, fun u hu name hname r hr _ => ?_, fun u hu => ?_⟩
  · rw [ho.units] at hout
    exact absurd (List.mem_flatten.2 ⟨_, List.mem_singleton.2 rfl, hname⟩) hout
  · obtain ⟨rfl, -⟩ := ho.unit_eq hi
    obtain ⟨rfl, -⟩ := ho.unit_eq hj
    exact absurd hij (Nat.lt_irrefl 0)
  · exact absurd ht (hnext name f)
  · exact absurd ht (hnext name f)
  · rw [ho.units, List.mem_singleton] at hu
    exact hkept name (hu ▸ hname) r hr
  · rw [ho.units, List.mem_singleton] at hu
    rw [hu]
    exact hne

variable (h : StoreOk P s) (hc : Compacts P s 1 c d')
include h hc

/-- The merged table is the only one that the compaction leaves. -/
theorem table {p : Path} {f : File} (ht : (compacted s 1 c d').Table p f) :
    p = promotedPath 1 0 c.tableNames := by
  rcases hc.table_cases h ht with ⟨j, u, hj, rfl⟩ | ⟨ht, -, hp, -⟩
  · obtain ⟨rfl, rfl⟩ := ho.unit_eq hj
    rfl
  · obtain ⟨hname, hout⟩ := hp (ho.first ht.1)
    rw [ho.units] at hout
    exact absurd (List.mem_flatten.2 ⟨_, List.mem_singleton.2 rfl, hname⟩) hout

theorem readable
    (hsize : (builtTable P 2 c.bloomFalsePositiveRate
      (undated (unitRecords s.written 1 c.tableNames))).length < 2 ^ 64)
    (hshort : (lastKey (undated (unitRecords s.written 1 c.tableNames))).length ≤ 9996) :
    (compacted s 1 c d').Readable := by
  have hj : c.units[0]? = some c.tableNames := by
    rw [ho.units]
    rfl
  refine ⟨fun p f ht => ?_, fun p f ht => ?_, fun p q f g hp hq hne => ?_⟩
  · obtain rfl := ho.table h hc ht
    obtain ⟨-, g, hg, hb⟩ := errorFree_built hc.errorFree (hc.ready h) hj
    obtain rfl := Option.some.inj (hg.symm.trans ht.1)
    rw [hb, ← undated_unitRecords]
    exact hsize
  · obtain rfl := ho.table h hc ht
    rw [Compacts.written_output hj]
    exact hshort
  · exact absurd ((ho.table h hc hp).trans (ho.table h hc hq).symm) hne

end OneUnit

/-! ### Two flushes and their compaction -/

theorem flushesRun_keepsReads : ∀ n, ∀ x ∈ flushesRun n, KeepsReads x.2 x.1
  | 0 => by simp [flushesRun]
  | n + 1 => List.forall_mem_cons.2 ⟨oneKeyRepr_ne [107] [118], flushesRun_keepsReads n⟩

theorem unitRecords_two : unitRecords (flushes 2).written 1 [flushName 1, flushName 0] =
    [([107], oneValue, 1)] := by
  rw [unitRecords, List.map_cons, List.map_cons, flushes_written (by decide),
    flushes_written (by decide)]
  have hkept : ∀ i : Nat, keptRecord ([107], oneValue, i) = true := fun _ => rfl
  simp [mergeStack, hkept, mergeLeft]

theorem compactFlushes_oneUnit : OneUnit (flushes 2) (compactFlushes 2) :=
  ⟨compactFlushes_two, fun hf => flushes_level hf⟩

theorem compactRun_keepsReads : ∀ x ∈ compactRun 2, KeepsReads x.2 x.1 := by
  refine List.forall_mem_cons.2
    ⟨compactFlushes_oneUnit.keepsReads (fun name hname r hr => ?_) ?_, flushesRun_keepsReads 2⟩
  · obtain ⟨i, hi, rfl⟩ : ∃ i < 2, name = flushName i := mem_flushNames.1 hname
    rw [flushes_written hi, List.mem_singleton] at hr
    rw [hr]
    rfl
  · change unitRecords (flushes 2).written 1 [flushName 1, flushName 0] ≠ []
    rw [unitRecords_two]
    exact List.cons_ne_nil _ _

theorem two_readable (hc : Compacts Platform.plain (flushes 2) 1 (compactFlushes 2) d') :
    (compacted (flushes 2) 1 (compactFlushes 2) d').Readable := by
  have hrecords : undated (unitRecords (flushes 2).written 1 (compactFlushes 2).tableNames) =
      [([107], oneValue)] :=
    congrArg undated unitRecords_two
  refine compactFlushes_oneUnit.readable (flushes_run 2).2 hc ?_ ?_
  · rw [hrecords, length_builtTable]
    decide
  · rw [hrecords]
    decide

theorem two_flushes_found : ∃ d' levelArray searched levels,
    Loaded d' levelArray ∧
    Lsm.read levelArray [107] = .ok (.found oneValue searched levels) := by
  obtain ⟨d', hc⟩ := flushes_compacts (n := 1) (by decide)
  have hr : StoreRun Platform.plain (compactRun 2) _ :=
    .step (flushes_run 2).1 (compactFlushes_step hc)
  have hread := two_readable hc
  obtain ⟨levelArray, hloaded⟩ :=
    ((always_readsOk hr compactRun_keepsReads).now).exists_loaded hread
  obtain ⟨searched, levels, hx⟩ :=
    finds_last_flush hr compactRun_keepsReads hread hloaded [107]
  have hlast : lastFlushed ((compactRun 2).map Prod.fst) [107] =
      some (oneValue, (flushes 1).since) := by
    rfl
  rw [hlast] at hx
  exact ⟨d', levelArray, searched, levels, hloaded, hx⟩

end Compaction
