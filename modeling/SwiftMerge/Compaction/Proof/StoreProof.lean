import SwiftMerge.Compaction.Proof.LevelTables
import SwiftMerge.Compaction.Proof.Success
import SwiftMerge.Compaction.TableStore

/-!
# The tables of a store in every state

`StoreOk` holds in every state of a run (`StoreOk.step`): the tables hold the records that the store
has dates of, no intermediate file is left, the tables of the first level are named after the
instants of their flushes. So a compaction finds its units ready, and its tables afterwards are its
outputs and the tables that it has not touched (`Compacts.table_cases`); a flush adds one table
(`StoreOk.flush_table`).
-/

namespace Compaction

open Lib Lsm Mem TableStore

variable {P : Platform} {s s' : TableStore} {level : Nat} {c : Cycle} {d d' : Disk}

/-! ## The dates of promoted tables -/

theorem promotedRecords_output (written : Path → Dated Bytes Bytes) (level : Nat) : ∀ (id : Nat)
    {units : List (List String)} {j : Nat} {u : List String}, units[j]? = some u →
    promotedRecords written level id units (promotedPath level (id + j) u) =
      unitRecords written level u
  | id, v :: units, 0, u, h => by
    obtain rfl := Option.some.inj h
    rw [promotedRecords, Nat.add_zero, if_pos rfl]
  | id, v :: units, j + 1, u, h => by
    have hne : promotedPath level (id + (j + 1)) u ≠ promotedPath level id v := by
      intro he
      have he : promoted (outputName (id + (j + 1)) u) = promoted (outputName id v) :=
        congrArg Path.name he
      rw [promoted_outputName, promoted_outputName] at he
      have := (binName_inj he).1
      omega
    have ih := promotedRecords_output written level (id + 1) (show units[j]? = some u from h)
    rw [promotedRecords, if_neg hne]
    rw [show id + (j + 1) = id + 1 + j by omega]
    exact ih

theorem promotedRecords_other {written : Path → Dated Bytes Bytes} {p : Path} : ∀ {id : Nat}
    {units : List (List String)},
    (∀ j u, units[j]? = some u → p ≠ promotedPath level (id + j) u) →
    promotedRecords written level id units p = written p
  | _, [], _ => rfl
  | id, v :: units, h => by
    have hne : p ≠ promotedPath level id v := h 0 v rfl
    rw [promotedRecords, if_neg hne]
    refine promotedRecords_other fun j u hj => ?_
    rw [show id + 1 + j = id + (j + 1) by omega]
    exact h (j + 1) u hj

/-! ## The invariant -/

/-- What holds of the tables in every state. -/
structure StoreOk (P : Platform) (s : TableStore) : Prop where
  faithful : s.Faithful
  names : ∀ p f, s.disk.file? p = some f → isBin p.name ∨ p.name = levelFilterName
  level_pos : ∀ p f, s.disk.file? p = some f → 1 ≤ p.level
  flushed : ∀ name f, s.Table ⟨1, name⟩ f → ∃ t < s.disk.clock, name = ssTableName (P.uuid t)
  dates : ∀ p r, r ∈ s.written p → r.2.2 < s.since
  since_le : s.since ≤ s.disk.clock

theorem StoreOk.start (h : EmptyStore s) : StoreOk P s := by
  obtain ⟨hfiles, hwritten, hsince⟩ := h
  have hnone : ∀ {p f}, s.disk.file? p ≠ some f := by
    intro p f hf
    rw [Disk.file?, hfiles, AList.lookup_empty] at hf
    cases hf
  refine ⟨fun p f ht => absurd ht.1 hnone, fun p f hf => absurd hf hnone,
    fun p f hf => absurd hf hnone, fun name f ht => absurd ht.1 hnone, fun p r hr => ?_, hsince⟩
  rw [hwritten] at hr
  cases hr

theorem StoreOk.flushPath_new (h : StoreOk P s) : s.disk.file? (flushPath P s.disk) = none := by
  cases hf : s.disk.file? (flushPath P s.disk) with
  | none => rfl
  | some f =>
    obtain ⟨t, ht, he⟩ := h.flushed _ f ⟨hf, isBin_ssTableName _⟩
    have := P.uuid_inj (ssTableName_inj he)
    omega

/-- The units that a compaction of a level makes are ready. -/
theorem StoreOk.ready (h : StoreOk P s) (hlevel : 1 ≤ level) (hdir : level ≤ s.disk.levels)
    (hnames : c.tableNames = levelTables s.disk level) :
    UnitsReady level 0 c.units (fun name => undated (s.written ⟨level, name⟩)) s.disk := by
  have htable : ∀ u ∈ c.units, ∀ name ∈ u, ∃ f, s.Table ⟨level, name⟩ f := by
    intro u hu name hname
    have hmem : name ∈ levelTables s.disk level :=
      hnames ▸ (sublist_of_mem_splitUnits hu).subset hname
    obtain ⟨hdot, f, hf⟩ := mem_levelTables.1 hmem
    refine ⟨f, hf, ?_⟩
    rcases h.names _ f hf with hb | hb
    · exact hb
    · rw [show name = levelFilterName from hb] at hdot
      exact absurd hdot lastDotPart_levelFilterName
  refine ⟨⟨hlevel, hdir⟩, (splitUnits_spec c.targetChunks c.tableNames).2, fun u hu t ht => ?_,
    fun u hu t ht => ?_, splitUnits_sublist.nodup ?_, fun j pass i _ => ?_⟩
  · obtain ⟨f, -, hb⟩ := htable u hu t ht
    exact hb
  · obtain ⟨f, hf, hb⟩ := htable u hu t ht
    obtain ⟨hsorted, hholds⟩ := h.faithful _ f ⟨hf, hb⟩
    refine ⟨keySorted_undated.2 hsorted, f, hf, ?_⟩
    rw [tableTypeFromName_bin hb]
    exact hholds
  · rw [hnames]
    exact levelTables_nodup s.disk level
  · cases hf : s.disk.file? ⟨level, tmpName j pass i⟩ with
    | none => rfl
    | some f =>
      rcases h.names _ f hf with hb | hb
      · rw [isBin_tmpName] at hb
        cases hb
      · exact absurd hb (tmpName_ne_levelFilterName j pass i)

/-! ## The steps -/

theorem records_datedRecords (m : InMemoryRepr) (writtenAt : Bytes → Nat) :
    undated (datedRecords m writtenAt) = records m := by
  rw [undated, datedRecords, List.map_map]
  exact List.map_id _

theorem StoreOk.flush {m : Memtable} {writtenAt : Bytes → Nat} (h : StoreOk P s)
    (hfits : FlushFits P m.inMemoryRepr) (hdates : ∀ r ∈ records m.inMemoryRepr,
      s.since ≤ writtenAt r.1 ∧ writtenAt r.1 ≤ s.disk.clock) :
    StoreOk P ⟨flushedDisk P m s.disk, Function.update s.written (flushPath P s.disk)
      (datedRecords m.inMemoryRepr writtenAt), (flushedDisk P m s.disk).clock⟩ := by
  have hnew := h.flushPath_new
  have hkeep : Disk.Keeps _ s.disk (flushedDisk P m s.disk) := flushedDisk_keeps
  have hclock : s.disk.clock < (flushedDisk P m s.disk).clock := by
    rw [clock_flushedDisk hnew]
    exact P.lt_later _
  have hfile := file?_flushedDisk (P := P) (m := m) hnew
  -- a file is the new table or was there before
  have hcases : ∀ p f, (flushedDisk P m s.disk).file? p = some f →
      p = flushPath P s.disk ∨ p ≠ flushPath P s.disk ∧ s.disk.file? p = some f := by
    intro p f hf
    by_cases hp : p = flushPath P s.disk
    · exact .inl hp
    · exact .inr ⟨hp, (hkeep.file hp).symm.trans hf⟩
  refine ⟨fun p f ht => ?_, fun p f hf => ?_, fun p f hf => ?_, fun name f ht => ?_,
    fun p r hr => ?_, Nat.le_refl _⟩
  · dsimp only
    rcases hcases p f ht.1 with rfl | ⟨hp, hf⟩
    · have hf := ht.1
      dsimp only at hf
      rw [hfile, Option.some.injEq] at hf
      rw [Function.update_self, ← keySorted_undated, records_datedRecords, ← hf]
      exact ⟨keySorted_records _, holds_flushBuffer hfits _⟩
    · rw [Function.update_of_ne hp]
      exact h.faithful p f ⟨hf, ht.2⟩
  · rcases hcases p f hf with rfl | ⟨-, hf⟩
    · exact .inl (isBin_ssTableName _)
    · exact h.names p f hf
  · rcases hcases p f hf with rfl | ⟨-, hf⟩
    · exact Nat.le_refl 1
    · exact h.level_pos p f hf
  · rcases hcases _ f ht.1 with he | ⟨-, hf⟩
    · exact ⟨s.disk.clock, hclock, congrArg Path.name he⟩
    · obtain ⟨t, ht', he⟩ := h.flushed name f ⟨hf, ht.2⟩
      exact ⟨t, ht'.trans hclock, he⟩
  · dsimp only at hr ⊢
    by_cases hp : p = flushPath P s.disk
    · rw [hp, Function.update_self] at hr
      obtain ⟨r', hr', rfl⟩ := List.mem_map.1 hr
      exact (hdates r' hr').2.trans_lt hclock
    · rw [Function.update_of_ne hp] at hr
      exact ((h.dates p r hr).trans_le h.since_le).trans hclock

/-- **The files after a compaction**: an output of it, the level summary, or a file that it has not
touched. -/
theorem compact_file {units : List (List String)} {run : String → List Record} {p : Path} {f : File}
    (hdone : CycleDone level units run d d') (hf : d'.file? p = some f) :
    (∃ j u, units[j]? = some u ∧ p = promotedPath level j u) ∨ p = ⟨level + 1, levelFilterName⟩ ∨
    (d.file? p = some f ∧ (∀ j u, units[j]? = some u → p ≠ promotedPath level j u) ∧
      (p.level = level → ∀ u ∈ units, p.name ∉ u)) := by
  by_cases hp : ∃ j u, units[j]? = some u ∧ p = promotedPath level j u
  · exact .inl hp
  · by_cases hsummary : p = ⟨level + 1, levelFilterName⟩
    · exact .inr (.inl hsummary)
    · have hunit : ∀ j u, units[j]? = some u → ¬UnitPath level j u p := by
        intro j u hj hu
        rw [hdone.gone j u hj p hu] at hf
        cases hf
      refine .inr (.inr ⟨?_, fun j u hj he => hp ⟨j, u, hj, he⟩, fun hl u hu hm => ?_⟩)
      · rw [← hf, hdone.frame.file]
        rintro (⟨j, u, hj, hu | he⟩ | he)
        · exact hunit j u hj hu
        · exact hp ⟨j, u, hj, he⟩
        · exact hsummary he
      · obtain ⟨j, hj⟩ := List.getElem?_of_mem hu
        exact hunit j u hj ⟨hl, .inl hm⟩

theorem unitRecords_sorted {u : List String} (h : ∀ name ∈ u, KeySorted (s.written ⟨level, name⟩)) :
    KeySorted (unitRecords s.written level u) := by
  refine keySorted_mergeStack _ fun run hrun => ?_
  obtain ⟨name, hname, rfl⟩ := List.mem_map.1 hrun
  exact h name hname

theorem undated_unitRecords (written : Path → Dated Bytes Bytes) (u : List String) :
    undated (unitRecords written level u) =
      merged (u.map fun name => undated (written ⟨level, name⟩)) := by
  rw [unitRecords, keptRecord, undated_mergeStack, List.map_map]
  rfl

/-- A compaction of a level of the store. -/
structure Compacts (P : Platform) (s : TableStore) (level : Nat) (c : Cycle) (d' : Disk) : Prop where
  pos : 1 ≤ level
  dir : level ≤ s.disk.levels
  names : c.tableNames = levelTables s.disk level
  errorFree : ErrorFree P level c s.disk d'

/-- The store after a compaction. -/
def compacted (s : TableStore) (level : Nat) (c : Cycle) (d' : Disk) : TableStore :=
  ⟨d', promotedRecords s.written level 0 c.units, s.since⟩

namespace Compacts

variable (h : StoreOk P s) (hc : Compacts P s level c d')
include h hc

theorem ready : UnitsReady level 0 c.units (fun name => undated (s.written ⟨level, name⟩)) s.disk :=
  h.ready hc.pos hc.dir hc.names

theorem done : CycleDone level c.units (fun name => undated (s.written ⟨level, name⟩)) s.disk d' :=
  errorFree_done hc.errorFree (hc.ready h)

theorem table_mem {u : List String} (hu : u ∈ c.units) {name : String} (hn : name ∈ u) :
    ∃ f, s.Table ⟨level, name⟩ f := by
  obtain ⟨-, f, hf, -⟩ := (hc.ready h).holds u hu name hn
  exact ⟨f, hf, (hc.ready h).bin u hu name hn⟩

theorem sorted {u : List String} (hu : u ∈ c.units) :
    ∀ name ∈ u, KeySorted (s.written ⟨level, name⟩) := by
  intro name hn
  obtain ⟨f, hf⟩ := hc.table_mem h hu hn
  exact (h.faithful _ f hf).1

theorem output {j : Nat} {u : List String} (hj : c.units[j]? = some u) :
    ∃ f, (compacted s level c d').Table (promotedPath level j u) f ∧ s.disk.clock ≤ f.created := by
  obtain ⟨f, hf, -, hcreated⟩ := (hc.done h).output j u hj
  exact ⟨f, ⟨hf, isBin_promotedPath _ _ _⟩, hcreated⟩

omit h hc in
theorem written_output {j : Nat} {u : List String} (hj : c.units[j]? = some u) :
    (compacted s level c d').written (promotedPath level j u) = unitRecords s.written level u := by
  have := promotedRecords_output s.written level 0 hj
  rwa [Nat.zero_add] at this

omit h hc in
theorem written_other {p : Path} (hp : ∀ j u, c.units[j]? = some u → p ≠ promotedPath level j u) :
    (compacted s level c d').written p = s.written p := by
  refine promotedRecords_other fun j u hj => ?_
  rw [Nat.zero_add]
  exact hp j u hj

theorem source_output {j : Nat} {u : List String} (hj : c.units[j]? = some u) :
    (compacted s level c d').source (promotedPath level j u) = s.unitSource level u := by
  funext k
  have hsorted := hc.sorted h (List.mem_of_getElem? hj)
  rw [source, written_output hj, unitRecords, lookup_mergeStack, List.map_map, unitSource]
  · rfl
  · intro run hrun
    obtain ⟨name, hn, rfl⟩ := List.mem_map.1 hrun
    exact hsorted name hn

theorem fromSome {u : List String} (hu : u ∈ c.units) : FromSome (s.unitSource level u)
    fun a => ∃ name ∈ u, a = s.source ⟨level, name⟩ := by
  have hsorted : ∀ run ∈ u.map (fun name => s.written ⟨level, name⟩), KeySorted run := by
    intro run hrun
    obtain ⟨name, hn, rfl⟩ := List.mem_map.1 hrun
    exact hc.sorted h hu name hn
  intro k r hk
  have hk : overlay ((u.map fun name => s.written ⟨level, name⟩).map (·.filter keptRecord)) k =
      some r := by
    rw [List.map_map]
    exact hk
  obtain ⟨a, ⟨run, hrun, rfl⟩, ha⟩ := fromSome_overlay keptRecord hsorted k r hk
  obtain ⟨name, hn, rfl⟩ := List.mem_map.1 hrun
  exact ⟨_, ⟨name, hn, rfl⟩, ha⟩

/-- **The tables after the compaction**: its outputs and the tables it has not touched. -/
theorem table_cases {p : Path} {f : File} (ht : (compacted s level c d').Table p f) :
    (∃ j u, c.units[j]? = some u ∧ p = promotedPath level j u) ∨
    (s.Table p f ∧ (compacted s level c d').source p = s.source p ∧
      (p.level = level → p.name ∈ c.tableNames ∧ p.name ∉ c.units.flatten) ∧
      (p.level = level + 1 → p.name ∉ c.outputs)) := by
  rcases compact_file (hc.done h) ht.1 with hout | rfl | ⟨hf, hother, hunits⟩
  · exact .inl hout
  · exact absurd (isBin_levelFilterName.symm.trans ht.2) (by decide)
  · refine .inr ⟨⟨hf, ht.2⟩, ?_, fun hl => ⟨?_, fun hm => ?_⟩, fun hl hm => ?_⟩
    · funext k
      rw [source, written_other hother]
      rfl
    · rw [hc.names, mem_levelTables]
      exact ⟨lastDotPart_bin ht.2, f, hl ▸ hf⟩
    · obtain ⟨u, hu, hm⟩ := List.mem_flatten.1 hm
      exact hunits hl u hu hm
    · obtain ⟨o, ho, he⟩ := List.mem_map.1 hm
      obtain ⟨j, u, hj, rfl⟩ := mem_unitOutputs.1 ho
      rw [Nat.zero_add] at he
      apply hother j u hj
      rw [promotedPath, he, ← hl]

theorem ok : StoreOk P (compacted s level c d') := by
  have hdone := hc.done h
  have hclock : s.disk.clock ≤ d'.clock := hdone.frame.clock
  refine ⟨fun p f ht => ?_, fun p f hf => ?_, fun p f hf => ?_, fun name f ht => ?_,
    fun p r hr => ?_, h.since_le.trans hclock⟩
  · rcases compact_file hdone ht.1 with ⟨j, u, hj, rfl⟩ | rfl | ⟨hf, hother, -⟩
    · have hu := List.mem_of_getElem? hj
      obtain ⟨g, hg, hholds, -⟩ := hdone.output j u hj
      obtain rfl := Option.some.inj (hg.symm.trans ht.1)
      rw [written_output hj, undated_unitRecords]
      exact ⟨unitRecords_sorted (hc.sorted h hu), hholds⟩
    · exact absurd (isBin_levelFilterName.symm.trans ht.2) (by decide)
    · rw [written_other hother]
      exact h.faithful p f ⟨hf, ht.2⟩
  · rcases compact_file hdone hf with ⟨j, u, -, rfl⟩ | rfl | ⟨hf, -, -⟩
    · exact .inl (isBin_promotedPath _ _ _)
    · exact .inr rfl
    · exact h.names p f hf
  · rcases compact_file hdone hf with ⟨j, u, -, rfl⟩ | rfl | ⟨hf, -, -⟩
    · exact Nat.succ_pos _
    · exact Nat.succ_pos _
    · exact h.level_pos p f hf
  · -- the first level gets no output
    have hpos := hc.pos
    rcases compact_file hdone ht.1 with ⟨j, u, -, he⟩ | he | ⟨hf, -, -⟩
    · have := congrArg Path.level he
      dsimp only at this
      omega
    · have := congrArg Path.level he
      dsimp only at this
      omega
    · obtain ⟨t, ht', he⟩ := h.flushed name f ⟨hf, ht.2⟩
      exact ⟨t, ht'.trans_le hclock, he⟩
  · -- the records of an output are records of the unit's tables
    by_cases hp : ∃ j u, c.units[j]? = some u ∧ p = promotedPath level j u
    · obtain ⟨j, u, hj, rfl⟩ := hp
      rw [written_output hj] at hr
      obtain ⟨run, hrun, hr⟩ := mem_mergeStack hr
      obtain ⟨name, -, rfl⟩ := List.mem_map.1 hrun
      exact h.dates _ r hr
    · rw [written_other fun j u hj he => hp ⟨j, u, hj, he⟩] at hr
      exact h.dates p r hr

end Compacts

/-- **A level of the store can be compacted**, when the indexes of the merges fit. -/
theorem StoreOk.exists_compacts (h : StoreOk P s) (hpos : 1 ≤ level) (hdir : level ≤ s.disk.levels)
    (hnames : c.tableNames = levelTables s.disk level) (hsize : ∀ u ∈ c.units,
      ((u.map fun name => undated (s.written ⟨level, name⟩)).map indexSize).sum < 2 ^ 32) :
    ∃ d', Compacts P s level c d' := by
  have hnext : ∀ name f, endsWith name ssTableFileExt = true →
      s.disk.file? ⟨level + 1, name⟩ = some f → IsTable s.disk ⟨level + 1, name⟩ := by
    intro name f hext hf
    rcases h.names _ f hf with hb | hb
    · exact ⟨f, _, hf, (h.faithful _ f ⟨hf, hb⟩).2⟩
    · rw [show name = levelFilterName from hb] at hext
      exact absurd hext (by decide)
  obtain ⟨d', herr⟩ := errorFree (P := P) (h.ready hpos hdir hnames)
    (fun u hu => indexFits_of_size _ ((indexSize_merged_le _).trans_lt (hsize u hu))) hnext
  exact ⟨d', hpos, hdir, hnames, herr⟩

theorem StoreOk.idle (h : StoreOk P s) (hk : Disk.Keeps (fun _ => False) s.disk d') :
    StoreOk P { s with disk := d' } := by
  have hfile : ∀ p, d'.file? p = s.disk.file? p := fun p => hk.file fun h => h
  refine ⟨fun p f ht => h.faithful p f ⟨(hfile p).symm.trans ht.1, ht.2⟩,
    fun p f hf => h.names p f ((hfile p).symm.trans hf),
    fun p f hf => h.level_pos p f ((hfile p).symm.trans hf), fun name f ht => ?_, h.dates,
    h.since_le.trans hk.clock⟩
  obtain ⟨t, ht', he⟩ := h.flushed name f ⟨(hfile _).symm.trans ht.1, ht.2⟩
  exact ⟨t, ht'.trans_le hk.clock, he⟩

/-- **The invariant is kept by every step.** -/
theorem StoreOk.step {e : StoreEvent} (h : StoreOk P s) (hs : StoreStep P s e s') : StoreOk P s' := by
  cases hs with
  | flush hx hfits hdates =>
    rw [exec_flush (flushable_of_exec hx), Prod.mk.injEq, Prod.mk.injEq] at hx
    obtain ⟨-, -, rfl⟩ := hx
    exact h.flush hfits hdates
  | compact hlevel hdir _ hnames herr => exact Compacts.ok h ⟨hlevel.1, hdir, hnames, herr⟩
  | idle hk => exact h.idle hk

end Compaction
