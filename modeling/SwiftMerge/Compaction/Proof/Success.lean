import SwiftMerge.Compaction.Proof.Cycle

/-!
# When a compaction is error-free

A compaction is error-free when its tables are well formed and no intermediate file is in its way,
the index of each unit's merge fits, and the tables of the next level, whose keys the summary reads,
are well formed (`errorFree`).
-/

namespace Compaction

open Lib Lsm

variable {P : Platform} {dir : Nat} {d : Disk} {run : String → List Record}

/-! ## The units -/

theorem exec_compactUnits_ready (bloomFalsePositiveRate : F64) :
    ∀ {id : Nat} {units : List (List String)} {d : Disk},
    UnitsReady dir id units run d →
    (∀ u ∈ units, IndexFits (dir + 1) (merged (u.map run))) →
    ∃ d', Prog.exec (Disk.handler P) (compactUnits P dir bloomFalsePositiveRate id units) d =
      (.ok (unitOutputs id units), d')
  | _, [], d, _, _ => ⟨d, rfl⟩
  | id, u :: units, d, hready, hfits => by
    have hulen := hready.len u (.head _)
    obtain ⟨d1, hx, -⟩ := exec_compact (P := P) bloomFalsePositiveRate hulen
      hready.dir_ok (hready.unit (.head _)) (hready.unit_nodup (.head _))
      (hready.bin u (.head _)) (hfits u (.head _))
    obtain ⟨d2, hrest⟩ := exec_compactUnits_ready bloomFalsePositiveRate
      (hready.after (keeps_of_exec (compact_within hulen fun p hp => hp) hx))
      fun v hv => hfits v (.tail _ hv)
    refine ⟨d2, ?_⟩
    rw [compactUnits, Prog.exec_bind_ok (Prog.exec_attempt _ _ _), hx, Prog.exec_bind_ok hrest]
    rfl

/-! ## The promotion -/

theorem exec_promote_ready : ∀ {outs : List String} {d : Disk}, dir + 1 ≤ d.levels →
    outs.Nodup → (∀ o ∈ outs, ∃ f, d.file? ⟨dir, o⟩ = some f) →
    ∃ d', Prog.exec (Disk.handler P) (promote dir outs) d = (.ok (), d')
  | [], d, _, _, _ => ⟨d, rfl⟩
  | o :: outs, d, hdir, hnd, hf => by
    obtain ⟨f, hof⟩ := hf o (.head _)
    obtain ⟨ho, hnd⟩ := List.nodup_cons.1 hnd
    have hdst : 1 ≤ (⟨dir + 1, promoted o⟩ : Path).level ∧
        (⟨dir + 1, promoted o⟩ : Path).level ≤ d.levels := ⟨Nat.succ_pos _, hdir⟩
    have hren := exec_io (Disk.step_rename (P := P) hof hdst)
    obtain ⟨d', hrest⟩ := exec_promote_ready
      (d := d.rename ⟨dir, o⟩ ⟨dir + 1, promoted o⟩) (by rwa [Disk.levels_rename]) hnd
      fun x hx => by
        obtain ⟨g, hg⟩ := hf x (.tail _ hx)
        refine ⟨g, ?_⟩
        rw [Disk.file?_rename _ next_level_ne, hg]
        intro he
        rw [show x = o from congrArg Path.name he] at hx
        exact ho hx
    exact ⟨d', (Prog.exec_bind_ok hren).trans hrest⟩

/-! ## The level summary -/

theorem sectionKeys_section : ∀ {rs : List Record}, (∀ r ∈ rs, Fits r) →
    ∀ (tail : Bytes) (ptr : Nat) (b : Boundaries), ∃ b',
      sectionKeys (encodeSection rs ++ tail) ptr (ptr + (encodeSection rs).length) b = .ok b'
  | [], _, tail, ptr, b => ⟨b, by rw [sectionKeys, if_neg (by simp)]⟩
  | r :: rs, h, tail, ptr, b => by
    have hlen := length_encodeRecord r
    have hread : readDataSectionEntry (encodeSection (r :: rs) ++ tail) =
        .ok (r, encodeSection rs ++ tail) := by
      rw [encodeSection_cons, List.append_assoc]
      exact readDataSectionEntry_encodeRecord (h r (.head _)) _
    obtain ⟨b', ih⟩ := sectionKeys_section (fun x hx => h x (.tail _ hx)) tail
      (ptr + (encodeRecord r).length) (b.add r.1)
    refine ⟨b', ?_⟩
    have hpos : ptr < ptr + (encodeSection (r :: rs)).length := by
      rw [encodeSection_cons, List.length_append]
      omega
    rw [sectionKeys, if_pos hpos]
    split
    · rename_i r' file heq
      rw [hread, Except.ok.injEq, Prod.mk.injEq] at heq
      obtain ⟨rfl, rfl⟩ := heq
      rw [encodeSection_cons, List.length_append, ← Nat.add_assoc]
      exact ih
    · rename_i heq
      rw [hread] at heq
      cases heq

/-- A file that holds a run as a table. -/
def IsTable (d : Disk) (p : Path) : Prop :=
  ∃ f rs, d.file? p = some f ∧ Holds ⟨.ssTable, f.bytes⟩ rs

theorem exec_levelBoundaries {level : Nat} : ∀ {names : List String} (b : Boundaries),
    (∀ name ∈ names, IsTable d ⟨level, name⟩) →
    ∃ b', Prog.exec (Disk.handler P) (levelBoundaries level names b) d = (.ok b', d)
  | [], b, _ => ⟨b, rfl⟩
  | name :: names, b, h => by
    obtain ⟨f, rs, hf, hholds⟩ := h name (.head _)
    obtain ⟨tail, hsection⟩ := hholds.dataSection
    obtain ⟨b1, hkeys⟩ := sectionKeys_section hholds.fits tail 0 b
    rw [Nat.zero_add] at hkeys
    obtain ⟨b2, hrest⟩ := exec_levelBoundaries b1 fun n hn => h n (.tail _ hn)
    refine ⟨b2, ?_⟩
    rw [levelBoundaries, Prog.exec_bind_ok (exec_io (Disk.step_read hf)), hsection name,
      Prog.exec_bind_ok (Prog.exec_ofExcept _ _ _)]
    dsimp only
    rw [hkeys, Prog.exec_bind_ok (Prog.exec_ofExcept _ _ _), hrest]

theorem exec_dirExists (level : Nat) :
    Prog.exec (Disk.handler P) (Prog.perform (.dirExists level) : CompactionProg Bool) d =
      (.ok (decide (1 ≤ level ∧ level ≤ d.levels)), d) := rfl

theorem exec_readDir {level : Nat} (h : 1 ≤ level ∧ level ≤ d.levels) :
    Prog.exec (Disk.handler P) (CompactionProg.io (.readDir level)) d = (.ok (d.dir level), d) :=
  exec_io (if_pos h)

theorem exec_buildLevelSummary {level : Nat} (hlevel : 1 ≤ level ∧ level ≤ d.levels)
    (h : ∀ name f, endsWith name ssTableFileExt = true → d.file? ⟨level, name⟩ = some f →
      IsTable d ⟨level, name⟩) :
    ∃ d', Prog.exec (Disk.handler P) (buildLevelSummary level) d = (.ok (), d') := by
  have htables : ∀ name ∈ ((d.dir level).map Prod.fst).filter (endsWith · ssTableFileExt),
      IsTable d ⟨level, name⟩ := by
    intro name hn
    obtain ⟨hn, hext⟩ := List.mem_filter.1 hn
    obtain ⟨⟨name', f⟩, he, rfl⟩ := List.mem_map.1 hn
    exact h name' f hext (Disk.mem_dir.1 he)
  obtain ⟨b, hb⟩ := exec_levelBoundaries (P := P) ⟨none, none⟩ htables
  have hcreate := Disk.file?_create_self (P := P) (d := d) (p := ⟨level, levelFilterName⟩)
  rw [buildLevelSummary, Prog.exec_bind_ok (exec_dirExists level),
    Prog.exec_bind_ok (Prog.exec_ensure_pos (decide_eq_true hlevel) _),
    Prog.exec_bind_ok (exec_readDir hlevel)]
  dsimp only
  rw [Prog.exec_bind_ok hb, Prog.exec_bind_ok (exec_io (Disk.step_create hlevel))]
  exact ⟨_, exec_io (Disk.step_append hcreate _)⟩

/-! ## The compaction -/

/-- **An error-free compaction.** -/
theorem errorFree {c : Cycle} (hready : UnitsReady dir 0 c.units run d)
    (hfits : ∀ u ∈ c.units, IndexFits (dir + 1) (merged (u.map run)))
    (hnext : ∀ name f, endsWith name ssTableFileExt = true → d.file? ⟨dir + 1, name⟩ = some f →
      IsTable d ⟨dir + 1, name⟩) : ∃ d', ErrorFree P dir c d d' := by
  obtain ⟨d1, hunits⟩ := exec_compactUnits_ready (P := P) c.bloomFalsePositiveRate hready hfits
  obtain ⟨-, hdone⟩ := compactUnits_done hready hunits (length_unitOutputs 0 _)
  have hk1 := keeps_of_exec (compactUnits_within hready.len (S := fun p => p.level = dir)
    fun j u hj p hp => hp.1) hunits
  -- the next level's directory is made when it is not there
  have hcreate : ∃ d2, Prog.exec (Disk.handler P)
      (Prog.when (!decide (1 ≤ dir + 1 ∧ dir + 1 ≤ d1.levels))
        (CompactionProg.io (.createDir (dir + 1)))) d1 = (.ok (), d2) ∧ dir + 1 ≤ d2.levels := by
    by_cases hlevel : dir + 1 ≤ d1.levels
    · rw [decide_eq_true ⟨Nat.succ_pos _, hlevel⟩]
      exact ⟨d1, rfl, hlevel⟩
    · rw [decide_eq_false fun h => hlevel h.2]
      exact ⟨_, exec_io (Disk.step_createDir (by have := hready.dir_ok.2.trans hk1.levels; omega)),
        Nat.le_max_right _ _⟩
  obtain ⟨d2, hx2, hlevel⟩ := hcreate
  have hk2 := keeps_of_exec (S := fun _ => False) (within_createDir _).when hx2
  have hnodup := unitOutputs_nodup 0 c.units
  obtain ⟨d3, hx3⟩ := exec_promote_ready (P := P) hlevel (List.Nodup.of_map _ hnodup)
    fun o ho => by
      obtain ⟨j, u, hj, rfl⟩ := mem_unitOutputs.1 ho
      obtain ⟨f, hf, -⟩ := hdone.output j u hj
      exact ⟨f, (hk2.file fun h => h).trans hf⟩
  have hk3 := keeps_of_exec (promote_within
    (S := fun p => ∃ o ∈ unitOutputs 0 c.units, p = ⟨dir, o⟩ ∨ p = ⟨dir + 1, promoted o⟩)
    fun o ho => ⟨⟨o, ho, .inl rfl⟩, ⟨o, ho, .inr rfl⟩⟩) hx3
  have hlevel3 : 1 ≤ dir + 1 ∧ dir + 1 ≤ d3.levels := ⟨Nat.succ_pos _, hlevel.trans hk3.levels⟩
  have htables : ∀ name f, endsWith name ssTableFileExt = true →
      d3.file? ⟨dir + 1, name⟩ = some f → IsTable d3 ⟨dir + 1, name⟩ := by
    intro name f hext hf
    by_cases hout : ∃ o ∈ unitOutputs 0 c.units, name = promoted o
    · obtain ⟨o, ho, rfl⟩ := hout
      obtain ⟨g, hg, hdst, -⟩ := exec_promote hnodup hx3 o ho
      obtain ⟨j, u, hj, rfl⟩ := mem_unitOutputs.1 ho
      obtain ⟨g', hg', hholds, -⟩ := hdone.output j u hj
      rw [hk2.file fun h => h, hg'] at hg
      obtain rfl := Option.some.inj hg
      exact ⟨g', _, hdst, hholds⟩
    · have hkeep : d3.file? ⟨dir + 1, name⟩ = d.file? ⟨dir + 1, name⟩ := by
        rw [hk3.file, hk2.file (fun h => h), hk1.file (fun h => by simp at h)]
        rintro ⟨o, ho, he | he⟩
        · exact next_level_ne he.symm
        · exact hout ⟨o, ho, congrArg Path.name he⟩
      obtain ⟨g, rs, hg, hholds⟩ := hnext name f hext (hkeep.symm.trans hf)
      exact ⟨g, rs, hkeep.trans hg, hholds⟩
  obtain ⟨d4, hx4⟩ := exec_buildLevelSummary (P := P) hlevel3 htables
  have hk4 := keeps_of_exec (buildLevelSummary_within (S := fun p => p = ⟨dir + 1, levelFilterName⟩)
    rfl) hx4
  have hremove : ∀ b : Bool, ∃ d5, Prog.exec (Disk.handler P)
      (Prog.when b (removeFile ⟨dir + 1, levelFilterName⟩)) d4 = (.ok (), d5) := by
    intro b
    cases b with
    | false => exact ⟨d4, rfl⟩
    | true =>
      obtain ⟨d5, hx5, -⟩ := exec_removeFile (P := P) (p := ⟨dir + 1, levelFilterName⟩) (d := d4)
      exact ⟨d5, hx5⟩
  obtain ⟨d5, hx5⟩ := hremove
    (!(d4.dir (dir + 1)).any fun e => endsWith e.1 ssTableFileExt)
  refine ⟨d5, ?_, unitOutputs 0 c.units, d1, hunits, length_unitOutputs 0 _⟩
  rw [sizeTierCompaction, show splitUnits c.targetChunks c.tableNames = c.units from rfl]
  dsimp only
  rw [Prog.exec_bind_ok hunits, Prog.exec_bind_ok (exec_dirExists (dir + 1)),
    Prog.exec_bind_ok hx2, Prog.exec_bind_ok hx3, Prog.exec_bind_ok hx4,
    Prog.exec_bind_ok (exec_readDir ⟨hlevel3.1, hlevel3.2.trans hk4.levels⟩)]
  exact hx5

/-! ## Disks of tables -/

/-- A disk with the given tables, the first one made last. -/
def tablesDisk (P : Platform) (levels : Nat) : List (Path × List Record) → Disk
  | [] => { Disk.empty 0 with levels := levels }
  | t :: tables =>
    (tablesDisk P levels tables).write P t.1 (builtTable P t.1.level ⟨0x3F847AE147AE147B⟩ t.2)

/-- Tables that a disk can be made of. -/
structure TablesOk (tables : List (Path × List Record)) : Prop where
  nodup : (tables.map Prod.fst).Nodup
  bin : ∀ t ∈ tables, isBin t.1.name = true
  sorted : ∀ t ∈ tables, KeySorted t.2
  fits : ∀ t ∈ tables, ∀ r ∈ t.2, Fits r
  indexFits : ∀ t ∈ tables, IndexFits t.1.level t.2

variable {levels : Nat} {tables : List (Path × List Record)}

theorem levels_tablesDisk : ∀ (tables : List (Path × List Record)),
    (tablesDisk P levels tables).levels = levels
  | [] => rfl
  | _ :: tables => Disk.levels_write.trans (levels_tablesDisk tables)

theorem file?_tablesDisk_none {p : Path} : ∀ {tables : List (Path × List Record)},
    p ∉ tables.map Prod.fst → (tablesDisk P levels tables).file? p = none
  | [], _ => Disk.file?_empty 0
  | t :: tables, h => by
    rw [List.map_cons, List.mem_cons, not_or] at h
    rw [tablesDisk, Disk.file?_write h.1, file?_tablesDisk_none h.2]

theorem file?_tablesDisk (P : Platform) (levels : Nat) :
    ∀ {tables : List (Path × List Record)}, (tables.map Prod.fst).Nodup → ∀ t ∈ tables,
      ∃ f, (tablesDisk P levels tables).file? t.1 = some f ∧
      f.bytes = builtTable P t.1.level ⟨0x3F847AE147AE147B⟩ t.2
  | [], _, _, h => by cases h
  | t :: tables, hnd, x, hx => by
    obtain ⟨ht, hnd⟩ := List.nodup_cons.1 hnd
    rcases List.mem_cons.1 hx with rfl | hx
    · exact ⟨_, Disk.file?_write_self, rfl⟩
    · obtain ⟨f, hf, hb⟩ := file?_tablesDisk P levels hnd x hx
      refine ⟨f, ?_, hb⟩
      rw [tablesDisk, Disk.file?_write, hf]
      rintro he
      exact ht (he ▸ List.mem_map_of_mem hx)

theorem TablesOk.holds (h : TablesOk tables) (P : Platform) (levels : Nat) :
    ∀ t ∈ tables, ∃ f, (tablesDisk P levels tables).file? t.1 = some f ∧
      Holds ⟨.ssTable, f.bytes⟩ t.2 := by
  intro t ht
  obtain ⟨f, hf, hb⟩ := file?_tablesDisk P levels h.nodup t ht
  exact ⟨f, hf, hb ▸ holds_builtTable (h.fits t ht) (h.indexFits t ht)⟩

/-- The tables of a level of such a disk are ready to be compacted. -/
theorem TablesOk.ready {c : Cycle} (h : TablesOk tables) (hdir : 1 ≤ dir ∧ dir ≤ levels)
    (hnames : ∀ name ∈ c.tableNames, (⟨dir, name⟩, run name) ∈ tables) (hnd : c.tableNames.Nodup) :
    UnitsReady dir 0 c.units run (tablesDisk P levels tables) := by
  have hmem : ∀ u ∈ c.units, ∀ t ∈ u, (⟨dir, t⟩, run t) ∈ tables := fun u hu t ht =>
    hnames t ((sublist_of_mem_splitUnits hu).subset ht)
  have hbin : ∀ u ∈ c.units, ∀ t ∈ u, isBin t = true := fun u hu t ht => h.bin (_, _) (hmem u hu t ht)
  refine ⟨⟨hdir.1, (levels_tablesDisk tables).symm ▸ hdir.2⟩,
    (splitUnits_spec c.targetChunks c.tableNames).2, hbin, fun u hu t ht => ?_,
    splitUnits_sublist.nodup hnd, fun j pass i _ => ?_⟩
  · obtain ⟨f, hf, hholds⟩ := h.holds P levels _ (hmem u hu t ht)
    refine ⟨h.sorted _ (hmem u hu t ht), f, hf, ?_⟩
    rw [tableTypeFromName_bin (hbin u hu t ht)]
    exact hholds
  · apply file?_tablesDisk_none
    intro hm
    obtain ⟨t, ht, he⟩ := List.mem_map.1 hm
    have hb := h.bin t ht
    rw [he, isBin_tmpName] at hb
    cases hb

theorem TablesOk.errorFree {c : Cycle} (h : TablesOk tables) (run : String → List Record)
    (hdir : 1 ≤ dir ∧ dir ≤ levels)
    (hnames : ∀ name ∈ c.tableNames, (⟨dir, name⟩, run name) ∈ tables) (hnd : c.tableNames.Nodup)
    (hfits : ∀ u ∈ c.units, ((u.map run).map indexSize).sum < 2 ^ 32) :
    ∃ d', ErrorFree P dir c (tablesDisk P levels tables) d' := by
  refine Compaction.errorFree (h.ready hdir hnames hnd)
    (fun u hu => indexFits_of_size _ ((indexSize_merged_le _).trans_lt (hfits u hu)))
    fun name f hext hf => ?_
  by_cases hm : (⟨dir + 1, name⟩ : Path) ∈ tables.map Prod.fst
  · obtain ⟨t, ht, he⟩ := List.mem_map.1 hm
    obtain ⟨g, hg, hholds⟩ := h.holds P levels t ht
    exact ⟨g, t.2, he ▸ hg, hholds⟩
  · rw [file?_tablesDisk_none hm] at hf
    cases hf

end Compaction
