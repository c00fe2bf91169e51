import SwiftMerge.Compaction.Proof.Success

/-!
# The rounds of a unit merge its tables newest first

`NewestFirst runs out` says what the merge of a list of runs, newest first, is: key-sorted, with the
newest record of each key that reading does not skip. The rounds of a unit of well-formed tables
write it (`unit_newest_first`), and so does every other order of merging neighbours (`Joined`),
wherever it carries a table over.
-/

namespace Compaction

open Lib Lsm

/-! ## The newest records -/

/-- `out` has, of each key, the record of the newest run with one that is no tombstone. -/
structure NewestFirst (runs : List (List Record)) (out : List Record) : Prop where
  sorted : KeySorted out
  mem_iff : ∀ r, r ∈ out ↔ ∃ newer run older, runs = newer ++ run :: older ∧ r ∈ run ∧
    isTombstone r = false ∧ ∀ run' ∈ newer, ∀ r' ∈ run', r'.1 = r.1 → isTombstone r' = true

theorem mem_live {rs : List Record} {r : Record} : r ∈ live rs ↔ r ∈ rs ∧ isTombstone r = false := by
  simp [live]

theorem lookup_live_none {rs : List Record} {k : Bytes} :
    (live rs).lookup k = none ↔ ∀ r ∈ rs, r.1 = k → isTombstone r = true := by
  rw [lookup_eq_none]
  refine ⟨fun h r hr hk => ?_, fun h r hr hk => ?_⟩
  · by_contra ht
    exact h r (mem_live.2 ⟨hr, by simpa using ht⟩) hk
  · obtain ⟨hr, ht⟩ := mem_live.1 hr
    rw [h r hr hk] at ht
    cases ht

theorem newestFirst_merged {runs : List (List Record)} (h : ∀ run ∈ runs, KeySorted run) :
    NewestFirst runs (merged runs) := by
  refine ⟨keySorted_merged h, fun r => ?_⟩
  have hfind : r ∈ merged runs ↔ overlay (runs.map live) r.1 = some r.2 := by
    rw [← lookup_merged r.1 h, (keySorted_merged h).lookup_iff]
  rw [hfind, overlay, List.findSome?_map, List.findSome?_eq_some_iff]
  refine exists_congr fun newer => exists_congr fun run => exists_congr fun older => ?_
  refine and_congr_right fun hruns => ?_
  have hrun : KeySorted run := h run (by rw [hruns]; simp)
  rw [Function.comp_apply, (keySorted_live hrun).lookup_iff, mem_live, and_assoc]
  refine and_congr_right fun _ => and_congr_right fun _ => forall₂_congr fun run' _ => ?_
  exact lookup_live_none

/-! ## Orders of merging -/

/-- The tables merged two by two in some order: at each step a table is carried over, or two
neighbours are joined. -/
inductive Joined : List TableType → TableType → Prop
  | carried (t : TableType) : Joined [t] t
  | joined {ls rs : List TableType} {l r : TableType} {lName rName : String} {out : Bytes} :
    Joined ls l → Joined rs r → joinTables l lName r rName = (out, .ok ()) →
    Joined (ls ++ rs) ⟨.rawDataSection, out⟩

/-- A table that holds a key-sorted run. -/
def HoldsSorted (t : TableType) (run : List Record) : Prop := KeySorted run ∧ Holds t run

theorem forall₂_sorted {tables : List TableType} {runs : List (List Record)}
    (h : List.Forall₂ HoldsSorted tables runs) : ∀ run ∈ runs, KeySorted run := fun _ hr => by
  obtain ⟨_, -, hrun⟩ := exists_of_mem_right h hr
  exact hrun.1

/-- What an order of merging leaves holds the merge, but for a single table carried through. -/
theorem Joined.holds {tables : List TableType} {t : TableType} (h : Joined tables t) :
    ∀ {runs : List (List Record)}, List.Forall₂ HoldsSorted tables runs →
      (∃ run, HoldsSorted t run ∧ live run = merged runs) ∧
        (2 ≤ tables.length → t = ⟨.rawDataSection, encodeSection (merged runs)⟩) := by
  induction h with
  | carried t =>
    intro runs hruns
    cases hruns with
    | @cons _ run _ _ hrun hrest =>
      cases hrest
      exact ⟨⟨run, hrun, (mergeLeft_nil _).symm⟩, by simp⟩
  | @joined ls rs l r lName rName out _ _ hjoin ihl ihr =>
    intro runs hruns
    -- the runs of the left part and of the right part
    obtain ⟨newer, older, rfl, hnewer, holder⟩ : ∃ newer older, runs = newer ++ older ∧
        List.Forall₂ HoldsSorted ls newer ∧ List.Forall₂ HoldsSorted rs older :=
      ⟨_, _, (List.take_append_drop ls.length runs).symm,
        (List.forall₂_take_append runs ls rs hruns.flip).flip,
        (List.forall₂_drop_append runs ls rs hruns.flip).flip⟩
    obtain ⟨⟨L, hL, hliveL⟩, -⟩ := ihl hnewer
    obtain ⟨⟨R, hR, hliveR⟩, -⟩ := ihr holder
    have hmerged : mergeLeft (live L) (live R) = merged (newer ++ older) := by
      rw [hliveL, hliveR]
      exact (mergeStack_append _ (forall₂_sorted hnewer) (forall₂_sorted holder)).symm
    have hfits := mergeLeft_live_fits hL.2.fits hR.2.fits
    have hlive := live_mergeLeft L R
    rw [joinTables_eq hL.2 hR.2] at hjoin
    obtain rfl := (Prod.mk.inj hjoin).1
    rw [hmerged] at hfits hlive ⊢
    exact ⟨⟨_, ⟨keySorted_merged (forall₂_sorted hruns), holds_raw hfits⟩, hlive⟩, fun _ => rfl⟩

theorem exists_joined : ∀ {tables : List TableType} {runs : List (List Record)},
    List.Forall₂ HoldsSorted tables runs → tables ≠ [] → ∃ t, Joined tables t
  | [t], _, _, _ => ⟨t, .carried t⟩
  | l :: r :: tables, _, .cons hl hruns, _ => by
    obtain ⟨t, ht⟩ := exists_joined hruns (by simp)
    obtain ⟨⟨R, hR, -⟩, -⟩ := ht.holds hruns
    exact ⟨_, .joined (.carried l) ht (joinTables_eq hl.2 hR.2 "" "")⟩

/-- **Every order of merging gives the same section.** -/
theorem joined_iff {tables : List TableType} {runs : List (List Record)}
    (hruns : List.Forall₂ HoldsSorted tables runs) (hlen : 2 ≤ tables.length) {t : TableType} :
    Joined tables t ↔ t = ⟨.rawDataSection, encodeSection (merged runs)⟩ := by
  refine ⟨fun h => (h.holds hruns).2 hlen, fun h => ?_⟩
  obtain ⟨t', ht'⟩ := exists_joined hruns (by rintro rfl; simp at hlen)
  rwa [h, ← (ht'.holds hruns).2 hlen]

/-! ## A unit -/

/-- A file of a level as the merge takes it. -/
def tableAt (d : Disk) (dir : Nat) (name : String) : TableType :=
  ⟨tableTypeFromName name, ((d.file? ⟨dir, name⟩).map File.bytes).getD []⟩

theorem FileHolds.tableAt {d : Disk} {dir : Nat} {name : String} {run : List Record}
    (h : FileHolds d dir name run) : HoldsSorted (tableAt d dir name) run := by
  obtain ⟨f, hf, hholds⟩ := h.file
  refine ⟨h.sorted, ?_⟩
  rw [Compaction.tableAt, hf]
  exact hholds

/-- What a unit makes of its tables: one output with the records `out`, as its rounds leave it and,
once the section is framed, as the unit returns it. -/
structure UnitMerge (P : Platform) (id dir outputLevel : Nat) (bloomFalsePositiveRate : F64)
    (files : List String) (runs : List (List Record)) (d : Disk) (out : List Record) : Prop where
  merge : NewestFirst runs out
  rounds : ∃ d1 f, Prog.exec (Disk.handler P) (joinRounds dir id 0 files []) d =
      (.ok (outputName id files, consumedBy id 0 files), d1) ∧
    d1.file? (outputPath dir id files) = some f ∧ f.bytes = encodeSection out ∧
    ∀ name ∈ files, d1.file? ⟨dir, name⟩ = none
  order : ∀ t, Joined (files.map (tableAt d dir)) t ↔ t = ⟨.rawDataSection, encodeSection out⟩
  consumed : ∀ name ∈ files, drainedName name ∈ consumedBy id 0 files
  output : outputName id files ∉ consumedBy id 0 files
  framed : ∀ table,
    buildFromDataSection P (encodeSection out) outputLevel bloomFalsePositiveRate = .ok table →
      Holds ⟨.ssTable, table⟩ out ∧ ∃ d2 f,
        Prog.exec (Disk.handler P) (compact P id dir outputLevel bloomFalsePositiveRate files) d =
          (.ok (outputName id files), d2) ∧
        d2.file? (outputPath dir id files) = some f ∧ Holds ⟨.ssTable, f.bytes⟩ out ∧
        ∀ name, name ∈ files ∨ name ∈ consumedBy id 0 files → d2.file? ⟨dir, name⟩ = none

/-- **A unit merges its tables newest first**, in whatever order, and leaves nothing else. -/
theorem unit_newest_first (P : Platform) (id dir outputLevel : Nat) (bloomFalsePositiveRate : F64)
    {files : List String} {runs : List (List Record)} {d : Disk} (hlen : 2 ≤ files.length)
    (hdir : 1 ≤ dir ∧ dir ≤ d.levels) (hruns : List.Forall₂ (FileHolds d dir) files runs)
    (hnd : files.Nodup) (hb : ∀ name ∈ files, isBin name = true) :
    ∃ out, UnitMerge P id dir outputLevel bloomFalsePositiveRate files runs d out := by
  have htables : List.Forall₂ HoldsSorted (files.map (tableAt d dir)) runs :=
    List.forall₂_map_left_iff.2 (hruns.imp fun _ _ h => h.tableAt)
  have hfits := forall₂_fits hruns
  obtain ⟨d1, hx1, ⟨f, hf, hbytes, -⟩, hgone⟩ := exec_unitRounds (P := P) hlen hdir hruns
    hnd hb
  have hout := roundsOutput_notMem id 0 files hlen fun name hn => .inl (hb name hn)
  rw [← outputName_eq] at hout
  refine ⟨merged runs, ⟨newestFirst_merged (forall₂_sorted htables),
    ⟨d1, f, hx1, hf, hbytes, hgone⟩, fun t => joined_iff htables (by rwa [List.length_map]),
    drained_mem_consumedBy id 0 files hlen, hout, fun table htable => ?_⟩⟩
  obtain ⟨hindex, rfl⟩ := (buildFromDataSection_ok_iff hfits).1 htable
  obtain ⟨d2, hx2, hdone⟩ := exec_compact (P := P) bloomFalsePositiveRate hlen hdir hruns
    hnd hb hindex
  obtain ⟨g, hg, hholds, -⟩ := hdone.output
  refine ⟨holds_builtTable hfits hindex, d2, g, hx2, hg, hholds, fun name hname => ?_⟩
  apply hdone.gone
  · exact ⟨rfl, hname.imp_right .inl⟩
  · intro he
    obtain rfl : name = outputName id files := congrArg Path.name he
    rcases hname with hname | hname
    · have := hb _ hname
      rw [outputName_eq, isBin_roundsOutput] at this
      cases this
    · exact hout hname

/-! ## Three tables -/

/-- Three tables, newest first: a deleted key of one byte, its newer value and its older one. -/
def threeTables : List (Path × List Record) :=
  [(⟨1, "ss-table-entry_3.bin"⟩, [([107], [255])]),
    (⟨1, "ss-table-entry_2.bin"⟩, [([97], [98]), ([107], [50])]),
    (⟨1, "ss-table-entry_1.bin"⟩, [([107], [49])])]

/-- The third table is carried over to the second round. -/
theorem three_newest_first : ∃ out, UnitMerge Platform.plain 0 1 2 ⟨0x3F847AE147AE147B⟩
    (threeTables.map (·.1.name)) (threeTables.map Prod.snd)
    (tablesDisk Platform.plain 2 threeTables) out := by
  have hok : TablesOk threeTables := by constructor <;> decide
  have hbin : ∀ t ∈ threeTables, t.1.level = 1 ∧ isBin t.1.name = true := by decide
  refine unit_newest_first Platform.plain 0 1 2 _ (by decide)
    ⟨Nat.le_refl 1, (levels_tablesDisk threeTables).symm ▸ Nat.le_succ 1⟩ ?_ (by decide)
    fun name hname => ?_
  · refine List.forall₂_map_left_iff.2 (List.forall₂_map_right_iff.2 ?_)
    refine List.forall₂_same.2 fun t ht => ⟨hok.sorted t ht, ?_⟩
    obtain ⟨f, hf, hholds⟩ := hok.holds Platform.plain 2 t ht
    obtain ⟨hlevel, hb⟩ := hbin t ht
    rw [← hlevel, tableTypeFromName_bin hb]
    exact ⟨f, hf, hholds⟩
  · obtain ⟨t, ht, rfl⟩ := List.mem_map.1 hname
    exact (hbin t ht).2

end Compaction
