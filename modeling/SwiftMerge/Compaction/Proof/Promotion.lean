import SwiftMerge.Compaction.Proof.Success

/-!
# Promotion and the tables of the next level

An error-free compaction, whatever its tables hold, moves its outputs to their promoted names in the
next level and leaves the other tables there alone (`errorFree_next`). The numbering of units starts
again in every compaction, so an output may take the name of a table that an earlier compaction has
promoted. Over any run of compactions of a level the tables of the next one are all kept exactly when
this never happens (`always_tablesKept_iff`).
-/

namespace Compaction

open Lib Lsm

variable {P : Platform} {dir : Nat} {c : Cycle} {d d' : Disk}

/-- **The next level after an error-free compaction.** -/
theorem errorFree_next (h : ErrorFree P dir c d d') :
    ∃ d1, Disk.Keeps (fun p => p.level = dir) d d1 ∧
      (∀ name ∈ c.outputs, ∃ o f, d1.file? ⟨dir, o⟩ = some f ∧
        d'.file? ⟨dir + 1, name⟩ = some f) ∧
      ∀ name, isBin name → name ∉ c.outputs →
        d'.file? ⟨dir + 1, name⟩ = d.file? ⟨dir + 1, name⟩ := by
  obtain ⟨outs, d1, d2, d3, hunits, hk12, hpromote, hk3⟩ := sizeTier_ok h.returns
  obtain ⟨outs', d1', hunits', hlen⟩ := h.units
  obtain ⟨hout, -⟩ := Prod.mk.inj (hunits.symm.trans hunits')
  rw [← Except.ok.inj hout] at hlen
  have hulen := (splitUnits_spec c.targetChunks c.tableNames).2
  -- no unit failed, so the outputs are all there
  have houts : outs = unitOutputs 0 c.units := by
    apply ((compactUnits_yields hulen).exec hunits).eq_of_length
    rw [hlen]
    exact (length_unitOutputs 0 _).symm
  have hk1 := keeps_of_exec (compactUnits_within hulen (S := fun p => p.level = dir)
    fun j u hj p hp => hp.1) hunits
  have hk2 := keeps_of_exec (promote_within
    (S := fun p => ∃ o ∈ outs, p = ⟨dir, o⟩ ∨ p = ⟨dir + 1, promoted o⟩)
    fun o ho => ⟨⟨o, ho, .inl rfl⟩, ⟨o, ho, .inr rfl⟩⟩) hpromote
  have hmoved := exec_promote (by rw [houts]; exact unitOutputs_nodup 0 _) hpromote
  have hsummary : ∀ {name : String}, isBin name →
      (⟨dir + 1, name⟩ : Path) ≠ ⟨dir + 1, levelFilterName⟩ := by
    intro name hb he
    rw [show name = levelFilterName from congrArg Path.name he, isBin_levelFilterName] at hb
    cases hb
  refine ⟨d1, hk1, fun name hname => ?_, fun name hb hname => ?_⟩
  · obtain ⟨o, ho, rfl⟩ := List.mem_map.1 hname
    obtain ⟨f, hf, hdst, -⟩ := hmoved o (houts ▸ ho)
    obtain ⟨j, u, -, rfl⟩ := mem_unitOutputs.1 ho
    refine ⟨_, f, (hk12.file fun h => h).symm.trans hf, ?_⟩
    rw [hk3.file (hsummary (by rw [promoted_outputName]; exact isBin_binName _ _ _)), hdst]
  · rw [hk3.file (hsummary hb), hk2.file, hk12.file (fun h => h), hk1.file (by simp)]
    rintro ⟨o, ho, he | he⟩
    · exact next_level_ne he.symm
    · rw [houts] at ho
      exact hname (List.mem_map.2 ⟨o, ho, (congrArg Path.name he).symm⟩)

/-- **One compaction** keeps the tables of the next level exactly when no output takes the name of
one. -/
theorem errorFree_kept_iff (h : ErrorFree P dir c d d') :
    (∀ name f, isBin name → d.file? ⟨dir + 1, name⟩ = some f →
      d'.file? ⟨dir + 1, name⟩ = some f) ↔
    ∀ name ∈ c.outputs, d.file? ⟨dir + 1, name⟩ = none := by
  obtain ⟨d1, hk, houts, hother⟩ := errorFree_next h
  constructor
  · intro hkept name hname
    have hb : isBin name := by
      obtain ⟨o, ho, rfl⟩ := List.mem_map.1 hname
      obtain ⟨j, u, -, rfl⟩ := mem_unitOutputs.1 ho
      rw [promoted_outputName]
      exact isBin_binName _ _ _
    obtain ⟨o, g, hg, hdst⟩ := houts name hname
    cases hf : d.file? ⟨dir + 1, name⟩ with
    | none => rfl
    | some f =>
      -- the output and the table it replaces were two files when the units had run
      rw [hkept name f hb hf, Option.some.injEq] at hdst
      have hf1 := (hk.file (by simp)).trans hf
      exact absurd (d1.stamped.created_inj hg hf1 (by rw [hdst])) next_level_ne
  · intro hfree name f hb hf
    rw [hother name hb, hf]
    intro hname
    rw [hfree name hname] at hf
    cases hf

theorem KeyIn.mono {level : Nat} {k : Bytes} (h : KeyIn level d k)
    (hkept : ∀ name f, isBin name → d.file? ⟨level, name⟩ = some f →
      d'.file? ⟨level, name⟩ = some f) : KeyIn level d' k := by
  obtain ⟨name, f, rs, v, hb, hf, hholds, hk⟩ := h
  exact ⟨name, f, rs, v, hb, hkept name f hb hf, hholds, hk⟩

/-- The tables are still kept after a step that keeps them. -/
theorem TablesKept.step {h : List (LevelEvent × Disk)} {e : LevelEvent} (hinv : TablesKept dir h d)
    (hkept : ∀ name f, isBin name → d.file? ⟨dir + 1, name⟩ = some f →
      d'.file? ⟨dir + 1, name⟩ = some f) : TablesKept dir ((e, d) :: h) d' := by
  constructor
  · intro x hx name f hb hf
    rcases List.mem_cons.1 hx with rfl | hx
    · exact hkept name f hb hf
    · exact hkept name f hb (hinv.tables x hx name f hb hf)
  · intro x hx k hk
    rcases List.mem_cons.1 hx with rfl | hx
    · exact hk.mono hkept
    · exact (hinv.keys x hx k hk).mono hkept

theorem LevelStep.kept {e : LevelEvent} (h : LevelStep P dir d e d') (hc : NoCollision dir d e) :
    ∀ name f, isBin name → d.file? ⟨dir + 1, name⟩ = some f →
      d'.file? ⟨dir + 1, name⟩ = some f := by
  cases h with
  | cycle h => exact (errorFree_kept_iff h).2 hc
  | other h =>
    intro name f hb hf
    rw [h name hb, hf]

/-- **Promotion keeps the tables of the next level** in every state of a run exactly when no output
of a compaction takes the name of one of them. -/
theorem always_tablesKept_iff {h : List (LevelEvent × Disk)} (hr : LevelRun P dir h d) :
    Always (TablesKept dir) h d ↔ ∀ x ∈ h, NoCollision dir x.2 x.1 := by
  have hstart : ∀ {d : Disk}, True → TablesKept dir [] d := fun _ => ⟨by simp, by simp⟩
  refine hr.always_iff (C := NoCollision dir) hstart ?_ (fun hq => hq) ?_
  · intro h d e d' hinv hs hc
    exact hinv.step (hs.kept hc)
  · intro h d e d' _ hs hq
    cases hs with
    | cycle hs =>
      apply (errorFree_kept_iff hs).1
      exact hq.tables _ (.head _)
    | other => trivial

/-! ## A table written over -/

/-- Two tables of the first level. -/
def twoTables : List (Path × List Record) :=
  [(⟨1, "ss-table-entry_2.bin"⟩, [([107], [118])]), (⟨1, "ss-table-entry_1.bin"⟩, [([97], [98])])]

/-- A table of the second level, as a compaction of two tables of the first level leaves it. -/
def promotedTable : Path × List Record :=
  (⟨2, "compaction_unit0_pass0_0.bin"⟩, [([113], [114])])

def compactTwo : Cycle where
  targetChunks := ⟨2, Nat.le_refl 2⟩
  bloomFalsePositiveRate := ⟨0x3F847AE147AE147B⟩
  tableNames := ["ss-table-entry_2.bin", "ss-table-entry_1.bin"]

theorem compactTwo_units : compactTwo.units = [["ss-table-entry_2.bin", "ss-table-entry_1.bin"]] := by
  simp [Cycle.units, compactTwo, splitUnits, splitLoop]

theorem compactTwo_outputs : compactTwo.outputs = ["compaction_unit0_pass0_0.bin"] := by
  rw [Cycle.outputs, compactTwo_units, unitOutputs, unitOutputs, List.map_singleton,
    promoted_outputName]
  simp
  decide

/-- The compaction of the two tables is error-free, whatever stands in the next level. -/
theorem compactTwo_errorFree (tables : List (Path × List Record))
    (h : TablesOk (tables ++ twoTables)) :
    ∃ d', ErrorFree Platform.plain 1 compactTwo
      (tablesDisk Platform.plain 2 (tables ++ twoTables)) d' := by
  have hnames : ∀ name ∈ compactTwo.tableNames, ((⟨1, name⟩ : Path),
      (twoTables.lookup ⟨1, name⟩).getD []) ∈ twoTables := by decide
  refine h.errorFree (fun name => (twoTables.lookup ⟨1, name⟩).getD []) (by decide)
    (fun name hname => List.mem_append_right _ (hnames name hname)) (by decide) ?_
  rw [compactTwo_units]
  decide

/-- A table of the second level under a name that no output takes. -/
def besideTable : Path × List Record := (⟨2, "compaction_unit1_pass0_0.bin"⟩, [([113], [114])])

/-- A compaction of two tables into a level with a table of another name. -/
theorem compactTwo_kept : ∃ d', Always (TablesKept 1)
    [(.cycle compactTwo, tablesDisk Platform.plain 2 (besideTable :: twoTables))] d' := by
  obtain ⟨d', hcycle⟩ := compactTwo_errorFree [besideTable] (by constructor <;> decide)
  refine ⟨d', (always_tablesKept_iff (.step (.start trivial) (.cycle hcycle))).2 ?_⟩
  intro x hx
  rw [List.mem_singleton.1 hx]
  intro name hname
  rw [compactTwo_outputs, List.mem_singleton] at hname
  subst hname
  exact file?_tablesDisk_none (by decide)

/-- **A promoted table is lost**: the compaction's output takes the name of the table that an earlier
compaction has left in the next level. -/
theorem promoted_table_lost : ∃ d', LevelRun Platform.plain 1
      [(.cycle compactTwo, tablesDisk Platform.plain 2 (promotedTable :: twoTables))] d' ∧
    ¬Always (TablesKept 1)
      [(.cycle compactTwo, tablesDisk Platform.plain 2 (promotedTable :: twoTables))] d' := by
  have hok : TablesOk (promotedTable :: twoTables) := by constructor <;> decide
  obtain ⟨d', hcycle⟩ := compactTwo_errorFree [promotedTable] hok
  refine ⟨d', .step (.start trivial) (.cycle hcycle), fun ha => ?_⟩
  obtain ⟨f, hf, -⟩ := hok.holds Platform.plain 2 promotedTable (.head _)
  have hfree := (errorFree_kept_iff hcycle).1 (ha.now.tables _ (.head _))
    "compaction_unit0_pass0_0.bin" (by rw [compactTwo_outputs]; decide)
  exact absurd (hf.symm.trans hfree) (by simp)

end Compaction
