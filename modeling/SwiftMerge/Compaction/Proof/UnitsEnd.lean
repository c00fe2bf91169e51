import SwiftMerge.Compaction.Proof.FailingUnit
import SwiftMerge.Compaction.Proof.OutputTables

/-!
# How the units of a compaction end

Each unit ends by its own tables (`UnitEnds`): it returns when none of them is bad and its merge fits
its index (`Returns`), and drains either all its tables or those before the first bad one
(`unitDrained`). The units do not get in each other's way (`exec_compactUnits_given`), and the
promotion moves the outputs of those that return (`exec_promote_returned`).
-/

namespace Compaction

open Lib Lsm

variable {P : Platform} {dir id : Nat} {d d' : Disk} {bad : String → Bool}
  {run : String → List Record} {bloomFalsePositiveRate : F64}

/-! ## A unit -/

/-- A unit without bad tables whose merge fits its index. -/
structure Returns (bad : String → Bool) (run : String → List Record) (outputLevel : Nat)
    (u : List String) : Prop where
  good : ∀ t ∈ u, bad t = false
  fits : IndexFits outputLevel (merged (u.map run))

instance (outputLevel : Nat) (u : List String) : Decidable (Returns bad run outputLevel u) :=
  decidable_of_iff ((∀ t ∈ u, bad t = false) ∧ IndexFits outputLevel (merged (u.map run)))
    ⟨fun h => ⟨h.1, h.2⟩, fun h => ⟨h.good, h.fits⟩⟩

/-- The tables that a unit drains. -/
def unitDrained (bad : String → Bool) (u : List String) : List String :=
  if ∃ t ∈ u, bad t = true then drainedBefore bad u else u

/-- The tables of the units: good ones that hold the runs that `run` gives them, and bad ones. -/
structure UnitsGiven (dir : Nat) (units : List (List String)) (bad : String → Bool)
    (run : String → List Record) (d : Disk) : Prop where
  dir_ok : 1 ≤ dir ∧ dir ≤ d.levels
  len : ∀ u ∈ units, 2 ≤ u.length
  bin : ∀ u ∈ units, ∀ t ∈ u, isBin t = true
  good : ∀ u ∈ units, ∀ t ∈ u, bad t = false → FileHolds d dir t (run t)
  unreadable : ∀ u ∈ units, ∀ t ∈ u, bad t = true → Unreadable d dir t
  bad_bin : ∀ t, bad t = true → isBin t = true
  nodup : units.flatten.Nodup

/-- How a unit ends. -/
structure UnitEnds (P : Platform) (bloomFalsePositiveRate : F64) (dir id : Nat) (bad : String → Bool)
    (run : String → List Record) (u : List String) (r : Except CompactionError String)
    (d d' : Disk) : Prop where
  bins : BinsGone dir (unitDrained bad u) d d'
  ok : Returns bad run (dir + 1) u → r = .ok (outputName id u) ∧
    Rebuilt P (dir + 1) bloomFalsePositiveRate (merged (u.map run)) d' (outputPath dir id u)
  error : ¬Returns bad run (dir + 1) u → ∃ e, r = .error e

section
variable {units : List (List String)} {u : List String}

theorem UnitsGiven.given (h : UnitsGiven dir units bad run d) (hu : u ∈ units) :
    ∀ t ∈ u, Given d dir bad t :=
  fun t ht => ⟨fun hg => ⟨_, h.good u hu t ht hg⟩, h.unreadable u hu t ht⟩

theorem UnitsGiven.unit_nodup (h : UnitsGiven dir units bad run d) (hu : u ∈ units) : u.Nodup :=
  (List.nodup_flatten.1 h.nodup).1 u hu

theorem exec_compact_given (id : Nat) (bloomFalsePositiveRate : F64)
    (h : UnitsGiven dir units bad run d) (hu : u ∈ units) :
    ∃ r d', Prog.exec (Disk.handler P)
        (compact P id dir (dir + 1) bloomFalsePositiveRate u) d = (r, d') ∧
      UnitEnds P bloomFalsePositiveRate dir id bad run u r d d' := by
  have hlen := h.len u hu
  have hb := h.bin u hu
  have hnd := h.unit_nodup hu
  by_cases hbad : ∃ t ∈ u, bad t = true
  · obtain ⟨e, d', hx, hbins⟩ := exec_compact_bad (P := P) h.bad_bin hlen h.dir_ok hb (h.given hu) hnd
      hbad
    refine ⟨_, d', hx, ⟨by rwa [unitDrained, if_pos hbad], fun hr => ?_, fun _ => ⟨e, rfl⟩⟩⟩
    obtain ⟨t, ht, hbt⟩ := hbad
    rw [hr.good t ht] at hbt
    cases hbt
  · have hgood : ∀ t ∈ u, bad t = false := fun t ht => by
      by_contra hbt
      exact hbad ⟨t, ht, Bool.eq_true_of_not_eq_false hbt⟩
    have hruns : List.Forall₂ (FileHolds d dir) u (u.map run) :=
      List.forall₂_map_right_iff.2
        (List.forall₂_same.2 fun t ht => h.good u hu t ht (hgood t ht))
    by_cases hfits : IndexFits (dir + 1) (merged (u.map run))
    · obtain ⟨d', hx, hdone⟩ := exec_compact (P := P) bloomFalsePositiveRate hlen h.dir_ok
        hruns hnd hb hfits
      have hbuilt := compact_built hlen h.dir_ok hruns hnd hb hx
      refine ⟨_, d', hx, ⟨?_, fun _ => ⟨rfl, hbuilt⟩, fun hr => absurd ⟨hgood, hfits⟩ hr⟩⟩
      rw [unitDrained, if_neg hbad]
      have hk := keeps_of_exec (compact_within hlen fun p hp => hp) hx
      refine .of_unit hk hlen (fun p hp => hp) hb fun t ht =>
        hdone.gone _ ⟨rfl, .inl ht⟩ fun he => ?_
      have := hb t ht
      rw [show t = outputName id u from congrArg Path.name he, outputName_eq,
        isBin_roundsOutput] at this
      cases this
    · obtain ⟨e, d', hx, hbins⟩ := exec_compact_unfit (P := P) hlen h.dir_ok hruns hnd hb hfits
      exact ⟨_, d', hx, ⟨by rwa [unitDrained, if_neg hbad], fun hr => absurd hr.fits hfits, fun _ =>
        ⟨e, rfl⟩⟩⟩

/-! ## The units -/

theorem UnitsGiven.apart (h : UnitsGiven dir units bad run d) : UnitsApart units :=
  ⟨h.len, h.bin, h.nodup⟩

/-- A unit leaves the tables of the others as they were. -/
theorem UnitsGiven.after (h : UnitsGiven dir (u :: units) bad run d)
    (hk : Disk.Keeps (UnitPath dir id u) d d') : UnitsGiven dir units bad run d' := by
  have hfile := h.apart.file_eq hk
  obtain ⟨hlen, hbin, hnd⟩ := h.apart.tail
  refine ⟨⟨h.dir_ok.1, h.dir_ok.2.trans hk.levels⟩, hlen, hbin, fun v hv t ht hg => ?_,
    fun v hv t ht hb => ?_, h.bad_bin, hnd⟩
  · exact (h.good v (.tail _ hv) t ht hg).congr (hfile v hv t ht)
  · obtain ⟨f, e, hf, hx⟩ := h.unreadable v (.tail _ hv) t ht hb
    exact ⟨f, e, (hfile v hv t ht).trans hf, hx⟩

/-- The outputs of the units that return, numbered from `id` on. -/
def returned (bad : String → Bool) (run : String → List Record) (outputLevel : Nat) :
    Nat → List (List String) → List String
  | _, [] => []
  | id, u :: units =>
    if Returns bad run outputLevel u then
      outputName id u :: returned bad run outputLevel (id + 1) units
    else returned bad run outputLevel (id + 1) units

theorem mem_returned {outputLevel : Nat} {o : String} : ∀ {id : Nat} {units : List (List String)},
    o ∈ returned bad run outputLevel id units ↔
      ∃ j u, units[j]? = some u ∧ Returns bad run outputLevel u ∧ o = outputName (id + j) u
  | _, [] => by simp [returned]
  | id, u :: units => by
    have shift : ∀ j, id + (j + 1) = id + 1 + j := fun j => by omega
    have htail : o ∈ returned bad run outputLevel (id + 1) units ↔
        ∃ j v, (u :: units)[j + 1]? = some v ∧ Returns bad run outputLevel v ∧
          o = outputName (id + (j + 1)) v := by
      rw [mem_returned]
      exact exists_congr fun j => exists_congr fun v => by rw [List.getElem?_cons_succ, shift j]
    have hsplit : (∃ j v, (u :: units)[j]? = some v ∧ Returns bad run outputLevel v ∧
        o = outputName (id + j) v) ↔ (Returns bad run outputLevel u ∧ o = outputName id u) ∨
          o ∈ returned bad run outputLevel (id + 1) units := by
      rw [htail]
      constructor
      · rintro ⟨j, v, hv, hr, ho⟩
        cases j with
        | zero =>
          obtain rfl := Option.some.inj hv
          exact .inl ⟨hr, ho⟩
        | succ j => exact .inr ⟨j, v, hv, hr, ho⟩
      · rintro (⟨hr, ho⟩ | ⟨j, v, hv, hr, ho⟩)
        · exact ⟨0, u, rfl, hr, ho⟩
        · exact ⟨j + 1, v, hv, hr, ho⟩
    rw [hsplit, returned]
    by_cases hr : Returns bad run outputLevel u
    · rw [if_pos hr, List.mem_cons]
      exact or_congr_left (by simp [hr])
    · rw [if_neg hr]
      simp [hr]

/-- Every output has its own name in the next level. -/
theorem returned_sublist {outputLevel : Nat} : ∀ (id : Nat) (units : List (List String)),
    (returned bad run outputLevel id units).Sublist (unitOutputs id units)
  | _, [] => .slnil
  | id, u :: units => by
    rw [returned, unitOutputs]
    split
    · exact (returned_sublist (id + 1) units).cons_cons _
    · exact (returned_sublist (id + 1) units).cons _

/-- How the units end. -/
structure UnitsEnd (P : Platform) (bloomFalsePositiveRate : F64) (dir id : Nat) (bad : String → Bool)
    (run : String → List Record) (units : List (List String)) (outs : List String)
    (d d' : Disk) : Prop where
  outs : outs = returned bad run (dir + 1) id units
  bins : BinsGone dir (units.flatMap (unitDrained bad)) d d'
  output : ∀ j u, units[j]? = some u → Returns bad run (dir + 1) u →
    Rebuilt P (dir + 1) bloomFalsePositiveRate (merged (u.map run)) d' (outputPath dir (id + j) u)

theorem UnitsEnd.cons {r : Except CompactionError String} {outs : List String} {d1 : Disk}
    (h : UnitsGiven dir (u :: units) bad run d)
    (hk2 : Disk.Keeps (fun p => ∃ j v, units[j]? = some v ∧ UnitPath dir (id + 1 + j) v p) d1 d')
    (hunit : UnitEnds P bloomFalsePositiveRate dir id bad run u r d d1)
    (hrest : UnitsEnd P bloomFalsePositiveRate dir (id + 1) bad run units outs d1 d') :
    UnitsEnd P bloomFalsePositiveRate dir id bad run (u :: units)
      (match r with | .ok o => o :: outs | .error _ => outs) d d' := by
  refine ⟨?_, ?_, fun j v hv hr => ?_⟩
  · rw [returned, ← hrest.outs]
    by_cases hr : Returns bad run (dir + 1) u
    · obtain ⟨rfl, -⟩ := hunit.ok hr
      rw [if_pos hr]
    · obtain ⟨e, rfl⟩ := hunit.error hr
      rw [if_neg hr]
  · rw [List.flatMap_cons]
    exact hunit.bins.trans hrest.bins
  · cases j with
    | zero =>
      obtain rfl := Option.some.inj hv
      -- the later units leave the output of the first alone
      exact (hunit.ok hr).2.congr (hk2.file fun ⟨j, v, hv, hp⟩ =>
        h.apart.paths hv ⟨rfl, .inr (.inr rfl)⟩ hp)
    | succ j =>
      rw [show id + (j + 1) = id + 1 + j by omega]
      exact hrest.output j v hv hr

/-- **The units**: each ends by its own tables. -/
theorem exec_compactUnits_given (bloomFalsePositiveRate : F64) :
    ∀ (id : Nat) {units : List (List String)} {d : Disk},
    UnitsGiven dir units bad run d → ∃ outs d',
      Prog.exec (Disk.handler P) (compactUnits P dir bloomFalsePositiveRate id units) d =
        (.ok outs, d') ∧ UnitsEnd P bloomFalsePositiveRate dir id bad run units outs d d'
  | id, [], d, _ => by
    refine ⟨[], d, rfl, rfl, ?_, fun j u hj => ?_⟩
    · exact .of_keeps (S := fun _ => False) (.refl d) fun _ => False.elim
    · simp at hj
  | id, u :: units, d, h => by
    obtain ⟨r, d1, hx1, hunit⟩ := exec_compact_given (P := P) id bloomFalsePositiveRate h (.head units)
    have hk1 := keeps_of_exec (compact_within (h.len u (.head _)) fun p hp => hp) hx1
    have h1 := h.after hk1
    obtain ⟨outs, d2, hx2, hrest⟩ := exec_compactUnits_given _ (id + 1) h1
    have hk2 := keeps_of_exec (compactUnits_within h1.len
      (S := fun p => ∃ j v, units[j]? = some v ∧ UnitPath dir (id + 1 + j) v p)
      fun j v hv p hp => ⟨j, v, hv, hp⟩) hx2
    refine ⟨_, d2, ?_, UnitsEnd.cons h hk2 hunit hrest⟩
    rw [compactUnits, Prog.exec_bind_ok (Prog.exec_attempt _ _ _), hx1, Prog.exec_bind_ok hx2]
    cases r <;> rfl

end

/-! ## The promotion -/

/-- The next level's directory is made when it is not there. -/
def makeNextDir (dir : Nat) : CompactionProg Unit := do
  let nextExists ← Prog.perform (.dirExists (dir + 1))
  Prog.when (!nextExists) (CompactionProg.io (.createDir (dir + 1)))

/-- The level summary, which only stays when the level has tables. -/
def summarizeNext (dir : Nat) : CompactionProg Unit := do
  buildLevelSummary (dir + 1)
  let entries ← CompactionProg.io (.readDir (dir + 1))
  let hasBinFiles := entries.any fun e => endsWith e.1 ssTableFileExt
  Prog.when (!hasBinFiles) (removeFile ⟨dir + 1, levelFilterName⟩)

theorem sizeTierCompaction_eq (targetChunks : TargetChunks) (tableNames : List String) :
    sizeTierCompaction P targetChunks bloomFalsePositiveRate dir tableNames =
      (compactUnits P dir bloomFalsePositiveRate 0 (splitUnits targetChunks tableNames) >>=
        fun outs => makeNextDir dir >>= fun _ => promote dir outs >>= fun _ => summarizeNext dir) :=
  rfl

/-- Its first call reads the first table of the first unit. -/
theorem sizeTierCompaction_reads {targetChunks : TargetChunks} {tableNames more : List String}
    {left right : String} {units : List (List String)}
    (hunits : splitUnits targetChunks tableNames = (left :: right :: more) :: units) :
    ∃ rest, sizeTierCompaction P targetChunks bloomFalsePositiveRate dir tableNames =
      .step (.read ⟨dir, left⟩) rest := by
  rw [sizeTierCompaction_eq, hunits, compactUnits, compact, joinRounds, joinRound, joinPair]
  exact ⟨_, rfl⟩

theorem makeNextDir_within {S : Path → Prop} (dir : Nat) :
    Prog.All (DiskOp.Within S) (makeNextDir dir) :=
  (within_dirExists _).bind fun _ => (within_createDir _).when

theorem summarizeNext_within {S : Path → Prop} (h : S ⟨dir + 1, levelFilterName⟩) :
    Prog.All (DiskOp.Within S) (summarizeNext dir) :=
  (buildLevelSummary_within h).bind fun _ => (within_readDir _).bind fun _ =>
    (removeFile_within h).when

/-- A compaction leaves the log alone, whatever it does to the files. -/
theorem sizeTierCompaction_within (P : Platform) (targetChunks : TargetChunks)
    (bloomFalsePositiveRate : F64) (dir : Nat) (tableNames : List String) :
    Prog.All (DiskOp.Within fun _ => True)
      (sizeTierCompaction P targetChunks bloomFalsePositiveRate dir tableNames) := by
  rw [sizeTierCompaction_eq]
  refine (compactUnits_within (splitUnits_spec _ _).2 fun _ _ _ _ _ => trivial).bind fun _ => ?_
  refine (makeNextDir_within dir).bind fun _ => ?_
  exact (promote_within fun _ _ => ⟨trivial, trivial⟩).bind fun _ => summarizeNext_within trivial

theorem exec_makeNextDir (h : dir ≤ d.levels) :
    ∃ d', Prog.exec (Disk.handler P) (makeNextDir dir) d = (.ok (), d') ∧ dir + 1 ≤ d'.levels := by
  rw [makeNextDir, Prog.exec_bind_ok (exec_dirExists (dir + 1))]
  by_cases hlevel : dir + 1 ≤ d.levels
  · rw [decide_eq_true ⟨Nat.succ_pos _, hlevel⟩]
    exact ⟨d, rfl, hlevel⟩
  · rw [decide_eq_false fun h => hlevel h.2]
    exact ⟨_, exec_io (Disk.step_createDir (by omega)), Nat.le_max_right _ _⟩

/-- The files that the units leave as their outputs. -/
def OutputFiles (P : Platform) (bloomFalsePositiveRate : F64) (dir : Nat) (bad : String → Bool)
    (run : String → List Record) (units : List (List String)) (out : Nat → File) : Prop :=
  ∀ j u, units[j]? = some u → Returns bad run (dir + 1) u →
    (out j).bytes = builtTable P (dir + 1) bloomFalsePositiveRate (merged (u.map run))

/-- The tables once the units have ended with the outputs `out`, and those of the first `n` are
promoted. -/
structure PromotedUpTo (n dir : Nat) (bad : String → Bool) (run : String → List Record)
    (units : List (List String)) (out : Nat → File) (d d' : Disk) : Prop where
  output : ∀ j u, j < n → units[j]? = some u → Returns bad run (dir + 1) u →
    d'.file? (promotedPath dir j u) = some (out j)
  gone : ∀ u ∈ units, ∀ t ∈ unitDrained bad u, isBin t = true → d'.file? ⟨dir, t⟩ = none
  kept : ∀ p, isBin p.name = true → (p.level = dir → ∀ u ∈ units, p.name ∉ unitDrained bad u) →
    (∀ j u, j < n → units[j]? = some u → Returns bad run (dir + 1) u → p ≠ promotedPath dir j u) →
      d'.file? p = d.file? p

section
variable {units : List (List String)} {outs : List String} {out : Nat → File} {n : Nat} {d1 d2 : Disk}

theorem UnitsEnd.outputFiles (h : UnitsEnd P bloomFalsePositiveRate dir 0 bad run units outs d d1) :
    ∃ out, OutputFiles P bloomFalsePositiveRate dir bad run units out ∧ ∀ j u, units[j]? = some u →
      Returns bad run (dir + 1) u → d1.file? (outputPath dir j u) = some (out j) := by
  refine ⟨fun j => ((units[j]?).bind fun u => d1.file? (outputPath dir j u)).getD ⟨0, []⟩,
    fun j u hu hr => ?_, fun j u hu hr => ?_⟩
  all_goals
    obtain ⟨f, hf, hbytes⟩ := (h.output j u hu hr).file
    rw [Nat.zero_add] at hf
    dsimp only
    rw [hu, Option.bind_some, hf]
  · exact hbytes
  · rfl

theorem PromotedUpTo.congr (h : PromotedUpTo n dir bad run units out d d2)
    (hk : Disk.Keeps (fun p => p = ⟨dir + 1, levelFilterName⟩) d2 d') :
    PromotedUpTo n dir bad run units out d d' := by
  have hfile : ∀ p : Path, isBin p.name = true → d'.file? p = d2.file? p := fun p hb =>
    hk.file fun he => by
      rw [he, isBin_levelFilterName] at hb
      cases hb
  exact ⟨fun j u hj hu hr => (hfile _ (isBin_promotedPath dir j u)).trans (h.output j u hj hu hr),
    fun u hu t ht hb => (hfile ⟨dir, t⟩ hb).trans (h.gone u hu t ht hb),
    fun p hb hp hq => (hfile p hb).trans (h.kept p hb hp hq)⟩

/-- **The promotion** of the outputs of the first units. -/
theorem exec_promote_returned (n : Nat)
    (h : UnitsEnd P bloomFalsePositiveRate dir 0 bad run units outs d d1)
    (hout : ∀ j u, units[j]? = some u → Returns bad run (dir + 1) u →
      d1.file? (outputPath dir j u) = some (out j))
    (hk : Disk.Keeps (fun _ => False) d1 d2) (hlevel : dir + 1 ≤ d2.levels) :
    ∃ d', Prog.exec (Disk.handler P)
        (promote dir (returned bad run (dir + 1) 0 (units.take n))) d2 = (.ok (), d') ∧
      PromotedUpTo n dir bad run units out d d' := by
  have hmem : ∀ {o}, o ∈ returned bad run (dir + 1) 0 (units.take n) ↔
      ∃ j u, (j < n ∧ units[j]? = some u) ∧ Returns bad run (dir + 1) u ∧ o = outputName j u := by
    intro o
    rw [mem_returned]
    refine exists_congr fun j => exists_congr fun u => ?_
    rw [Nat.zero_add, List.getElem?_take]
    by_cases hj : j < n <;> simp [hj]
  have hout2 : ∀ {j u}, units[j]? = some u → Returns bad run (dir + 1) u →
      d2.file? (outputPath dir j u) = some (out j) :=
    fun hu hr => (hk.file fun h => h).trans (hout _ _ hu hr)
  have hnodup : ((returned bad run (dir + 1) 0 (units.take n)).map promoted).Nodup :=
    (unitOutputs_nodup 0 (units.take n)).sublist ((returned_sublist 0 _).map promoted)
  obtain ⟨d', hx⟩ := exec_promote_ready (P := P) hlevel (List.Nodup.of_map _ hnodup) fun o ho => by
    obtain ⟨j, u, ⟨-, hu⟩, hr, rfl⟩ := hmem.1 ho
    exact ⟨_, hout2 hu hr⟩
  have hmoved := exec_promote hnodup hx
  have hkp := keeps_of_exec (promote_within
    (S := fun p => ∃ o ∈ returned bad run (dir + 1) 0 (units.take n),
      p = ⟨dir, o⟩ ∨ p = ⟨dir + 1, promoted o⟩)
    fun o ho => ⟨⟨o, ho, .inl rfl⟩, ⟨o, ho, .inr rfl⟩⟩) hx
  have hkept : ∀ p, isBin p.name = true → (∀ j u, j < n → units[j]? = some u →
      Returns bad run (dir + 1) u → p ≠ promotedPath dir j u) → d'.file? p = d1.file? p := by
    intro p hb hp
    rw [hkp.file, hk.file fun h => h]
    rintro ⟨o, ho, he | he⟩
    · obtain ⟨j, u, -, -, rfl⟩ := hmem.1 ho
      rw [he, outputName_eq, isBin_roundsOutput] at hb
      cases hb
    · obtain ⟨j, u, ⟨hj, hu⟩, hr, rfl⟩ := hmem.1 ho
      exact hp j u hj hu hr he
  refine ⟨d', hx, fun j u hj hu hr => ?_, fun u hu t ht hb => ?_, fun p hb hp hq => ?_⟩
  · obtain ⟨g, hg, hg', -⟩ := hmoved _ (hmem.2 ⟨j, u, ⟨hj, hu⟩, hr, rfl⟩)
    obtain rfl := Option.some.inj (hg.symm.trans (hout2 hu hr))
    exact hg'
  · rw [hkept ⟨dir, t⟩ hb fun j u _ _ _ => next_level_ne]
    exact h.bins.gone t (List.mem_flatMap.2 ⟨u, hu, ht⟩) hb
  · rw [hkept p hb hq, h.bins.kept p hb fun hl ht => ?_]
    obtain ⟨u, hu, ht⟩ := List.mem_flatMap.1 ht
    exact hp hl u hu ht

end

end Compaction
