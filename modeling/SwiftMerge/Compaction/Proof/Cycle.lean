import SwiftMerge.Compaction.Proof.Unit

/-!
# An error-free compaction of well-formed tables

`sizeTier_ok` takes a compaction that returns apart: its units, the promotion and the level summary.
When no unit fails either, and the tables of the level are well formed, the compaction leaves one
table for each unit in the next level, created unit by unit, and removes the unit's tables
(`errorFree_done`).
-/

namespace Compaction

open Lib Lsm

variable {P : Platform} {dir id : Nat} {d d' : Disk} {bloomFalsePositiveRate : F64}

/-! ## The parts of a compaction -/

/-- **A compaction that returns**: its units run from `d` to `d1`, its outputs are promoted from `d2`
to `d3`, and besides that it writes the level summary only. -/
theorem sizeTier_ok {targetChunks : TargetChunks} {tableNames : List String}
    (h : Prog.exec (Disk.handler P)
      (sizeTierCompaction P targetChunks bloomFalsePositiveRate dir tableNames) d = (.ok (), d')) :
    ∃ outs d1 d2 d3,
      Prog.exec (Disk.handler P) (compactUnits P dir bloomFalsePositiveRate 0
        (splitUnits targetChunks tableNames)) d = (.ok outs, d1) ∧
      Disk.Keeps (fun _ => False) d1 d2 ∧
      Prog.exec (Disk.handler P) (promote dir outs) d2 = (.ok (), d3) ∧
      Disk.Keeps (fun p => p = ⟨dir + 1, levelFilterName⟩) d3 d' := by
  rw [sizeTierCompaction] at h
  obtain ⟨outs, d1, hunits, h⟩ := Prog.exec_bind_eq_ok h
  obtain ⟨nextExists, d1', hexists, h⟩ := Prog.exec_bind_eq_ok h
  obtain ⟨_, d2, hcreate, h⟩ := Prog.exec_bind_eq_ok h
  obtain ⟨_, d3, hpromote, h⟩ := Prog.exec_bind_eq_ok h
  have hk1 := keeps_of_exec (S := fun _ => False) (within_dirExists _) hexists
  have hk2 := keeps_of_exec (S := fun _ => False) (within_createDir _).when hcreate
  refine ⟨outs, d1, d2, d3, hunits, hk1.trans hk2, hpromote, keeps_of_exec ?_ h⟩
  have hsummary := buildLevelSummary_within (S := fun p => p = ⟨dir + 1, levelFilterName⟩) rfl
  have hremove := removeFile_within (S := fun p => p = ⟨dir + 1, levelFilterName⟩) rfl
  exact hsummary.bind fun _ => (within_readDir _).bind fun _ => hremove.when

/-! ## The units -/

variable {units : List (List String)} {run : String → List Record}

/-- The tables of the units hold the runs that `run` gives them, and no intermediate file stands in
their way. -/
structure UnitsReady (dir id : Nat) (units : List (List String)) (run : String → List Record)
    (d : Disk) : Prop where
  dir_ok : 1 ≤ dir ∧ dir ≤ d.levels
  len : ∀ u ∈ units, 2 ≤ u.length
  bin : ∀ u ∈ units, ∀ t ∈ u, isBin t = true
  holds : ∀ u ∈ units, ∀ t ∈ u, FileHolds d dir t (run t)
  nodup : units.flatten.Nodup
  free : ∀ j pass i, id ≤ j → d.file? ⟨dir, tmpName j pass i⟩ = none

/-- What the units leave when none fails, from `d` to `d'`. -/
structure UnitsDone (dir id : Nat) (units : List (List String)) (run : String → List Record)
    (d d' : Disk) : Prop where
  output : ∀ j u, units[j]? = some u → ∃ f, d'.file? (outputPath dir (id + j) u) = some f ∧
    Holds ⟨.ssTable, f.bytes⟩ (merged (u.map run)) ∧ d.clock ≤ f.created
  ordered : ∀ j j' u u' f f', j < j' → units[j]? = some u → units[j']? = some u' →
    d'.file? (outputPath dir (id + j) u) = some f →
    d'.file? (outputPath dir (id + j') u') = some f' → f.created < f'.created
  gone : ∀ j u, units[j]? = some u → ∀ p, UnitPath dir (id + j) u p →
    p ≠ outputPath dir (id + j) u → d'.file? p = none

theorem unitPath_disjoint {id id' : Nat} {u u' : List String} {p : Path} (hid : id ≠ id')
    (hlen : 2 ≤ u.length) (hlen' : 2 ≤ u'.length) (hb : ∀ t ∈ u, isBin t = true)
    (hb' : ∀ t ∈ u', isBin t = true) (hdisj : ∀ t ∈ u, t ∉ u') (h : UnitPath dir id u p)
    (h' : UnitPath dir id' u' p) : False := by
  have bin_ne : ∀ {name : String}, isBin name = true → isBin name = false → False :=
    fun h h' => Bool.false_ne_true (h'.symm.trans h)
  rcases h.name_cases hlen with h | ⟨t, ht, h⟩ | ⟨pass, i, h⟩
  · rcases h'.name_cases hlen' with h' | ⟨t', ht', h'⟩ | ⟨pass', i', h'⟩
    · exact hdisj _ h h'
    · exact bin_ne (hb _ h) (h' ▸ (show RoundFile id' 0 t' from .inl (hb' t' ht')).isBin_drainedName)
    · exact bin_ne (hb _ h) (h' ▸ isBin_tmpName _ _ _)
  · obtain ⟨stem, -, -, hd⟩ := drainedName_bin (hb t ht)
    rcases h'.name_cases hlen' with h' | ⟨t', ht', h'⟩ | ⟨pass', i', h'⟩
    · exact bin_ne (hb' _ h') (h ▸ (show RoundFile id 0 t from .inl (hb t ht)).isBin_drainedName)
    · rw [drainedName_inj (hb t ht) (hb' t' ht') (h.symm.trans h')] at ht
      exact hdisj t' ht ht'
    · exact drained_ne_tmpName stem _ _ _ (hd.symm.trans (h.symm.trans h'))
  · rcases h'.name_cases hlen' with h' | ⟨t', ht', h'⟩ | ⟨pass', i', h'⟩
    · exact bin_ne (hb' _ h') (h ▸ isBin_tmpName _ _ _)
    · obtain ⟨stem, -, -, hd⟩ := drainedName_bin (hb' t' ht')
      exact drained_ne_tmpName stem _ _ _ (hd.symm.trans (h'.symm.trans h))
    · exact hid (tmpName_inj (h.symm.trans h')).1

/-- The tables of a unit hold the runs that `run` gives them. -/
theorem UnitsReady.unit {u : List String} (h : UnitsReady dir id units run d) (hu : u ∈ units) :
    List.Forall₂ (FileHolds d dir) u (u.map run) :=
  List.forall₂_map_right_iff.2 (List.forall₂_same.2 (h.holds u hu))

theorem UnitsReady.unit_nodup {u : List String} (h : UnitsReady dir id units run d) (hu : u ∈ units) :
    u.Nodup := (List.nodup_flatten.1 h.nodup).1 u hu

/-- A unit of well-formed tables that returns has left a table of their merge. -/
theorem compact_ok {outputLevel : Nat} {files : List String} {runs : List (List Record)}
    {out : String} (hlen : 2 ≤ files.length) (hdir : 1 ≤ dir ∧ dir ≤ d.levels)
    (hruns : List.Forall₂ (FileHolds d dir) files runs) (hnd : files.Nodup)
    (hb : ∀ f ∈ files, isBin f = true) (h : Prog.exec (Disk.handler P)
      (compact P id dir outputLevel bloomFalsePositiveRate files) d = (.ok out, d')) :
    UnitDone dir id files (merged runs) d d' := by
  by_cases hfits : IndexFits outputLevel (merged runs)
  · obtain ⟨d1, hx, hdone⟩ := exec_compact (P := P) bloomFalsePositiveRate hlen hdir
      hruns hnd hb hfits
    rw [hx, Prod.mk.injEq] at h
    exact h.2 ▸ hdone
  · -- the index does not fit: the unit fails when it rebuilds the table
    obtain ⟨d1, hx1, ⟨f, hf, hbytes, -⟩, -⟩ := exec_unitRounds (P := P) hlen hdir hruns
      hnd hb
    rw [exec_compact_built (not_isEmpty hlen) hx1 hf, hbytes] at h
    cases hbuild : buildFromDataSection P (encodeSection (merged runs)) outputLevel
        bloomFalsePositiveRate with
    | ok bs => exact absurd ((buildFromDataSection_ok_iff (forall₂_fits hruns)).1 hbuild).1 hfits
    | error e =>
      rw [hbuild] at h
      cases h

/-- Units of two tables or more, with no table in two of them. -/
structure UnitsApart (units : List (List String)) : Prop where
  len : ∀ u ∈ units, 2 ≤ u.length
  bin : ∀ u ∈ units, ∀ t ∈ u, isBin t = true
  nodup : units.flatten.Nodup

namespace UnitsApart

variable {u : List String}

theorem tail (h : UnitsApart (u :: units)) : UnitsApart units := by
  have hnd := List.nodup_flatten.1 h.nodup
  exact ⟨fun v hv => h.len v (.tail _ hv), fun v hv => h.bin v (.tail _ hv),
    List.nodup_flatten.2 ⟨fun v hv => hnd.1 v (.tail _ hv), (List.pairwise_cons.1 hnd.2).2⟩⟩

theorem disjoint (h : UnitsApart (u :: units)) : ∀ v ∈ units, ∀ t ∈ u, t ∉ v := fun v hv _ ht ht' =>
  (List.pairwise_cons.1 (List.nodup_flatten.1 h.nodup).2).1 v hv ht ht'

theorem paths (h : UnitsApart (u :: units)) {j : Nat} {v : List String} {p : Path}
    (hv : units[j]? = some v) (hp : UnitPath dir id u p) : ¬UnitPath dir (id + 1 + j) v p := by
  intro hp'
  have hv := List.mem_of_getElem? hv
  exact unitPath_disjoint (by omega) (h.len u (.head _)) (h.len v (.tail _ hv))
    (h.bin u (.head _)) (h.bin v (.tail _ hv)) (h.disjoint v hv) hp hp'

/-- The first unit leaves the tables of the others as they were. -/
theorem file_eq (h : UnitsApart (u :: units)) (hk : Disk.Keeps (UnitPath dir id u) d d') :
    ∀ v ∈ units, ∀ t ∈ v, d'.file? ⟨dir, t⟩ = d.file? ⟨dir, t⟩ := fun v hv t ht =>
  hk.file (not_unitPath (h.len u (.head _)) (h.bin u (.head _)) (h.bin v (.tail _ hv) t ht)
    fun ht' => h.disjoint v hv t ht' ht)

end UnitsApart

theorem UnitsReady.apart (h : UnitsReady dir id units run d) : UnitsApart units :=
  ⟨h.len, h.bin, h.nodup⟩

theorem UnitsReady.after {u : List String} (h : UnitsReady dir id (u :: units) run d)
    (hk : Disk.Keeps (UnitPath dir id u) d d') : UnitsReady dir (id + 1) units run d' := by
  have hulen := h.len u (.head _)
  have hubin := h.bin u (.head _)
  obtain ⟨hlen, hbin, hnd⟩ := h.apart.tail
  refine ⟨⟨h.dir_ok.1, h.dir_ok.2.trans hk.levels⟩, hlen, hbin, fun v hv t ht => ?_, hnd,
    fun j pass i hj => ?_⟩
  · exact (h.holds v (.tail _ hv) t ht).congr (h.apart.file_eq hk v hv t ht)
  · rw [hk.file, h.free j pass i (by omega)]
    intro hp
    rcases hp.name_cases hulen with hp | ⟨t, ht, hp⟩ | ⟨pass', i', hp⟩
    · have := hubin _ hp
      rw [isBin_tmpName] at this
      cases this
    · obtain ⟨stem, -, -, hd⟩ := drainedName_bin (hubin t ht)
      exact drained_ne_tmpName stem _ _ _ (hd.symm.trans hp.symm)
    · have := (tmpName_inj hp).1
      omega

/-- The first unit's work and the others' after it. -/
theorem UnitsDone.cons {u : List String} {d1 : Disk} (hready : UnitsReady dir id (u :: units) run d)
    (hk1 : Disk.Keeps (UnitPath dir id u) d d1)
    (hk2 : Disk.Keeps (fun p => ∃ j v, units[j]? = some v ∧ UnitPath dir (id + 1 + j) v p) d1 d')
    (hdone : UnitDone dir id u (merged (u.map run)) d d1)
    (hrest : UnitsDone dir (id + 1) units run d1 d') : UnitsDone dir id (u :: units) run d d' := by
  -- the later units leave the paths of the first alone
  have hkept : ∀ p, UnitPath dir id u p → d'.file? p = d1.file? p := by
    intro p hp
    apply hk2.file
    rintro ⟨j, v, hv, hp'⟩
    exact hready.apart.paths hv hp hp'
  obtain ⟨f, hf, hholds, hcreated⟩ := hdone.output
  have hf' : d'.file? (outputPath dir id u) = some f := (hkept _ ⟨rfl, .inr (.inr rfl)⟩).trans hf
  have shift : ∀ j, id + (j + 1) = id + 1 + j := fun j => by omega
  refine ⟨fun j v hv => ?_, fun j j' v v' g g' hlt hv hv' hg hg' => ?_, fun j v hv p hp hne => ?_⟩
  · cases j with
    | zero =>
      obtain rfl := Option.some.inj hv
      exact ⟨f, hf', hholds, hcreated (hready.free _ _ _ (Nat.le_refl _))⟩
    | succ j =>
      rw [shift]
      obtain ⟨g, hg, hgholds, hgcreated⟩ := hrest.output j v hv
      exact ⟨g, hg, hgholds, hk1.clock.trans hgcreated⟩
  · cases j' with
    | zero => omega
    | succ j' =>
      rw [shift] at hg'
      cases j with
      | zero =>
        obtain rfl := Option.some.inj hv
        obtain rfl := Option.some.inj (hf'.symm.trans hg)
        obtain ⟨g'', hg'', -, hcreated'⟩ := hrest.output j' v' hv'
        obtain rfl := Option.some.inj (hg''.symm.trans hg')
        exact (d1.stamped.created_lt hf).trans_le hcreated'
      | succ j =>
        rw [shift] at hg
        exact hrest.ordered j j' v v' g g' (by omega) hv hv' hg hg'
  · cases j with
    | zero =>
      obtain rfl := Option.some.inj hv
      rw [hkept p hp]
      exact hdone.gone p hp hne
    | succ j =>
      rw [shift] at hp hne
      exact hrest.gone j v hv p hp hne

/-- **Units of well-formed tables that all return** have left their merges, one after another. -/
theorem compactUnits_done : ∀ {id : Nat} {units : List (List String)} {d d' : Disk}
    {outs : List String}, UnitsReady dir id units run d →
    Prog.exec (Disk.handler P) (compactUnits P dir bloomFalsePositiveRate id units) d =
      (.ok outs, d') → outs.length = units.length →
    outs = unitOutputs id units ∧ UnitsDone dir id units run d d'
  | _, [], d, d', outs, _, h, _ => by
    rw [compactUnits, Prog.exec_pure, Prod.mk.injEq] at h
    obtain ⟨h1, rfl⟩ := h
    refine ⟨(Except.ok.inj h1).symm, fun j u hj => ?_, fun j j' u u' f f' _ hj => ?_,
      fun j u hj => ?_⟩
    · simp at hj
    · simp at hj
    · simp at hj
  | id, u :: units, d, d', outs, hready, h, hlen => by
    have hulen := hready.len u (.head _)
    rw [compactUnits, Prog.exec_bind_ok (Prog.exec_attempt _ _ _)] at h
    obtain ⟨rest, d2, hrest, h⟩ := Prog.exec_bind_eq_ok h
    rcases hx : Prog.exec (Disk.handler P) (compact P id dir (dir + 1) bloomFalsePositiveRate u) d
      with ⟨_ | out, d1⟩
    · -- a unit that failed would have left fewer outputs
      have hyields : Prog.Yields (fun outs => outs.Sublist (unitOutputs (id + 1) units))
          (compactUnits P dir bloomFalsePositiveRate (id + 1) units) :=
        compactUnits_yields fun v hv => hready.len v (.tail _ hv)
      have hsub := (hyields.exec hrest).length_le
      rw [length_unitOutputs] at hsub
      rw [hx, Prog.exec_pure, Prod.mk.injEq] at h
      rw [← Except.ok.inj h.1, List.length_cons] at hlen
      omega
    · rw [hx] at hrest
      rw [hx, Prog.exec_pure, Prod.mk.injEq] at h
      obtain ⟨h1, rfl⟩ := h
      obtain rfl := Except.ok.inj h1
      have hk1 := keeps_of_exec (compact_within hulen fun p hp => hp) hx
      have hready1 := hready.after hk1
      obtain ⟨hrestouts, hrestdone⟩ := compactUnits_done hready1 hrest (by simpa using hlen)
      have hk2 := keeps_of_exec (compactUnits_within hready1.len
        (S := fun p => ∃ j v, units[j]? = some v ∧ UnitPath dir (id + 1 + j) v p)
        fun j v hv p hp => ⟨j, v, hv, hp⟩) hrest
      have hdone := compact_ok hulen hready.dir_ok (hready.unit (.head _))
        (hready.unit_nodup (.head _)) (hready.bin u (.head _)) hx
      refine ⟨?_, UnitsDone.cons hready hk1 hk2 hdone hrestdone⟩
      rw [(compact_yields hulen).exec hx, hrestouts, unitOutputs]
termination_by _ units => units.length

/-! ## The compaction -/

theorem mem_unitOutputs {o : String} : ∀ {id : Nat} {units : List (List String)},
    o ∈ unitOutputs id units ↔ ∃ j u, units[j]? = some u ∧ o = outputName (id + j) u
  | _, [] => by simp [unitOutputs]
  | id, u :: units => by
    rw [unitOutputs, List.mem_cons, mem_unitOutputs]
    constructor
    · rintro (rfl | ⟨j, v, hv, rfl⟩)
      · exact ⟨0, u, rfl, rfl⟩
      · exact ⟨j + 1, v, hv, by rw [show id + (j + 1) = id + 1 + j by omega]⟩
    · rintro ⟨j, v, hv, rfl⟩
      cases j with
      | zero =>
        obtain rfl := Option.some.inj hv
        exact .inl rfl
      | succ j => exact .inr ⟨j, v, hv, by rw [show id + (j + 1) = id + 1 + j by omega]⟩

/-- The outputs are promoted to names of their own. -/
theorem unitOutputs_nodup : ∀ (id : Nat) (units : List (List String)),
    ((unitOutputs id units).map promoted).Nodup
  | _, [] => List.nodup_nil
  | id, u :: units => by
    refine List.nodup_cons.2 ⟨fun h => ?_, unitOutputs_nodup (id + 1) units⟩
    obtain ⟨o, ho, he⟩ := List.mem_map.1 h
    obtain ⟨j, v, -, rfl⟩ := mem_unitOutputs.1 ho
    rw [promoted_outputName, promoted_outputName] at he
    have := (binName_inj he).1
    omega

/-- The path a unit's output is promoted to. -/
abbrev promotedPath (dir id : Nat) (u : List String) : Path := ⟨dir + 1, promoted (outputName id u)⟩

theorem isBin_promotedPath (dir id : Nat) (u : List String) :
    isBin (promotedPath dir id u).name = true := by
  rw [promotedPath, promoted_outputName]
  exact isBin_binName _ _ _

/-- The paths that the units of a compaction, or their promotion, touch. -/
def CyclePath (dir : Nat) (units : List (List String)) (p : Path) : Prop :=
  ∃ j u, units[j]? = some u ∧ (UnitPath dir j u p ∨ p = promotedPath dir j u)

/-- What an error-free compaction leaves, from `d` to `d'`. -/
structure CycleDone (dir : Nat) (units : List (List String)) (run : String → List Record)
    (d d' : Disk) : Prop where
  output : ∀ j u, units[j]? = some u → ∃ f, d'.file? (promotedPath dir j u) = some f ∧
    Holds ⟨.ssTable, f.bytes⟩ (merged (u.map run)) ∧ d.clock ≤ f.created
  ordered : ∀ j j' u u' f f', j < j' → units[j]? = some u → units[j']? = some u' →
    d'.file? (promotedPath dir j u) = some f → d'.file? (promotedPath dir j' u') = some f' →
    f.created < f'.created
  gone : ∀ j u, units[j]? = some u → ∀ p, UnitPath dir j u p → d'.file? p = none
  frame : Disk.Keeps (fun p => CyclePath dir units p ∨ p = ⟨dir + 1, levelFilterName⟩) d d'

theorem promoted_ne_levelFilter (id : Nat) (u : List String) :
    promoted (outputName id u) ≠ levelFilterName := by
  intro h
  have hb := isBin_binName id (Nat.clog 2 u.length - 1) 0
  rw [← promoted_outputName, h, isBin_levelFilterName] at hb
  cases hb

/-- **An error-free compaction of well-formed tables.** -/
theorem errorFree_done {c : Cycle} (h : ErrorFree P dir c d d')
    (hready : UnitsReady dir 0 c.units run d) : CycleDone dir c.units run d d' := by
  obtain ⟨outs, d1, d2, d3, hunits, hk12, hpromote, hk3⟩ := sizeTier_ok h.returns
  obtain ⟨outs', d1', hunits', hlen⟩ := h.units
  obtain ⟨hout, hd⟩ := Prod.mk.inj (hunits.symm.trans hunits')
  rw [← Except.ok.inj hout] at hlen
  obtain ⟨houts, hdone⟩ := compactUnits_done hready hunits hlen
  have houtput := hdone.output
  have hordered := hdone.ordered
  have hgone := hdone.gone
  simp only [Nat.zero_add] at houtput hordered hgone
  have hmem : ∀ {j u}, c.units[j]? = some u → outputName j u ∈ outs := fun {j u} hj => by
    rw [houts, mem_unitOutputs]
    exact ⟨j, u, hj, by rw [Nat.zero_add]⟩
  have hmoved := exec_promote (by rw [houts]; exact unitOutputs_nodup 0 _) hpromote
  have hk23 := keeps_of_exec (promote_within
    (S := fun p => ∃ o ∈ outs, p = ⟨dir, o⟩ ∨ p = ⟨dir + 1, promoted o⟩)
    fun o ho => ⟨⟨o, ho, .inl rfl⟩, ⟨o, ho, .inr rfl⟩⟩) hpromote
  -- what was at the output of a unit is at its promoted path
  have hout : ∀ {j u f}, c.units[j]? = some u → d1.file? (outputPath dir j u) = some f →
      d'.file? (promotedPath dir j u) = some f := by
    intro j u f hj hf
    obtain ⟨g, hg, hdst, -⟩ := hmoved _ (hmem hj)
    rw [hk12.file (fun h => h), hf] at hg
    obtain rfl := Option.some.inj hg
    rw [hk3.file (fun he => promoted_ne_levelFilter j u (congrArg Path.name he)), hdst]
  have hback : ∀ {j u f}, c.units[j]? = some u → d'.file? (promotedPath dir j u) = some f →
      d1.file? (outputPath dir j u) = some f := by
    intro j u f hj hf
    obtain ⟨g, hg, -, -⟩ := houtput j u hj
    rw [hg, ← hf, hout hj hg]
  refine ⟨fun j u hj => ?_, fun j j' u u' f f' hlt hj hj' hf hf' => ?_, fun j u hj p hp => ?_, ?_⟩
  · obtain ⟨f, hf, hholds, hcreated⟩ := houtput j u hj
    exact ⟨f, hout hj hf, hholds, hcreated⟩
  · exact hordered j j' u u' f f' hlt hj hj' (hback hj hf) (hback hj' hf')
  · have hlevel : p ≠ ⟨dir + 1, levelFilterName⟩ := fun he => by
      have := hp.1
      rw [he] at this
      simp at this
    rw [hk3.file hlevel]
    by_cases hpo : ∃ o ∈ outs, p = ⟨dir, o⟩
    · obtain ⟨o, ho, rfl⟩ := hpo
      obtain ⟨f, -, -, hmovedAway⟩ := hmoved o ho
      exact hmovedAway
    · rw [hk23.file, hk12.file (fun h => h)]
      · exact hgone j u hj p hp fun he => hpo ⟨_, hmem hj, he⟩
      · rintro ⟨o, ho, he | he⟩
        · exact hpo ⟨o, ho, he⟩
        · have := hp.1
          rw [he] at this
          simp at this
  · have hk1 := keeps_of_exec (compactUnits_within hready.len (S := CyclePath dir c.units)
      fun j u hj p hp => ⟨j, u, hj, .inl (by rwa [Nat.zero_add] at hp)⟩) hunits
    refine ((hk1.mono fun p => .inl).trans (hk12.mono fun p => False.elim)).trans
      ((hk23.mono fun p hp => ?_).trans (hk3.mono fun p => .inr))
    obtain ⟨o, ho, hp⟩ := hp
    rw [houts, mem_unitOutputs] at ho
    obtain ⟨j, u, hj, rfl⟩ := ho
    rw [Nat.zero_add] at hp
    rcases hp with rfl | rfl
    · exact .inl ⟨j, u, hj, .inl ⟨rfl, .inr (.inr rfl)⟩⟩
    · exact .inl ⟨j, u, hj, .inr rfl⟩

end Compaction
