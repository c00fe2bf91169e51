import SwiftMerge.Compaction.Proof.Neighbours
import SwiftMerge.Compaction.Proof.Draining

/-!
# What is visible while a compaction is under way

A reload that lists the directories between two steps of a compaction opens `.bin` files only. It
misses the tables that a unit has drained until the unit's output is promoted, which happens after
the last unit: so a key is found all the time exactly when a table outside the units gives it until
an output does, and no table of the same slot is read in its stead (`neverHalfDone_iff`).
-/

namespace Compaction

open Lib Lsm Mem

variable {P : Platform} {dir n : Nat} {d d' t : Disk} {run : String → List Record}
  {units : List (List String)} {tableNames : List String} {k : Bytes} {second : Nat → Nat}
  {out : Nat → File} {bloomFalsePositiveRate : F64}

/-! ## What is found at each point -/

/-- Every reload of the reader finds a record of the key. -/
def Findable (d : Disk) (k : Bytes) : Prop := FoundByReload d k fun _ => True

/-- Every key that is found before the compaction is found in each of its states. -/
def NeverHalfDone (P : Platform) (c : Cycle) (dir : Nat) (d : Disk) : Prop :=
  ∀ t, Prog.visits (Disk.handler P)
    (sizeTierCompaction P c.targetChunks c.bloomFalsePositiveRate dir c.tableNames) d t →
      ∀ k, Findable d k → Findable t k

/-- The output of the unit shows the key. -/
structure OutputShows (dir : Nat) (run : String → List Record) (u : List String) (k : Bytes) :
    Prop where
  fits : IndexFits (dir + 1) (merged (u.map run))
  shown : ∃ v, shown (merged (u.map run)) k = some (.ok v)

/-- A table that is in no unit shows the key, and if an output takes its place, so does this output or
one that is promoted before it. -/
def Outlasts (dir : Nat) (run : String → List Record) (units : List (List String)) (d : Disk)
    (k : Bytes) : Prop :=
  ∃ p t, Opened d p t ∧ (t.view p.level).Shows k ∧ (p.level = dir → p.name ∉ units.flatten) ∧
    ∀ j u, units[j]? = some u → IndexFits (dir + 1) (merged (u.map run)) →
      p = promotedPath dir j u → ∃ i ≤ j, ∃ u', units[i]? = some u' ∧ OutputShows dir run u' k

/-- A point of a compaction. -/
inductive Point
  /-- The units have drained the tables. -/
  | draining (drained : List String)
  /-- The outputs of the first `n` units are promoted. -/
  | promoting (n : Nat)

/-- The units drain their tables in order, and their outputs are promoted in order. -/
def Point.Of (units : List (List String)) : Point → Prop
  | .draining drained => drained <+: units.flatten
  | .promoting n => n ≤ units.length

/-- The tables that a reload opens at the point. -/
def Point.tables (dir : Nat) (run : String → List Record) (units : List (List String))
    (second : Nat → Nat) (d : Disk) : Point → Set TableView
  | .draining drained =>
    {w | ∃ p t, Opened d p t ∧ (p.level = dir → p.name ∉ drained) ∧ w = t.view p.level}
  | .promoting n => {w | Landed n dir noneBad run units second d w}

/-- At no point are all the tables that show the key masked. -/
def NeverMasked (dir : Nat) (run : String → List Record) (units : List (List String))
    (second : Nat → Nat) (d : Disk) (k : Bytes) : Prop :=
  ∀ point, Point.Of units point → (∃ w ∈ point.tables dir run units second d, w.Shows k) →
    ¬TableView.AllMasked (point.tables dir run units second d) k

/-! ## A level of well-formed tables -/

/-- The list is one of well-formed tables of the level. -/
structure LevelReady (d : Disk) (dir : Nat) (run : String → List Record)
    (tableNames : List String) : Prop where
  dir_ok : 1 ≤ dir ∧ dir ≤ d.levels
  bin : ∀ t ∈ tableNames, isBin t = true
  nodup : tableNames.Nodup
  holds : ∀ t ∈ tableNames, FileHolds d dir t (run t)

theorem LevelReady.unitsGiven (h : LevelReady d dir run tableNames) (targetChunks : TargetChunks) :
    UnitsGiven dir (splitUnits targetChunks tableNames) noneBad run d := by
  have hmem : ∀ u ∈ splitUnits targetChunks tableNames, ∀ t ∈ u, t ∈ tableNames := fun _ hu _ ht =>
    (sublist_of_mem_splitUnits hu).subset ht
  exact ⟨h.dir_ok, (splitUnits_spec targetChunks tableNames).2,
    fun u hu t ht => h.bin t (hmem u hu t ht), fun u hu t ht _ => h.holds t (hmem u hu t ht), nofun,
    nofun, splitUnits_sublist.nodup h.nodup⟩

theorem returns_noneBad {outputLevel : Nat} {u : List String} :
    Returns noneBad run outputLevel u ↔ IndexFits outputLevel (merged (u.map run)) :=
  ⟨fun h => h.fits, fun h => ⟨fun _ _ => rfl, h⟩⟩

theorem unitDrained_noneBad (u : List String) : unitDrained noneBad u = u := if_neg (by simp)

/-! ## The states of the promotion -/

theorem promote_cons (o : String) (outs : List String) :
    promote dir (o :: outs) = (CompactionProg.io (.rename ⟨dir, o⟩ ⟨dir + 1, promoted o⟩) >>=
      fun _ => promote dir outs) := rfl

/-- The states of the promotion are those after the first outputs. -/
theorem visits_promote_iff {bad : String → Bool} : ∀ {id : Nat} {units : List (List String)}
    {s t : Disk}, Prog.visits (Disk.handler P)
        (promote dir (returned bad run (dir + 1) id units)) s t ↔
      ∃ n ≤ units.length, t = (Prog.exec (Disk.handler P)
        (promote dir (returned bad run (dir + 1) id (units.take n))) s).2
  | id, [], s, t => by
    refine ⟨fun h => ⟨0, Nat.le_refl 0, h⟩, ?_⟩
    rintro ⟨n, -, h⟩
    rwa [List.take_nil] at h
  | id, u :: units, s, t => by
    by_cases hr : Returns bad run (dir + 1) u
    · have hpromote : ∀ n, promote dir (returned bad run (dir + 1) id ((u :: units).take (n + 1))) =
          (CompactionProg.io (.rename ⟨dir, outputName id u⟩ ⟨dir + 1, promoted (outputName id u)⟩) >>=
            fun _ => promote dir (returned bad run (dir + 1) (id + 1) (units.take n))) := fun n => by
        rw [List.take_succ_cons, returned, if_pos hr, promote_cons]
      rw [returned, if_pos hr, promote_cons, Prog.visits_bind, visits_rename]
      constructor
      · rintro ((rfl | rfl) | ⟨a, s', hx, hv⟩)
        · exact ⟨0, Nat.zero_le _, rfl⟩
        · refine ⟨1, by simp, ?_⟩
          rw [hpromote 0, Prog.exec_bind]
          split
          · rename_i heq
            rw [heq, List.take_zero]
            rfl
          · rename_i heq
            rw [heq]
        · obtain ⟨n, hn, rfl⟩ := visits_promote_iff.1 hv
          refine ⟨n + 1, Nat.succ_le_succ hn, ?_⟩
          rw [hpromote n, Prog.exec_bind_ok hx]
      · rintro ⟨n, hn, rfl⟩
        cases n with
        | zero => exact .inl (.inl rfl)
        | succ n =>
          rw [hpromote n, Prog.exec_bind]
          split
          · rename_i a s' heq
            exact .inr ⟨a, s', heq, visits_promote_iff.2 ⟨n, Nat.le_of_succ_le_succ hn, rfl⟩⟩
          · rename_i e s' heq
            exact .inl (.inr (by rw [heq]))
    · have hskip : ∀ n, returned bad run (dir + 1) id ((u :: units).take (n + 1)) =
          returned bad run (dir + 1) (id + 1) (units.take n) := fun n => by
        rw [List.take_succ_cons, returned, if_neg hr]
      rw [returned, if_neg hr, visits_promote_iff]
      constructor
      · rintro ⟨n, hn, rfl⟩
        exact ⟨n + 1, Nat.succ_le_succ hn, by rw [hskip]⟩
      · rintro ⟨n, hn, rfl⟩
        cases n with
        | zero => exact ⟨0, Nat.zero_le _, rfl⟩
        | succ n => exact ⟨n, Nat.le_of_succ_le_succ hn, by rw [hskip]⟩

/-! ## The states of the compaction -/

/-- The state of the disk at the point. -/
def Point.Reached (dir : Nat) (run : String → List Record) (units : List (List String))
    (out : Nat → File) (d t : Disk) : Point → Prop
  | .draining drained => BinsGone dir drained d t
  | .promoting n => PromotedUpTo n dir noneBad run units out d t ∧ dir + 1 ≤ t.levels

/-- **The states of a compaction** are those of its points. -/
theorem visits_sizeTier {targetChunks : TargetChunks} (bloomFalsePositiveRate : F64)
    (h : UnitsGiven dir (splitUnits targetChunks tableNames) noneBad run d) :
    ∃ out, OutputFiles P bloomFalsePositiveRate dir noneBad run (splitUnits targetChunks tableNames)
        out ∧
      PromotedUpTo (splitUnits targetChunks tableNames).length dir noneBad run
        (splitUnits targetChunks tableNames) out d (Prog.exec (Disk.handler P)
          (sizeTierCompaction P targetChunks bloomFalsePositiveRate dir tableNames) d).2 ∧
      (∀ t, Prog.visits (Disk.handler P)
          (sizeTierCompaction P targetChunks bloomFalsePositiveRate dir tableNames) d t →
        ∃ point, Point.Of (splitUnits targetChunks tableNames) point ∧
          point.Reached dir run (splitUnits targetChunks tableNames) out d t) ∧
      ∀ point, Point.Of (splitUnits targetChunks tableNames) point → ∃ t,
        Prog.visits (Disk.handler P)
          (sizeTierCompaction P targetChunks bloomFalsePositiveRate dir tableNames) d t ∧
        point.Reached dir run (splitUnits targetChunks tableNames) out d t := by
  have hdrains := compactUnits_drains (P := P) bloomFalsePositiveRate 0 h
  obtain ⟨outs, d1, hx1, hends⟩ := exec_compactUnits_given (P := P) bloomFalsePositiveRate 0 h
  have hk1 := keeps_of_exec
    (compactUnits_within h.len (S := fun _ => True) fun _ _ _ _ _ => trivial) hx1
  obtain ⟨d2, hx2, hlevel⟩ := exec_makeNextDir (P := P) (h.dir_ok.2.trans hk1.levels)
  have hk2 := keeps_of_exec (S := fun _ => False) (makeNextDir_within dir) hx2
  obtain ⟨out, hfiles, hout⟩ := hends.outputFiles
  -- the state after the first outputs
  have hstate : ∀ n, Point.Reached dir run (splitUnits targetChunks tableNames) out d
      (Prog.exec (Disk.handler P) (promote dir (returned noneBad run (dir + 1) 0
        ((splitUnits targetChunks tableNames).take n))) d2).2 (.promoting n) := fun n => by
    obtain ⟨d3, hx3, hdone⟩ := exec_promote_returned (P := P) n hends hout hk2 hlevel
    have hk3 := keeps_of_exec (promote_within (S := fun _ => True)
      fun _ _ => ⟨trivial, trivial⟩) hx3
    rw [hx3]
    exact ⟨hdone, hlevel.trans hk3.levels⟩
  obtain ⟨d3, hx3, hdone⟩ := exec_promote_returned (P := P)
    (splitUnits targetChunks tableNames).length hends hout hk2 hlevel
  rw [List.take_length, ← hends.outs] at hx3
  have hlevel3 := hlevel.trans (keeps_of_exec (promote_within (S := fun _ => True)
    fun _ _ => ⟨trivial, trivial⟩) hx3).levels
  obtain ⟨hlast, hsummary⟩ := Disk.exec_keeps (P := P) (d := d3) (summarizeNext_within
    (S := fun p => p = ⟨dir + 1, levelFilterName⟩) rfl)
  have hvisits : ∀ t, Prog.visits (Disk.handler P)
      (sizeTierCompaction P targetChunks bloomFalsePositiveRate dir tableNames) d t ↔
        Prog.visits (Disk.handler P) (compactUnits P dir bloomFalsePositiveRate 0
          (splitUnits targetChunks tableNames)) d t ∨
        Prog.visits (Disk.handler P) (makeNextDir dir) d1 t ∨
        Prog.visits (Disk.handler P) (promote dir outs) d2 t ∨
        Prog.visits (Disk.handler P) (summarizeNext dir) d3 t := fun t => by
    rw [sizeTierCompaction_eq, Prog.visits_bind_ok hx1, Prog.visits_bind_ok hx2,
      Prog.visits_bind_ok hx3]
  refine ⟨out, hfiles, ?_, fun t hv => ?_, fun point hpoint => ?_⟩
  · rw [sizeTierCompaction_eq, Prog.exec_bind_ok hx1, Prog.exec_bind_ok hx2, Prog.exec_bind_ok hx3]
    exact hdone.congr hlast
  · rcases (hvisits t).1 hv with hv | hv | hv | hv
    · obtain ⟨drained, hprefix, hgone⟩ := hdrains.visited t hv
      exact ⟨.draining drained, hprefix, hgone⟩
    · have hgone := hdrains.ended
      rw [hx1] at hgone
      have hnothing : BinsGone dir [] d1 t := .of_keeps (S := fun _ => False)
        ((Disk.exec_keeps (makeNextDir_within dir)).2 t hv) fun _ => False.elim
      have hgone := hgone.trans hnothing
      rw [List.append_nil] at hgone
      exact ⟨.draining _, List.prefix_rfl, hgone⟩
    · rw [hends.outs] at hv
      obtain ⟨n, hn, rfl⟩ := visits_promote_iff.1 hv
      exact ⟨.promoting n, hn, hstate n⟩
    · exact ⟨.promoting _, Nat.le_refl _, hdone.congr (hsummary t hv),
        hlevel3.trans (hsummary t hv).levels⟩
  · cases point with
    | draining drained =>
      obtain ⟨t, hv, hgone⟩ := hdrains.passed drained hpoint
      exact ⟨t, (hvisits t).2 (.inl hv), hgone⟩
    | promoting n =>
      refine ⟨_, (hvisits _).2 (.inr (.inr (.inl ?_))), hstate n⟩
      rw [hends.outs]
      exact visits_promote_iff.2 ⟨n, hpoint, rfl⟩

/-! ## What is found at a point -/

/-- What a reload opens when tables are drained. -/
theorem opened_iff_of_gone {names : List String} (h : BinsGone dir names d t) (hdirs : d.InDirs)
    (hlevels : d.levels ≤ t.levels) {p : Path} {u : TableReader} :
    Opened t p u ↔ Opened d p u ∧ (p.level = dir → p.name ∉ names) := by
  constructor
  · rintro ⟨hb, hl, f, hf, hopen⟩
    have hnot : p.level = dir → p.name ∉ names := by
      rintro rfl hm
      cases (h.gone p.name hm hb).symm.trans hf
    have hf' := (h.kept p hb hnot).symm.trans hf
    exact ⟨⟨hb, ⟨hl.1, hdirs p f hf'⟩, f, hf', hopen⟩, hnot⟩
  · rintro ⟨⟨hb, hl, f, hf, hopen⟩, hnot⟩
    exact ⟨hb, ⟨hl.1, hl.2.trans hlevels⟩, f, (h.kept p hb hnot).trans hf, hopen⟩

theorem opens_of_gone {names : List String} (h : BinsGone dir names d t) (hdirs : d.InDirs)
    (hopens : Opens d) : Opens t := by
  intro p f hb h1 _ hf
  have hnot : p.level = dir → p.name ∉ names := by
    rintro rfl hm
    cases (h.gone p.name hm hb).symm.trans hf
  have hf' := (h.kept p hb hnot).symm.trans hf
  exact hopens p f hb h1 (hdirs p f hf') hf'

/-- **What a reload opens** at a point of the compaction. -/
theorem Point.Reached.views {point : Point} (hr : point.Reached dir run units out d t)
    (h : UnitsGiven dir units noneBad run d)
    (hfiles : OutputFiles P bloomFalsePositiveRate dir noneBad run units out)
    (hsize : OutputsSized P bloomFalsePositiveRate dir noneBad run units) (hdirs : d.InDirs)
    (hlevels : d.levels ≤ t.levels) :
    Lsm.views t = point.tables dir run units (fun j => (out j).createdSecs) d ∧
      (Opens d → Opens t) := by
  cases point with
  | draining drained =>
    refine ⟨Set.ext fun w => ?_, opens_of_gone hr hdirs⟩
    refine exists_congr fun p => exists_congr fun u => ?_
    rw [opened_iff_of_gone hr hdirs hlevels, and_assoc]
  | promoting n =>
    exact ⟨views_promoted h hr.1 hfiles hsize hdirs hlevels fun _ => hr.2,
      opens_promoted h hr.1 hfiles hsize hdirs⟩

theorem Point.tables_congr {point : Point} (hsecond : CreatedIn dir noneBad run units second d')
    (hp : PromotedUpTo units.length dir noneBad run units out d d') :
    point.tables dir run units (fun j => (out j).createdSecs) d =
      point.tables dir run units second d := by
  cases point with
  | draining drained => rfl
  | promoting n => exact Set.ext fun w => iff_of_eq (congrFun (hsecond.landed_eq hp) w)

/-- **A table that outlasts the compaction**, or its successor, is there at every point. -/
theorem outlasts_iff (second : Nat → Nat) : Outlasts dir run units d k ↔
    ∀ point, Point.Of units point → ∃ w ∈ point.tables dir run units second d, w.Shows k := by
  constructor
  · rintro ⟨p, t, ht, hshows, hout, hreplaced⟩ point hpoint
    cases point with
    | draining drained =>
      exact ⟨_, ⟨p, t, ht, fun hl hm => hout hl (hpoint.subset hm), rfl⟩, hshows⟩
    | promoting n =>
      by_cases hstays : Stays n dir noneBad run units p
      · exact ⟨_, .stays ht hstays, hshows⟩
      · -- an output has taken its place
        obtain ⟨j, u, hj, hu, hr, he⟩ : ∃ j u, j < n ∧ units[j]? = some u ∧
            Returns noneBad run (dir + 1) u ∧ p = promotedPath dir j u := by
          by_contra hnone
          refine hstays ⟨fun hl u hu hm => hout hl ?_, fun j u hj hu hr he =>
            hnone ⟨j, u, hj, hu, hr, he⟩⟩
          rw [unitDrained_noneBad] at hm
          exact List.mem_flatten_of_mem hu hm
        obtain ⟨i, hi, u', hu', hshown⟩ := hreplaced j u hu hr.fits he
        exact ⟨_, .output (hi.trans_lt hj) hu' (returns_noneBad.2 hshown.fits), hshown.shown⟩
  · intro hall
    -- up to the first output that shows the key, or to the end
    obtain ⟨n, hn, hfirst, hlast⟩ : ∃ n ≤ units.length,
        (∀ j u, j < n → units[j]? = some u → ¬OutputShows dir run u k) ∧
        ∀ j, n ≤ j → j < units.length →
          ∃ i ≤ j, ∃ u, units[i]? = some u ∧ OutputShows dir run u k := by
      by_cases hsome : ∃ (i : Nat) (u : List String), units[i]? = some u ∧ OutputShows dir run u k
      · classical
        obtain ⟨u, hu, hshown⟩ := Nat.find_spec hsome
        refine ⟨Nat.find hsome, (List.getElem?_eq_some_iff.1 hu).1.le, fun j v hj hv hs =>
          Nat.find_min hsome hj ⟨v, hv, hs⟩, fun j hj _ => ⟨_, hj, u, hu, hshown⟩⟩
      · exact ⟨_, Nat.le_refl _, fun j u _ hu hs => hsome ⟨j, u, hu, hs⟩, fun j hj hlt =>
          absurd hlt (Nat.not_lt.2 hj)⟩
    obtain ⟨w, hw, hshows⟩ := hall (.promoting n) hn
    rcases hw with ⟨ht, hstays⟩ | ⟨hj, hu, hr⟩
    · rename_i p t
      refine ⟨p, t, ht, hshows, fun hl hm => ?_, fun j u hu hfits he => ?_⟩
      · obtain ⟨u, hu, hm⟩ := List.mem_flatten.1 hm
        have hnot := hstays.undrained hl u hu
        rw [unitDrained_noneBad] at hnot
        exact hnot hm
      · refine hlast j ?_ (List.getElem?_eq_some_iff.1 hu).1
        by_contra hlt
        exact hstays.unreplaced j u (Nat.lt_of_not_le hlt) hu (returns_noneBad.2 hfits) he
    · exact absurd ⟨hr.fits, hshows⟩ (hfirst _ _ hj hu)

/-- The tables that a reload may open at some point. -/
def everOpened (dir : Nat) (run : String → List Record) (units : List (List String))
    (second : Nat → Nat) (d : Disk) : Set TableView :=
  {w | w ∈ Lsm.views d ∨ ∃ (j : Nat) (u : List String), units[j]? = some u ∧
    w = builtView (dir + 1) (second j) (merged (u.map run))}

theorem Point.tables_subset (point : Point) (second : Nat → Nat) :
    point.tables dir run units second d ⊆ everOpened dir run units second d := by
  intro w hw
  cases point with
  | draining drained =>
    obtain ⟨p, t, ht, -, rfl⟩ := hw
    exact .inl ⟨p, t, ht, rfl⟩
  | promoting n =>
    rcases hw with ⟨ht, -⟩ | ⟨-, hu, -⟩
    · exact .inl ⟨_, _, ht, rfl⟩
    · exact .inr ⟨_, _, hu, rfl⟩

/-- **No key is masked** when no two tables have one slot in the map of a level and no search of a
table fails. -/
theorem neverMasked_of_slots {second : Nat → Nat}
    (hslots : ∀ w ∈ everOpened dir run units second d, ∀ w' ∈ everOpened dir run units second d,
      w.SameSlot w' → w = w')
    (hok : ∀ w ∈ Lsm.views d, ∀ e, w.answer k ≠ some (.error e)) :
    NeverMasked dir run units second d k := by
  rintro point - ⟨w, hw, hshows⟩ hmasked
  obtain ⟨w', hw', hmask⟩ := hmasked w hw hshows
  have hever := point.tables_subset second hw
  have hever' := point.tables_subset second hw'
  rcases hmask with ⟨hslot, hnone⟩ | ⟨⟨e, he⟩, -⟩
  · obtain rfl := hslots w hever w' hever' hslot
    obtain ⟨v, hv⟩ := hshows
    cases hv.symm.trans hnone
  · rcases hever' with hview | ⟨j, u, -, rfl⟩
    · exact hok w' hview e he
    · -- an output answers with its records
      obtain ⟨v, hv, -⟩ := shown_ok he
      cases hv

/-- **A compaction is never seen half-done** exactly when a table outside the units shows each key that
is found before until an output does, and is not masked. -/
theorem neverHalfDone_iff {c : Cycle} (h : LevelReady d dir run c.tableNames) (hdirs : d.InDirs)
    (hsize : OutputsSized P c.bloomFalsePositiveRate dir noneBad run c.units)
    (hsecond : CreatedIn dir noneBad run c.units second (Prog.exec (Disk.handler P)
      (sizeTierCompaction P c.targetChunks c.bloomFalsePositiveRate dir c.tableNames) d).2) :
    NeverHalfDone P c dir d ↔ ∀ k, Findable d k →
      Outlasts dir run c.units d k ∧ NeverMasked dir run c.units second d k := by
  have hgiven := h.unitsGiven c.targetChunks
  obtain ⟨out, hfiles, hend, hstates, hpoints⟩ :=
    visits_sizeTier (P := P) c.bloomFalsePositiveRate hgiven
  have hlevels : ∀ t, Prog.visits (Disk.handler P) (sizeTierCompaction P c.targetChunks
      c.bloomFalsePositiveRate dir c.tableNames) d t → d.levels ≤ t.levels := fun t hv =>
    ((Disk.exec_keeps (sizeTierCompaction_within P c.targetChunks c.bloomFalsePositiveRate dir
      c.tableNames)).2 t hv).levels
  -- what is found in a state is what is found first at its point
  have hfound : ∀ {t : Disk} {point : Point}, point.Reached dir run c.units out d t →
      d.levels ≤ t.levels → ∀ k, Opens d → (Findable t k ↔
        FoundFirst (point.tables dir run c.units second d) k fun _ => True) := by
    intro t point hr hl k hopens
    obtain ⟨hviews, ho⟩ := hr.views hgiven hfiles hsize hdirs hl
    rw [Findable, foundByReload_iff, hviews, Point.tables_congr hsecond hend,
      and_iff_right (ho hopens)]
  have hpoint : ∀ k, (∀ point, Point.Of c.units point →
      FoundFirst (point.tables dir run c.units second d) k fun _ => True) ↔
        Outlasts dir run c.units d k ∧ NeverMasked dir run c.units second d k := by
    intro k
    rw [outlasts_iff second]
    constructor
    · refine fun hall => ⟨fun point hp => ?_, fun point hp _ => foundFirst_any_iff.1 (hall point hp)⟩
      obtain ⟨w, hw, v, hv, -⟩ := (hall point hp).shown
      exact ⟨w, hw, v, hv⟩
    · rintro ⟨hshows, hmask⟩ point hp
      exact foundFirst_any_iff.2 (hmask point hp (hshows point hp))
  constructor
  · intro hnever k hk
    have hopens := (foundByReload_iff.1 hk).1
    refine (hpoint k).1 fun point hp => ?_
    obtain ⟨t, hv, hr⟩ := hpoints point hp
    exact (hfound hr (hlevels t hv) k hopens).1 (hnever t hv k hk)
  · intro hcond t hv k hk
    have hopens := (foundByReload_iff.1 hk).1
    obtain ⟨point, hp, hr⟩ := hstates t hv
    exact (hfound hr (hlevels t hv) k hopens).2 ((hpoint k).2 (hcond k hk) point hp)

/-! ### Samples -/

section
variable {levels : Nat} {tables : List (Path × List Record)} {p : Path} {rs : List Record}

/-- The tables stand in the levels, and each is of a length that a `usize` holds. -/
structure TablesIn (levels : Nat) (tables : List (Path × List Record)) : Prop extends
    TablesOk tables where
  level : ∀ t ∈ tables, 1 ≤ t.1.level ∧ t.1.level ≤ levels
  size : ∀ t ∈ tables, (encodeSparseIndex (indexOf t.1.level t.2).sparseIndex).length +
    (encodeSection t.2).length + (field (indexOf t.1.level t.2).maxKey).length < 2 ^ 31

namespace TablesIn

variable (h : TablesIn levels tables)
include h

/-- The tables of a level of a disk of tables are well formed. -/
theorem levelReady (hdir : 1 ≤ dir ∧ dir ≤ levels)
    (hnames : ∀ name ∈ tableNames, (⟨dir, name⟩, run name) ∈ tables) (hnd : tableNames.Nodup) :
    LevelReady (tablesDisk P levels tables) dir run tableNames := by
  have hbin : ∀ t ∈ tableNames, isBin t = true := fun t ht => h.bin (_, _) (hnames t ht)
  refine ⟨⟨hdir.1, (levels_tablesDisk tables).symm ▸ hdir.2⟩, hbin, hnd,
    fun t ht => ⟨h.sorted _ (hnames t ht), ?_⟩⟩
  rw [tableTypeFromName_bin (hbin t ht)]
  exact h.holds P levels _ (hnames t ht)

/-- Each file is opened as a table of its records. -/
theorem open_cases {f : File} (hf : (tablesDisk P levels tables).file? p = some f) :
    ∃ rs t, (p, rs) ∈ tables ∧ openTable f = .ok (some t) ∧
      t.view p.level = builtView p.level f.createdSecs rs := by
  by_cases hp : p ∈ tables.map Prod.fst
  · obtain ⟨⟨p, rs⟩, hm, rfl⟩ := List.mem_map.1 hp
    obtain ⟨g, hg, hb⟩ := file?_tablesDisk P levels h.nodup _ hm
    obtain rfl := Option.some.inj (hf.symm.trans hg)
    obtain ⟨t, ht, hview⟩ := view_builtTable (P := P) (h.fits _ hm) (h.sorted _ hm)
      (h.indexFits _ hm) (builtTable_lt (h.size _ hm)) f.created
    rw [← hb] at ht
    exact ⟨rs, t, hm, ht, hview⟩
  · cases (file?_tablesDisk_none hp).symm.trans hf

theorem opens : Opens (tablesDisk P levels tables) := fun _ _ _ _ _ hf => by
  obtain ⟨_, t, -, ht, -⟩ := h.open_cases hf
  exact ⟨_, ht⟩

theorem inDirs : (tablesDisk P levels tables).InDirs := fun p f hf => by
  obtain ⟨rs, _, hm, -⟩ := h.open_cases hf
  rw [levels_tablesDisk]
  exact (h.level _ hm).2

theorem opened {t : TableReader} (ht : Opened (tablesDisk P levels tables) p t) :
    ∃ rs second, (p, rs) ∈ tables ∧ t.view p.level = builtView p.level second rs := by
  obtain ⟨f, hf, hopen⟩ := ht.file
  obtain ⟨rs, t', hm, hopen', hview⟩ := h.open_cases hf
  obtain rfl := Option.some.inj (Except.ok.inj (hopen.symm.trans hopen'))
  exact ⟨rs, _, hm, hview⟩

theorem unique {rs' : List Record} (hm : (p, rs) ∈ tables) (hm' : (p, rs') ∈ tables) : rs = rs' :=
  congrArg Prod.snd (List.inj_on_of_nodup_map h.nodup hm hm' rfl)

theorem exists_opened (hm : (p, rs) ∈ tables) :
    ∃ t second, Opened (tablesDisk P levels tables) p t ∧
      t.view p.level = builtView p.level second rs := by
  obtain ⟨f, hf, -⟩ := file?_tablesDisk P levels h.nodup _ hm
  obtain ⟨rs', t, hm', ht, hview⟩ := h.open_cases hf
  obtain rfl := h.unique hm hm'
  exact ⟨t, _, ⟨h.bin _ hm, (levels_tablesDisk tables).symm ▸ h.level _ hm, f, hf, ht⟩, hview⟩

/-- A key that is found is one of some table. -/
theorem mem_of_findable (hk : Findable (tablesDisk P levels tables) k) :
    ∃ t ∈ tables, ∃ v, (k, v) ∈ t.2 := by
  obtain ⟨_, ⟨p, t, ht, rfl⟩, v, hv, -⟩ := (foundByReload_iff.1 hk).2.shown
  obtain ⟨rs, _, hm, hview⟩ := h.opened ht
  rw [hview] at hv
  exact ⟨_, hm, v, ((shown_some (h.sorted _ hm)).1 hv).1⟩

end TablesIn

end

/-- The level's table of the second level that has each key of the first one. -/
def coveringRun : List Record := [([97], [49]), ([107], [49])]

/-- Three tables of the first level, of which two are compacted, and the table that covers them. -/
def coveredTables : List (Path × List Record) :=
  [(⟨1, "ss-table-entry_3.bin"⟩, [([107], [52])]),
    (⟨1, "ss-table-entry_2.bin"⟩, [([97], [51]), ([107], [51])]),
    (⟨1, "ss-table-entry_1.bin"⟩, [([107], [50])]),
    (⟨2, "compaction_unit1_pass0_0.bin"⟩, coveringRun)]

theorem coveredTables_in : TablesIn 2 coveredTables :=
  { nodup := by decide, bin := by decide, sorted := by decide, fits := by decide,
    indexFits := by decide, level := by decide, size := by decide }

def coveredRun (name : String) : List Record :=
  if name = "ss-table-entry_2.bin" then [([97], [51]), ([107], [51])] else [([107], [50])]

theorem covered_merged : merged (["ss-table-entry_2.bin", "ss-table-entry_1.bin"].map coveredRun) =
    [([97], [51]), ([107], [51])] := by
  have hlt : compare ([97] : Bytes) [107] = .lt := by decide
  simp [merged, mergeStack, coveredRun, isTombstone, mergeLeft, hlt]

theorem compactTwo_unit {j : Nat} {u : List String} (hu : compactTwo.units[j]? = some u) :
    u = ["ss-table-entry_2.bin", "ss-table-entry_1.bin"] := by
  have hm := List.mem_of_getElem? hu
  rw [compactTwo_units] at hm
  exact List.mem_singleton.1 hm

theorem coveringRun_shown (hk : k = [97] ∨ k = [107]) : ∃ v, shown coveringRun k = some (.ok v) := by
  rcases hk with rfl | rfl
  · exact ⟨[49], by decide⟩
  · exact ⟨[49], by decide⟩

theorem covering_unreplaced {j : Nat} {u : List String} (hu : compactTwo.units[j]? = some u) :
    (⟨2, "compaction_unit1_pass0_0.bin"⟩ : Path) ≠ promotedPath 1 j u := by
  intro he
  have hout : promoted (outputName j u) ∈ compactTwo.outputs :=
    List.mem_map_of_mem (mem_unitOutputs.2 ⟨j, u, hu, by rw [Nat.zero_add]⟩)
  rw [compactTwo_outputs, List.mem_singleton] at hout
  exact absurd ((congrArg Path.name he).trans hout) (by decide)

/-- A table that is opened is one of the disk's, or the output. -/
theorem covered_everOpened {w : TableView} (hw : w ∈ everOpened 1 coveredRun compactTwo.units second
      (tablesDisk P 2 coveredTables)) :
    (∃ p rs s, (p, rs) ∈ coveredTables ∧ w = builtView p.level s rs) ∨
      ∃ s, w = builtView 2 s [([97], [51]), ([107], [51])] := by
  rcases hw with ⟨p, t, ht, rfl⟩ | ⟨j, u, hu, rfl⟩
  · exact .inl ⟨_, coveredTables_in.opened ht⟩
  · rw [compactTwo_unit hu, covered_merged]
    exact .inr ⟨_, rfl⟩

/-- No table masks the one of the next level. -/
theorem covered_not_masked (hk : k = [97] ∨ k = [107]) {s : Nat} {w : TableView}
    (hw : w ∈ everOpened 1 coveredRun compactTwo.units second (tablesDisk P 2 coveredTables)) :
    ¬w.Masks (builtView 2 s coveringRun) k := by
  intro hmask
  rcases covered_everOpened hw with ⟨p, rs, s', hm, rfl⟩ | ⟨s', rfl⟩
  · rcases hmask with ⟨⟨hl, -⟩, hnone⟩ | ⟨⟨e, he⟩, -⟩
    · have hlevel : ∀ t ∈ coveredTables, t.1.level = 2 → t.2 = coveringRun := by decide
      obtain rfl : rs = coveringRun := hlevel _ hm hl.symm
      obtain ⟨v, hv⟩ := coveringRun_shown hk
      cases hv.symm.trans hnone
    · obtain ⟨v, hv, -⟩ := shown_ok he
      cases hv
  · rcases hmask with ⟨-, hnone⟩ | ⟨⟨e, he⟩, -⟩
    · rcases hk with rfl | rfl
      · exact absurd hnone (show shown [([97], [51]), ([107], [51])] [97] ≠ none by decide)
      · exact absurd hnone (show shown [([97], [51]), ([107], [51])] [107] ≠ none by decide)
    · change shown [([97], [51]), ([107], [51])] k = _ at he
      obtain ⟨v, hv, -⟩ := shown_ok he
      cases hv

/-- Each key is found in the next level while the tables of the level are merged. -/
theorem covered_neverHalfDone :
    NeverHalfDone Platform.plain compactTwo 1 (tablesDisk Platform.plain 2 coveredTables) := by
  have hin := coveredTables_in
  have hready : LevelReady (tablesDisk Platform.plain 2 coveredTables) 1 coveredRun
      compactTwo.tableNames := hin.levelReady (by decide) (by decide) (by decide)
  obtain ⟨second, hsecond⟩ := exists_createdIn 1 noneBad coveredRun compactTwo.units
    (Prog.exec (Disk.handler Platform.plain) (sizeTierCompaction Platform.plain
      compactTwo.targetChunks compactTwo.bloomFalsePositiveRate 1 compactTwo.tableNames)
      (tablesDisk Platform.plain 2 coveredTables)).2
  refine (neverHalfDone_iff hready hin.inDirs (fun u hu hr => ?_) hsecond).2 fun k hk => ?_
  · obtain ⟨j, hj⟩ := List.getElem?_of_mem hu
    rw [compactTwo_unit hj, covered_merged]
    exact builtTable_lt (by decide)
  -- the key is one of the two
  obtain ⟨t, ht, v, hr⟩ := hin.mem_of_findable hk
  have hkeys : ∀ t ∈ coveredTables, ∀ r ∈ t.2, r.1 = [97] ∨ r.1 = [107] := by decide
  have hkey : k = [97] ∨ k = [107] := hkeys t ht _ hr
  have hmem : ((⟨2, "compaction_unit1_pass0_0.bin"⟩ : Path), coveringRun) ∈ coveredTables := by
    decide
  obtain ⟨cover, s, hcover, hview⟩ := hin.exists_opened (P := Platform.plain) hmem
  change cover.view 2 = _ at hview
  have hshows : (cover.view 2).Shows k := by
    obtain ⟨v, hv⟩ := coveringRun_shown hkey
    exact ⟨v, by rw [hview]; exact hv⟩
  refine ⟨⟨_, cover, hcover, hshows, fun hl => absurd hl (by decide), fun j u hu _ he =>
    absurd he (covering_unreplaced hu)⟩, fun point _ _ hmasked => ?_⟩
  -- the table of the next level is there at each point
  have hthere : cover.view 2 ∈ point.tables 1 coveredRun compactTwo.units second
      (tablesDisk Platform.plain 2 coveredTables) := by
    cases point with
    | draining drained => exact ⟨_, cover, hcover, fun hl => absurd hl (by decide), rfl⟩
    | promoting n =>
      exact .stays hcover ⟨fun hl => absurd hl (by decide), fun j u _ hu _ => covering_unreplaced hu⟩
  obtain ⟨w, hw, hmask⟩ := hmasked _ hthere hshows
  rw [hview] at hmask
  exact covered_not_masked hkey (point.tables_subset second hw) hmask

theorem twoTables_in : TablesIn 2 twoTables :=
  { nodup := by decide, bin := by decide, sorted := by decide, fits := by decide,
    indexFits := by decide, level := by decide, size := by decide }

/-- **A key out of sight**: both tables are drained before their merge is promoted. -/
theorem two_halfDone :
    ¬NeverHalfDone Platform.plain compactTwo 1 (tablesDisk Platform.plain 2 twoTables) := by
  have hin := twoTables_in
  have hready : LevelReady (tablesDisk Platform.plain 2 twoTables) 1
      (fun name => (twoTables.lookup ⟨1, name⟩).getD []) compactTwo.tableNames :=
    hin.levelReady (by decide) (by decide) (by decide)
  obtain ⟨out, -, -, -, hpoints⟩ := visits_sizeTier (P := Platform.plain)
    compactTwo.bloomFalsePositiveRate (hready.unitsGiven compactTwo.targetChunks)
  obtain ⟨t, hv, hgone⟩ := hpoints (.draining _) List.prefix_rfl
  have hlevels := ((Disk.exec_keeps (sizeTierCompaction_within Platform.plain
    compactTwo.targetChunks compactTwo.bloomFalsePositiveRate 1 compactTwo.tableNames)).2 t hv).levels
  -- the key is found before
  have hfound : Findable (tablesDisk Platform.plain 2 twoTables) [107] := by
    have hmem : ((⟨1, "ss-table-entry_2.bin"⟩ : Path), [(([107] : Bytes), ([118] : Bytes))]) ∈
        twoTables := .head _
    obtain ⟨r, s, hr, hview⟩ := hin.exists_opened (P := Platform.plain) hmem
    refine foundByReload_iff.2 ⟨hin.opens, foundFirst_of_only ⟨_, r, hr, rfl⟩ (v := [118]) ?_ ?_
      trivial⟩
    · rw [hview]
      exact show shown [([107], [118])] [107] = some (.ok [118]) by decide
    · rintro _ ⟨q, u, hu, rfl⟩ hw
      obtain ⟨rs, s', hm, hview'⟩ := hin.opened hu
      simp only [twoTables, List.mem_cons, Prod.mk.injEq, List.not_mem_nil, or_false] at hm
      rcases hm with ⟨rfl, rfl⟩ | ⟨rfl, rfl⟩
      · rw [hr.unique hu]
      · rw [hview, hview'] at hw
        exact absurd hw (builtView_apart (by decide) fun _ => by decide)
  -- and no table is left
  intro hnever
  obtain ⟨_, ⟨p, u, hu, rfl⟩, -⟩ := (foundByReload_iff.1 (hnever t hv _ hfound)).2.shown
  obtain ⟨hu, hnot⟩ := (opened_iff_of_gone hgone hin.inDirs hlevels).1 hu
  obtain ⟨rs, s, hm, -⟩ := hin.opened hu
  have hall : ∀ t ∈ twoTables, t.1.level = 1 ∧
      t.1.name ∈ [["ss-table-entry_2.bin", "ss-table-entry_1.bin"]].flatten := by decide
  obtain ⟨hl, hn⟩ := hall _ hm
  have hunits := compactTwo_units
  rw [Cycle.units] at hunits
  rw [hunits] at hnot
  exact hnot hl hn

end Compaction
