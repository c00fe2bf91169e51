import SwiftMerge.Compaction.Proof.UnitsEnd
import SwiftMerge.Lsm.Proof.TableViews

/-!
# The tables that a reload finds after the units of a compaction

When the units have ended and the outputs of the first `n` are promoted, a reload opens the tables
that no unit has drained and no output has replaced, as they were, and these outputs
(`views_promoted`). Every file can be opened that could be before.
-/

namespace Compaction

open Lib Lsm Mem

variable {P : Platform} {dir n : Nat} {d d' : Disk} {bad : String → Bool}
  {run : String → List Record} {units : List (List String)} {u : List String} {j : Nat}
  {bloomFalsePositiveRate : F64} {out : Nat → File}

/-- No unit drains the table, and no output of the first `n` replaces it. -/
structure Stays (n dir : Nat) (bad : String → Bool) (run : String → List Record)
    (units : List (List String)) (p : Path) : Prop where
  undrained : p.level = dir → ∀ u ∈ units, p.name ∉ unitDrained bad u
  unreplaced : ∀ j u, j < n → units[j]? = some u → Returns bad run (dir + 1) u →
    p ≠ promotedPath dir j u

/-- The tables that are there: those that stayed, and the outputs of the first `n` units that
return, each created in its second. -/
inductive Landed (n dir : Nat) (bad : String → Bool) (run : String → List Record)
    (units : List (List String)) (second : Nat → Nat) (d : Disk) : TableView → Prop
  | stays {p : Path} {t : TableReader} : Opened d p t → Stays n dir bad run units p →
    Landed n dir bad run units second d (t.view p.level)
  | output {j : Nat} {u : List String} : j < n → units[j]? = some u →
    Returns bad run (dir + 1) u →
    Landed n dir bad run units second d (builtView (dir + 1) (second j) (merged (u.map run)))

/-- The outputs are files of a length that a `usize` holds. -/
def OutputsSized (P : Platform) (bloomFalsePositiveRate : F64) (dir : Nat) (bad : String → Bool)
    (run : String → List Record) (units : List (List String)) : Prop :=
  ∀ u ∈ units, Returns bad run (dir + 1) u →
    (builtTable P (dir + 1) bloomFalsePositiveRate (merged (u.map run))).length < 2 ^ 64

theorem UnitsGiven.merged_ok (h : UnitsGiven dir units bad run d) (hu : u ∈ units)
    (hr : Returns bad run (dir + 1) u) :
    (∀ r ∈ merged (u.map run), Fits r) ∧ KeySorted (merged (u.map run)) := by
  have hruns : ∀ rs ∈ u.map run, (∀ r ∈ rs, Fits r) ∧ KeySorted rs := by
    intro rs hrs
    obtain ⟨t, ht, rfl⟩ := List.mem_map.1 hrs
    obtain ⟨hsorted, f, -, hholds⟩ := h.good u hu t ht (hr.good t ht)
    exact ⟨hholds.fits, hsorted⟩
  exact ⟨merged_fits fun rs hrs => (hruns rs hrs).1, keySorted_merged fun rs hrs => (hruns rs hrs).2⟩

/-- An output is opened as the table of its merge. -/
theorem open_output (h : UnitsGiven dir units bad run d)
    (hfiles : OutputFiles P bloomFalsePositiveRate dir bad run units out)
    (hsize : OutputsSized P bloomFalsePositiveRate dir bad run units) (hu : units[j]? = some u)
    (hr : Returns bad run (dir + 1) u) : ∃ t, openTable (out j) = .ok (some t) ∧
      t.view (dir + 1) = builtView (dir + 1) (out j).createdSecs (merged (u.map run)) := by
  have hmem := List.mem_of_getElem? hu
  obtain ⟨hfits, hsorted⟩ := h.merged_ok hmem hr
  have hopen := view_builtTable (P := P) hfits hsorted hr.fits (hsize u hmem hr) (out j).created
  rwa [← hfiles j u hu hr] at hopen

theorem Stays.file_eq {p : Path} (h : Stays n dir bad run units p)
    (hp : PromotedUpTo n dir bad run units out d d') (hb : isBin p.name = true) :
    d'.file? p = d.file? p := hp.kept p hb h.undrained h.unreplaced

/-- A table is an output, or it stayed. -/
theorem PromotedUpTo.file_cases (hp : PromotedUpTo n dir bad run units out d d') {p : Path}
    {f : File} (hb : isBin p.name = true) (hf : d'.file? p = some f) :
    (∃ j u, j < n ∧ units[j]? = some u ∧ Returns bad run (dir + 1) u ∧ p = promotedPath dir j u ∧
      f = out j) ∨ (Stays n dir bad run units p ∧ d.file? p = some f) := by
  by_cases hout : ∃ j u, j < n ∧ units[j]? = some u ∧ Returns bad run (dir + 1) u ∧
      p = promotedPath dir j u
  · obtain ⟨j, u, hj, hu, hr, rfl⟩ := hout
    exact .inl ⟨j, u, hj, hu, hr, rfl, Option.some.inj (hf.symm.trans (hp.output j u hj hu hr))⟩
  · have hstays : Stays n dir bad run units p := by
      refine ⟨fun hl u hu hm => ?_, fun j u hj hu hr he => hout ⟨j, u, hj, hu, hr, he⟩⟩
      have hgone := hp.gone u hu p.name hm hb
      rw [← hl] at hgone
      cases hgone.symm.trans hf
    exact .inr ⟨hstays, (hstays.file_eq hp hb).symm.trans hf⟩

/-- **The tables that a reload opens** are the ones that landed. -/
theorem views_promoted (h : UnitsGiven dir units bad run d)
    (hp : PromotedUpTo n dir bad run units out d d')
    (hfiles : OutputFiles P bloomFalsePositiveRate dir bad run units out)
    (hsize : OutputsSized P bloomFalsePositiveRate dir bad run units) (hdirs : d.InDirs)
    (hlevels : d.levels ≤ d'.levels) (hnext : 0 < n → dir + 1 ≤ d'.levels) :
    views d' = {w | Landed n dir bad run units (fun j => (out j).createdSecs) d w} := by
  ext w
  constructor
  · rintro ⟨p, t, ⟨hb, hl, f, hf, hopen⟩, rfl⟩
    rcases hp.file_cases hb hf with ⟨j, u, hj, hu, hr, rfl, rfl⟩ | ⟨hs, hf⟩
    · obtain ⟨t', hopen', hview⟩ := open_output h hfiles hsize hu hr
      obtain rfl := Option.some.inj (Except.ok.inj (hopen.symm.trans hopen'))
      rw [show (promotedPath dir j u).level = dir + 1 from rfl, hview]
      exact .output hj hu hr
    · exact .stays ⟨hb, ⟨hl.1, hdirs p f hf⟩, f, hf, hopen⟩ hs
  · rintro (⟨⟨hb, hl, f, hf, hopen⟩, hs⟩ | ⟨hj, hu, hr⟩)
    · exact ⟨_, _, ⟨hb, ⟨hl.1, hl.2.trans hlevels⟩, f, (hs.file_eq hp hb).trans hf, hopen⟩, rfl⟩
    · obtain ⟨t, hopen, hview⟩ := open_output h hfiles hsize hu hr
      exact ⟨_, t, ⟨isBin_promotedPath dir _ _, ⟨Nat.succ_pos dir, hnext (Nat.zero_lt_of_lt hj)⟩,
        _, hp.output _ _ hj hu hr, hopen⟩, hview.symm⟩

/-- What could be opened can be opened. -/
theorem opens_promoted (h : UnitsGiven dir units bad run d)
    (hp : PromotedUpTo n dir bad run units out d d')
    (hfiles : OutputFiles P bloomFalsePositiveRate dir bad run units out)
    (hsize : OutputsSized P bloomFalsePositiveRate dir bad run units) (hdirs : d.InDirs)
    (hopens : Opens d) : Opens d' := by
  intro p f hb h1 _ hf
  rcases hp.file_cases hb hf with ⟨j, u, -, hu, hr, rfl, rfl⟩ | ⟨-, hf⟩
  · obtain ⟨t, hopen, -⟩ := open_output h hfiles hsize hu hr
    exact ⟨_, hopen⟩
  · exact hopens p f hb h1 (hdirs p f hf) hf

end Compaction
