import Mathlib.Data.Set.Basic
import SwiftMerge.Lib.Dated

/-!
# The latest records

`Latest R k r` says that `r` is the record of `k` written last in a set of dated records, and
`IsView R view` that `view` gives the latest record of every key. A view follows the set: records
newer than all others go in front (`IsView.push`), and records that are not the latest of their key
may go (`IsView.subset`). A reader that asks runs by age sees the view of their records
(`isView_overlay`).
-/

namespace Lib

variable {κ υ : Type} {R R' N : Set (κ × υ × Nat)} {view : Source κ υ} {k : κ} {r : υ × Nat}

/-- `r` is the record of `k` written last. -/
structure Latest (R : Set (κ × υ × Nat)) (k : κ) (r : υ × Nat) : Prop where
  mem : (k, r) ∈ R
  last : ∀ r', (k, r') ∈ R → r' ≠ r → r'.2 < r.2

/-- `view` gives the latest record of each key that has one. -/
structure IsView (R : Set (κ × υ × Nat)) (view : Source κ υ) : Prop where
  latest : ∀ k r, view k = some r → Latest R k r
  none : ∀ k, view k = none → ∀ r, (k, r) ∉ R

/-- Of every key that both sets have, `N` has the later records. -/
def Above (N R : Set (κ × υ × Nat)) : Prop := ∀ k r r', (k, r) ∈ N → (k, r') ∈ R → r'.2 < r.2

theorem Latest.subset (h : Latest R k r) (hsub : R' ⊆ R) (hmem : (k, r) ∈ R') : Latest R' k r :=
  ⟨hmem, fun r' hr' => h.last r' (hsub hr')⟩

namespace IsView

theorem isSome (h : IsView R view) (hr : (k, r) ∈ R) : ∃ r', view k = some r' := by
  cases hv : view k with
  | some r' => exact ⟨r', rfl⟩
  | none => exact absurd hr (h.none k hv r)

/-- **A set has one view.** -/
theorem unique {view' : Source κ υ} (h : IsView R view) (h' : IsView R view') : view = view' := by
  funext k
  cases hv : view k with
  | none =>
    cases hv' : view' k with
    | none => rfl
    | some r' => exact absurd (h'.latest k r' hv').mem (h.none k hv r')
  | some r =>
    have hr := h.latest k r hv
    obtain ⟨r', hv'⟩ := h'.isSome hr.mem
    have hr' := h'.latest k r' hv'
    by_cases he : r = r'
    · rw [hv', he]
    · exact absurd (hr'.last r hr.mem he) (Nat.lt_asymm (hr.last r' hr'.mem (Ne.symm he)))

/-- **Newer records go in front.** -/
theorem push {front : Source κ υ} (h : IsView R view) (hN : IsView N front) (hnew : Above N R) :
    IsView (N ∪ R) fun k => (front k).or (view k) := by
  constructor
  · intro k r hr
    cases hf : front k with
    | some r' =>
      rw [hf, Option.some_or] at hr
      obtain rfl := Option.some.inj hr
      have hlatest := hN.latest k r' hf
      refine ⟨.inl hlatest.mem, fun r'' hr'' hne => ?_⟩
      rcases hr'' with hr'' | hr''
      · exact hlatest.last r'' hr'' hne
      · exact hnew k r' r'' hlatest.mem hr''
    | none =>
      rw [hf, Option.none_or] at hr
      have hlatest := h.latest k r hr
      refine ⟨.inr hlatest.mem, fun r'' hr'' hne => ?_⟩
      rcases hr'' with hr'' | hr''
      · exact absurd hr'' (hN.none k hf r'')
      · exact hlatest.last r'' hr'' hne
  · intro k hk r hr
    rw [Option.or_eq_none_iff] at hk
    rcases hr with hr | hr
    · exact hN.none k hk.1 r hr
    · exact h.none k hk.2 r hr

/-- **The other records may go.** -/
theorem subset (h : IsView R view) (hsub : R' ⊆ R) (hkeep : ∀ k r, Latest R k r → (k, r) ∈ R') :
    IsView R' view where
  latest k r hr := (h.latest k r hr).subset hsub (hkeep k r (h.latest k r hr))
  none k hk r hr := h.none k hk r (hsub hr)

end IsView

/-! ## Stacks of runs -/

/-- The records of a stack of runs. -/
def recordsOf (runs : List (Dated κ υ)) : Set (κ × υ × Nat) := {x | ∃ run ∈ runs, x ∈ run}

section
variable [BEq κ] [LawfulBEq κ] [Ord κ] [Std.LawfulEqOrd κ]

theorem KeySorted.isView {run : Dated κ υ} (h : KeySorted run) :
    IsView {x | x ∈ run} fun k => run.lookup k := by
  constructor
  · intro k r hr
    refine ⟨mem_of_lookup hr, fun r' hr' hne => absurd ?_ hne⟩
    exact Option.some.inj ((h.lookup_of_mem hr').symm.trans hr)
  · intro k hk r hr
    exact lookup_eq_none.1 hk _ hr rfl

/-- **A stack of runs by age answers with the latest record.** -/
theorem isView_overlay : ∀ {runs : List (Dated κ υ)}, (∀ run ∈ runs, KeySorted run) →
    runs.Pairwise (fun a b => Newer (fun k => a.lookup k) (fun k => b.lookup k)) →
    IsView (recordsOf runs) (overlay runs)
  | [], _, _ => by
    constructor
    · intro k r h
      cases h
    · rintro k - r ⟨run, hrun, -⟩
      cases hrun
  | run :: runs, hs, hage => by
    obtain ⟨hnewer, hage⟩ := List.pairwise_cons.1 hage
    have hsorted := hs run (.head _)
    have hrest : ∀ run ∈ runs, KeySorted run := fun run' hr => hs run' (.tail _ hr)
    have habove : Above {x | x ∈ run} (recordsOf runs) := by
      rintro k ⟨v, t⟩ ⟨v', t'⟩ hr ⟨run', hrun', hr'⟩
      exact hnewer run' hrun' k v t v' t' (hsorted.lookup_of_mem hr)
        ((hrest run' hrun').lookup_of_mem hr')
    have hview := (isView_overlay hrest hage).push hsorted.isView habove
    have hset : recordsOf (run :: runs) = {x | x ∈ run} ∪ recordsOf runs := by
      ext x
      simp [recordsOf]
    have hoverlay : overlay (run :: runs) = fun k => (run.lookup k).or (overlay runs k) := by
      funext k
      exact overlay_cons run runs k
    rw [hset, hoverlay]
    exact hview

end

end Lib
