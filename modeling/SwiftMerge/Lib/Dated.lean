import SwiftMerge.Lib.Overlay

/-!
# Dated runs

A *dated run* is a run whose records carry the instant they were written at; `undated` is the run
itself, and merging is the same on both (`undated_mergeStack`). `Newer a b` compares two sources of
dated records: whatever key both have, `a` has the later write of it. It is what lets a reader that
asks `a` before `b` stop at the first record it finds.
-/

namespace Lib

variable {κ υ : Type}

abbrev Dated (κ υ : Type) : Type := List (κ × υ × Nat)

/-- The run without its dates. -/
def undated (l : Dated κ υ) : List (κ × υ) := l.map (Prod.map id Prod.fst)

/-- A condition on records, of dated ones. -/
abbrev onDated (p : κ × υ → Bool) (r : κ × υ × Nat) : Bool := p (Prod.map id Prod.fst r)

section
variable [Ord κ]

theorem keySorted_undated {l : Dated κ υ} : KeySorted (undated l) ↔ KeySorted l := List.pairwise_map

/-- **Merging dated runs** merges the runs. -/
theorem undated_mergeStack (p : κ × υ → Bool) (runs : List (Dated κ υ)) :
    undated (mergeStack (onDated p) runs) = mergeStack p (runs.map undated) :=
  map_mergeStack Prod.fst p runs

end

section
variable [BEq κ] [LawfulBEq κ]

theorem lookup_map_value {ω : Type} (f : κ → υ → ω) (k : κ) : ∀ l : List (κ × υ),
    (l.map fun e => (e.1, f e.1 e.2)).lookup k = (l.lookup k).map (f k)
  | [] => rfl
  | (a, v) :: l => by
    have ih := lookup_map_value f k l
    rw [List.map_cons, List.lookup_cons, List.lookup_cons]
    dsimp only
    cases hk : k == a with
    | true =>
      obtain rfl := eq_of_beq hk
      rfl
    | false => exact ih

theorem lookup_undated (k : κ) (l : Dated κ υ) :
    (undated l).lookup k = (l.lookup k).map Prod.fst :=
  lookup_map_value (fun _ => (Prod.fst : υ × Nat → υ)) k l

/-- **Looking up without the dates** finds the values. -/
theorem overlay_undated (k : κ) : ∀ runs : List (Dated κ υ),
    overlay (runs.map undated) k = (overlay runs k).map Prod.fst
  | [] => rfl
  | run :: runs => by
    rw [List.map_cons, overlay_cons, overlay_cons, lookup_undated, overlay_undated k runs,
      Option.map_or]

end

/-- A source of dated records. -/
abbrev Source (κ υ : Type) : Type := κ → Option (υ × Nat)

/-- Of every key that both sources have, `a` has the later write. -/
def Newer (a b : Source κ υ) : Prop :=
  ∀ k v t v' t', a k = some (v, t) → b k = some (v', t') → t' < t

/-- Every record of the source is a record of one of `as`. -/
def FromSome (a : Source κ υ) (as : Source κ υ → Prop) : Prop :=
  ∀ k r, a k = some r → ∃ a', as a' ∧ a' k = some r

theorem Newer.of_left {a b : Source κ υ} {as : Source κ υ → Prop} (ha : FromSome a as)
    (h : ∀ a', as a' → Newer a' b) : Newer a b := by
  intro k v t v' t' hv hv'
  obtain ⟨a', hmem, hv⟩ := ha k _ hv
  exact h a' hmem k v t v' t' hv hv'

theorem Newer.of_right {a b : Source κ υ} {bs : Source κ υ → Prop} (hb : FromSome b bs)
    (h : ∀ b', bs b' → Newer a b') : Newer a b := by
  intro k v t v' t' hv hv'
  obtain ⟨b', hmem, hv'⟩ := hb k _ hv'
  exact h b' hmem k v t v' t' hv hv'

section
variable [BEq κ] [LawfulBEq κ] [Ord κ] [Std.LawfulEqOrd κ]

/-- What a stack of filtered runs finds is in one of the runs. -/
theorem fromSome_overlay (p : κ × υ × Nat → Bool) {runs : List (Dated κ υ)}
    (hs : ∀ run ∈ runs, KeySorted run) : FromSome (overlay (runs.map (·.filter p)))
      fun a => ∃ run ∈ runs, a = fun k => run.lookup k := by
  intro k r h
  obtain ⟨l, hl, hk⟩ := List.exists_of_findSome?_eq_some h
  obtain ⟨run, hrun, rfl⟩ := List.mem_map.1 hl
  rw [(hs run hrun).lookup_filter, Option.filter_eq_some_iff] at hk
  exact ⟨_, ⟨run, hrun, rfl⟩, hk.1⟩

end

end Lib
