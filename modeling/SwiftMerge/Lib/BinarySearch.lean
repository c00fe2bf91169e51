import Mathlib.Data.Nat.Basic
import Mathlib.Tactic.Cases

/-!
# Binary search over an indexed comparison

`binarySearchBy n f` searches the indices below `n`, where `f i` says how the element at `i`
compares with the sought one: `.ok i` when some probe found it, `.error i` with the place to insert
it otherwise. It halves the interval `base .. base + size` without an early exit.

* `binarySearchBy_range`: the answer is an index, or a place between the indices.
* `binarySearchBy_spec`: on indices in strictly increasing order the answer is exact.
-/

namespace Lib

/-- Halves `base .. base + size` down to one index. -/
def searchLoop (f : Nat → Ordering) (base size : Nat) : Nat :=
  if 1 < size then
    let half := size / 2
    let mid := base + half
    searchLoop f (if f mid = .gt then base else mid) (size - half)
  else base
termination_by size

def binarySearchBy (n : Nat) (f : Nat → Ordering) : Except Nat Nat :=
  if n = 0 then .error 0
  else
    let base := searchLoop f 0 n
    if f base = .eq then .ok base
    else .error (base + if f base = .lt then 1 else 0)

/-- The comparison of strictly increasing elements with one sought: smaller ones, at most one equal
one, larger ones. -/
structure Increasing (n : Nat) (f : Nat → Ordering) : Prop where
  gt_of_ge : ∀ {i j}, i < j → j < n → f i ≠ .lt → f j = .gt
  lt_of_le : ∀ {i j}, i < j → j < n → f j ≠ .gt → f i = .lt

variable {n : Nat} {f : Nat → Ordering}

theorem searchLoop_lt (f : Nat → Ordering) (base size : Nat) (hs : 0 < size) :
    searchLoop f base size < base + size := by
  rw [searchLoop]
  split
  · dsimp only
    have hloop := searchLoop_lt f (if f (base + size / 2) = .gt then base else base + size / 2)
      (size - size / 2) (by omega)
    split at hloop <;> split <;> first | omega | contradiction
  · omega
termination_by size

/-- Whatever the comparison, the answer is in range. -/
theorem binarySearchBy_range (n : Nat) (f : Nat → Ordering) : match binarySearchBy n f with
    | .ok i => i < n
    | .error i => i ≤ n := by
  unfold binarySearchBy
  by_cases h0 : n = 0
  · rw [if_pos h0]
    exact Nat.zero_le n
  have hlt := searchLoop_lt f 0 n (by omega)
  rw [if_neg h0]
  dsimp only
  by_cases heq : f (searchLoop f 0 n) = .eq
  · rw [if_pos heq]
    dsimp only
    omega
  · rw [if_neg heq]
    dsimp only
    split <;> omega

/-- What the loop keeps: the sought element is not outside `base .. base + size`. -/
theorem searchLoop_spec (hf : Increasing n f) (base size : Nat) (hs : 0 < size)
    (hn : base + size ≤ n) (hlo : ∀ j < base, f j = .lt)
    (hhi : ∀ j, base + size ≤ j → j < n → f j = .gt) :
    searchLoop f base size < n ∧ (∀ j < searchLoop f base size, f j = .lt) ∧
      ∀ j, searchLoop f base size < j → j < n → f j = .gt := by
  rw [searchLoop]
  split
  · rename_i h1
    have hhalf : 0 < size / 2 ∧ size / 2 + size / 2 ≤ size := by omega
    dsimp only
    by_cases hmid : f (base + size / 2) = .gt
    · rw [if_pos hmid]
      refine searchLoop_spec hf base (size - size / 2) (by omega) (by omega) hlo fun j hj hjn => ?_
      by_cases hjm : j = base + size / 2
      · rw [hjm, hmid]
      · exact hf.gt_of_ge (i := base + size / 2) (by omega) hjn (by rw [hmid]; decide)
    · rw [if_neg hmid]
      refine searchLoop_spec hf (base + size / 2) (size - size / 2) (by omega) (by omega)
        (fun j hj => ?_) fun j hj hjn => hhi j (by omega) hjn
      exact hf.lt_of_le hj (by omega) hmid
  · exact ⟨by omega, hlo, fun j hj hjn => hhi j (by omega) hjn⟩
termination_by size

/-- **Binary search is exact** on increasing elements. -/
theorem binarySearchBy_spec (hf : Increasing n f) : match binarySearchBy n f with
    | .ok i => i < n ∧ f i = .eq
    | .error i => i ≤ n ∧ (∀ j < i, f j = .lt) ∧ ∀ j, i ≤ j → j < n → f j = .gt := by
  unfold binarySearchBy
  by_cases h0 : n = 0
  · rw [if_pos h0]
    exact ⟨by omega, fun j hj => absurd hj (by omega), fun j _ hj => absurd hj (by omega)⟩
  rw [if_neg h0]
  obtain ⟨hb, hlo, hhi⟩ := searchLoop_spec hf 0 n (by omega) (by omega)
    (fun j hj => absurd hj (by omega)) (fun j h1 h2 => absurd h1 (by omega))
  dsimp only
  cases he : f (searchLoop f 0 n) with
  | eq =>
    rw [if_pos rfl]
    exact ⟨hb, he⟩
  | lt =>
    rw [if_neg (by decide), if_pos rfl]
    refine ⟨hb, fun j hj => ?_, fun j hj hjn => hhi j (by omega) hjn⟩
    by_cases hjb : j = searchLoop f 0 n
    · rw [hjb, he]
    · exact hlo j (by omega)
  | gt =>
    rw [if_neg (by decide), if_neg (by decide)]
    refine ⟨by omega, hlo, fun j hj hjn => ?_⟩
    by_cases hjb : j = searchLoop f 0 n
    · rw [hjb, he]
    · exact hhi j (by omega) hjn

end Lib
