import Mathlib.Algebra.BigOperators.Group.List.Basic
import Mathlib.Algebra.GroupWithZero.Nat

/-!
# Lists cut into blocks

A pass over elements with sizes knows how much its current block holds, and `cut` says from this
whether an element starts a new block. `cuts` is what the pass notes down: the offset of each start
with the element there. `blocksFrom` are the blocks themselves, whose starts these are
(`starts_blocksFrom`): together they are the list (`flatten_blocksFrom`), and of each block only the
first element was one to start a block at (`uncut_blocksFrom`).
-/

namespace Lib

variable {α : Type}

section
variable (size : α → Nat)

/-- The size of some elements together. -/
def extent (xs : List α) : Nat := (xs.map size).sum

@[simp] theorem extent_nil : extent size [] = 0 := rfl

@[simp] theorem extent_cons (x : α) (xs : List α) :
    extent size (x :: xs) = size x + extent size xs := rfl

@[simp] theorem extent_append (xs ys : List α) :
    extent size (xs ++ ys) = extent size xs + extent size ys := by
  rw [extent, List.map_append, List.sum_append]
  rfl

/-! ## Positions -/

/-- Each element with its offset, the first one standing at `offset`. -/
def positions : Nat → List α → List (Nat × α)
  | _, [] => []
  | offset, x :: xs => (offset, x) :: positions (offset + size x) xs

theorem positions_append : ∀ (offset : Nat) (xs ys : List α),
    positions size offset (xs ++ ys) =
      positions size offset xs ++ positions size (offset + extent size xs) ys
  | _, [], _ => rfl
  | offset, x :: xs, ys => by
    rw [List.cons_append, positions, positions_append _ xs ys, extent_cons, ← Nat.add_assoc]
    rfl

variable {size}

/-- A position is behind the elements in front of it. -/
theorem mem_positions {e : Nat × α} : ∀ {offset : Nat} {xs : List α}, e ∈ positions size offset xs →
    ∃ pre post, xs = pre ++ e.2 :: post ∧ e.1 = offset + extent size pre
  | offset, x :: xs, h => by
    rcases List.mem_cons.1 h with rfl | h
    · exact ⟨[], xs, rfl, rfl⟩
    · obtain ⟨pre, post, rfl, he⟩ := mem_positions h
      exact ⟨x :: pre, post, rfl, by rw [he, extent_cons, Nat.add_assoc]⟩

theorem positions_increasing : ∀ (offset : Nat) {xs : List α}, (∀ x ∈ xs, 0 < size x) →
    (positions size offset xs).Pairwise fun a b => a.1 < b.1
  | _, [], _ => .nil
  | offset, x :: xs, h => by
    have hx := h x (.head _)
    refine List.pairwise_cons.2 ⟨fun e he => ?_,
      positions_increasing _ fun y hy => h y (.tail _ hy)⟩
    obtain ⟨pre, -, -, he⟩ := mem_positions he
    dsimp only
    omega

end

/-! ## Starts of blocks -/

section
variable (size : α → Nat)

/-- The offset of each block with its first element, the first block standing at `offset`. -/
def starts : Nat → List (List α) → List (Nat × α)
  | _, [] => []
  | offset, [] :: bs => starts offset bs
  | offset, (x :: block) :: bs => (offset, x) :: starts (offset + extent size (x :: block)) bs

theorem starts_sublist : ∀ (offset : Nat) (bs : List (List α)),
    (starts size offset bs).Sublist (positions size offset bs.flatten)
  | _, [] => .slnil
  | offset, [] :: bs => starts_sublist offset bs
  | offset, (x :: block) :: bs => by
    have ih := starts_sublist (offset + extent size (x :: block)) bs
    rw [List.flatten_cons, positions_append]
    exact .cons_cons _ (ih.trans (List.sublist_append_right _ _))

end

/-! ## Cutting -/

section
variable (size : α → Nat) (cut : Nat → α → Bool)

/-- The pass over elements from `offset` on, with `filled` in the current block: the new blocks it
starts. -/
def cuts : Nat → Nat → List α → List (Nat × α)
  | _, _, [] => []
  | filled, offset, x :: xs =>
    if cut filled x then (offset, x) :: cuts (size x) (offset + size x) xs
    else cuts (filled + size x) (offset + size x) xs

/-- The blocks of elements, behind those of the block so far. -/
def blocksFrom : List α → List α → List (List α)
  | block, [] => [block]
  | block, x :: xs =>
    if cut (extent size block) x then block :: blocksFrom [x] xs
    else blocksFrom (block ++ [x]) xs

/-- The blocks of a list. -/
def blocks : List α → List (List α)
  | [] => []
  | x :: xs => blocksFrom size cut [x] xs

theorem flatten_blocksFrom : ∀ (block xs : List α),
    (blocksFrom size cut block xs).flatten = block ++ xs
  | block, [] => by rw [blocksFrom, List.flatten_singleton, List.append_nil]
  | block, x :: xs => by
    rw [blocksFrom]
    split
    · rw [List.flatten_cons, flatten_blocksFrom [x] xs]
      rfl
    · rw [flatten_blocksFrom (block ++ [x]) xs, List.append_assoc]
      rfl

theorem flatten_blocks : ∀ xs : List α, (blocks size cut xs).flatten = xs
  | [] => rfl
  | x :: xs => flatten_blocksFrom size cut [x] xs

/-- **The pass notes down the starts of the blocks.** -/
theorem starts_blocksFrom : ∀ (offset : Nat) (x : α) (block xs : List α),
    starts size offset (blocksFrom size cut (x :: block) xs) =
      (offset, x) :: cuts size cut (extent size (x :: block)) (offset + extent size (x :: block)) xs
  | _, _, _, [] => rfl
  | offset, x, block, y :: ys => by
    rw [blocksFrom, cuts]
    split
    · rw [starts, starts_blocksFrom _ y [] ys]
      rfl
    · have ih := starts_blocksFrom offset x (block ++ [y]) ys
      rw [← List.cons_append, extent_append, ← Nat.add_assoc] at ih
      exact ih

/-- A block, of which only the first element was one to start a block at. -/
structure Uncut (block : List α) : Prop where
  ne : block ≠ []
  inner : ∀ pre x post, block = pre ++ x :: post → pre ≠ [] → cut (extent size pre) x = false

variable {size cut}

theorem uncut_singleton (x : α) : Uncut size cut [x] := by
  refine ⟨List.cons_ne_nil _ _, fun pre y post h hne => absurd h ?_⟩
  obtain ⟨z, pre, rfl⟩ := List.exists_cons_of_ne_nil hne
  simp

/-- The block may be extended by an element that is none to start a block at. -/
theorem Uncut.concat {block : List α} {x : α} (h : Uncut size cut block)
    (hx : cut (extent size block) x = false) : Uncut size cut (block ++ [x]) := by
  refine ⟨List.append_ne_nil_of_left_ne_nil h.ne _, fun pre y post heq hne => ?_⟩
  rcases List.eq_nil_or_concat post with rfl | ⟨post, z, rfl⟩
  · obtain ⟨rfl, he⟩ := List.append_inj' heq rfl
    obtain rfl := List.singleton_inj.1 he
    exact hx
  · rw [List.concat_eq_append, ← List.cons_append, ← List.append_assoc] at heq
    exact h.inner pre y post (List.append_inj' heq rfl).1 hne

theorem uncut_blocksFrom : ∀ {block xs : List α}, Uncut size cut block →
    ∀ b ∈ blocksFrom size cut block xs, Uncut size cut b
  | block, [], h, b, hb => by rwa [List.mem_singleton.1 hb]
  | block, x :: xs, h, b, hb => by
    rw [blocksFrom] at hb
    split at hb
    · rcases List.mem_cons.1 hb with rfl | hb
      · exact h
      · exact uncut_blocksFrom (uncut_singleton x) b hb
    · rename_i hcut
      exact uncut_blocksFrom (h.concat (Bool.eq_false_iff.2 hcut)) b hb

theorem uncut_blocks : ∀ {xs : List α}, ∀ b ∈ blocks size cut xs, Uncut size cut b
  | _ :: _, b, hb => uncut_blocksFrom (uncut_singleton _) b hb

/-- The last element of a block of two and more was no one to start a block at. -/
theorem Uncut.last {block : List α} (h : Uncut size cut block) :
    ∃ pre x, block = pre ++ [x] ∧ (pre = [] ∨ cut (extent size pre) x = false) := by
  refine ⟨block.dropLast, block.getLast h.ne, (List.dropLast_append_getLast h.ne).symm, ?_⟩
  by_cases hne : block.dropLast = []
  · exact .inl hne
  · exact .inr (h.inner _ _ [] (List.dropLast_append_getLast h.ne).symm hne)

end

end Lib
