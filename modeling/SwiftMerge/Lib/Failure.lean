import SwiftMerge.Lib.Bytes

/-!
# Errors, panics and checked slices

A fallible function ends with an error of its own type or with a panic (`Failure`). `slice` is the
range index of a byte buffer, which panics when the range is not inside it; `slice_at` is the
form its uses take.
-/

namespace Lib

/-- How a computation ends without a result: an error it returns, or a panic. -/
inductive Failure (ε : Type)
  | err (e : ε)
  | panic (msg : String)
  deriving DecidableEq, Repr

/-- The kinds of I/O error. -/
inductive IoError
  | notFound (msg : String)
  | unexpectedEof (msg : String)
  | invalidData (msg : String)
  | invalidInput (msg : String)
  | other (msg : String)
  deriving DecidableEq, Repr

variable {ε α : Type}

/-- Fails with `e` unless `c`. -/
def ensure (c : Prop) [Decidable c] (e : ε) : Except ε Unit := if c then .ok () else .error e

theorem ensure_pos {c : Prop} [Decidable c] {e : ε} (h : c) : ensure c e = .ok () := if_pos h

theorem ensure_neg {c : Prop} [Decidable c] {e : ε} (h : ¬c) : ensure c e = .error e := if_neg h

theorem ensure_ok {c : Prop} [Decidable c] {e : ε} {u : Unit} (h : ensure c e = .ok u) : c := by
  unfold ensure at h
  split at h
  · assumption
  · cases h

theorem bind_ok {β : Type} {x : Except ε α} {f : α → Except ε β} {b : β}
    (h : (x >>= f) = .ok b) : ∃ a, x = .ok a ∧ f a = .ok b := by
  cases x with
  | error e => cases h
  | ok a => exact ⟨a, rfl, h⟩

@[simp] theorem ok_bind {β : Type} (a : α) (f : α → Except ε β) :
    ((Except.ok a : Except ε α) >>= f) = f a := rfl

@[simp] theorem error_bind {β : Type} (e : ε) (f : α → Except ε β) :
    ((Except.error e : Except ε α) >>= f) = .error e := rfl

@[simp] theorem pure_ok (a : α) : (pure a : Except ε α) = .ok a := rfl

/-- A bind that fails does so in one of its parts. -/
theorem bind_error {β : Type} {x : Except ε α} {f : α → Except ε β} {e : ε}
    (h : (x >>= f) = .error e) : x = .error e ∨ ∃ a, x = .ok a ∧ f a = .error e := by
  cases x with
  | error e' =>
    cases h
    exact .inl rfl
  | ok a => exact .inr ⟨a, rfl, h⟩

theorem map_ok {β : Type} {x : Except ε α} {f : α → β} {b : β} (h : x.map f = .ok b) :
    ∃ a, x = .ok a ∧ f a = b := by
  cases x with
  | error e => cases h
  | ok a => exact ⟨a, rfl, Except.ok.inj h⟩

/-- A list mapped without an error, element by element. -/
theorem mapM_ok {β : Type} {f : α → Except ε β} : ∀ {l : List α} {r : List β},
    l.mapM f = .ok r → List.Forall₂ (fun a b => f a = .ok b) l r
  | [], r, h => by
    obtain rfl := Except.ok.inj h
    exact .nil
  | a :: l, r, h => by
    rw [List.mapM_cons] at h
    obtain ⟨b, hb, h⟩ := bind_ok h
    obtain ⟨bs, hbs, h⟩ := bind_ok h
    obtain rfl := Except.ok.inj h
    exact .cons hb (mapM_ok hbs)

/-- What the right list of a related pair holds is related to something of the left one. -/
theorem exists_of_mem_right {β : Type} {R : α → β → Prop} {l : List α} {r : List β}
    (h : List.Forall₂ R l r) {b : β} (hb : b ∈ r) : ∃ a ∈ l, R a b := by
  induction h with
  | nil => cases hb
  | cons hab _ ih =>
    cases hb with
    | head => exact ⟨_, .head _, hab⟩
    | tail _ hb =>
      obtain ⟨a, ha, hr⟩ := ih hb
      exact ⟨a, .tail _ ha, hr⟩

/-- A relation weakened on the members of the left list. -/
theorem forall₂_mono_mem {β : Type} {R R' : α → β → Prop} {l : List α} {r : List β}
    (h : List.Forall₂ R l r) (hr : ∀ a b, a ∈ l → R a b → R' a b) : List.Forall₂ R' l r := by
  induction h with
  | nil => exact .nil
  | cons hab _ ih => exact .cons (hr _ _ (.head _) hab) (ih fun a b ha => hr a b (.tail _ ha))

/-! ## Slices -/

/-- The bytes at `i..j` of a buffer. -/
def slice (bs : Bytes) (i j : Nat) : Except (Failure ε) Bytes :=
  if i ≤ j ∧ j ≤ bs.length then .ok ((bs.drop i).take (j - i))
  else .error (.panic "range end index out of range for slice")

theorem part_at {bs p x rest : Bytes} {i n : Nat} (hb : bs = p ++ (x ++ rest)) (hi : i = p.length)
    (hn : n = x.length) : (bs.drop i).take n = x := by
  subst hb hi hn
  rw [List.drop_left, List.take_left]

theorem slice_at {bs p x rest : Bytes} {i j : Nat} (hb : bs = p ++ (x ++ rest))
    (hi : i = p.length) (hj : j = i + x.length) : slice (ε := ε) bs i j = .ok x := by
  unfold slice
  rw [if_pos (by rw [hb, List.length_append, List.length_append]; omega), part_at hb hi (by omega)]

/-- The next part of a buffer: what stood in front of it and the part before it are its front. -/
theorem next_part {bs p x rest : Bytes} (h : bs = p ++ (x ++ rest)) : bs = (p ++ x) ++ rest := by
  rw [h, List.append_assoc]

theorem slice_of_le {bs : Bytes} {i j : Nat} (hij : i ≤ j) (hj : j ≤ bs.length) :
    slice (ε := ε) bs i j = .ok ((bs.drop i).take (j - i)) := if_pos ⟨hij, hj⟩

theorem slice_panic {bs : Bytes} {i j : Nat} (h : bs.length < j) :
    slice (ε := ε) bs i j = .error (.panic "range end index out of range for slice") :=
  if_neg fun hc => by omega

theorem slice_take {bs : Bytes} {i j n : Nat} (h : j ≤ n) :
    slice (ε := ε) (bs.take n) i j = slice bs i j := by
  by_cases hc : i ≤ j ∧ j ≤ bs.length
  · unfold slice
    rw [if_pos hc, if_pos ⟨hc.1, by rw [List.length_take]; omega⟩, List.drop_take, List.take_take,
      Nat.min_eq_left (by omega)]
  · unfold slice
    rw [if_neg hc, if_neg fun h' => hc ⟨h'.1, by rw [List.length_take] at h'; omega⟩]

theorem slice_ok {bs x : Bytes} {i j : Nat} (h : slice (ε := ε) bs i j = .ok x) :
    i ≤ j ∧ j ≤ bs.length ∧ x = (bs.drop i).take (j - i) := by
  unfold slice at h
  split at h
  · rename_i hc
    exact ⟨hc.1, hc.2, (Except.ok.inj h).symm⟩
  · cases h

theorem slice_append {bs x : Bytes} {i j : Nat} (h : slice (ε := ε) bs i j = .ok x) (rest : Bytes) :
    slice (ε := ε) (bs ++ rest) i j = .ok x := by
  obtain ⟨-, hj, -⟩ := slice_ok h
  have hfront : slice (ε := ε) ((bs ++ rest).take bs.length) i j = slice (bs ++ rest) i j :=
    slice_take hj
  rw [← hfront, List.take_left, h]

end Lib
