import Mathlib.Data.List.Basic

/-!
# Programs of operations on a state, and the states they pass through

A `Prog Op ε α` performs operations of `Op` one after another and returns an `α` or fails with an
`ε`. A `Handler` gives the operations their meaning on a state `S`: the answer and the next state
(`step`), and the states an observer may see while the operation is under way (`during`). So a
program has a result (`exec`) and a set of visible states (`visits`): the states between and
inside its operations, which is what a crash, or another process, finds.

* `exec_bind_ok`, `exec_bind_error`, `visits_bind_ok`, `visits_bind_error`: results and visible
  states of a sequence, given the result of its first part.
* `Yields.bind`, `Yields.exec`: what results a program may have, whatever the answers it gets.
* `All.exec_congr`: a program runs alike under handlers that agree on the operations it may perform.
* `exec_erase`: state that only a richer handler keeps does not change what a program does.
* `All.frame`: when every operation a program may perform stays within a reflexive and transitive
  relation, so do its final state and every visible state.
-/

namespace Lib

universe u

/-- A program over the operations `Op`. -/
inductive Prog (Op : Type → Type u) (ε α : Type) : Type (max 1 u)
  | ret (a : α)
  | fail (e : ε)
  | step {β : Type} (o : Op β) (k : β → Prog Op ε α)

/-- The meaning of operations on states. -/
structure Handler (Op : Type → Type u) (S : Type) where
  step {β : Type} : Op β → S → β × S
  during {β : Type} : Op β → S → S → Prop

namespace Prog

variable {Op : Type → Type u} {ε ε' α β γ S : Type}

protected def bind : Prog Op ε α → (α → Prog Op ε β) → Prog Op ε β
  | ret a, f => f a
  | fail e, _ => fail e
  | step o k, f => step o fun b => (k b).bind f

instance : Monad (Prog Op ε) where
  pure := ret
  bind := Prog.bind

theorem bind_assoc (p : Prog Op ε α) (f : α → Prog Op ε β) (g : β → Prog Op ε γ) :
    p >>= f >>= g = p >>= fun a => f a >>= g := by
  induction p with
  | ret a => rfl
  | fail e => rfl
  | step o k ih => exact congrArg (step o) (funext ih)

/-- One operation. -/
def perform (o : Op α) : Prog Op ε α := step o ret

/-- A computed result as a program. -/
def ofExcept : Except ε α → Prog Op ε α
  | .ok a => ret a
  | .error e => fail e

/-- Fails with `e` unless `b`. -/
def ensure (b : Bool) (e : ε) : Prog Op ε Unit := bif b then ret () else fail e

/-- Runs a program only when `b`. -/
def when (b : Bool) (p : Prog Op ε Unit) : Prog Op ε Unit := bif b then p else ret ()

/-- Runs a program and returns its outcome instead of failing. -/
def attempt : Prog Op ε α → Prog Op ε' (Except ε α)
  | ret a => ret (.ok a)
  | fail e => ret (.error e)
  | step o k => step o fun b => (k b).attempt

/-- The result and the final state. -/
def exec (H : Handler Op S) : Prog Op ε α → S → Except ε α × S
  | ret a, s => (.ok a, s)
  | fail e, s => (.error e, s)
  | step o k, s => exec H (k (H.step o s).1) (H.step o s).2

/-- `t` is visible at some point of the run from `s`. -/
def visits (H : Handler Op S) : Prog Op ε α → S → S → Prop
  | ret _, s, t => t = s
  | fail _, s, t => t = s
  | step o k, s, t => t = s ∨ H.during o s t ∨ visits H (k (H.step o s).1) (H.step o s).2 t

/-- Every operation the program may perform, whatever the answers, is in `A`. -/
def All (A : ∀ {β : Type}, Op β → Prop) : Prog Op ε α → Prop
  | ret _ => True
  | fail _ => True
  | step o k => A o ∧ ∀ b, All A (k b)

/-- Whatever the answers, the program's result is in `Q`. -/
def Yields (Q : α → Prop) : Prog Op ε α → Prop
  | ret a => Q a
  | fail _ => True
  | step _ k => ∀ b, Yields Q (k b)

/-! ## Results -/

section
variable (H : Handler Op S)

@[simp] theorem exec_pure (a : α) (s : S) :
    exec H (pure a : Prog Op ε α) s = (.ok a, s) := rfl

@[simp] theorem exec_fail (e : ε) (s : S) :
    exec H (fail e : Prog Op ε α) s = (.error e, s) := rfl

@[simp] theorem exec_perform (o : Op α) (s : S) :
    exec H (perform o : Prog Op ε α) s = (.ok (H.step o s).1, (H.step o s).2) := rfl

@[simp] theorem exec_ofExcept (x : Except ε α) (s : S) :
    exec H (ofExcept x : Prog Op ε α) s = (x, s) := by cases x <;> rfl

theorem exec_bind (p : Prog Op ε α) (f : α → Prog Op ε β) (s : S) :
    exec H (p >>= f) s = match exec H p s with
      | (.ok a, s') => exec H (f a) s'
      | (.error e, s') => (.error e, s') := by
  induction p generalizing s with
  | ret a => rfl
  | fail e => rfl
  | step o k ih => exact ih _ _

theorem exec_attempt (p : Prog Op ε α) (s : S) :
    exec H (attempt p : Prog Op ε' _) s = (.ok (exec H p s).1, (exec H p s).2) := by
  induction p generalizing s with
  | ret a => rfl
  | fail e => rfl
  | step o k ih => exact ih _ _

variable {H} {p : Prog Op ε α} {f : α → Prog Op ε β} {s s' : S}

theorem exec_ensure_pos {b : Bool} {e : ε} (h : b = true) (s : S) :
    exec H (ensure b e : Prog Op ε Unit) s = (.ok (), s) := by
  subst h
  rfl

theorem exec_ensure_neg {b : Bool} {e : ε} (h : b = false) (s : S) :
    exec H (ensure b e : Prog Op ε Unit) s = (.error e, s) := by
  subst h
  rfl

theorem exec_bind_ok {a : α} (h : exec H p s = (.ok a, s')) :
    exec H (p >>= f) s = exec H (f a) s' := by rw [exec_bind, h]

theorem exec_bind_error {e : ε} (h : exec H p s = (.error e, s')) :
    exec H (p >>= f) s = (.error e, s') := by rw [exec_bind, h]

theorem exec_bind_eq_ok {b : β} (h : exec H (p >>= f) s = (.ok b, s')) :
    ∃ a t, exec H p s = (.ok a, t) ∧ exec H (f a) t = (.ok b, s') := by
  rw [exec_bind] at h
  rcases hp : exec H p s with ⟨_ | a, t⟩
  · rw [hp] at h; cases h
  · rw [hp] at h; exact ⟨a, t, rfl, h⟩

end

/-- **Ghost state**: a handler that keeps more than another one, and agrees with it on the rest, runs
every program alike. -/
theorem exec_erase {S' : Type} {H : Handler Op S} {H' : Handler Op S'} (erase : S' → S)
    (h : ∀ {β : Type} (o : Op β) (s : S'),
      H.step o (erase s) = ((H'.step o s).1, erase (H'.step o s).2)) (p : Prog Op ε α) (s : S') :
    exec H p (erase s) = ((exec H' p s).1, erase (exec H' p s).2) := by
  induction p generalizing s with
  | ret a => rfl
  | fail e => rfl
  | step o k ih =>
    rw [exec, exec, h o s]
    exact ih _ _

/-! ## Results whatever the answers -/

section
variable {Q : α → Prop} {R : β → Prop}

@[simp] theorem yields_pure (a : α) : Yields Q (pure a : Prog Op ε α) ↔ Q a := .rfl

@[simp] theorem yields_fail (e : ε) : Yields Q (fail e : Prog Op ε α) := trivial

theorem yields_true (p : Prog Op ε α) : Yields (fun _ => True) p := by
  induction p with
  | ret a => trivial
  | fail e => trivial
  | step o k ih => exact ih

theorem Yields.bind {p : Prog Op ε α} {f : α → Prog Op ε β} (hp : Yields Q p)
    (hf : ∀ a, Q a → Yields R (f a)) : Yields R (p >>= f) := by
  induction p with
  | ret a => exact hf a hp
  | fail e => trivial
  | step o k ih => exact fun b => ih b (hp b)

/-- What follows a part whose result does not matter. -/
theorem Yields.after {p : Prog Op ε α} {f : α → Prog Op ε β} (hf : ∀ a, Yields R (f a)) :
    Yields R (p >>= f) := (yields_true p).bind fun a _ => hf a

theorem Yields.attempt {p : Prog Op ε α} (hp : Yields Q p) :
    Yields (fun x => ∀ a, x = .ok a → Q a) (p.attempt : Prog Op ε' _) := by
  induction p with
  | ret a => exact fun b hb => Except.ok.inj hb ▸ hp
  | fail e => exact fun b hb => by cases hb
  | step o k ih => exact fun b => ih b (hp b)

theorem Yields.exec {H : Handler Op S} {p : Prog Op ε α} (hp : Yields Q p) {s s' : S} {a : α}
    (h : exec H p s = (.ok a, s')) : Q a := by
  induction p generalizing s with
  | ret b =>
    rw [Prog.exec, Prod.mk.injEq] at h
    exact Except.ok.inj h.1 ▸ hp
  | fail e => cases h
  | step o k ih => exact ih _ (hp _) h

end

/-! ## Visible states -/

section
variable {H : Handler Op S}

theorem visits_self (p : Prog Op ε α) (s : S) : visits H p s s := by
  cases p with
  | ret _ => exact rfl
  | fail _ => exact rfl
  | step _ _ => exact .inl rfl

@[simp] theorem visits_pure (a : α) (s t : S) : visits H (pure a : Prog Op ε α) s t ↔ t = s := .rfl

@[simp] theorem visits_fail (e : ε) (s t : S) :
    visits H (fail e : Prog Op ε α) s t ↔ t = s := .rfl

theorem visits_perform (o : Op α) (s t : S) :
    visits H (perform o : Prog Op ε α) s t ↔ t = s ∨ H.during o s t ∨ t = (H.step o s).2 := .rfl

@[simp] theorem visits_ofExcept (x : Except ε α) (s t : S) :
    visits H (ofExcept x : Prog Op ε α) s t ↔ t = s := by cases x <;> rfl

@[simp] theorem visits_ensure (b : Bool) (e : ε) (s t : S) :
    visits H (ensure b e : Prog Op ε Unit) s t ↔ t = s := by
  cases b <;> rfl

theorem visits_bind (p : Prog Op ε α) (f : α → Prog Op ε β) (s t : S) :
    visits H (p >>= f) s t ↔
      visits H p s t ∨ ∃ a s', exec H p s = (.ok a, s') ∧ visits H (f a) s' t := by
  induction p generalizing s with
  | ret a =>
    refine ⟨fun h => .inr ⟨a, s, rfl, h⟩, ?_⟩
    rintro (h | ⟨a', s', h, hv⟩)
    · obtain rfl : t = s := h
      exact visits_self _ _
    · cases h; exact hv
  | fail e =>
    refine ⟨.inl, ?_⟩
    rintro (h | ⟨a', s', h, -⟩)
    · exact h
    · cases h
  | step o k ih =>
    constructor
    · rintro (h | h | h)
      · exact .inl (.inl h)
      · exact .inl (.inr (.inl h))
      · rcases (ih _ _).1 h with h | h
        · exact .inl (.inr (.inr h))
        · exact .inr h
    · rintro ((h | h | h) | h)
      · exact .inl h
      · exact .inr (.inl h)
      · exact .inr (.inr ((ih _ _).2 (.inl h)))
      · exact .inr (.inr ((ih _ _).2 (.inr h)))

variable {p : Prog Op ε α} {f : α → Prog Op ε β} {s s' t : S}

theorem visits_bind_ok {a : α} (h : exec H p s = (.ok a, s')) :
    visits H (p >>= f) s t ↔ visits H p s t ∨ visits H (f a) s' t := by
  rw [visits_bind, h]
  constructor
  · rintro (h | ⟨_, _, h, hv⟩)
    · exact .inl h
    · cases h; exact .inr hv
  · rintro (h | h)
    · exact .inl h
    · exact .inr ⟨a, s', rfl, h⟩

theorem visits_bind_error {e : ε} (h : exec H p s = (.error e, s')) :
    visits H (p >>= f) s t ↔ visits H p s t := by
  rw [visits_bind, h]
  refine or_iff_left ?_
  rintro ⟨_, _, h, -⟩
  cases h

end

/-! ## The frame of a program -/

section
variable {A : ∀ {β : Type}, Op β → Prop}

@[simp] theorem all_pure (a : α) : All A (pure a : Prog Op ε α) := trivial

@[simp] theorem all_fail (e : ε) : All A (fail e : Prog Op ε α) := trivial

theorem all_true (p : Prog Op ε α) : All (fun _ => True) p := by
  induction p with
  | ret a => trivial
  | fail e => trivial
  | step o k ih => exact ⟨trivial, ih⟩

@[simp] theorem all_perform {o : Op α} : All A (perform o : Prog Op ε α) ↔ A o :=
  ⟨fun h => h.1, fun h => ⟨h, fun _ => trivial⟩⟩

@[simp] theorem all_ofExcept (x : Except ε α) : All A (ofExcept x : Prog Op ε α) := by
  cases x <;> trivial

@[simp] theorem all_ensure (b : Bool) (e : ε) : All A (ensure b e : Prog Op ε Unit) := by
  cases b <;> trivial

theorem All.when {b : Bool} {p : Prog Op ε Unit} (h : All A p) : All A (when b p) := by
  cases b with
  | true => exact h
  | false => trivial

/-- A sequence whose second part may count on the results of the first. -/
theorem All.bind_yields {Q : α → Prop} {p : Prog Op ε α} {f : α → Prog Op ε β} (hp : All A p)
    (hq : Yields Q p) (hf : ∀ a, Q a → All A (f a)) : All A (p >>= f) := by
  induction p with
  | ret a => exact hf a hq
  | fail e => trivial
  | step o k ih => exact ⟨hp.1, fun b => ih b (hp.2 b) (hq b)⟩

theorem All.bind {p : Prog Op ε α} {f : α → Prog Op ε β} (hp : All A p) (hf : ∀ a, All A (f a)) :
    All A (p >>= f) := hp.bind_yields (yields_true p) fun a _ => hf a

theorem All.attempt {p : Prog Op ε α} (hp : All A p) : All A (p.attempt : Prog Op ε' _) := by
  induction p with
  | ret a => trivial
  | fail e => trivial
  | step o k ih => exact ⟨hp.1, fun b => ih b (hp.2 b)⟩

/-- Handlers that agree on the operations of a program run it alike. -/
theorem All.exec_congr {H H' : Handler Op S}
    (hs : ∀ {β : Type} (o : Op β), A o → ∀ s, H.step o s = H'.step o s) {p : Prog Op ε α}
    (hp : All A p) (s : S) : exec H p s = exec H' p s := by
  induction p generalizing s with
  | ret a => rfl
  | fail e => rfl
  | step o k ih =>
    rw [exec, exec, hs o hp.1 s]
    exact ih _ (hp.2 _) _

/-- **The frame rule**: operations that stay within a reflexive and transitive relation make
programs that do. -/
theorem All.frame {H : Handler Op S} {R : S → S → Prop} (hr : ∀ s, R s s)
    (ht : ∀ {a b c}, R a b → R b c → R a c)
    (hs : ∀ {β : Type} (o : Op β), A o → ∀ s, R s (H.step o s).2 ∧ ∀ t, H.during o s t → R s t)
    {p : Prog Op ε α} (hp : All A p) (s : S) :
    R s (exec H p s).2 ∧ ∀ t, visits H p s t → R s t := by
  induction p generalizing s with
  | ret a => exact ⟨hr s, fun t h => by obtain rfl : t = s := h; exact hr t⟩
  | fail e => exact ⟨hr s, fun t h => by obtain rfl : t = s := h; exact hr t⟩
  | step o k ih =>
    obtain ⟨h1, h2⟩ := hs o hp.1 s
    obtain ⟨i1, i2⟩ := ih _ (hp.2 _) (H.step o s).2
    refine ⟨ht h1 i1, ?_⟩
    rintro t (rfl | h | h)
    · exact hr _
    · exact h2 t h
    · exact ht h1 (i2 t h)

end

end Prog

end Lib
