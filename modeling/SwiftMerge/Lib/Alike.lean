import SwiftMerge.Lib.Program

/-!
# Programs that do not notice others

Two programs are `Alike` when they perform the same operations as long as the answers they get
agree, and then have related results. A program that is alike to itself does not look at what
agreeing answers may differ in. So a run of it between the steps of others follows its run alone
(`Follows`), on a state that is related to the one alone, if its operations get agreeing answers on
related states and the others keep states related:

* `Alike.bind`, `Alike.attempt`: a sequence of alike programs, and their outcomes.
* `resume`: what is left of a program.
* `Follows.step`, `Follows.move`: the run follows when it takes a step, and when another one does.
* `Follows.ret`, `Follows.fail`: it ends as the run alone.
-/

namespace Lib

/-- Outcomes that agree: related results, or the same error. -/
inductive Ends {ε α β : Type} (Q : α → β → Prop) : Except ε α → Except ε β → Prop
  | ok {a : α} {b : β} (h : Q a b) : Ends Q (.ok a) (.ok b)
  | error (e : ε) : Ends Q (.error e) (.error e)

theorem Ends.mapError {ε ε' α β : Type} {Q : α → β → Prop} {x : Except ε α} {y : Except ε β}
    (h : Ends Q x y) (f : ε → ε') : Ends Q (x.mapError f) (y.mapError f) := by
  cases h with
  | ok h => exact .ok h
  | error e => exact .error (f e)

theorem ends_refl {ε α : Type} (x : Except ε α) : Ends Eq x x := by
  cases x with
  | ok a => exact .ok rfl
  | error e => exact .error e

namespace Prog

universe u

variable {Op : Type → Type u} {ε ε' α α' β β' S T : Type}

/-- The programs perform the same operations, of `A`, as long as their answers agree, and end with
outcomes that agree. -/
inductive Alike (A : ∀ {γ : Type}, Op γ → Prop) (Agree : ∀ {γ : Type}, Op γ → γ → γ → Prop)
    (Q : α → α' → Prop) : Prog Op ε α → Prog Op ε α' → Prop
  | ret {a : α} {a' : α'} : Q a a' → Alike A Agree Q (ret a) (ret a')
  | fail (e : ε) : Alike A Agree Q (fail e) (fail e)
  | step {γ : Type} {o : Op γ} {k : γ → Prog Op ε α} {k' : γ → Prog Op ε α'} : A o →
    (∀ b b', Agree o b b' → Alike A Agree Q (k b) (k' b')) →
    Alike A Agree Q (step o k) (step o k')

namespace Alike

variable {A : ∀ {γ : Type}, Op γ → Prop} {Agree : ∀ {γ : Type}, Op γ → γ → γ → Prop}
  {Q : α → α' → Prop} {R : β → β' → Prop}

theorem bind {p : Prog Op ε α} {p' : Prog Op ε α'} {f : α → Prog Op ε β} {f' : α' → Prog Op ε β'}
    (hp : Alike A Agree Q p p') (hf : ∀ a a', Q a a' → Alike A Agree R (f a) (f' a')) :
    Alike A Agree R (p >>= f) (p' >>= f') := by
  induction hp with
  | ret h => exact hf _ _ h
  | fail e => exact .fail e
  | step ho _ ih => exact .step ho ih

theorem attempt {p : Prog Op ε α} {p' : Prog Op ε α'} (hp : Alike A Agree Q p p') :
    Alike A Agree (Ends Q) (p.attempt : Prog Op ε' _) p'.attempt := by
  induction hp with
  | ret h => exact .ret (.ok h)
  | fail e => exact .ret (.error e)
  | step ho _ ih => exact .step ho ih

theorem perform {o : Op α} (ho : A o) :
    Alike A Agree (Agree o) (perform o : Prog Op ε α) (perform o) :=
  .step ho fun _ _ h => .ret h

theorem ofExcept {x : Except ε α} {x' : Except ε α'} (h : Ends Q x x') :
    Alike A Agree Q (ofExcept x : Prog Op ε α) (Prog.ofExcept x') := by
  cases h with
  | ok h => exact .ret h
  | error e => exact .fail e

theorem ensure (b : Bool) (e : ε) :
    Alike A Agree Eq (ensure b e : Prog Op ε Unit) (Prog.ensure b e) := by
  cases b with
  | true => exact .ret rfl
  | false => exact .fail e

theorem when {b : Bool} {p p' : Prog Op ε Unit} (h : Alike A Agree Eq p p') :
    Alike A Agree Eq (when b p) (Prog.when b p') := by
  cases b with
  | true => exact h
  | false => exact .ret rfl

end Alike

/-! ## A run between the steps of others -/

/-- What is left of the program once its operations so far have found the states `seen`. -/
def resume (H : Handler Op S) : Prog Op ε α → List S → Prog Op ε α
  | step o k, s :: seen => resume H (k (H.step o s).1) seen
  | p, _ => p

theorem resume_nil {H : Handler Op S} (p : Prog Op ε α) : resume H p [] = p := by
  cases p with
  | ret | fail | step => rfl

theorem resume_concat {H : Handler Op S} {γ : Type} {o : Op γ} {k : γ → Prog Op ε α} (s : S) :
    ∀ (seen : List S) (p : Prog Op ε α), resume H p seen = .step o k →
      resume H p (seen ++ [s]) = k (H.step o s).1
  | [], p, h => by
    rw [resume_nil] at h
    rw [h, List.nil_append, resume, resume_nil]
  | _ :: seen, .step _ _, h => resume_concat s seen _ h
  | _ :: _, .ret _, h => by cases h
  | _ :: _, .fail _, h => by cases h

theorem All.resume {H : Handler Op S} {A : ∀ {γ : Type}, Op γ → Prop} : ∀ {p : Prog Op ε α}
    (seen : List S), All A p → All A (p.resume H seen)
  | p, [], h => (resume_nil p).symm ▸ h
  | .ret _, _ :: _, _ => trivial
  | .fail _, _ :: _, _ => trivial
  | .step _ _, _ :: seen, h => All.resume seen (h.2 _)

/-- In `s`, what is left of the program goes on as a run alone that ends in `x`. -/
def Follows (H : Handler Op T) (A : ∀ {γ : Type}, Op γ → Prop)
    (Agree : ∀ {γ : Type}, Op γ → γ → γ → Prop) (R : S → T → Prop) (p : Prog Op ε α) (s : S)
    (x : Except ε α × T) : Prop :=
  ∃ p' t, Alike A Agree Eq p p' ∧ exec H p' t = x ∧ R s t

namespace Follows

variable {H : Handler Op S} {H' : Handler Op T} {A : ∀ {γ : Type}, Op γ → Prop}
  {Agree : ∀ {γ : Type}, Op γ → γ → γ → Prop} {R : S → T → Prop} {p : Prog Op ε α} {s s' : S}
  {x : Except ε α × T}

theorem own {γ : Type} {o : Op γ} {k : γ → Prog Op ε α} (h : Follows H' A Agree R (.step o k) s x) :
    A o := by
  obtain ⟨p', t, halike, -, -⟩ := h
  cases halike with
  | step ho _ => exact ho

theorem step {γ : Type} {o : Op γ} {k : γ → Prog Op ε α}
    (h : Follows H' A Agree R (.step o k) s x)
    (ho : ∀ t, A o → R s t →
      Agree o (H.step o s).1 (H'.step o t).1 ∧ R (H.step o s).2 (H'.step o t).2) :
    Follows H' A Agree R (k (H.step o s).1) (H.step o s).2 x := by
  obtain ⟨p', t, halike, hx, hR⟩ := h
  cases halike with
  | step hA hk =>
    obtain ⟨hagree, hR'⟩ := ho t hA hR
    exact ⟨_, _, hk _ _ hagree, hx, hR'⟩

theorem move (h : Follows H' A Agree R p s x) (hm : ∀ t, R s t → R s' t) :
    Follows H' A Agree R p s' x := by
  obtain ⟨p', t, halike, hx, hR⟩ := h
  exact ⟨p', t, halike, hx, hm t hR⟩

theorem ret {a : α} (h : Follows H' A Agree R (.ret a : Prog Op ε α) s x) :
    ∃ t, x = (.ok a, t) ∧ R s t := by
  obtain ⟨p', t, halike, hx, hR⟩ := h
  cases halike with
  | ret ha =>
    subst ha
    exact ⟨t, hx.symm, hR⟩

theorem fail {e : ε} (h : Follows H' A Agree R (.fail e : Prog Op ε α) s x) :
    ∃ t, x = (.error e, t) ∧ R s t := by
  obtain ⟨p', t, halike, hx, hR⟩ := h
  cases halike with
  | fail => exact ⟨t, hx.symm, hR⟩

end Follows

end Prog

end Lib
