import Mathlib.Data.List.Basic

/-!
# Runs of a step relation

A `Run` of a step relation carries its history: the events, each with the state it found, newest
first. So a property of runs can speak of every state of the run, and of the states before it
(`Always`).

* `Run.always_of`: a property that holds at the start and is kept by the steps that meet a condition
  holds in every state of a run whose steps all do.
* `Run.always_iff`: the exact form, when a step that misses the condition breaks the property.
-/

namespace Lib

variable {S E : Type}

/-- A run that ends in a state, with the events and the states they found, newest first. -/
inductive Run (init : S → Prop) (step : S → E → S → Prop) : List (E × S) → S → Prop
  | start {s : S} : init s → Run init step [] s
  | step {h : List (E × S)} {s s' : S} {e : E} :
    Run init step h s → step s e s' → Run init step ((e, s) :: h) s'

/-- `Q`, of the history so far and the state, in every state of a run. -/
def Always (Q : List (E × S) → S → Prop) : List (E × S) → S → Prop
  | [], s => Q [] s
  | (e, s) :: h, s' => Q ((e, s) :: h) s' ∧ Always Q h s

theorem Always.now {Q : List (E × S) → S → Prop} {h : List (E × S)} {s : S} (ha : Always Q h s) :
    Q h s := by
  cases h with
  | nil => exact ha
  | cons x h => exact ha.1

theorem Always.mono {Q Q' : List (E × S) → S → Prop} (hq : ∀ {h s}, Q h s → Q' h s) :
    ∀ {h : List (E × S)} {s : S}, Always Q h s → Always Q' h s
  | [], _, ha => hq ha
  | _ :: _, _, ha => ⟨hq ha.1, mono hq ha.2⟩

namespace Run

variable {init : S → Prop} {step : S → E → S → Prop} {I Q : List (E × S) → S → Prop}
  {C : S → E → Prop} {h : List (E × S)} {s : S}

/-- **The invariant rule**, for runs whose steps all meet a condition. -/
theorem always_of (hr : Run init step h s) (hstart : ∀ {s}, init s → I [] s)
    (hkeep : ∀ {h s e s'}, I h s → step s e s' → C s e → I ((e, s) :: h) s')
    (hc : ∀ x ∈ h, C x.2 x.1) : Always I h s := by
  induction hr with
  | start hi => exact hstart hi
  | step hr hs ih =>
    rw [List.forall_mem_cons] at hc
    have ha := ih hc.2
    exact ⟨hkeep ha.now hs hc.1, ha⟩

/-- **A property holds in every state exactly when every step meets the condition**: the invariant
is kept by steps that do, and the first step that does not breaks the property. -/
theorem always_iff (hr : Run init step h s) (hstart : ∀ {s}, init s → I [] s)
    (hkeep : ∀ {h s e s'}, I h s → step s e s' → C s e → I ((e, s) :: h) s')
    (hsound : ∀ {h s}, I h s → Q h s)
    (hbreak : ∀ {h s e s'}, I h s → step s e s' → Q ((e, s) :: h) s' → C s e) :
    Always Q h s ↔ ∀ x ∈ h, C x.2 x.1 := by
  constructor
  · intro ha
    induction hr with
    | start => simp
    | step hr hs ih =>
      have hc := ih ha.2
      exact List.forall_mem_cons.2 ⟨hbreak (hr.always_of hstart hkeep hc).now hs ha.1, hc⟩
  · intro hc
    exact Always.mono hsound (hr.always_of hstart hkeep hc)

/-- A run from where another one ends goes on with it. -/
theorem append {h' : List (E × S)} {s' : S} (hr : Run init step h s)
    (hr' : Run (· = s) step h' s') : Run init step (h' ++ h) s' := by
  induction hr' with
  | start hs =>
    obtain rfl := hs
    exact hr
  | step _ hs ih => exact .step ih hs

end Run

end Lib
