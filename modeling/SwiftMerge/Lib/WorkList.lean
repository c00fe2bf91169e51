import SwiftMerge.Lib.Program

/-!
# Work that is done item by item

`Did xs s t` says that from `s` to `t` just the items `xs` were done. A program works through items
when every visible state has done the first so many of them, each number of first items is done in
some visible state, and in the end all are (`WorksThrough`). Programs that work through items one
list after the other work through both (`WorksThrough.bind`).
-/

namespace Lib

universe u

/-- An initial part of two lists ends in the first one, or in the second. -/
theorem prefix_append_cases {ι : Type} {done xs ys : List ι} (h : done <+: xs ++ ys) :
    done <+: xs ∨ ∃ done', done' <+: ys ∧ done = xs ++ done' := by
  obtain ⟨rest, h⟩ := h
  rcases List.append_eq_append_iff.1 h with ⟨mid, hxs, -⟩ | ⟨mid, hdone, hys⟩
  · exact .inl ⟨mid, hxs.symm⟩
  · exact .inr ⟨mid, ⟨rest, hys.symm⟩, hdone⟩

namespace Prog

variable {Op : Type → Type u} {ε ε' α β S ι : Type} {H : Handler Op S}
  {Did : List ι → S → S → Prop} {p : Prog Op ε α} {f : α → Prog Op ε β} {s s' : S} {xs ys : List ι}

theorem visits_attempt {t : S} :
    visits H (p.attempt : Prog Op ε' _) s t ↔ visits H p s t := by
  induction p generalizing s with
  | ret a => rfl
  | fail e => rfl
  | step o k ih => exact or_congr_right (or_congr_right (ih _))

/-- The program does the items one after the other, before the eyes of an observer. -/
structure WorksThrough (H : Handler Op S) (Did : List ι → S → S → Prop) (p : Prog Op ε α) (s : S)
    (xs : List ι) : Prop where
  visited : ∀ t, visits H p s t → ∃ done, done <+: xs ∧ Did done s t
  passed : ∀ done, done <+: xs → ∃ t, visits H p s t ∧ Did done s t
  ended : Did xs s (exec H p s).2

theorem WorksThrough.nothing (h : ∀ t, visits H p s t → Did [] s t)
    (hend : Did [] s (exec H p s).2) : WorksThrough H Did p s [] := by
  refine ⟨fun t hv => ⟨[], List.prefix_rfl, h t hv⟩, fun done hd => ?_, hend⟩
  obtain rfl := List.prefix_nil.1 hd
  exact ⟨s, visits_self p s, h s (visits_self p s)⟩

/-- One step that does an item. -/
theorem WorksThrough.one {x : ι} (hv : ∀ t, visits H p s t ↔ t = s ∨ t = (exec H p s).2)
    (h0 : Did [] s s) (h1 : Did [x] s (exec H p s).2) : WorksThrough H Did p s [x] := by
  refine ⟨fun t ht => ?_, fun done hd => ?_, h1⟩
  · rcases (hv t).1 ht with rfl | rfl
    · exact ⟨[], List.nil_prefix, h0⟩
    · exact ⟨[x], List.prefix_rfl, h1⟩
  · cases done with
    | nil => exact ⟨s, (hv s).2 (.inl rfl), h0⟩
    | cons y done =>
      obtain ⟨rfl, hnil⟩ := List.cons_prefix_cons.1 hd
      obtain rfl := List.prefix_nil.1 hnil
      exact ⟨_, (hv _).2 (.inr rfl), h1⟩

theorem WorksThrough.attempt (h : WorksThrough H Did p s xs) :
    WorksThrough H Did (p.attempt : Prog Op ε' _) s xs := by
  refine ⟨fun t ht => h.visited t (visits_attempt.1 ht), fun done hd => ?_, ?_⟩
  · obtain ⟨t, ht, hdone⟩ := h.passed done hd
    exact ⟨t, visits_attempt.2 ht, hdone⟩
  · rw [exec_attempt]
    exact h.ended

/-- **A sequence** works through the items of its parts. -/
theorem WorksThrough.bind {a : α} (htrans : ∀ {xs ys : List ι} {a b c : S}, Did xs a b →
      Did ys b c → Did (xs ++ ys) a c) (hp : WorksThrough H Did p s xs)
    (hx : exec H p s = (.ok a, s')) (hf : WorksThrough H Did (f a) s' ys) :
    WorksThrough H Did (p >>= f) s (xs ++ ys) := by
  have hmid : Did xs s s' := by
    have hend := hp.ended
    rwa [hx] at hend
  refine ⟨fun t ht => ?_, fun done hd => ?_, ?_⟩
  · rcases (visits_bind_ok hx).1 ht with ht | ht
    · obtain ⟨done, hd, hdone⟩ := hp.visited t ht
      exact ⟨done, hd.trans (List.prefix_append xs ys), hdone⟩
    · obtain ⟨done, hd, hdone⟩ := hf.visited t ht
      exact ⟨xs ++ done, (List.prefix_append_right_inj xs).2 hd, htrans hmid hdone⟩
  · rcases prefix_append_cases hd with hd | ⟨done', hd', rfl⟩
    · obtain ⟨t, ht, hdone⟩ := hp.passed done hd
      exact ⟨t, (visits_bind_ok hx).2 (.inl ht), hdone⟩
    · obtain ⟨t, ht, hdone⟩ := hf.passed done' hd'
      exact ⟨t, (visits_bind_ok hx).2 (.inr ht), htrans hmid hdone⟩
  · rw [exec_bind_ok hx]
    exact htrans hmid hf.ended

end Prog

end Lib
