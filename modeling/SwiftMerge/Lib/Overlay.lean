import Mathlib.Algebra.GroupWithZero.Nat
import Mathlib.Data.List.Basic
import Mathlib.Data.List.Pairwise

/-!
# Key-sorted record lists, their left-biased merge and overlays

A *run* is a list of key-value records in strictly increasing key order (`KeySorted`); `List.lookup`
is its meaning. `overlay` looks a key up in a stack of runs, topmost first. The merge of two runs
keeps, of two records with one key, the left one, so that merging neighbours of a stack changes no
lookup:

* `lookup_mergeLeft`, `keySorted_mergeLeft`: the merge is a run that looks up as its two inputs
  stacked; `lookup_mergeStack` the same for a whole stack.
* `mergeLeft_assoc`: neighbours may be merged in any order.
* `KeySorted.ext`: a run is determined by its lookups.
* `KeySorted.lookup_filter`: a filter on records is a filter on lookups.
-/

namespace Lib

variable {κ υ : Type}

/-! ## Runs and their merge -/

section
variable [Ord κ]

/-- Records in strictly increasing key order. -/
def KeySorted (l : List (κ × υ)) : Prop := l.Pairwise fun a b => compare a.1 b.1 = .lt

instance (l : List (κ × υ)) : Decidable (KeySorted l) :=
  inferInstanceAs (Decidable (l.Pairwise fun a b => compare a.1 b.1 = .lt))

/-- The union of two runs; of two records with one key the left one is kept. -/
def mergeLeft : List (κ × υ) → List (κ × υ) → List (κ × υ)
  | [], r => r
  | a :: l, [] => a :: l
  | a :: l, b :: r =>
    match compare a.1 b.1 with
    | .lt => a :: mergeLeft l (b :: r)
    | .gt => b :: mergeLeft (a :: l) r
    | .eq => a :: mergeLeft l r
termination_by l r => l.length + r.length

theorem sum_mergeLeft_le (f : κ × υ → Nat) : ∀ l r : List (κ × υ),
    ((mergeLeft l r).map f).sum ≤ (l.map f).sum + (r.map f).sum
  | [], r => by
    rw [mergeLeft]
    omega
  | a :: l, [] => by
    rw [mergeLeft]
    omega
  | a :: l, b :: r => by
    rw [mergeLeft]
    split
    · have := sum_mergeLeft_le f l (b :: r)
      simp only [List.map_cons, List.sum_cons] at this ⊢
      omega
    · have := sum_mergeLeft_le f (a :: l) r
      simp only [List.map_cons, List.sum_cons] at this ⊢
      omega
    · have := sum_mergeLeft_le f l r
      simp only [List.map_cons, List.sum_cons]
      omega
termination_by l r => l.length + r.length

theorem mergeLeft_nil (l : List (κ × υ)) : mergeLeft l [] = l := by cases l <;> rw [mergeLeft]

theorem KeySorted.filter {l : List (κ × υ)} (h : KeySorted l) (p : κ × υ → Bool) :
    KeySorted (l.filter p) := List.Pairwise.filter _ h

theorem mem_mergeLeft {x : κ × υ} : ∀ {l r : List (κ × υ)}, x ∈ mergeLeft l r → x ∈ l ∨ x ∈ r
  | [], r, h => by rw [mergeLeft] at h; exact .inr h
  | a :: l, [], h => by rw [mergeLeft] at h; exact .inl h
  | a :: l, b :: r, h => by
    rw [mergeLeft] at h
    split at h
    · rcases List.mem_cons.1 h with rfl | h
      · exact .inl (.head _)
      · rcases mem_mergeLeft h with h | h
        · exact .inl (.tail _ h)
        · exact .inr h
    · rcases List.mem_cons.1 h with rfl | h
      · exact .inr (.head _)
      · rcases mem_mergeLeft h with h | h
        · exact .inl h
        · exact .inr (.tail _ h)
    · rcases List.mem_cons.1 h with rfl | h
      · exact .inl (.head _)
      · rcases mem_mergeLeft h with h | h
        · exact .inl (.tail _ h)
        · exact .inr (.tail _ h)
termination_by l r => l.length + r.length

variable [Std.LawfulEqOrd κ]

theorem compare_ne {a b : κ} (h : compare a b = .lt) : a ≠ b := fun he => by
  rw [he, Std.LawfulEqOrd.compare_eq_iff_eq.2 rfl] at h
  cases h

theorem KeySorted.nodup {l : List (κ × υ)} (h : KeySorted l) : l.Nodup :=
  h.imp fun hlt he => compare_ne hlt (congrArg Prod.fst he)

variable [Std.TransOrd κ]

theorem keySorted_mergeLeft : ∀ {l r : List (κ × υ)}, KeySorted l → KeySorted r →
    KeySorted (mergeLeft l r)
  | [], r, _, hr => by rw [mergeLeft]; exact hr
  | a :: l, [], hl, _ => by rw [mergeLeft]; exact hl
  | a :: l, b :: r, hl, hr => by
    obtain ⟨hal, hl'⟩ := List.pairwise_cons.1 hl
    obtain ⟨hbr, hr'⟩ := List.pairwise_cons.1 hr
    rw [mergeLeft]
    split
    · rename_i hab
      refine List.pairwise_cons.2 ⟨fun x hx => ?_, keySorted_mergeLeft hl' hr⟩
      rcases mem_mergeLeft hx with hx | hx
      · exact hal x hx
      · rcases List.mem_cons.1 hx with rfl | hx
        · exact hab
        · exact Std.TransCmp.lt_trans hab (hbr x hx)
    · rename_i hab
      have hba := Std.OrientedCmp.lt_of_gt hab
      refine List.pairwise_cons.2 ⟨fun x hx => ?_, keySorted_mergeLeft hl hr'⟩
      rcases mem_mergeLeft hx with hx | hx
      · rcases List.mem_cons.1 hx with rfl | hx
        · exact hba
        · exact Std.TransCmp.lt_trans hba (hal x hx)
      · exact hbr x hx
    · rename_i hab
      have hab := Std.LawfulEqOrd.eq_of_compare hab
      refine List.pairwise_cons.2 ⟨fun x hx => ?_, keySorted_mergeLeft hl' hr'⟩
      rcases mem_mergeLeft hx with hx | hx
      · exact hal x hx
      · rw [hab]; exact hbr x hx
termination_by l r => l.length + r.length

end

/-! ## Lookups and overlays -/

section
variable [BEq κ]

/-- A lookup in a stack of runs, topmost first. -/
def overlay (ts : List (List (κ × υ))) (k : κ) : Option υ := ts.findSome? (·.lookup k)

@[simp] theorem overlay_nil (k : κ) : overlay ([] : List (List (κ × υ))) k = none := rfl

@[simp] theorem overlay_cons (t : List (κ × υ)) (ts : List (List (κ × υ))) (k : κ) :
    overlay (t :: ts) k = (t.lookup k).or (overlay ts k) := by
  simp only [overlay, List.findSome?_cons]
  cases t.lookup k <;> rfl

@[simp] theorem overlay_append (ts us : List (List (κ × υ))) (k : κ) :
    overlay (ts ++ us) k = (overlay ts k).or (overlay us k) := by
  induction ts with
  | nil => simp
  | cons t ts ih => rw [List.cons_append, overlay_cons, overlay_cons, ih, Option.or_assoc]

variable [LawfulBEq κ]

theorem lookup_cons_ne {k a : κ} (h : k ≠ a) (v : υ) (l : List (κ × υ)) :
    ((a, v) :: l).lookup k = l.lookup k := by
  rw [List.lookup_cons, beq_eq_false_iff_ne.2 h]

theorem mem_of_lookup {k : κ} {v : υ} : ∀ {l : List (κ × υ)}, l.lookup k = some v → (k, v) ∈ l
  | [], h => by cases h
  | (a, b) :: l, h => by
    rw [List.lookup_cons] at h
    split at h
    · rename_i hk
      obtain rfl := Option.some.inj h
      rw [beq_iff_eq.1 hk]
      exact .head _
    · exact .tail _ (mem_of_lookup h)

theorem lookup_eq_none {k : κ} {l : List (κ × υ)} : l.lookup k = none ↔ ∀ r ∈ l, r.1 ≠ k := by
  induction l with
  | nil => simp
  | cons a l ih =>
    obtain ⟨a, b⟩ := a
    rw [List.lookup_cons]
    by_cases hk : k = a
    · subst hk; simp
    · simp only [beq_eq_false_iff_ne.2 hk, ih, List.mem_cons, forall_eq_or_imp]
      exact ⟨fun h => ⟨fun h' => hk h'.symm, h⟩, fun h => h.2⟩

theorem lookup_isSome {k : κ} {l : List (κ × υ)} :
    (l.lookup k).isSome ↔ ∃ r ∈ l, r.1 = k := by
  rw [← Option.ne_none_iff_isSome, ne_eq, lookup_eq_none]
  push Not
  rfl

/-! ## Lookups in a run -/

variable [Ord κ] [Std.LawfulEqOrd κ]

theorem KeySorted.lookup_of_mem {l : List (κ × υ)} (h : KeySorted l) {k : κ} {v : υ}
    (hm : (k, v) ∈ l) : l.lookup k = some v := by
  induction l with
  | nil => cases hm
  | cons a l ih =>
    obtain ⟨hd, hl⟩ := List.pairwise_cons.1 h
    rw [List.lookup_cons]
    rcases List.mem_cons.1 hm with rfl | hm
    · simp
    · rw [beq_eq_false_iff_ne.2 (Ne.symm (compare_ne (hd _ hm)))]
      exact ih hl hm

theorem KeySorted.lookup_iff {l : List (κ × υ)} (h : KeySorted l) {k : κ} {v : υ} :
    l.lookup k = some v ↔ (k, v) ∈ l := ⟨mem_of_lookup, h.lookup_of_mem⟩

/-- A filter on the records of a run is a filter on its lookups. -/
theorem KeySorted.lookup_filter {l : List (κ × υ)} (h : KeySorted l) (p : κ × υ → Bool) (k : κ) :
    (l.filter p).lookup k = (l.lookup k).filter fun v => p (k, v) := by
  apply Option.ext
  intro v
  rw [(h.filter p).lookup_iff, List.mem_filter, ← h.lookup_iff, Option.filter_eq_some_iff]

theorem lookup_of_lt {k : κ} {l : List (κ × υ)} (h : ∀ r ∈ l, compare k r.1 = .lt) :
    l.lookup k = none := lookup_eq_none.2 fun r hr => (compare_ne (h r hr)).symm

variable [Std.TransOrd κ]

omit [Std.LawfulEqOrd κ] in
/-- The records in front of one that is not above the sought key do not matter. -/
theorem KeySorted.lookup_suffix {k : κ} {pre post : List (κ × υ)} {r : κ × υ}
    (h : KeySorted (pre ++ r :: post)) (hle : compare r.1 k ≠ .gt) :
    (pre ++ r :: post).lookup k = (r :: post).lookup k := by
  have hpre : pre.lookup k = none := by
    refine lookup_eq_none.2 fun a ha he => hle ?_
    have hlt : compare a.1 r.1 = .lt := (List.pairwise_append.1 h).2.2 a ha r (.head _)
    rw [← he]
    exact Std.OrientedCmp.gt_of_lt hlt
  rw [List.lookup_append, hpre, Option.none_or]

/-- **A run is determined by its lookups.** -/
theorem KeySorted.ext {l l' : List (κ × υ)} (h : KeySorted l) (h' : KeySorted l')
    (he : ∀ k, l.lookup k = l'.lookup k) : l = l' := by
  have hp : l.Perm l' := (List.perm_ext_iff_of_nodup h.nodup h'.nodup).2 fun r => by
    rw [← h.lookup_iff, ← h'.lookup_iff, he]
  refine hp.eq_of_pairwise (fun a b _ _ hab hba => ?_) h h'
  have := Std.OrientedCmp.gt_of_lt hab
  rw [hba] at this
  cases this

/-- **A merge looks up as its inputs stacked**, the left one on top. -/
theorem lookup_mergeLeft (k : κ) : ∀ {l r : List (κ × υ)}, KeySorted l → KeySorted r →
    (mergeLeft l r).lookup k = (l.lookup k).or (r.lookup k)
  | [], r, _, _ => by rw [mergeLeft]; simp
  | a :: l, [], _, _ => by rw [mergeLeft]; simp
  | (a, v) :: l, (b, w) :: r, hl, hr => by
    obtain ⟨hal, hl'⟩ := List.pairwise_cons.1 hl
    obtain ⟨hbr, hr'⟩ := List.pairwise_cons.1 hr
    rw [mergeLeft]
    split
    · by_cases hk : k = a
      · subst hk; simp
      · rw [lookup_cons_ne hk, lookup_cons_ne hk, lookup_mergeLeft k hl' hr]
    · rename_i hab
      have hba := Std.OrientedCmp.lt_of_gt hab
      by_cases hk : k = b
      · have hn : ((a, v) :: l).lookup k = none := lookup_of_lt fun x hx => by
          rw [hk]
          rcases List.mem_cons.1 hx with rfl | hx
          · exact hba
          · exact Std.TransCmp.lt_trans hba (hal x hx)
        rw [hn, hk]
        simp
      · rw [lookup_cons_ne hk, lookup_mergeLeft k hl hr', lookup_cons_ne hk w r]
    · rename_i hab
      have hab : a = b := Std.LawfulEqOrd.eq_of_compare hab
      subst hab
      by_cases hk : k = a
      · subst hk; simp
      · rw [lookup_cons_ne hk, lookup_cons_ne hk, lookup_cons_ne hk, lookup_mergeLeft k hl' hr']
termination_by l r => l.length + r.length

/-- The merge of three runs does not depend on which two are merged first. -/
theorem mergeLeft_assoc {a b c : List (κ × υ)} (ha : KeySorted a) (hb : KeySorted b)
    (hc : KeySorted c) : mergeLeft (mergeLeft a b) c = mergeLeft a (mergeLeft b c) := by
  have hab := keySorted_mergeLeft ha hb
  have hbc := keySorted_mergeLeft hb hc
  refine (keySorted_mergeLeft hab hc).ext (keySorted_mergeLeft ha hbc) fun k => ?_
  rw [lookup_mergeLeft k hab hc, lookup_mergeLeft k ha hb, lookup_mergeLeft k ha hbc,
    lookup_mergeLeft k hb hc, Option.or_assoc]

end

/-! ## The merge of a stack -/

section
variable [Ord κ]

/-- The merge of a stack of runs, of each the records that `p` holds of. -/
def mergeStack (p : κ × υ → Bool) : List (List (κ × υ)) → List (κ × υ)
  | [] => []
  | run :: runs => mergeLeft (run.filter p) (mergeStack p runs)

theorem mem_mergeStack {p : κ × υ → Bool} {x : κ × υ} : ∀ {runs : List (List (κ × υ))},
    x ∈ mergeStack p runs → ∃ run ∈ runs, x ∈ run
  | _ :: _, h => by
    rcases mem_mergeLeft h with h | h
    · exact ⟨_, .head _, (List.mem_filter.1 h).1⟩
    · obtain ⟨run, hrun, hx⟩ := mem_mergeStack h
      exact ⟨run, .tail _ hrun, hx⟩

theorem map_mergeLeft {ω : Type} (f : υ → ω) : ∀ l r : List (κ × υ),
    (mergeLeft l r).map (Prod.map id f) = mergeLeft (l.map (Prod.map id f)) (r.map (Prod.map id f))
  | [], r => by rw [mergeLeft, List.map_nil, mergeLeft]
  | a :: l, [] => by rw [mergeLeft, List.map_cons, List.map_nil, mergeLeft]
  | a :: l, b :: r => by
    rw [mergeLeft, List.map_cons, List.map_cons, mergeLeft]
    simp only [Prod.map_fst, id_eq]
    split
    · rw [List.map_cons, map_mergeLeft f l (b :: r), List.map_cons]
    · rw [List.map_cons, map_mergeLeft f (a :: l) r, List.map_cons]
    · rw [List.map_cons, map_mergeLeft f l r]
termination_by l r => l.length + r.length

theorem map_mergeStack {ω : Type} (f : υ → ω) (p : κ × ω → Bool) :
    ∀ runs : List (List (κ × υ)),
      (mergeStack (fun r => p (Prod.map id f r)) runs).map (Prod.map id f) =
        mergeStack p (runs.map (·.map (Prod.map id f)))
  | [] => rfl
  | run :: runs => by
    rw [mergeStack, List.map_cons, mergeStack, map_mergeLeft, map_mergeStack f p runs,
      List.filter_map]
    rfl

variable [Std.LawfulEqOrd κ] [Std.TransOrd κ]

theorem keySorted_mergeStack (p : κ × υ → Bool) : ∀ {runs : List (List (κ × υ))},
    (∀ run ∈ runs, KeySorted run) → KeySorted (mergeStack p runs)
  | [], _ => .nil
  | _ :: _, h => keySorted_mergeLeft ((h _ (.head _)).filter p)
    (keySorted_mergeStack p fun run hr => h run (.tail _ hr))

variable [BEq κ] [LawfulBEq κ]

/-- The two parts of a stack may be merged on their own first. -/
theorem mergeStack_append (p : κ × υ → Bool) : ∀ {runs older : List (List (κ × υ))},
    (∀ run ∈ runs, KeySorted run) → (∀ run ∈ older, KeySorted run) →
      mergeStack p (runs ++ older) = mergeLeft (mergeStack p runs) (mergeStack p older)
  | [], older, _, _ => by rw [List.nil_append, mergeStack, mergeLeft]
  | run :: runs, older, h, ho => by
    have hrest : ∀ run ∈ runs, KeySorted run := fun run hr => h run (.tail _ hr)
    rw [List.cons_append, mergeStack, mergeStack, mergeStack_append p hrest ho,
      mergeLeft_assoc ((h run (.head _)).filter p) (keySorted_mergeStack p hrest)
        (keySorted_mergeStack p ho)]

/-- **The merge of a stack looks up as the stack.** -/
theorem lookup_mergeStack (p : κ × υ → Bool) (k : κ) : ∀ {runs : List (List (κ × υ))},
    (∀ run ∈ runs, KeySorted run) →
      (mergeStack p runs).lookup k = overlay (runs.map (·.filter p)) k
  | [], _ => rfl
  | _ :: _, h => by
    have hrest := fun run hr => h run (.tail _ hr)
    rw [mergeStack, lookup_mergeLeft k ((h _ (.head _)).filter p) (keySorted_mergeStack p hrest),
      lookup_mergeStack p k hrest, List.map_cons, overlay_cons]

end

end Lib
