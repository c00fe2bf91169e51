import Mathlib

/-!
# The total weight of a map

`total f m` is the sum of `f` over the entries of a tree map. An insertion changes it by the weight
of the new entry and of the entry it replaces, if any (`total_insert`): so a counter that is
adjusted by this difference at every insertion stays equal to the total.
-/

namespace Lib

open Std

variable {α β : Type} {cmp : α → α → Ordering} [TransCmp cmp]

/-- The sum of `f` over the entries. -/
def total (f : α → β → Nat) (m : ExtTreeMap α β cmp) : Nat :=
  (m.toList.map fun e => f e.1 e.2).sum

@[simp] theorem total_empty (f : α → β → Nat) : total f (∅ : ExtTreeMap α β cmp) = 0 := by
  have h : (∅ : ExtTreeMap α β cmp).toList = [] := List.isEmpty_iff.1 (by simp)
  rw [total, h]
  rfl

variable [LawfulEqCmp cmp]

omit [LawfulEqCmp cmp] in
theorem nodup_toList (m : ExtTreeMap α β cmp) : m.toList.Nodup :=
  m.distinct_keys_toList.imp fun hne he => hne (by rw [he]; exact ReflCmp.compare_self)

theorem toList_erase_perm {m : ExtTreeMap α β cmp} {k : α} {v : β} (h : m[k]? = some v) :
    m.toList.Perm ((k, v) :: (m.erase k).toList) := by
  have hnot : (k, v) ∉ (m.erase k).toList := by
    simp [ExtTreeMap.mem_toList_iff_getElem?_eq_some]
  rw [List.perm_ext_iff_of_nodup (nodup_toList m) (List.nodup_cons.2 ⟨hnot, nodup_toList _⟩)]
  rintro ⟨a, b⟩
  rw [List.mem_cons, ExtTreeMap.mem_toList_iff_getElem?_eq_some,
    ExtTreeMap.mem_toList_iff_getElem?_eq_some, ExtTreeMap.getElem?_erase, Prod.mk.injEq]
  by_cases hk : cmp k a = .eq
  · obtain rfl := LawfulEqCmp.eq_of_compare hk
    simp [h, eq_comm]
  · have hne : a ≠ k := by
      rintro rfl
      exact hk ReflCmp.compare_self
    simp [hk, hne]

theorem total_eq_add {m : ExtTreeMap α β cmp} {k : α} {v : β} (f : α → β → Nat)
    (h : m[k]? = some v) : total f m = f k v + total f (m.erase k) := by
  have hperm := (toList_erase_perm h).map fun e => f e.1 e.2
  rw [total, hperm.sum_nat, List.map_cons, List.sum_cons]
  rfl

/-- The weight of the entry of a key, if it has one. -/
def weightOf (f : α → β → Nat) (m : ExtTreeMap α β cmp) (k : α) : Nat :=
  match m[k]? with
  | some v => f k v
  | none => 0

/-- **The total after an insertion.** -/
theorem total_insert (f : α → β → Nat) (m : ExtTreeMap α β cmp) (k : α) (v : β) :
    total f (m.insert k v) + weightOf f m k = total f m + f k v := by
  have hnew : total f (m.insert k v) = f k v + total f (m.erase k) := by
    rw [total_eq_add f ExtTreeMap.getElem?_insert_self]
    congr 2
    refine ExtTreeMap.ext_getElem? fun a => ?_
    rw [ExtTreeMap.getElem?_erase, ExtTreeMap.getElem?_insert, ExtTreeMap.getElem?_erase]
    split <;> rfl
  cases h : m[k]? with
  | some w =>
    have hold := total_eq_add f h
    simp only [weightOf, h]
    omega
  | none =>
    have hsame : m.erase k = m := ExtTreeMap.ext_getElem? fun a => by
      rw [ExtTreeMap.getElem?_erase]
      by_cases hk : cmp k a = .eq
      · rw [if_pos hk, ← LawfulEqCmp.eq_of_compare hk, h]
      · rw [if_neg hk]
    simp only [weightOf, h]
    rw [hnew, hsame]
    omega

end Lib
