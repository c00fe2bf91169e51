import SwiftMerge.Lsm.Proof.IndexProof

/-!
# Reading a key from a level's tables

`search` on a table finds the record of a key that is not above the table's last one
(`search_eq_lookup`): the sparse index leads to a place in the data section that is not behind the
record (`Framed.first_above`, `scan_entry`), and the scan from there stops at it (`scan_section`).
-/

namespace Lsm

open Lib TableReader

variable {key rest : Bytes} {rs : List Record}

/-! ## The scan -/

theorem readField_record {r : Record} (h : Fits r) (rest : Bytes) :
    readField (encodeRecord r ++ rest) = some (r.1, field r.2 ++ rest) ∧
    readField (field r.2 ++ rest) = some (r.2, rest) := by
  obtain ⟨hk, hv⟩ := h
  refine ⟨?_, readField_field hv rest⟩
  rw [encodeRecord, List.append_assoc, readField_field hk]

theorem scan_record {r : Record} (h : Fits r) (rest key : Bytes) :
    scan (encodeRecord r ++ rest) key = match compare r.1 key with
      | .eq => .ok (some r.2)
      | .gt => .ok none
      | .lt => scan rest key := by
  obtain ⟨hkey, hvalue⟩ := readField_record h rest
  rw [scan, if_neg (by rw [List.length_append, length_encodeRecord]; omega)]
  split
  · rename_i hnone
    rw [hkey] at hnone
    cases hnone
  · rename_i hsome
    rw [hkey, Option.some.injEq, Prod.mk.injEq] at hsome
    obtain ⟨rfl, rfl⟩ := hsome
    split
    · rename_i hnone
      rw [hvalue] at hnone
      cases hnone
    · rename_i hsome
      rw [hvalue, Option.some.injEq, Prod.mk.injEq] at hsome
      obtain ⟨rfl, rfl⟩ := hsome
      rfl

/-- **The scan is a lookup** when some key of the section is not below the sought one. -/
theorem scan_section : ∀ {rs : List Record}, (∀ r ∈ rs, Fits r) → KeySorted rs →
    (∃ r ∈ rs, compare r.1 key ≠ .lt) → scan (encodeSection rs ++ rest) key = .ok (rs.lookup key)
  | [], _, _, ⟨_, hr, _⟩ => absurd hr List.not_mem_nil
  | (k, v) :: rs, hf, hs, ⟨r, hr, hge⟩ => by
    obtain ⟨hhead, htail⟩ := List.pairwise_cons.1 hs
    rw [encodeSection_cons, List.append_assoc, scan_record (hf _ (.head _))]
    cases hc : compare k key with
    | eq =>
      obtain rfl := Std.LawfulEqOrd.compare_eq_iff_eq.1 hc
      rw [List.lookup_cons_self]
    | gt =>
      have hlt : compare key k = .lt := Std.OrientedCmp.lt_of_gt hc
      rw [lookup_of_lt fun r hr => ?_]
      cases hr with
      | head => exact hlt
      | tail _ hr => exact Std.TransCmp.lt_trans hlt (hhead r hr)
    | lt =>
      cases hr with
      | head => exact absurd hc hge
      | tail _ hr =>
        rw [lookup_cons_ne (compare_ne hc).symm]
        exact scan_section (fun x hx => hf x (.tail _ hx)) htail ⟨r, hr, hge⟩

/-! ## The search in a table -/

theorem lastKey_append (pre : List Record) {post : List Record} (h : post ≠ []) :
    lastKey (pre ++ post) = lastKey post := by
  rw [lastKey, lastKey, List.getLast?_append_of_ne_nil _ h]

theorem Indexes.increasing {sparseIndex : List (Nat × Bytes)} (h : Indexes sparseIndex rs)
    (hs : KeySorted rs) (key : Bytes) :
    Increasing sparseIndex.length fun i => compare (sparseIndex[i]?.elim [] Prod.snd) key := by
  have hlt : ∀ {i j : Nat}, i < j → j < sparseIndex.length →
      compare (sparseIndex[i]?.elim [] Prod.snd) (sparseIndex[j]?.elim [] Prod.snd) = .lt := by
    intro i j hij hj
    rw [List.getElem?_eq_getElem hj, List.getElem?_eq_getElem (hij.trans hj)]
    exact List.pairwise_iff_getElem.1 ((marks_keys hs 0).sublist h.sub) i j _ hj hij
  constructor
  · intro i j hij hj hge
    have hle : (compare key (sparseIndex[i]?.elim [] Prod.snd)).isLE := by
      rw [Std.OrientedOrd.eq_swap]
      cases hc : compare (sparseIndex[i]?.elim [] Prod.snd) key <;> simp_all
    exact Std.OrientedCmp.gt_of_lt (Std.TransCmp.lt_of_isLE_of_lt hle (hlt hij hj))
  · intro i j hij hj hle
    have hle : (compare (sparseIndex[j]?.elim [] Prod.snd) key).isLE := by
      cases hc : compare (sparseIndex[j]?.elim [] Prod.snd) key <;> simp_all
    exact Std.TransCmp.lt_of_lt_of_isLE (hlt hij hj) hle

section
variable {bytes : Bytes} {sparseIndex : List (Nat × Bytes)}

/-- A search that starts nowhere: the first key is above the sought one. -/
theorem Framed.first_above (h : Framed bytes sparseIndex rs) (hs : KeySorted rs)
    (hb : binarySearchBy sparseIndex.length
      (fun i => compare (sparseIndex[i]?.elim [] Prod.snd) key) = .error 0) :
    ∃ r rs', rs = r :: rs' ∧ compare r.1 key = .gt := by
  have hspec := binarySearchBy_spec (h.indexes.increasing hs key)
  rw [hb] at hspec
  obtain ⟨r, rs', hrs⟩ := List.exists_cons_of_ne_nil h.nonempty
  have hfirst : sparseIndex[0]? = some (0, r.1) := by
    rw [← List.head?_eq_getElem?, h.indexes.head, hrs]
    rfl
  have hgt := hspec.2.2 0 (Nat.le_refl _) (List.getElem?_eq_some_iff.1 hfirst).1
  rw [hfirst] at hgt
  exact ⟨r, rs', hrs, hgt⟩

end

namespace WellFormed

variable {bytes : Bytes} {sparseIndex : List (Nat × Bytes)}

/-- The scan from the record that an entry of the sparse index points at. -/
theorem scan_entry (h : WellFormed bytes sparseIndex rs) (created : Nat) {i : Nat}
    {e : Nat × Bytes} (hi : sparseIndex[i]? = some e) (hle : compare e.2 key ≠ .gt)
    (hlast : compare key (lastKey rs) ≠ .gt) :
    scan (bytes.drop ((readerOf ⟨created, bytes⟩ sparseIndex rs).dataSectionOffset +
      (sparseIndex[i]?.elim 0 Prod.fst))) key = .ok (rs.lookup key) := by
  obtain ⟨pre, r, post, hrs, rfl⟩ := h.framed.entry (List.mem_of_getElem? hi)
  have hdrop := h.framed.drop_entry created hrs
  have hfits := h.fits
  have hsorted := h.sorted
  -- the last record is not below the key
  have hend : ∃ a ∈ r :: post, compare a.1 key ≠ .lt := by
    obtain ⟨a, ha, hal⟩ := lastKey_mem (List.cons_ne_nil r post)
    refine ⟨a, ha, fun hlt => hlast ?_⟩
    rw [hrs, lastKey_append pre (List.cons_ne_nil r post), ← hal]
    exact Std.OrientedCmp.gt_of_lt hlt
  rw [hrs] at hfits hsorted
  rw [hi]
  change scan (bytes.drop ((readerOf ⟨created, bytes⟩ sparseIndex rs).dataSectionOffset +
    (encodeSection pre).length)) key = _
  rw [hdrop, scan_section (fun x hx => hfits x (List.mem_append_right _ hx))
    (List.pairwise_append.1 hsorted).2.1 hend, hrs, hsorted.lookup_suffix hle]

/-- **The search is a lookup** for a key that is not above the last one. -/
theorem search_eq_lookup (h : WellFormed bytes sparseIndex rs) (created : Nat)
    (hlast : compare key (lastKey rs) ≠ .gt) :
    (readerOf ⟨created, bytes⟩ sparseIndex rs).search key = .ok (rs.lookup key) := by
  have hspec := binarySearchBy_spec (h.indexes.increasing h.sorted key)
  have hget : ∀ {i : Nat}, i < sparseIndex.length → ∃ e, sparseIndex[i]? = some e :=
    fun hi => ⟨_, List.getElem?_eq_getElem hi⟩
  unfold search
  dsimp only [readerOf]
  split
  · rename_i idx hb
    rw [hb] at hspec
    obtain ⟨hi, heq⟩ := hspec
    obtain ⟨e, he⟩ := hget hi
    rw [he] at heq
    exact h.scan_entry created he (by rw [show compare e.2 key = .eq from heq]; decide) hlast
  · rename_i hb
    obtain ⟨r, rs', hrs, hgt⟩ := h.framed.first_above h.sorted hb
    have hlt : compare key r.1 = .lt := Std.OrientedCmp.lt_of_gt hgt
    have hsorted := h.sorted
    rw [hrs] at hsorted ⊢
    rw [lookup_of_lt fun a ha => ?_]
    cases ha with
    | head => exact hlt
    | tail _ ha => exact Std.TransCmp.lt_trans hlt ((List.pairwise_cons.1 hsorted).1 a ha)
  · rename_i idx hb
    rw [hb] at hspec
    obtain ⟨e, he⟩ := hget (i := idx) (by omega)
    have hlt := hspec.2.1 idx (Nat.lt_succ_self _)
    rw [he] at hlt
    exact h.scan_entry created he (by rw [show compare e.2 key = .lt from hlt]; decide) hlast

end WellFormed

end Lsm
