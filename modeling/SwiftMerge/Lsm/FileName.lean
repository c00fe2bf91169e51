import Mathlib.Data.List.Basic
import Mathlib.Data.Nat.Digits.Defs

/-!
# File names of the level directories

The string functions that the code applies to file names, on the characters of a string, and the
names it makes: `ss-table-entry_{uuid}.bin` for a flushed table, and
`compaction_unit{id}_pass{pass}_{pair}.tmp` for an intermediate table of a compaction, renamed to
`.bin` when it is promoted.

* `extension_eq`, `replaceList_suffix`, `stripSuffix_eq`: the functions on a stem and an extension.
* `tmpName_inj`: a unit, pass and pair have a name of their own.
-/

namespace Lsm

def ssTableFileExt : String := ".bin"
def drainedFileExt : String := ".drain"
def transitionMergedSstableExt : String := ".tmp"

/-- `Path::extension`: what follows the last dot, unless the name starts with it. -/
def extension (name : String) : Option String :=
  let cs := name.toList.reverse
  match cs.dropWhile (· ≠ '.') with
  | _ :: c :: stem =>
    if c :: stem = ['.'] ∧ cs.takeWhile (· ≠ '.') = [] then none
    else some (String.ofList (cs.takeWhile (· ≠ '.')).reverse)
  | _ => none

/-- `split('.').last()`. -/
def lastDotPart (name : String) : String :=
  String.ofList (name.toList.reverse.takeWhile (· ≠ '.')).reverse

/-- `ends_with`. -/
def endsWith (name suffix : String) : Bool := suffix.toList.isSuffixOf name.toList

/-- `strip_suffix`. -/
def stripSuffix (name suffix : String) : Option String :=
  if endsWith name suffix then
    some (String.ofList (name.toList.take (name.toList.length - suffix.toList.length)))
  else none

/-- `replace` on the characters of a string, for a pattern that is not empty. -/
def replaceList (pat rep : List Char) : List Char → List Char
  | [] => []
  | c :: cs =>
    if pat.isPrefixOf (c :: cs) then rep ++ replaceList pat rep (cs.drop (pat.length - 1))
    else c :: replaceList pat rep cs
termination_by cs => cs.length
decreasing_by
  · rw [List.length_drop, List.length_cons]; omega
  · rw [List.length_cons]; omega

def replace (name pat rep : String) : String :=
  String.ofList (replaceList pat.toList rep.toList name.toList)

/-- The `.bin` files that the reader loads. -/
def isBin (name : String) : Bool := extension name = some "bin"

def ssTableName (uuid : String) : String := "ss-table-entry_" ++ uuid ++ ssTableFileExt

/-- The name of a unit's table, without its extension. -/
def unitStem (id pass pairIdx : Nat) : String :=
  "compaction_unit" ++ toString id ++ "_pass" ++ toString pass ++ "_" ++ toString pairIdx

def tmpName (id pass pairIdx : Nat) : String :=
  unitStem id pass pairIdx ++ transitionMergedSstableExt

def levelFilterName : String := "level.filter"

/-! ## Stems and extensions -/

theorem extension_eq {name : String} (stem ext : List Char) (h : name.toList = stem ++ '.' :: ext)
    (hs : stem ≠ []) (he : ext ≠ []) (hd : '.' ∉ ext) : extension name = some (String.ofList ext) := by
  have hr : name.toList.reverse = ext.reverse ++ '.' :: stem.reverse := by
    rw [h]
    simp
  have hall : ∀ c ∈ ext.reverse, decide (c ≠ '.') = true := by
    intro c hc
    simp only [ne_eq, decide_eq_true_eq]
    rintro rfl
    exact hd (List.mem_reverse.1 hc)
  have ht : name.toList.reverse.takeWhile (· ≠ '.') = ext.reverse := by
    rw [hr, List.takeWhile_append_of_pos hall, List.takeWhile_cons_of_neg (by simp), List.append_nil]
  have hdw : name.toList.reverse.dropWhile (· ≠ '.') = '.' :: stem.reverse := by
    rw [hr, List.dropWhile_append_of_pos hall, List.dropWhile_cons_of_neg (by simp)]
  obtain ⟨c, cs, hc⟩ := List.exists_cons_of_ne_nil (List.reverse_ne_nil_iff.2 hs)
  unfold extension
  dsimp only
  rw [hdw, hc, ht]
  dsimp only
  rw [if_neg fun hn => he (List.reverse_eq_nil_iff.1 hn.2), List.reverse_reverse]

theorem endsWith_iff {name suffix : String} :
    endsWith name suffix = true ↔ ∃ stem, name = stem ++ suffix := by
  unfold endsWith
  rw [List.isSuffixOf_iff_suffix]
  constructor
  · rintro ⟨stem, h⟩
    refine ⟨String.ofList stem, String.toList_inj.1 ?_⟩
    rw [String.toList_append, String.toList_ofList, h]
  · rintro ⟨stem, rfl⟩
    rw [String.toList_append]
    exact List.suffix_append _ _

theorem stripSuffix_eq (stem suffix : String) : stripSuffix (stem ++ suffix) suffix = some stem := by
  unfold stripSuffix
  rw [if_pos (endsWith_iff.2 ⟨stem, rfl⟩), String.toList_append, List.length_append,
    Nat.add_sub_cancel, List.take_left, String.ofList_toList]

theorem stripSuffix_none {name suffix : String} (h : endsWith name suffix = false) :
    stripSuffix name suffix = none := by
  unfold stripSuffix
  rw [if_neg (by rw [h]; decide)]

/-- The pattern at the end of a stem without its first character. -/
theorem replaceList_suffix {p : Char} {ps rep : List Char} :
    ∀ {stem : List Char}, p ∉ stem → replaceList (p :: ps) rep (stem ++ p :: ps) = stem ++ rep
  | [], _ => by
    rw [List.nil_append, replaceList, if_pos (by simp), List.length_cons, Nat.add_sub_cancel,
      List.drop_length, replaceList, List.append_nil, List.nil_append]
  | c :: stem, h => by
    have hc : p ≠ c := fun hc => h (hc ▸ .head _)
    rw [List.cons_append, replaceList, if_neg (by simp [hc]),
      replaceList_suffix fun hm => h (.tail _ hm), List.cons_append]

/-! ## The names of a unit's tables -/

theorem toList_toString (n : Nat) : (toString n).toList = Nat.toDigits 10 n := by
  simp [Nat.repr]

theorem isDigit_of_mem_toString {n : Nat} {c : Char} (h : c ∈ (toString n).toList) :
    c.isDigit = true := by
  rw [toList_toString] at h
  exact Nat.isDigit_of_mem_toDigits (by decide) (by decide) h

theorem toString_inj {m n : Nat} (h : (toString m).toList = (toString n).toList) : m = n := by
  rw [toList_toString, toList_toString] at h
  simpa using congrArg (fun digits => Nat.ofDigitChars 10 digits 0) h

/-- A number in front of a character that is no digit can be read off. -/
theorem digits_append_inj {m n : Nat} {c : Char} (hc : c.isDigit = false) {l l' : List Char}
    (h : (toString m).toList ++ c :: l = (toString n).toList ++ c :: l') : m = n ∧ l = l' := by
  have key : ∀ (k : Nat) (t : List Char),
      ((toString k).toList ++ c :: t).takeWhile Char.isDigit = (toString k).toList := by
    intro k t
    rw [List.takeWhile_append_of_pos fun x hx => isDigit_of_mem_toString hx,
      List.takeWhile_cons_of_neg (by rw [hc]; decide), List.append_nil]
  have hm := key m l
  rw [h, key n l'] at hm
  refine ⟨(toString_inj hm).symm, ?_⟩
  rw [← hm] at h
  exact (List.cons.inj (List.append_cancel_left h)).2

/-- The parts of a unit's name, whatever strings the numbers are. -/
theorem toList_parts (a b c : String) : ("compaction_unit" ++ a ++ "_pass" ++ b ++ "_" ++ c).toList =
    "compaction_unit".toList ++ (a.toList ++ ('_' :: ("pass".toList ++
      (b.toList ++ '_' :: c.toList)))) := by
  have hpass : "_pass".toList = '_' :: "pass".toList := by decide
  have hline : "_".toList = ['_'] := by decide
  simp only [String.toList_append, List.append_assoc]
  rw [hpass, hline]
  simp only [List.cons_append, List.nil_append]

theorem toList_unitStem (id pass pairIdx : Nat) : (unitStem id pass pairIdx).toList =
    "compaction_unit".toList ++ ((toString id).toList ++ ('_' :: ("pass".toList ++
      ((toString pass).toList ++ '_' :: (toString pairIdx).toList)))) :=
  toList_parts (toString id) (toString pass) (toString pairIdx)

theorem dot_notMem_unitStem (id pass pairIdx : Nat) : '.' ∉ (unitStem id pass pairIdx).toList := by
  have hd : ∀ n : Nat, '.' ∉ (toString n).toList := fun n h => by
    have := isDigit_of_mem_toString h
    simp at this
  rw [toList_unitStem]
  simp only [List.mem_append, List.mem_cons, not_or]
  exact ⟨by decide, hd _, by decide, by decide, hd _, by decide, hd _⟩

theorem unitStem_ne_nil (id pass pairIdx : Nat) : (unitStem id pass pairIdx).toList ≠ [] := by
  rw [toList_unitStem]
  exact List.append_ne_nil_of_left_ne_nil (by decide) _

theorem unitStem_inj {id pass i id' pass' i' : Nat}
    (h : unitStem id pass i = unitStem id' pass' i') : id = id' ∧ pass = pass' ∧ i = i' := by
  have h := congrArg String.toList h
  rw [toList_unitStem, toList_unitStem] at h
  obtain ⟨h1, h⟩ := digits_append_inj (by decide) (List.append_cancel_left h)
  -- the pair number ends the stem
  have h := congrArg (· ++ ['_']) (List.append_cancel_left h)
  simp only [List.append_assoc, List.cons_append] at h
  obtain ⟨h2, h⟩ := digits_append_inj (by decide) h
  exact ⟨h1, h2, (digits_append_inj (by decide) h).1⟩

theorem tmpName_inj {id pass i id' pass' i' : Nat} (h : tmpName id pass i = tmpName id' pass' i') :
    id = id' ∧ pass = pass' ∧ i = i' := by
  refine unitStem_inj (String.toList_inj.1 ?_)
  have h := congrArg String.toList h
  rw [tmpName, tmpName, String.toList_append, String.toList_append] at h
  exact List.append_cancel_right h

/-- The name an intermediate table is promoted under. -/
def binName (id pass pairIdx : Nat) : String := unitStem id pass pairIdx ++ ssTableFileExt

theorem replace_tmpName (id pass i : Nat) :
    replace (tmpName id pass i) transitionMergedSstableExt ssTableFileExt = binName id pass i := by
  apply String.toList_inj.1
  rw [replace, String.toList_ofList, tmpName, binName, String.toList_append, String.toList_append]
  exact replaceList_suffix (dot_notMem_unitStem id pass i)

theorem binName_inj {id pass i id' pass' i' : Nat} (h : binName id pass i = binName id' pass' i') :
    id = id' ∧ pass = pass' ∧ i = i' := by
  refine unitStem_inj (String.toList_inj.1 ?_)
  have h := congrArg String.toList h
  rw [binName, binName, String.toList_append, String.toList_append] at h
  exact List.append_cancel_right h

/-! ## Which names are tables -/

theorem isBin_append {stem : String} (h : stem ≠ "") : isBin (stem ++ ssTableFileExt) = true := by
  have hs : stem.toList ≠ [] := fun hn => h (String.toList_inj.1 hn)
  have he : extension (stem ++ ssTableFileExt) = _ :=
    extension_eq stem.toList ['b', 'i', 'n'] (String.toList_append ..) hs (by decide) (by decide)
  rw [isBin, he]
  rfl

/-- A table's name is a stem and the table extension. -/
theorem isBin_iff {name : String} :
    isBin name = true ↔ ∃ stem, stem ≠ "" ∧ name = stem ++ ssTableFileExt := by
  constructor
  · intro h
    have h : extension name = some "bin" := by simpa [isBin] using h
    unfold extension at h
    dsimp only at h
    split at h
    · rename_i p c stem hdw
      split at h
      · cases h
      · have hrev : (name.toList.reverse.takeWhile (· ≠ '.')).reverse = ['b', 'i', 'n'] := by
          have := congrArg String.toList (Option.some.inj h)
          rwa [String.toList_ofList] at this
        have hp : p = '.' := by
          have := List.head?_dropWhile_not (fun c => decide (c ≠ '.')) name.toList.reverse
          rw [hdw] at this
          simpa using this
        refine ⟨String.ofList (c :: stem).reverse, fun he => ?_, String.toList_inj.1 ?_⟩
        · have := congrArg String.toList he
          rw [String.toList_ofList] at this
          simp at this
        · rw [String.toList_append, String.toList_ofList]
          have hsplit := List.takeWhile_append_dropWhile (p := fun c => decide (c ≠ '.'))
            (l := name.toList.reverse)
          have := congrArg List.reverse hsplit
          rw [List.reverse_append, List.reverse_reverse, hrev, hdw, hp] at this
          rw [← this]
          simp [ssTableFileExt]
    · cases h
  · rintro ⟨stem, hs, rfl⟩
    exact isBin_append hs

theorem isBin_binName (id pass i : Nat) : isBin (binName id pass i) = true :=
  isBin_append fun h => unitStem_ne_nil id pass i (by rw [h]; rfl)

theorem isBin_ssTableName (uuid : String) : isBin (ssTableName uuid) = true := by
  refine isBin_append fun h => ?_
  have := congrArg String.toList h
  rw [String.toList_append] at this
  exact List.append_ne_nil_of_left_ne_nil (by decide) _ this

theorem ssTableName_inj {uuid uuid' : String} (h : ssTableName uuid = ssTableName uuid') :
    uuid = uuid' := by
  have h := congrArg String.toList h
  rw [ssTableName, ssTableName, String.toList_append, String.toList_append, String.toList_append,
    String.toList_append] at h
  exact String.toList_inj.1 (List.append_cancel_left (List.append_cancel_right h))

theorem isBin_tmpName (id pass i : Nat) : isBin (tmpName id pass i) = false := by
  have he : extension (tmpName id pass i) = _ :=
    extension_eq (unitStem id pass i).toList ['t', 'm', 'p'] (String.toList_append ..)
      (unitStem_ne_nil id pass i) (by decide) (by decide)
  rw [isBin, he]
  decide

theorem endsWith_tmpName (id pass i : Nat) : endsWith (tmpName id pass i) ssTableFileExt = false := by
  by_contra h
  obtain ⟨stem, hs⟩ := endsWith_iff.1 (Bool.eq_true_of_not_eq_false h)
  have h := congrArg String.toList hs
  rw [tmpName, String.toList_append, String.toList_append] at h
  exact absurd (List.append_inj_right' h (by decide)) (by decide)

theorem isBin_levelFilterName : isBin levelFilterName = false := by
  have he : extension levelFilterName = _ :=
    extension_eq "level".toList "filter".toList (by decide) (by decide) (by decide) (by decide)
  rw [isBin, he]
  decide

theorem tmpName_ne_levelFilterName (id pass i : Nat) : tmpName id pass i ≠ levelFilterName := by
  intro h
  have h := congrArg (fun s => s.toList.getLast?) h
  rw [tmpName, String.toList_append, List.getLast?_append] at h
  exact absurd h (by simp [transitionMergedSstableExt, levelFilterName])

/-- A drained table's name is no intermediate file's. -/
theorem drained_ne_tmpName (stem : String) (id pass i : Nat) :
    stem ++ drainedFileExt ≠ tmpName id pass i := by
  intro h
  have h := congrArg (fun s => s.toList.getLast?) h
  rw [tmpName, String.toList_append, String.toList_append, List.getLast?_append,
    List.getLast?_append] at h
  exact absurd h (by simp [drainedFileExt, transitionMergedSstableExt])

theorem isBin_drained {stem : String} (h : stem ≠ "") : isBin (stem ++ drainedFileExt) = false := by
  have hs : stem.toList ≠ [] := fun hn => h (String.toList_inj.1 hn)
  have he : extension (stem ++ drainedFileExt) = _ := extension_eq stem.toList
    ['d', 'r', 'a', 'i', 'n'] (String.toList_append ..) hs (by decide) (by decide)
  rw [isBin, he]
  decide

end Lsm
