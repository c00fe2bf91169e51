import SwiftMerge.Compaction.Runs
import SwiftMerge.Lib.Alike

/-!
# A disk among others' changes

What a program does with its own files does not depend on what others do to theirs, except for the
instants its files are created at. `Mirrors` relates the disk that it shares to the one that it would
have alone: the same files of `S` with the same bytes, created in the same order, the same names in
the level `n`. Its operations on them (`DiskOp.Own`) get answers that agree and keep the disks
related (`Mirrors.step`), and so does what others do elsewhere (`Mirrors.move`).
-/

namespace Lsm

open Lib

/-- The file, created at another instant. -/
def File.restamp (φ : Nat → Nat) (f : File) : File := ⟨φ f.created, f.bytes⟩

/-- The names of a level. -/
def Files.names (files : Files) (level : Nat) : List String :=
  files.entries.filterMap fun e => if e.1.level = level then some e.1.name else none

theorem Disk.map_dir (d : Disk) (level : Nat) :
    (d.dir level).map Prod.fst = d.files.names level := by
  rw [dir, Files.names, List.map_filterMap]
  congr 1
  funext e
  split <;> rfl

/-- The operation reads and changes files of `S`, or lists the level `n`. -/
def DiskOp.Own (S : Path → Prop) (n : Nat) : {β : Type} → DiskOp β → Prop
  | _, .dirExists _ => True
  | _, .createDir _ => True
  | _, .readDir level => level = n
  | _, .read p => S p
  | _, .create p => S p
  | _, .append p _ => S p
  | _, .sync p => S p
  | _, .truncate p => S p
  | _, .rename src dst => S src ∧ S dst
  | _, .remove p => S p
  | _, .now => False
  | _, .walWrite _ => False
  | _, .walRead => False
  | _, .walClear => False

theorem DiskOp.Own.within {S : Path → Prop} {n : Nat} {β : Type} {o : DiskOp β} (h : o.Own S n) :
    o.Within S := by
  cases o with
  | now | walWrite | walRead | walClear => exact h.elim
  | dirExists | createDir | readDir | read | sync => trivial
  | create | append | truncate | rename | remove => exact h

/-- The answers of an operation agree: bytes and names are equal, instants need not be. -/
def DiskOp.Agree : {β : Type} → DiskOp β → β → β → Prop
  | _, .read _, x, y => Ends (fun f g : File => f.bytes = g.bytes) x y
  | _, .readDir _, x, y =>
    Ends (fun es es' : List (String × File) => es.map Prod.fst = es'.map Prod.fst) x y
  | _, _, x, y => x = y

/-- `t` is `d` as far as the files of `S` and the names of the level `n` go; of the files of `S`, those
created from `start` on were created at other instants, in the same order. -/
structure Mirrors (S : Path → Prop) (n start : Nat) (φ : Nat → Nat) (d t : Disk) : Prop where
  file : ∀ {p}, S p → t.file? p = (d.file? p).map (File.restamp φ)
  names : t.files.names n = d.files.names n
  levels : t.levels = d.levels
  clock : start ≤ d.clock ∧ start ≤ t.clock
  old : ∀ x, x < start → φ x = x
  new : ∀ x, start ≤ x → start ≤ φ x
  order : ∀ {p q f g}, S p → S q → d.file? p = some f → d.file? q = some g →
    f.created < g.created → φ f.created < φ g.created

/-! ## Names -/

section
variable {files : Files} {p : Path} {f : File} {level : Nat}

theorem names_kerase (p : Path) (level : Nat) : ∀ l : List (Sigma fun _ : Path => File),
    (l.kerase p).filterMap (fun e => if e.1.level = level then some e.1.name else none) =
      if p.level = level then
        (l.filterMap fun e => if e.1.level = level then some e.1.name else none).erase p.name
      else l.filterMap fun e => if e.1.level = level then some e.1.name else none
  | [] => by simp
  | ⟨q, g⟩ :: l => by
    by_cases hq : p = q
    · subst hq
      have hk : List.kerase p (⟨p, g⟩ :: l) = l := List.kerase_cons_eq rfl
      rw [hk, List.filterMap_cons]
      by_cases hl : p.level = level
      · simp [hl]
      · simp [hl]
    · have ih := names_kerase p level l
      have hk : List.kerase p (⟨q, g⟩ :: l) = ⟨q, g⟩ :: l.kerase p := List.kerase_cons_ne hq
      rw [hk, List.filterMap_cons, List.filterMap_cons, ih]
      by_cases hl : p.level = level
      · by_cases hql : q.level = level
        · -- in one level, another path has another name
          have hname : q.name ≠ p.name := by
            intro hname
            apply hq
            obtain ⟨pl, pn⟩ := p
            obtain ⟨ql, qn⟩ := q
            simp_all
          simp [hl, hql, hname]
        · simp [hl, hql]
      · simp [hl]

theorem names_erase : Files.names (files.erase p) level =
    if p.level = level then (files.names level).erase p.name else files.names level :=
  names_kerase p level files.entries

theorem names_insert : Files.names (files.insert p f) level =
    if p.level = level then p.name :: (files.names level).erase p.name else files.names level := by
  rw [Files.names, AList.entries_insert, List.filterMap_cons, names_kerase]
  by_cases hl : p.level = level
  · simp [hl, Files.names]
  · simp [hl, Files.names]

theorem names_setBytes {d : Disk} (hf : d.file? p = some f) (bs : Bytes) (level : Nat) :
    (d.setBytes p bs).files.names level =
      if p.level = level then p.name :: (d.files.names level).erase p.name
      else d.files.names level := by
  rw [Disk.setBytes_eq hf, names_insert]

theorem names_create {P : Platform} {d : Disk} (level : Nat) :
    (d.create P p).files.names level =
      if p.level = level then p.name :: (d.files.names level).erase p.name
      else d.files.names level := by
  unfold Disk.create
  split
  · rename_i f hf
    exact names_setBytes hf [] level
  · exact names_insert

theorem names_write {P : Platform} {d : Disk} (hl : p.level ≠ level) (bs : Bytes) :
    (d.write P p bs).files.names level = d.files.names level := by
  have hfile : (d.create P p).file? p = _ := Disk.file?_create_self
  rw [Disk.write, Disk.append, hfile, names_setBytes hfile, if_neg hl, names_create, if_neg hl]

end

/-! ## What keeps disks related -/

namespace Mirrors

variable {P : Platform} {S : Path → Prop} {n start : Nat} {φ : Nat → Nat} {d d' t t' : Disk}
  {p src dst : Path}

theorem refl (S : Path → Prop) (n : Nat) (d : Disk) : Mirrors S n d.clock id d d where
  file _ := Option.map_id'.symm
  names := rfl
  levels := rfl
  clock := ⟨Nat.le_refl _, Nat.le_refl _⟩
  old _ _ := rfl
  new _ h := h
  order _ _ _ _ h := h

/-- Files that were created when files of `S` were keep their order. -/
theorem change (h : Mirrors S n start φ d t)
    (hfile : ∀ {p}, S p → t'.file? p = (d'.file? p).map (File.restamp φ))
    (hnames : t'.files.names n = d'.files.names n) (hlevels : t'.levels = d'.levels)
    (hclock : d.clock ≤ d'.clock ∧ t.clock ≤ t'.clock)
    (hcreated : ∀ {p f}, S p → d'.file? p = some f →
      ∃ q g, S q ∧ d.file? q = some g ∧ g.created = f.created) : Mirrors S n start φ d' t' where
  file := hfile
  names := hnames
  levels := hlevels
  clock := ⟨h.clock.1.trans hclock.1, h.clock.2.trans hclock.2⟩
  old := h.old
  new := h.new
  order hp hq hf hg hlt := by
    obtain ⟨p', f', hp', hf', hcf⟩ := hcreated hp hf
    obtain ⟨q', g', hq', hg', hcg⟩ := hcreated hq hg
    rw [← hcf, ← hcg] at hlt ⊢
    exact h.order hp' hq' hf' hg' hlt

/-- **Others change other files.** -/
theorem move (h : Mirrors S n start φ d t) (hfile : ∀ {p}, S p → d'.file? p = d.file? p)
    (hnames : d'.files.names n = d.files.names n) (hlevels : d'.levels = d.levels)
    (hclock : d.clock ≤ d'.clock) : Mirrors S n start φ d' t :=
  h.change (fun hp => by rw [h.file hp, hfile hp]) (h.names.trans hnames.symm)
    (h.levels.trans hlevels.symm) ⟨hclock, Nat.le_refl _⟩
    fun hp hf => ⟨_, _, hp, (hfile hp).symm.trans hf, rfl⟩

theorem exists_iff (h : Mirrors S n start φ d t) (hp : S p) :
    t.file? p = none ↔ d.file? p = none := by
  rw [h.file hp, Option.map_eq_none_iff]

theorem file_some (h : Mirrors S n start φ d t) (hp : S p) {f : File} (hf : d.file? p = some f) :
    t.file? p = some (f.restamp φ) := by
  rw [h.file hp, hf]
  rfl

theorem setBytes (h : Mirrors S n start φ d t) (hp : S p) {f : File} (hf : d.file? p = some f)
    (bs : Bytes) : Mirrors S n start φ (d.setBytes p bs) (t.setBytes p bs) := by
  have hft := h.file_some hp hf
  refine h.change (fun {q} hq => ?_) ?_ (by simp [h.levels]) (by simp) fun {q g} hq hg => ?_
  · by_cases he : q = p
    · rw [he, Disk.file?_setBytes_self hf, Disk.file?_setBytes_self hft]
      rfl
    · rw [Disk.file?_setBytes he, Disk.file?_setBytes he, h.file hq]
  · rw [names_setBytes hf, names_setBytes hft, h.names]
  · by_cases he : q = p
    · rw [he, Disk.file?_setBytes_self hf, Option.some.injEq] at hg
      exact ⟨p, f, hp, hf, hg ▸ rfl⟩
    · exact ⟨q, g, hq, (Disk.file?_setBytes he).symm.trans hg, rfl⟩

theorem append (h : Mirrors S n start φ d t) (hp : S p) {f : File} (hf : d.file? p = some f)
    (bs : Bytes) : Mirrors S n start φ (d.append p bs) (t.append p bs) := by
  have hft := h.file_some hp hf
  rw [Disk.append, Disk.append, hf, hft]
  exact h.setBytes hp hf _

theorem remove (h : Mirrors S n start φ d t) :
    Mirrors S n start φ (d.remove p) (t.remove p) := by
  refine h.change (fun {q} hq => ?_) ?_ h.levels ⟨Nat.le_refl _, Nat.le_refl _⟩
    fun {q g} hq hg => ?_
  · by_cases he : q = p
    · rw [he, Disk.file?_remove_self, Disk.file?_remove_self]
      rfl
    · rw [Disk.file?_remove he, Disk.file?_remove he, h.file hq]
  · rw [Disk.remove, Disk.remove, names_erase, names_erase, h.names]
  · by_cases he : q = p
    · rw [he, Disk.file?_remove_self] at hg
      cases hg
    · exact ⟨q, g, hq, (Disk.file?_remove he).symm.trans hg, rfl⟩

theorem rename (h : Mirrors S n start φ d t) (hs : S src) {f : File} (hf : d.file? src = some f) :
    Mirrors S n start φ (d.rename src dst) (t.rename src dst) := by
  have hft := h.file_some hs hf
  refine h.change (fun {q} hq => ?_) ?_ (by simp [h.levels]) (by simp) fun {q g} hq hg => ?_
  · by_cases hqd : q = dst
    · rw [hqd, Disk.file?_rename_dst hf, Disk.file?_rename_dst hft]
      rfl
    · by_cases hqs : q = src
      · subst hqs
        rw [Disk.file?_rename_src hf hqd, Disk.file?_rename_src hft hqd]
        rfl
      · rw [Disk.file?_rename hqs hqd, Disk.file?_rename hqs hqd, h.file hq]
  · rw [Disk.rename_eq hf, Disk.rename_eq hft, names_insert, names_insert, names_erase, names_erase,
      h.names]
  · by_cases hqd : q = dst
    · rw [hqd, Disk.file?_rename_dst hf] at hg
      exact ⟨src, g, hs, hf.trans hg, rfl⟩
    · by_cases hqs : q = src
      · subst hqs
        rw [Disk.file?_rename_src hf hqd] at hg
        cases hg
      · exact ⟨q, g, hq, (Disk.file?_rename hqs hqd).symm.trans hg, rfl⟩

/-- A file of the disk after a new one: that one, or one from before. -/
theorem file_create (hf : d.file? p = none) {q : Path} {g : File}
    (hg : (d.create P p).file? q = some g) :
    q = p ∧ g = ⟨d.clock, []⟩ ∨ q ≠ p ∧ d.file? q = some g := by
  by_cases he : q = p
  · subst he
    rw [Disk.file?_create_self, Disk.createdAt, hf, Option.some.injEq] at hg
    exact .inl ⟨rfl, hg.symm⟩
  · exact .inr ⟨he, (Disk.file?_create he).symm.trans hg⟩

theorem create_new (h : Mirrors S n start φ d t) (hp : S p) (hf : d.file? p = none) :
    Mirrors S n start (Function.update φ d.clock t.clock) (d.create P p) (t.create P p) := by
  have hft : t.file? p = none := (h.exists_iff hp).2 hf
  have hself : Function.update φ d.clock t.clock d.clock = t.clock := Function.update_self ..
  have hother : ∀ {x}, x ≠ d.clock → Function.update φ d.clock t.clock x = φ x := fun hx =>
    Function.update_of_ne hx _ _
  have hold : ∀ {q g}, d.file? q = some g →
      Function.update φ d.clock t.clock g.created = φ g.created := fun hg =>
    hother (d.stamped.created_lt hg).ne
  refine ⟨fun {q} hq => ?_, ?_, by simp [h.levels], ⟨?_, ?_⟩, fun x hx => ?_, fun x hx => ?_,
    fun {q r f g} hq hr hqf hrg hlt => ?_⟩
  · by_cases he : q = p
    · subst he
      rw [Disk.file?_create_self, Disk.file?_create_self, Disk.createdAt, Disk.createdAt, hf, hft,
        Option.map_some, File.restamp, hself]
    · rw [Disk.file?_create he, Disk.file?_create he, h.file hq]
      refine Option.map_congr fun g hg => ?_
      rw [File.restamp, File.restamp, hold hg]
  · rw [names_create, names_create, h.names]
  · rw [Disk.clock_create hf]
    exact h.clock.1.trans (P.lt_later _).le
  · rw [Disk.clock_create hft]
    exact h.clock.2.trans (P.lt_later _).le
  · rw [hother (hx.trans_le h.clock.1).ne]
    exact h.old x hx
  · by_cases hxc : x = d.clock
    · rw [hxc, hself]
      exact h.clock.2
    · rw [hother hxc]
      exact h.new x hx
  · rcases file_create hf hqf with ⟨rfl, rfl⟩ | ⟨-, hqf⟩
    · -- nothing is created after the new file
      rcases file_create hf hrg with ⟨-, rfl⟩ | ⟨-, hrg⟩
      · exact absurd hlt (Nat.lt_irrefl _)
      · exact absurd hlt (Nat.not_lt.2 (d.stamped.created_lt hrg).le)
    · rcases file_create hf hrg with ⟨-, rfl⟩ | ⟨-, hrg⟩
      · have hqt := h.file hq
        rw [hqf] at hqt
        rw [hold hqf, hself]
        exact t.stamped.created_lt hqt
      · rw [hold hqf, hold hrg]
        exact h.order hq hr hqf hrg hlt

theorem create (h : Mirrors S n start φ d t) (hp : S p) :
    ∃ φ', Mirrors S n start φ' (d.create P p) (t.create P p) := by
  cases hf : d.file? p with
  | none => exact ⟨_, h.create_new hp hf⟩
  | some f =>
    have hft := h.file_some hp hf
    refine ⟨φ, ?_⟩
    rw [Disk.create, Disk.create]
    rw [Disk.file?] at hf hft
    rw [hf, hft]
    exact h.setBytes hp hf []

/-- **Its own operations get answers that agree**, and keep the disks related. -/
theorem step (h : Mirrors S n start φ d t) {β : Type} {o : DiskOp β} (ho : o.Own S n) :
    o.Agree (Disk.step P o d).1 (Disk.step P o t).1 ∧
      ∃ φ', Mirrors S n start φ' (Disk.step P o d).2 (Disk.step P o t).2 := by
  cases o with
  | now | walWrite | walRead | walClear => exact ho.elim
  | dirExists level =>
    rw [Disk.step, Disk.step, h.levels]
    exact ⟨rfl, φ, h⟩
  | createDir level =>
    rw [Disk.step, Disk.step, h.levels]
    by_cases hl : level ≤ d.levels + 1
    · rw [if_pos hl, if_pos hl]
      exact ⟨rfl, φ, h.change h.file h.names rfl ⟨Nat.le_refl _, Nat.le_refl _⟩
        fun hp hf => ⟨_, _, hp, hf, rfl⟩⟩
    · rw [if_neg hl, if_neg hl]
      exact ⟨rfl, φ, h⟩
  | readDir level =>
    obtain rfl : level = n := ho
    rw [Disk.step, Disk.step, h.levels]
    by_cases hl : 1 ≤ level ∧ level ≤ d.levels
    · rw [if_pos hl, if_pos hl]
      refine ⟨.ok ?_, φ, h⟩
      rw [Disk.map_dir, Disk.map_dir, h.names]
    · rw [if_neg hl, if_neg hl]
      exact ⟨.error _, φ, h⟩
  | create p =>
    rw [Disk.step, Disk.step, h.levels]
    by_cases hl : 1 ≤ p.level ∧ p.level ≤ d.levels
    · rw [if_pos hl, if_pos hl]
      exact ⟨rfl, h.create ho⟩
    · rw [if_neg hl, if_neg hl]
      exact ⟨rfl, φ, h⟩
  | read p =>
    have hp : S p := ho
    rw [Disk.step, Disk.step, h.file hp]
    cases hf : d.file? p with
    | some f => exact ⟨.ok rfl, φ, h⟩
    | none => exact ⟨.error _, φ, h⟩
  | append p bs =>
    have hp : S p := ho
    rw [Disk.step, Disk.step, h.file hp]
    cases hf : d.file? p with
    | some f => exact ⟨rfl, φ, h.append hp hf bs⟩
    | none => exact ⟨rfl, φ, h⟩
  | sync p =>
    have hp : S p := ho
    rw [Disk.step, Disk.step, h.file hp]
    cases hf : d.file? p with
    | some f => exact ⟨rfl, φ, h⟩
    | none => exact ⟨rfl, φ, h⟩
  | truncate p =>
    have hp : S p := ho
    rw [Disk.step, Disk.step, h.file hp]
    cases hf : d.file? p with
    | some f => exact ⟨rfl, φ, h.setBytes hp hf []⟩
    | none => exact ⟨rfl, φ, h⟩
  | remove p =>
    have hp : S p := ho
    rw [Disk.step, Disk.step, h.file hp]
    cases hf : d.file? p with
    | some f => exact ⟨rfl, φ, h.remove⟩
    | none => exact ⟨rfl, φ, h⟩
  | rename src dst =>
    have hp : S src := ho.1
    rw [Disk.step, Disk.step, h.file hp, h.levels]
    cases hf : d.file? src with
    | some f =>
      by_cases hl : 1 ≤ dst.level ∧ dst.level ≤ d.levels
      · simp only [Option.map_some, if_pos hl]
        exact ⟨rfl, φ, h.rename hp hf⟩
      · simp only [Option.map_some, if_neg hl]
        exact ⟨rfl, φ, h⟩
    | none => exact ⟨rfl, φ, h⟩

end Mirrors

end Lsm
