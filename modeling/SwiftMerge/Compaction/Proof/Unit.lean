import SwiftMerge.Compaction.Proof.Frame
import SwiftMerge.Compaction.Proof.Join

/-!
# A unit of well-formed tables

On tables that hold key-sorted records a unit's rounds succeed and leave one intermediate file with
the merge of them all (`exec_joinRounds`); when the index of the merge fits, the unit returns a
table that holds it (`exec_compact`). The tables it has merged are gone by then, and so is every
file it made on the way.
-/

namespace Compaction

open Lib Lsm

variable {P : Platform} {dir id pass : Nat} {d : Disk}

/-! ## Names -/

/-- A file of a round: a table, or an intermediate file of an earlier pass. -/
def RoundFile (id pass : Nat) (name : String) : Prop :=
  isBin name = true ∨ ∃ p i, p < pass ∧ name = tmpName id p i

theorem RoundFile.ne_tmpName {name : String} (h : RoundFile id pass name) {p : Nat} (hp : pass ≤ p)
    (i : Nat) : name ≠ tmpName id p i := by
  intro he
  rcases h with h | ⟨p', i', hp', rfl⟩
  · rw [he, isBin_tmpName] at h
    cases h
  · have := (tmpName_inj he).2.1
    omega

theorem drainedName_bin {name : String} (h : isBin name = true) :
    ∃ stem, stem ≠ "" ∧ name = stem ++ ssTableFileExt ∧ drainedName name = stem ++ drainedFileExt := by
  obtain ⟨stem, hs, rfl⟩ := isBin_iff.1 h
  exact ⟨stem, hs, rfl, by rw [drainedName, stripSuffix_eq]⟩

theorem RoundFile.isBin_drainedName {name : String} (h : RoundFile id pass name) :
    isBin (drainedName name) = false := by
  rcases h with h | ⟨p, i, -, rfl⟩
  · obtain ⟨stem, hs, -, hd⟩ := drainedName_bin h
    rw [hd, isBin_drained hs]
  · rw [drainedName_tmpName, isBin_tmpName]

theorem RoundFile.drainedName_ne_tmpName {name : String} (h : RoundFile id pass name) {p : Nat}
    (hp : pass ≤ p) (i : Nat) : drainedName name ≠ tmpName id p i := by
  rcases h with h | ⟨p', i', hp', rfl⟩
  · obtain ⟨stem, -, -, hd⟩ := drainedName_bin h
    rw [hd]
    exact drained_ne_tmpName stem id p i
  · rw [drainedName_tmpName]
    intro he
    have := (tmpName_inj he).2.1
    omega

/-- Draining a file does not touch another file of the round. -/
theorem RoundFile.drainedName_ne {a b : String} (ha : RoundFile id pass a) (hb : RoundFile id pass b)
    (hne : a ≠ b) : drainedName a ≠ b := by
  rcases ha with ha | ⟨p, i, -, rfl⟩
  · obtain ⟨stem, hs, -, hd⟩ := drainedName_bin ha
    rw [hd]
    rcases hb with hb | ⟨p, i, -, rfl⟩
    · intro he
      rw [← he, isBin_drained hs] at hb
      cases hb
    · exact drained_ne_tmpName stem id p i
  · rwa [drainedName_tmpName]

theorem drainedName_inj {a b : String} (ha : isBin a = true) (hb : isBin b = true)
    (h : drainedName a = drainedName b) : a = b := by
  obtain ⟨stem, -, rfl, hd⟩ := drainedName_bin ha
  obtain ⟨stem', -, rfl, hd'⟩ := drainedName_bin hb
  rw [hd, hd'] at h
  have h := congrArg String.toList h
  rw [String.toList_append, String.toList_append] at h
  rw [String.toList_inj.1 (List.append_cancel_right h)]

theorem nextRound_roundFile {pairIdx : Nat} {files : List String}
    (h : ∀ f ∈ files, RoundFile id pass f) :
    ∀ f ∈ nextRound id pass pairIdx files, RoundFile id (pass + 1) f := by
  intro f hf
  rcases nextRound_mem hf with hf | ⟨i, -, rfl⟩
  · rcases h f hf with hb | ⟨p, i, hp, rfl⟩
    · exact .inl hb
    · exact .inr ⟨p, i, by omega, rfl⟩
  · exact .inr ⟨pass, i, by omega, rfl⟩

theorem nextRound_nodup : ∀ {pairIdx : Nat} {files : List String},
    (∀ f ∈ files, RoundFile id pass f) → files.Nodup → (nextRound id pass pairIdx files).Nodup
  | _, [], _, _ => List.nodup_nil
  | _, [_], _, h => h
  | pairIdx, _ :: _ :: rest, hf, h => by
    have hf' : ∀ f ∈ rest, RoundFile id pass f := fun f hm => hf f (.tail _ (.tail _ hm))
    refine List.nodup_cons.2 ⟨fun hm => ?_, nextRound_nodup hf' h.of_cons.of_cons⟩
    rcases nextRound_mem hm with hm | ⟨i, hi, he⟩
    · exact (hf' _ hm).ne_tmpName (Nat.le_refl _) pairIdx rfl
    · have := (tmpName_inj he).2.2
      omega

/-! ## Calls that succeed -/

theorem exec_io {α : Type} {o : DiskOp (Except IoError α)} {d' : Disk} {a : α}
    (h : Disk.step P o d = (.ok a, d')) :
    Prog.exec (Disk.handler P) (CompactionProg.io o) d = (.ok a, d') := by
  rw [CompactionProg.io, Prog.exec_bind_ok (Prog.exec_perform _ o d), Prog.exec_ofExcept]
  show ((Disk.step P o d).1.mapError _, (Disk.step P o d).2) = _
  rw [h]
  rfl

/-- What a program that touches `S` only leaves of the rest. -/
theorem keeps_of_exec {S : Path → Prop} {ε α : Type} {p : Prog DiskOp ε α} {r : Except ε α}
    {d' : Disk} (hp : Prog.All (DiskOp.Within S) p) (h : Prog.exec (Disk.handler P) p d = (r, d')) :
    Disk.Keeps S d d' := by
  have hk := (Disk.exec_keeps (P := P) (d := d) hp).1
  rwa [h] at hk

theorem exec_markDrainedFile {name : String} {f : File} (hdir : 1 ≤ dir ∧ dir ≤ d.levels)
    (hf : d.file? ⟨dir, name⟩ = some f) :
    ∃ d', Prog.exec (Disk.handler P) (markDrainedFile dir name) d = (.ok (drainedName name), d') ∧
      Disk.Keeps (fun p => p = ⟨dir, name⟩ ∨ p = ⟨dir, drainedName name⟩) d d' ∧
      (isBin name = true → d'.file? ⟨dir, name⟩ = none) := by
  have hwithin := markDrainedFile_within
    (S := fun p => p = ⟨dir, name⟩ ∨ p = ⟨dir, drainedName name⟩) (.inl rfl) (.inr rfl)
  cases hs : stripSuffix name ssTableFileExt with
  | none =>
    have hx : Prog.exec (Disk.handler P) (markDrainedFile dir name) d =
        (.ok (drainedName name), d) := by
      rw [markDrainedFile, drainedName, hs]
      rfl
    refine ⟨d, hx, keeps_of_exec hwithin hx, fun hb => ?_⟩
    obtain ⟨stem, -, rfl⟩ := isBin_iff.1 hb
    rw [stripSuffix_eq] at hs
    cases hs
  | some stem =>
    have hx : Prog.exec (Disk.handler P) (markDrainedFile dir name) d =
        (.ok (drainedName name), d.rename ⟨dir, name⟩ ⟨dir, drainedName name⟩) := by
      rw [markDrainedFile, hs]
      exact Prog.exec_bind_ok (exec_io (Disk.step_rename hf hdir))
    refine ⟨_, hx, keeps_of_exec hwithin hx, fun hb => Disk.file?_rename_src hf fun he => ?_⟩
    have he : name = drainedName name := congrArg Path.name he
    obtain ⟨stem', hs', -, hd⟩ := drainedName_bin hb
    rw [he, hd, isBin_drained hs'] at hb
    cases hb

/-! ## A pair -/

/-- The file of `data/l{dir}` holds a key-sorted run, as the merge reads it by its name. -/
structure FileHolds (d : Disk) (dir : Nat) (name : String) (run : List Record) : Prop where
  sorted : KeySorted run
  file : ∃ f, d.file? ⟨dir, name⟩ = some f ∧ Holds ⟨tableTypeFromName name, f.bytes⟩ run

theorem FileHolds.congr {d' : Disk} {name : String} {run : List Record}
    (h : FileHolds d dir name run) (he : d'.file? ⟨dir, name⟩ = d.file? ⟨dir, name⟩) :
    FileHolds d' dir name run := ⟨h.sorted, he ▸ h.file⟩

theorem tableTypeFromName_tmpName (id pass i : Nat) :
    tableTypeFromName (tmpName id pass i) = .rawDataSection := by
  rw [tableTypeFromName, endsWith_tmpName]
  rfl

theorem tableTypeFromName_bin {name : String} (h : isBin name = true) :
    tableTypeFromName name = .ssTable := by
  obtain ⟨stem, -, rfl⟩ := isBin_iff.1 h
  rw [tableTypeFromName, endsWith_iff.2 ⟨stem, rfl⟩]
  rfl

/-- The paths that a pair touches. -/
def PairPath (dir : Nat) (left right out : String) (p : Path) : Prop :=
  p.level = dir ∧ (p.name = left ∨ p.name = drainedName left ∨ p.name = right ∨
    p.name = drainedName right ∨ p.name = out)

theorem joinPair_pairPath (left right out : String) :
    Prog.All (DiskOp.Within (PairPath dir left right out)) (joinPair dir left right out) :=
  joinPair_within ⟨rfl, .inl rfl⟩ ⟨rfl, .inr (.inl rfl)⟩ ⟨rfl, .inr (.inr (.inl rfl))⟩
    ⟨rfl, .inr (.inr (.inr (.inl rfl)))⟩ ⟨rfl, .inr (.inr (.inr (.inr rfl)))⟩

/-- A pair leaves the other files of the earlier passes alone, and the other outputs of its own. -/
theorem RoundFile.not_pairPath {left right name : String} (hl : RoundFile id pass left)
    (hr : RoundFile id pass right) (hn : RoundFile id pass name) (hnl : left ≠ name)
    (hnr : right ≠ name) (i : Nat) : ¬PairPath dir left right (tmpName id pass i) ⟨dir, name⟩ := by
  rintro ⟨-, he | he | he | he | he⟩
  · exact hnl he.symm
  · exact hl.drainedName_ne hn hnl he.symm
  · exact hnr he.symm
  · exact hr.drainedName_ne hn hnr he.symm
  · exact hn.ne_tmpName (Nat.le_refl _) i he

theorem tmpName_not_pairPath {left right : String} (hl : RoundFile id pass left)
    (hr : RoundFile id pass right) {i j : Nat} (hij : i ≠ j) :
    ¬PairPath dir left right (tmpName id pass i) ⟨dir, tmpName id pass j⟩ := by
  rintro ⟨-, he | he | he | he | he⟩
  · exact hl.ne_tmpName (Nat.le_refl _) j he.symm
  · exact hl.drainedName_ne_tmpName (Nat.le_refl _) j he.symm
  · exact hr.ne_tmpName (Nat.le_refl _) j he.symm
  · exact hr.drainedName_ne_tmpName (Nat.le_refl _) j he.symm
  · exact hij (tmpName_inj he).2.2.symm

theorem pair_rest {left right : String} {rest : List String} {i : Nat} {d' : Disk}
    (hk : Disk.Keeps (PairPath dir left right (tmpName id pass i)) d d')
    (hnd : (left :: right :: rest).Nodup)
    (hrf : ∀ f ∈ left :: right :: rest, RoundFile id pass f) :
    ∀ f ∈ rest, d'.file? ⟨dir, f⟩ = d.file? ⟨dir, f⟩ := by
  intro f hf
  obtain ⟨hlnd, hnd'⟩ := List.nodup_cons.1 hnd
  obtain ⟨hrnd, -⟩ := List.nodup_cons.1 hnd'
  have hfl : left ≠ f := fun he => hlnd (he ▸ .tail _ hf)
  have hfr : right ≠ f := fun he => hrnd (he ▸ hf)
  exact hk.file ((hrf left (.head _)).not_pairPath (hrf right (.tail _ (.head _)))
    (hrf f (.tail _ (.tail _ hf))) hfl hfr i)

/-- What a pair does with its two tables: it writes what their join has given, and drains them unless
the join has failed. -/
theorem exec_joinPair_joined {left right out : String} {fl fr : File} {bytes : Bytes}
    {res : Except CompactionError Unit} (hdir : 1 ≤ dir ∧ dir ≤ d.levels)
    (hfl : d.file? ⟨dir, left⟩ = some fl) (hfr : d.file? ⟨dir, right⟩ = some fr)
    (hjoin : joinTables ⟨tableTypeFromName left, fl.bytes⟩ left
      ⟨tableTypeFromName right, fr.bytes⟩ right = (bytes, res)) :
    Prog.exec (Disk.handler P) (joinPair dir left right out) d = Prog.exec (Disk.handler P) (do
      Prog.ofExcept res
      let consumedLeft ← markDrainedFile dir left
      let consumedRight ← markDrainedFile dir right
      pure [consumedLeft, consumedRight]) ((d.create P ⟨dir, out⟩).append ⟨dir, out⟩ bytes) := by
  have hcreate := Disk.file?_create_self (P := P) (d := d) (p := ⟨dir, out⟩)
  rw [joinPair, Prog.exec_bind_ok (exec_io (Disk.step_read hfl)),
    Prog.exec_bind_ok (exec_io (Disk.step_read hfr)),
    Prog.exec_bind_ok (exec_io (Disk.step_create hdir))]
  dsimp only
  rw [hjoin, Prog.exec_bind_ok (exec_io (Disk.step_append hcreate _))]

theorem exec_joinPair {left right : String} {L R : List Record} (i : Nat)
    (hdir : 1 ≤ dir ∧ dir ≤ d.levels) (hl : FileHolds d dir left L) (hr : FileHolds d dir right R)
    (hln : RoundFile id pass left) (hrn : RoundFile id pass right) (hne : left ≠ right) :
    ∃ d', Prog.exec (Disk.handler P) (joinPair dir left right (tmpName id pass i)) d =
        (.ok [drainedName left, drainedName right], d') ∧
      d'.file? ⟨dir, tmpName id pass i⟩ = some ⟨d.createdAt ⟨dir, tmpName id pass i⟩,
        encodeSection (mergeLeft (live L) (live R))⟩ ∧
      (isBin left = true → d'.file? ⟨dir, left⟩ = none) ∧
      (isBin right = true → d'.file? ⟨dir, right⟩ = none) := by
  obtain ⟨hL, fl, hfl, hlHolds⟩ := hl
  obtain ⟨hR, fr, hfr, hrHolds⟩ := hr
  have hjoin := joinTables_eq hlHolds hrHolds left right
  have path_ne : ∀ {a b : String}, a ≠ b → (⟨dir, a⟩ : Path) ≠ ⟨dir, b⟩ :=
    fun h he => h (congrArg Path.name he)
  have hlo := path_ne (hln.ne_tmpName (Nat.le_refl _) i)
  have hro := path_ne (hrn.ne_tmpName (Nat.le_refl _) i)
  -- the output is created and written
  have hcreate := Disk.file?_create_self (P := P) (d := d) (p := ⟨dir, tmpName id pass i⟩)
  let d2 := (d.create P ⟨dir, tmpName id pass i⟩).append ⟨dir, tmpName id pass i⟩
    (encodeSection (mergeLeft (live L) (live R)))
  have hout : d2.file? ⟨dir, tmpName id pass i⟩ = some ⟨d.createdAt ⟨dir, tmpName id pass i⟩,
      encodeSection (mergeLeft (live L) (live R))⟩ := Disk.file?_append_self hcreate
  have hfl2 : d2.file? ⟨dir, left⟩ = some fl := by
    rw [Disk.file?_append hlo, Disk.file?_create hlo, hfl]
  have hfr2 : d2.file? ⟨dir, right⟩ = some fr := by
    rw [Disk.file?_append hro, Disk.file?_create hro, hfr]
  have hdir2 : 1 ≤ dir ∧ dir ≤ d2.levels := by
    simp only [d2, Disk.levels_append, Disk.levels_create]
    exact hdir
  -- the sources are drained
  obtain ⟨d3, hx3, hk3, hgone3⟩ := exec_markDrainedFile (P := P) hdir2 hfl2
  have hfr3 : d3.file? ⟨dir, right⟩ = some fr := by
    rw [hk3.file, hfr2]
    rintro (he | he)
    · exact path_ne hne.symm he
    · exact path_ne (hln.drainedName_ne hrn hne).symm he
  obtain ⟨d4, hx4, hk4, hgone4⟩ := exec_markDrainedFile (P := P)
    ⟨hdir2.1, hdir2.2.trans hk3.levels⟩ hfr3
  refine ⟨d4, ?_, ?_, fun hb => ?_, hgone4⟩
  · rw [exec_joinPair_joined hdir hfl hfr hjoin, Prog.exec_bind_ok (Prog.exec_ofExcept _ _ _),
      Prog.exec_bind_ok hx3, Prog.exec_bind_ok hx4]
    rfl
  · rw [hk4.file, hk3.file, hout]
    · rintro (he | he)
      · exact hlo he.symm
      · exact path_ne (hln.drainedName_ne_tmpName (Nat.le_refl _) i) he.symm
    · rintro (he | he)
      · exact hro he.symm
      · exact path_ne (hrn.drainedName_ne_tmpName (Nat.le_refl _) i) he.symm
  · rw [hk4.file, hgone3 hb]
    rintro (he | he)
    · exact path_ne hne he
    · exact path_ne (hrn.drainedName_ne hln hne.symm) he.symm

/-- The output of a pair holds the merge of its two runs. -/
theorem FileHolds.joined {d' : Disk} {left right : String} {L R : List Record} {created i : Nat}
    (hl : FileHolds d dir left L) (hr : FileHolds d dir right R)
    (hout : d'.file? ⟨dir, tmpName id pass i⟩ =
      some ⟨created, encodeSection (mergeLeft (live L) (live R))⟩) :
    FileHolds d' dir (tmpName id pass i) (mergeLeft (live L) (live R)) := by
  refine ⟨keySorted_mergeLeft (keySorted_live hl.sorted) (keySorted_live hr.sorted), _, hout, ?_⟩
  obtain ⟨_, _, _, hlHolds⟩ := hl
  obtain ⟨_, _, _, hrHolds⟩ := hr
  rw [tableTypeFromName_tmpName]
  exact holds_raw (mergeLeft_live_fits hlHolds.fits hrHolds.fits)

/-! ## A round -/

/-- What a round over well-formed files leaves, from `d` to `d'`. -/
structure RoundDone (dir id pass pairIdx : Nat) (files : List String) (runs : List (List Record))
    (d d' : Disk) : Prop where
  runs : List.Forall₂ (FileHolds d' dir) (nextRound id pass pairIdx files) (nextRuns runs)
  gone : ∀ f ∈ files, isBin f = true → f ∈ nextRound id pass pairIdx files ∨
    d'.file? ⟨dir, f⟩ = none
  created : ∀ i, tmpName id pass i ∈ nextRound id pass pairIdx files →
    d.file? ⟨dir, tmpName id pass i⟩ = none →
    ∃ f, d'.file? ⟨dir, tmpName id pass i⟩ = some f ∧ d.clock ≤ f.created

/-- The paths that a round touches. -/
def RoundPath (dir id pass pairIdx : Nat) (files : List String) (p : Path) : Prop :=
  p.level = dir ∧ (p.name ∈ files ∨ p.name ∈ drainedNames files ∨
    ∃ i, pairIdx ≤ i ∧ p.name = tmpName id pass i)

theorem joinRound_roundPath (pairIdx : Nat) (files : List String) :
    Prog.All (DiskOp.Within (RoundPath dir id pass pairIdx files))
      (joinRound dir id pass pairIdx files) :=
  joinRound_within pass pairIdx files (fun _ hf => ⟨rfl, .inl hf⟩)
    (fun _ hc => ⟨rfl, .inr (.inl hc)⟩) fun _ ho => by
      rcases nextRound_mem ho with ho | ho
      · exact ⟨rfl, .inl ho⟩
      · exact ⟨rfl, .inr (.inr ho)⟩

/-- A round leaves the other files of the earlier passes alone, and the earlier outputs of its
own. -/
theorem RoundFile.not_roundPath {pairIdx : Nat} {files : List String} {name : String}
    (hn : RoundFile id pass name) (hf : ∀ f ∈ files, RoundFile id pass f) (h : name ∉ files) :
    ¬RoundPath dir id pass pairIdx files ⟨dir, name⟩ := by
  rintro ⟨-, hm | hm | ⟨i, -, he⟩⟩
  · exact h hm
  · obtain ⟨f, hfm, he⟩ := drainedNames_mem hm
    exact (hf f hfm).drainedName_ne hn (fun hfn => h (hfn ▸ hfm)) he.symm
  · exact hn.ne_tmpName (Nat.le_refl _) i he

theorem tmpName_not_roundPath {pairIdx p i : Nat} {files : List String} (hp : pass ≤ p)
    (hi : p = pass → i < pairIdx) (hf : ∀ f ∈ files, RoundFile id pass f) :
    ¬RoundPath dir id pass pairIdx files ⟨dir, tmpName id p i⟩ := by
  rintro ⟨-, hm | hm | ⟨j, hj, he⟩⟩
  · exact (hf _ hm).ne_tmpName hp i rfl
  · obtain ⟨f, hfm, he⟩ := drainedNames_mem hm
    exact (hf f hfm).drainedName_ne_tmpName hp i he.symm
  · obtain ⟨-, hpp, hij⟩ := tmpName_inj he
    have := hi hpp
    omega

theorem exec_joinRound : ∀ {pairIdx : Nat} {files : List String} {runs : List (List Record)}
    {d : Disk}, 1 ≤ dir ∧ dir ≤ d.levels → List.Forall₂ (FileHolds d dir) files runs →
    files.Nodup → (∀ f ∈ files, RoundFile id pass f) →
    ∃ d', Prog.exec (Disk.handler P) (joinRound dir id pass pairIdx files) d =
      (.ok (drainedNames files), d') ∧ RoundDone dir id pass pairIdx files runs d d'
  | _, [], _, d, _, .nil, _, _ =>
    ⟨d, rfl, .nil, fun _ hf => absurd hf List.not_mem_nil, fun _ hm => absurd hm List.not_mem_nil⟩
  | pairIdx, [f], _, d, _, .cons hf .nil, _, hrf =>
    ⟨d, rfl, .cons hf .nil, fun _ hm _ => .inl hm, fun i hm =>
      absurd (List.mem_singleton.1 hm).symm ((hrf f (.head _)).ne_tmpName (Nat.le_refl _) i)⟩
  | pairIdx, left :: right :: rest, _, d, hdir, .cons hl (.cons hr hrest), hnd, hrf => by
    rename_i L R runs
    have hlf := hrf left (.head _)
    have hrgt := hrf right (.tail _ (.head _))
    have hrf' : ∀ f ∈ rest, RoundFile id pass f := fun f hm => hrf f (.tail _ (.tail _ hm))
    obtain ⟨hlnd, hnd'⟩ := List.nodup_cons.1 hnd
    obtain ⟨hrnd, hnd''⟩ := List.nodup_cons.1 hnd'
    have hlr : left ≠ right := fun he => hlnd (he ▸ .head _)
    obtain ⟨d1, hx1, hout1, hgl, hgr⟩ := exec_joinPair (P := P) pairIdx hdir hl hr hlf hrgt hlr
    have hk1 := keeps_of_exec (joinPair_pairPath _ _ _) hx1
    have hrest1 : List.Forall₂ (FileHolds d1 dir) rest runs :=
      forall₂_mono_mem hrest fun f _ hf h => h.congr (pair_rest hk1 hnd hrf f hf)
    obtain ⟨d2, hx2, hdone⟩ := exec_joinRound
      ⟨hdir.1, hdir.2.trans hk1.levels⟩ hrest1 hnd'' hrf'
    have hk2 := keeps_of_exec (joinRound_roundPath _ _) hx2
    -- the rest of the round leaves the pair's output and sources alone
    have hout2 := (hk2.file (tmpName_not_roundPath (Nat.le_refl _) (fun _ => Nat.lt_succ_self _)
      hrf')).trans hout1
    refine ⟨d2, ?_, ?_, ?_, ?_⟩
    · rw [joinRound, Prog.exec_bind_ok hx1, Prog.exec_bind_ok hx2]
      rfl
    · exact .cons (hl.joined hr hout2) hdone.runs
    · intro f hf hb
      rcases List.mem_cons.1 hf with rfl | hf
      · exact .inr ((hk2.file (hlf.not_roundPath hrf' fun h => hlnd (.tail _ h))).trans (hgl hb))
      rcases List.mem_cons.1 hf with rfl | hf
      · exact .inr ((hk2.file (hrgt.not_roundPath hrf' hrnd)).trans (hgr hb))
      rcases hdone.gone f hf hb with h | h
      · exact .inl (.tail _ h)
      · exact .inr h
    · intro i hm hfree
      rcases List.mem_cons.1 hm with he | hm
      · obtain ⟨-, -, rfl⟩ := tmpName_inj he
        refine ⟨_, hout2, ?_⟩
        rw [Disk.createdAt, hfree]
      · have hi : pairIdx < i := by
          rcases nextRound_mem hm with hm' | ⟨j, hj, he⟩
          · exact absurd rfl ((hrf' _ hm').ne_tmpName (Nat.le_refl _) i)
          · have := (tmpName_inj he).2.2
            omega
        have hfree1 : d1.file? ⟨dir, tmpName id pass i⟩ = none :=
          (hk1.file (tmpName_not_pairPath hlf hrgt hi.ne)).trans hfree
        obtain ⟨f, hf, hc⟩ := hdone.created i hm hfree1
        exact ⟨f, hf, hk1.clock.trans hc⟩

/-! ## The rounds -/

/-- The paths that the rounds from `pass` on touch. -/
def RoundsPath (dir id pass : Nat) (files : List String) (p : Path) : Prop :=
  p.level = dir ∧ (p.name ∈ files ∨ p.name ∈ consumedBy id pass files ∨
    p.name = roundsOutput id pass files.length)

theorem joinRounds_roundsPath {files : List String} (h : 2 ≤ files.length)
    (consumed : List String) : Prog.All (DiskOp.Within (RoundsPath dir id pass files))
      (joinRounds dir id pass files consumed) :=
  joinRounds_within pass files h consumed (fun _ hf => ⟨rfl, .inl hf⟩)
    (fun _ hc => ⟨rfl, .inr (.inl hc)⟩) ⟨rfl, .inr (.inr rfl)⟩

theorem isBin_consumedBy {files : List String} (h : 2 ≤ files.length)
    (hf : ∀ f ∈ files, RoundFile id pass f) :
    ∀ name ∈ consumedBy id pass files, isBin name = false := by
  intro name hm
  rcases consumedBy_mem id pass files h name hm with ⟨f, hfm, rfl⟩ | ⟨p, i, -, rfl⟩
  · exact (hf f hfm).isBin_drainedName
  · exact isBin_tmpName id p i

/-- The output of the rounds is none of the files they consume. -/
theorem roundsOutput_notMem (id pass : Nat) (files : List String) (h : 2 ≤ files.length) :
    (∀ f ∈ files, RoundFile id pass f) →
      roundsOutput id pass files.length ∉ consumedBy id pass files := by
  induction pass, files, h using rounds_induction id with
  | last pass left right h =>
    intro hrf hm
    rw [consumedBy, nextRound_pair, consumedBy, List.append_nil] at hm
    obtain ⟨f, hf, he⟩ := drainedNames_mem hm
    rw [List.length_cons, List.length_singleton, roundsOutput_pair] at he
    exact (hrf f hf).drainedName_ne_tmpName (Nat.le_refl _) 0 he.symm
  | more pass left right x rest h ih =>
    intro hrf hm
    have hlen := two_le_nextRound id pass left right x rest
    rw [consumedBy, List.mem_append] at hm
    rcases hm with hm | hm
    · obtain ⟨f, hf, he⟩ := drainedNames_mem hm
      have hlog := Nat.clog_pos (b := 2) (by decide) h
      exact (hrf f hf).drainedName_ne_tmpName (by omega) 0 he.symm
    · rw [← roundsOutput_next (by simp)] at hm
      exact ih hlen (nextRound_roundFile hrf) hm

theorem isBin_roundsOutput (id pass n : Nat) : isBin (roundsOutput id pass n) = false :=
  isBin_tmpName _ _ _

/-- A table that is none of their files is left alone by the rounds. -/
theorem not_roundsPath {files : List String} (h : 2 ≤ files.length)
    (hf : ∀ f ∈ files, RoundFile id pass f) {name : String} (hb : isBin name = true)
    (hn : name ∉ files) : ¬RoundsPath dir id pass files ⟨dir, name⟩ := by
  rintro ⟨-, hm | hm | hm⟩
  · exact hn hm
  · rw [isBin_consumedBy h hf name hm] at hb
    cases hb
  · rw [show name = _ from hm, isBin_roundsOutput] at hb
    cases hb

/-- What the rounds over well-formed files leave, from `d` to `d'`. -/
structure RoundsDone (dir id pass : Nat) (files : List String) (runs : List (List Record))
    (d d' : Disk) : Prop where
  run : FileHolds d' dir (roundsOutput id pass files.length) (merged runs)
  gone : ∀ f ∈ files, isBin f = true → d'.file? ⟨dir, f⟩ = none
  created : d.file? ⟨dir, roundsOutput id pass files.length⟩ = none →
    ∃ f, d'.file? ⟨dir, roundsOutput id pass files.length⟩ = some f ∧ d.clock ≤ f.created

theorem exec_joinRounds (pass : Nat) (files : List String) (h : 2 ≤ files.length) :
    ∀ {runs : List (List Record)} {d : Disk} (consumed : List String),
      1 ≤ dir ∧ dir ≤ d.levels → List.Forall₂ (FileHolds d dir) files runs → files.Nodup →
      (∀ f ∈ files, RoundFile id pass f) →
      ∃ d', Prog.exec (Disk.handler P) (joinRounds dir id pass files consumed) d =
        (.ok (roundsOutput id pass files.length, consumed ++ consumedBy id pass files), d') ∧
        RoundsDone dir id pass files runs d d' := by
  induction pass, files, h using rounds_induction id with
  | last pass left right h =>
    intro runs d consumed hdir hruns hnd hrf
    obtain ⟨d1, hx1, hdone⟩ := exec_joinRound (P := P) hdir hruns hnd hrf
    have hyields := (joinRounds_yields dir id pass [left, right] h consumed)
    have hx : Prog.exec (Disk.handler P) (joinRounds dir id pass [left, right] consumed) d =
        (.ok (tmpName id pass 0, consumed ++ drainedNames [left, right]), d1) := by
      rw [joinRounds, Prog.exec_bind_ok hx1, nextRound_pair, joinRounds]
      rfl
    rw [← hyields.exec hx]
    have hout : roundsOutput id pass [left, right].length = tmpName id pass 0 :=
      roundsOutput_pair pass
    refine ⟨d1, hx, ?_, fun f hf hb => ?_, fun hfree => ?_⟩
    · rw [hout]
      cases hruns with
      | cons _ hr =>
        cases hr with
        | cons _ hr =>
          cases hr
          rename_i L R
          have hrun := hdone.runs
          rw [nextRound_pair, nextRuns, nextRuns, List.forall₂_cons] at hrun
          rw [merged_cons, merged_cons, merged, mergeStack, mergeLeft_nil]
          exact hrun.1
    · rcases hdone.gone f hf hb with hm | hgone
      · rw [nextRound_pair] at hm
        rw [List.mem_singleton.1 hm, isBin_tmpName] at hb
        cases hb
      · exact hgone
    · rw [hout] at hfree ⊢
      exact hdone.created 0 (.head _) hfree
  | more pass left right x rest h ih =>
    intro runs d consumed hdir hruns hnd hrf
    have hlen := two_le_nextRound id pass left right x rest
    obtain ⟨d1, hx1, hround⟩ := exec_joinRound (P := P) hdir hruns hnd hrf
    have hk1 := keeps_of_exec (joinRound_roundPath _ _) hx1
    have hrf1 : ∀ f ∈ nextRound id pass 0 (left :: right :: x :: rest), RoundFile id (pass + 1) f :=
      nextRound_roundFile hrf
    obtain ⟨d2, hx2, hdone⟩ := ih hlen
      (consumed ++ drainedNames (left :: right :: x :: rest)) ⟨hdir.1, hdir.2.trans hk1.levels⟩
      hround.runs (nextRound_nodup hrf hnd) hrf1
    have hk2 := keeps_of_exec (joinRounds_roundsPath hlen _) hx2
    have hout : roundsOutput id (pass + 1) (nextRound id pass 0 (left :: right :: x :: rest)).length =
        roundsOutput id pass (left :: right :: x :: rest).length := roundsOutput_next (by simp)
    have hsorted : ∀ run ∈ runs, KeySorted run := fun run hr => by
      obtain ⟨f, -, hf⟩ := exists_of_mem_right hruns hr
      exact hf.sorted
    refine ⟨d2, ?_, ?_, fun f hf hb => ?_, fun hfree => ?_⟩
    · rw [joinRounds, Prog.exec_bind_ok hx1, hx2, hout, consumedBy, List.append_assoc]
    · rw [← hout, ← merged_nextRuns hsorted]
      exact hdone.run
    · by_cases hnext : f ∈ nextRound id pass 0 (left :: right :: x :: rest)
      · exact hdone.gone f hnext hb
      · rcases hround.gone f hf hb with hm | hgone
        · exact absurd hm hnext
        · rw [hk2.file (not_roundsPath hlen hrf1 hb hnext), hgone]
    · rw [← hout] at hfree ⊢
      have hfree1 : d1.file? ⟨dir, roundsOutput id (pass + 1)
          (nextRound id pass 0 (left :: right :: x :: rest)).length⟩ = none := by
        have hlog : 0 < Nat.clog 2 (nextRound id pass 0 (left :: right :: x :: rest)).length :=
          Nat.clog_pos (by decide) hlen
        rw [roundsOutput] at hfree ⊢
        exact (hk1.file (tmpName_not_roundPath (by omega) (by omega) hrf)).trans hfree
      obtain ⟨f, hf, hc⟩ := hdone.created hfree1
      exact ⟨f, hf, hk1.clock.trans hc⟩

/-! ## The unit -/

theorem exec_removeFile {p : Path} {d : Disk} :
    ∃ d', Prog.exec (Disk.handler P) (removeFile p) d = (.ok (), d') ∧ d'.file? p = none := by
  have hcall : ∀ {r d'}, Disk.step P (.remove p) d = (r, d') → Prog.exec (Disk.handler P)
      (Prog.perform (.remove p) : CompactionProg _) d = (.ok r, d') := by
    intro r d' hr
    rw [Prog.exec_perform]
    show (Except.ok (Disk.step P (.remove p) d).1, (Disk.step P (.remove p) d).2) = _
    rw [hr]
  rw [removeFile]
  cases hf : d.file? p with
  | some f =>
    have hr : Disk.step P (.remove p) d = (.ok (), d.remove p) := by rw [Disk.step, hf]
    rw [Prog.exec_bind_ok (hcall hr)]
    exact ⟨_, rfl, Disk.file?_remove_self⟩
  | none =>
    have hr : Disk.step P (.remove p) d = (.error Disk.noSuchFile, d) := by rw [Disk.step, hf]
    rw [Prog.exec_bind_ok (hcall hr)]
    exact ⟨d, rfl, hf⟩

theorem exec_removeConsumed : ∀ (names : List String) (d : Disk),
    ∃ d', Prog.exec (Disk.handler P) (removeConsumed dir names) d = (.ok (), d') ∧
      ∀ name ∈ names, d'.file? ⟨dir, name⟩ = none
  | [], d => ⟨d, rfl, by simp⟩
  | name :: names, d => by
    obtain ⟨d1, hx1, hgone⟩ := exec_removeFile (P := P) (p := ⟨dir, name⟩) (d := d)
    obtain ⟨d2, hx2, hgone2⟩ := exec_removeConsumed names d1
    have hk := keeps_of_exec (removeConsumed_within (S := fun p => ∃ n ∈ names, p = ⟨dir, n⟩)
      fun n hn => ⟨n, hn, rfl⟩) hx2
    refine ⟨d2, (Prog.exec_bind_ok hx1).trans hx2, fun n hn => ?_⟩
    by_cases hm : n ∈ names
    · exact hgone2 n hm
    · rcases List.mem_cons.1 hn with rfl | hn
      · rw [hk.file, hgone]
        rintro ⟨m, hmm, he⟩
        rw [show n = m from congrArg Path.name he] at hm
        exact hm hmm
      · exact absurd hn hm

/-- A path that a unit of tables touches is that of a table, of what it is drained to, or of an
intermediate file. -/
theorem UnitPath.name_cases {files : List String} {p : Path} (h : UnitPath dir id files p)
    (hlen : 2 ≤ files.length) : p.name ∈ files ∨ (∃ t ∈ files, p.name = drainedName t) ∨
      ∃ pass i, p.name = tmpName id pass i := by
  obtain ⟨-, h | h | h⟩ := h
  · exact .inl h
  · rcases consumedBy_mem id 0 files hlen _ h with h | ⟨pass, i, -, h⟩
    · exact .inr (.inl h)
    · exact .inr (.inr ⟨pass, i, h⟩)
  · exact .inr (.inr ⟨_, _, h⟩)

theorem not_unitPath {files : List String} {name : String} (hlen : 2 ≤ files.length)
    (hb : ∀ t ∈ files, isBin t = true) (hn : isBin name = true) (h : name ∉ files) :
    ¬UnitPath dir id files ⟨dir, name⟩ := by
  intro hp
  rcases hp.name_cases hlen with hp | ⟨t, ht, hp⟩ | ⟨pass, i, hp⟩
  · exact h hp
  · obtain ⟨stem, hs, -, hd⟩ := drainedName_bin (hb t ht)
    rw [show name = _ from hp, hd, isBin_drained hs] at hn
    cases hn
  · rw [show name = _ from hp, isBin_tmpName] at hn
    cases hn

/-- The output of the unit, as a path in its level. -/
abbrev outputPath (dir id : Nat) (files : List String) : Path := ⟨dir, outputName id files⟩

/-- What a unit of well-formed tables leaves, from `d` to `d'`: its output, and nothing else on the
paths that it touches. -/
structure UnitDone (dir id : Nat) (files : List String) (run : List Record) (d d' : Disk) :
    Prop where
  output : ∃ f, d'.file? (outputPath dir id files) = some f ∧ Holds ⟨.ssTable, f.bytes⟩ run ∧
    (d.file? (outputPath dir id files) = none → d.clock ≤ f.created)
  gone : ∀ p, UnitPath dir id files p → p ≠ outputPath dir id files → d'.file? p = none

variable {outputLevel : Nat} {files : List String} {runs : List (List Record)}

theorem merged_fits : ∀ {runs : List (List Record)}, (∀ run ∈ runs, ∀ r ∈ run, Fits r) →
    ∀ r ∈ merged runs, Fits r
  | [], _ => by simp [merged, mergeStack]
  | _ :: _, h => by
    intro r hr
    rcases mem_mergeLeft hr with hr | hr
    · exact live_fits (h _ (.head _)) r hr
    · exact merged_fits (fun run hm => h run (.tail _ hm)) r hr

/-- The rounds of a unit: an intermediate file of the records to rebuild. -/
theorem exec_unitRounds (hlen : 2 ≤ files.length) (hdir : 1 ≤ dir ∧ dir ≤ d.levels)
    (hruns : List.Forall₂ (FileHolds d dir) files runs) (hnd : files.Nodup)
    (hb : ∀ f ∈ files, isBin f = true) :
    ∃ d', Prog.exec (Disk.handler P) (joinRounds dir id 0 files []) d =
        (.ok (outputName id files, consumedBy id 0 files), d') ∧
      (∃ f, d'.file? (outputPath dir id files) = some f ∧
        f.bytes = encodeSection (merged runs) ∧
        (d.file? (outputPath dir id files) = none → d.clock ≤ f.created)) ∧
      ∀ f ∈ files, d'.file? ⟨dir, f⟩ = none := by
  obtain ⟨d', hx, hdone⟩ := exec_joinRounds (P := P) 0 files hlen [] hdir hruns hnd
    fun f hf => .inl (hb f hf)
  rw [List.nil_append, ← outputName_eq] at hx
  refine ⟨d', hx, ?_, fun f hf => hdone.gone f hf (hb f hf)⟩
  obtain ⟨-, f, hf, hholds⟩ := hdone.run
  rw [roundsOutput, tableTypeFromName_tmpName] at hholds
  rw [outputPath, outputName_eq]
  refine ⟨f, hf, hholds.raw_eq, fun hfree => ?_⟩
  obtain ⟨g, hg, hc⟩ := hdone.created hfree
  rw [hf] at hg
  rwa [Option.some.inj hg]

theorem not_isEmpty (h : 2 ≤ files.length) : (!files.isEmpty) = true := by
  cases files with
  | nil => simp at h
  | cons f files => rfl

theorem forall₂_fits (h : List.Forall₂ (FileHolds d dir) files runs) : ∀ r ∈ merged runs, Fits r :=
  merged_fits fun _ hr => by
    obtain ⟨_, -, hfile⟩ := exists_of_mem_right h hr
    obtain ⟨_, _, _, hholds⟩ := hfile
    exact hholds.fits

/-- What a unit does after its rounds: the output is rebuilt in place, and the consumed files go. -/
theorem exec_compact_built {bloomFalsePositiveRate : F64} {dataSection : String}
    {consumed : List String} {d1 : Disk} {f : File} (hne : (!files.isEmpty) = true)
    (hx : Prog.exec (Disk.handler P) (joinRounds dir id 0 files []) d =
      (.ok (dataSection, consumed), d1)) (hf : d1.file? ⟨dir, dataSection⟩ = some f) :
    Prog.exec (Disk.handler P) (compact P id dir outputLevel bloomFalsePositiveRate files) d =
      match buildFromDataSection P f.bytes outputLevel bloomFalsePositiveRate with
      | .ok output => Prog.exec (Disk.handler P) (do removeConsumed dir consumed; pure dataSection)
        ((d1.setBytes ⟨dir, dataSection⟩ []).append ⟨dir, dataSection⟩ output)
      | .error e => (.error e, d1) := by
  rw [compact, Prog.exec_bind_ok (Prog.exec_ensure_pos hne _), Prog.exec_bind_ok hx]
  dsimp only
  rw [Prog.exec_bind_ok (exec_io (Disk.step_read hf))]
  cases buildFromDataSection P f.bytes outputLevel bloomFalsePositiveRate with
  | error e => exact Prog.exec_bind_error (Prog.exec_ofExcept _ _ _)
  | ok output =>
    have htrunc : (d1.setBytes ⟨dir, dataSection⟩ []).file? ⟨dir, dataSection⟩ =
        some ⟨f.created, []⟩ := Disk.file?_setBytes_self hf
    rw [Prog.exec_bind_ok (Prog.exec_ofExcept _ _ _),
      Prog.exec_bind_ok (exec_io (Disk.step_truncate hf)),
      Prog.exec_bind_ok (exec_io (Disk.step_append htrunc output))]

/-- **A unit of well-formed tables** whose index fits returns a table of their merge. -/
theorem exec_compact (bloomFalsePositiveRate : F64) (hlen : 2 ≤ files.length)
    (hdir : 1 ≤ dir ∧ dir ≤ d.levels)
    (hruns : List.Forall₂ (FileHolds d dir) files runs) (hnd : files.Nodup)
    (hb : ∀ f ∈ files, isBin f = true) (hfits : IndexFits outputLevel (merged runs)) :
    ∃ d', Prog.exec (Disk.handler P)
        (compact P id dir outputLevel bloomFalsePositiveRate files) d =
        (.ok (outputName id files), d') ∧ UnitDone dir id files (merged runs) d d' := by
  obtain ⟨d1, hx1, ⟨f, hf, hbytes, hcreated⟩, hgone1⟩ := exec_unitRounds (P := P) hlen
    hdir hruns hnd hb
  have hrec := forall₂_fits hruns
  -- the output is rebuilt in place
  have htrunc : (d1.setBytes (outputPath dir id files) []).file? (outputPath dir id files) =
      some ⟨f.created, []⟩ := Disk.file?_setBytes_self hf
  let table := builtTable P outputLevel bloomFalsePositiveRate (merged runs)
  let d2 := (d1.setBytes (outputPath dir id files) []).append (outputPath dir id files) table
  have hout2 : d2.file? (outputPath dir id files) = some ⟨f.created, table⟩ :=
    Disk.file?_append_self htrunc
  have hother2 : ∀ p, p ≠ outputPath dir id files → d2.file? p = d1.file? p := fun p hp => by
    rw [Disk.file?_append hp, Disk.file?_setBytes hp]
  obtain ⟨d3, hx3, hgone3⟩ := exec_removeConsumed (P := P) (consumedBy id 0 files) d2
  have hk3 := keeps_of_exec (removeConsumed_within
    (S := fun p => ∃ n ∈ consumedBy id 0 files, p = ⟨dir, n⟩) fun n hn => ⟨n, hn, rfl⟩) hx3
  have hkept : ∀ p, (∀ n ∈ consumedBy id 0 files, p ≠ ⟨dir, n⟩) → d3.file? p = d2.file? p := by
    intro p hp
    apply hk3.file
    rintro ⟨n, hn, rfl⟩
    exact hp n hn rfl
  have hnot := roundsOutput_notMem id 0 files hlen fun f hm => .inl (hb f hm)
  rw [← outputName_eq] at hnot
  refine ⟨d3, ?_, ⟨⟨f.created, table⟩, ?_, holds_builtTable hrec hfits, hcreated⟩, fun p hp hne => ?_⟩
  · rw [exec_compact_built (not_isEmpty hlen) hx1 hf, hbytes,
      (buildFromDataSection_ok_iff hrec).2 ⟨hfits, rfl⟩]
    dsimp only
    rw [Prog.exec_bind_ok hx3]
    rfl
  · rw [hkept _ fun n hn he => hnot ?_, hout2]
    rwa [show outputName id files = n from congrArg Path.name he]
  · obtain ⟨hlevel, hname⟩ := hp
    by_cases hcons : p.name ∈ consumedBy id 0 files
    · have := hgone3 p.name hcons
      rwa [← hlevel] at this
    · have hfile : p.name ∈ files := by
        rcases hname with h | h | h
        · exact h
        · exact absurd h hcons
        · exact absurd (by rw [outputPath, ← hlevel, ← h]) hne
      rw [hkept p fun n hn he => hcons (by rw [he]; exact hn), hother2 p hne]
      have := hgone1 p.name hfile
      rwa [← hlevel] at this

end Compaction
