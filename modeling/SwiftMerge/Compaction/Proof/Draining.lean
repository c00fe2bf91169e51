import SwiftMerge.Compaction.Proof.UnitsEnd
import SwiftMerge.Lib.WorkList

/-!
# The tables go one by one

The units of well-formed tables drain them in the order they are listed in: while they are at work,
the first so many tables of the list are gone and the others are where they were, and each number of
tables is gone in some visible state (`compactUnits_drains`).
-/

namespace Compaction

open Lib Lsm

variable {P : Platform} {dir id pass : Nat} {d d' : Disk}

/-- No table is bad. -/
abbrev noneBad (_ : String) : Bool := false

/-- The program drains the tables one after the other. -/
abbrev Drains {ε α : Type} (P : Platform) (dir : Nat) (prog : Prog DiskOp ε α) (d : Disk)
    (names : List String) : Prop :=
  Prog.WorksThrough (Disk.handler P) (BinsGone dir) prog d names

section
variable {ε α β : Type} {p : Prog DiskOp ε α} {f : α → Prog DiskOp ε β} {names : List String}

theorem BinsGone.refl (d : Disk) : BinsGone dir [] d d :=
  .of_keeps (S := fun _ => False) (.refl d) fun _ => False.elim

/-- A program that does not touch tables. -/
theorem drains_nothing {S : Path → Prop} (hp : Prog.All (DiskOp.Within S) p)
    (hs : ∀ q, S q → isBin q.name = false) : Drains P dir p d [] :=
  .nothing (fun t ht => .of_keeps ((Disk.exec_keeps hp).2 t ht) hs)
    (.of_keeps (Disk.exec_keeps hp).1 hs)

theorem drains_seq {a : α} {names' : List String} (hp : Drains P dir p d names)
    (hx : Prog.exec (Disk.handler P) p d = (.ok a, d')) (hf : Drains P dir (f a) d' names') :
    Drains P dir (p >>= f) d (names ++ names') := hp.bind BinsGone.trans hx hf

/-- What follows a part that does not touch tables. -/
theorem drains_after {S : Path → Prop} {a : α} (hp : Prog.All (DiskOp.Within S) p)
    (hs : ∀ q, S q → isBin q.name = false)
    (hx : Prog.exec (Disk.handler P) p d = (.ok a, d')) (hf : Drains P dir (f a) d' names) :
    Drains P dir (p >>= f) d names :=
  (drains_nothing hp hs).bind BinsGone.trans hx hf

/-- What goes on without touching tables. -/
theorem drains_before {S : Path → Prop} {a : α} (hp : Drains P dir p d names)
    (hx : Prog.exec (Disk.handler P) p d = (.ok a, d')) (hf : Prog.All (DiskOp.Within S) (f a))
    (hs : ∀ q, S q → isBin q.name = false) : Drains P dir (p >>= f) d names := by
  have hseq := drains_seq hp hx (drains_nothing hf hs)
  rwa [List.append_nil] at hseq

end

/-! ## A pair -/

theorem visits_rename {src dst : Path} {s t : Disk} :
    Prog.visits (Disk.handler P) (CompactionProg.io (.rename src dst)) s t ↔
      t = s ∨ t = (Prog.exec (Disk.handler P) (CompactionProg.io (.rename src dst)) s).2 := by
  rw [CompactionProg.io, Prog.visits_bind_ok (Prog.exec_perform _ _ s), Prog.visits_perform,
    Prog.visits_ofExcept, Prog.exec_bind_ok (Prog.exec_perform _ _ s), Prog.exec_ofExcept]
  constructor
  · rintro ((h | h | h) | h)
    · exact .inl h
    · exact h.elim
    · exact .inr h
    · exact .inr h
  · rintro (h | h)
    · exact .inl (.inl h)
    · exact .inr h

theorem markDrainedFile_drains {name : String} {f : File} (hdir : 1 ≤ dir ∧ dir ≤ d.levels)
    (hf : d.file? ⟨dir, name⟩ = some f) (hn : RoundFile id pass name) :
    Drains P dir (markDrainedFile dir name) d ([name].filter isBin) := by
  obtain ⟨d', hx, hk, hgone⟩ := exec_markDrainedFile (P := P) hdir hf
  by_cases hb : isBin name = true
  · have hmark : markDrainedFile dir name =
        (CompactionProg.io (.rename ⟨dir, name⟩ ⟨dir, drainedName name⟩) >>= fun _ =>
          pure (drainedName name)) := by
      obtain ⟨stem, -, rfl⟩ := isBin_iff.1 hb
      rw [markDrainedFile, stripSuffix_eq]
    have hbins : BinsGone dir [name] d d' := by
      refine ⟨fun n hn hb => ?_, fun p hp hnot => hk.file ?_⟩
      · obtain rfl := List.mem_singleton.1 hn
        exact hgone hb
      · rintro (rfl | rfl)
        · exact hnot rfl (.head _)
        · rw [hn.isBin_drainedName] at hp
          cases hp
    rw [List.filter_cons, if_pos hb, List.filter_nil]
    refine .one (fun t => ?_) (.refl d) (by rwa [hx])
    rw [hx]
    rw [hmark] at hx ⊢
    obtain ⟨a, s, hrename, hpure⟩ := Prog.exec_bind_eq_ok hx
    obtain rfl : s = d' := congrArg Prod.snd hpure
    rw [Prog.visits_bind_ok hrename, visits_rename, hrename, Prog.visits_pure]
    exact or_iff_left_of_imp .inr
  · have hmark : markDrainedFile dir name = pure name := by
      obtain ⟨p, i, -, rfl⟩ := hn.resolve_left hb
      rw [markDrainedFile, stripSuffix_none (endsWith_tmpName id p i)]
    rw [List.filter_cons, if_neg hb, List.filter_nil, hmark]
    exact drains_nothing (S := fun _ => False) (Prog.all_pure _) fun _ => False.elim

/-- A pair drains its tables. -/
theorem joinPair_drains {left right : String} {L R : List Record} (i : Nat)
    (hdir : 1 ≤ dir ∧ dir ≤ d.levels) (hl : FileHolds d dir left L) (hr : FileHolds d dir right R)
    (hln : RoundFile id pass left) (hrn : RoundFile id pass right) (hne : left ≠ right) :
    Drains P dir (joinPair dir left right (tmpName id pass i)) d ([left, right].filter isBin) := by
  obtain ⟨-, fl, hfl, hlHolds⟩ := hl
  obtain ⟨-, fr, hfr, hrHolds⟩ := hr
  have hjoin := joinTables_eq hlHolds hrHolds left right
  have path_ne : ∀ {a b : String}, a ≠ b → (⟨dir, a⟩ : Path) ≠ ⟨dir, b⟩ :=
    fun h he => h (congrArg Path.name he)
  have hlo := path_ne (hln.ne_tmpName (Nat.le_refl _) i)
  have hro := path_ne (hrn.ne_tmpName (Nat.le_refl _) i)
  have hcreate := Disk.file?_create_self (P := P) (d := d) (p := ⟨dir, tmpName id pass i⟩)
  -- before the sources are drained, only the output is touched
  let d2 := (d.create P ⟨dir, tmpName id pass i⟩).append ⟨dir, tmpName id pass i⟩
    (encodeSection (mergeLeft (live L) (live R)))
  have hfl2 : d2.file? ⟨dir, left⟩ = some fl := by
    rw [Disk.file?_append hlo, Disk.file?_create hlo, hfl]
  have hfr2 : d2.file? ⟨dir, right⟩ = some fr := by
    rw [Disk.file?_append hro, Disk.file?_create hro, hfr]
  have hdir2 : 1 ≤ dir ∧ dir ≤ d2.levels := by
    simp only [d2, Disk.levels_append, Disk.levels_create]
    exact hdir
  have hout : ∀ q : Path, q = ⟨dir, tmpName id pass i⟩ → isBin q.name = false := by
    rintro _ rfl
    exact isBin_tmpName id pass i
  -- the left source, then the right one
  obtain ⟨d3, hx3, hk3, -⟩ := exec_markDrainedFile (P := P) hdir2 hfl2
  have hfr3 : d3.file? ⟨dir, right⟩ = some fr := by
    rw [hk3.file, hfr2]
    rintro (he | he)
    · exact path_ne hne.symm he
    · exact path_ne (hln.drainedName_ne hrn hne).symm he
  have hdir3 : 1 ≤ dir ∧ dir ≤ d3.levels := ⟨hdir2.1, hdir2.2.trans hk3.levels⟩
  obtain ⟨d4, hx4, -⟩ := exec_markDrainedFile (P := P) hdir3 hfr3
  refine drains_after (within_read _) hout (exec_io (Disk.step_read hfl)) ?_
  refine drains_after (within_read _) hout (exec_io (Disk.step_read hfr)) ?_
  refine drains_after (within_create (S := (· = _)) rfl) hout (exec_io (Disk.step_create hdir)) ?_
  rw [hjoin]
  refine drains_after (within_append (S := (· = _)) rfl _) hout
    (exec_io (Disk.step_append hcreate _)) ?_
  refine drains_after (Prog.all_ofExcept _) hout (Prog.exec_ofExcept _ _ _) ?_
  rw [show [left, right].filter isBin = [left].filter isBin ++ [right].filter isBin from
    List.filter_append [left] [right]]
  exact drains_seq (markDrainedFile_drains hdir2 hfl2 hln) hx3
    (drains_before (markDrainedFile_drains hdir3 hfr3 hrn) hx4 (Prog.all_pure _) hout)

/-! ## A unit -/

theorem filter_nextRound (pairIdx : Nat) (left right : String) (rest : List String) :
    (nextRound id pass pairIdx (left :: right :: rest)).filter isBin =
      (nextRound id pass (pairIdx + 1) rest).filter isBin := by
  rw [nextRound, List.filter_cons, isBin_tmpName]
  rfl

/-- A round drains the tables that the next one does not have. -/
theorem joinRound_drains : ∀ (pairIdx : Nat) {files : List String} {runs : List (List Record)}
    {d : Disk}, 1 ≤ dir ∧ dir ≤ d.levels → List.Forall₂ (FileHolds d dir) files runs →
    files.Nodup → (∀ f ∈ files, RoundFile id pass f) →
    ∃ names, Drains P dir (joinRound dir id pass pairIdx files) d names ∧
      names ++ (nextRound id pass pairIdx files).filter isBin = files.filter isBin
  | _, [], _, _, _, _, _, _ =>
    ⟨[], drains_nothing (S := fun _ => False) (Prog.all_pure _) fun _ => False.elim, rfl⟩
  | _, [_], _, _, _, _, _, _ =>
    ⟨[], drains_nothing (S := fun _ => False) (Prog.all_pure _) fun _ => False.elim, rfl⟩
  | pairIdx, left :: right :: rest, _, d, hdir, .cons hl (.cons hr hrest), hnd, hrf => by
    have hlf := hrf left (.head _)
    have hrgt := hrf right (.tail _ (.head _))
    have hrf' : ∀ f ∈ rest, RoundFile id pass f := fun f hm => hrf f (.tail _ (.tail _ hm))
    obtain ⟨hlnd, hnd'⟩ := List.nodup_cons.1 hnd
    have hlr : left ≠ right := fun he => hlnd (he ▸ .head _)
    obtain ⟨d1, hx1, -⟩ := exec_joinPair (P := P) pairIdx hdir hl hr hlf hrgt hlr
    have hk1 := keeps_of_exec (joinPair_pairPath _ _ _) hx1
    have hdir1 : 1 ≤ dir ∧ dir ≤ d1.levels := ⟨hdir.1, hdir.2.trans hk1.levels⟩
    have hrest1 := forall₂_mono_mem hrest fun f _ hf h => h.congr (pair_rest hk1 hnd hrf f hf)
    obtain ⟨names, hdrains, hnames⟩ := joinRound_drains (pairIdx + 1) hdir1 hrest1
      hnd'.of_cons hrf'
    obtain ⟨d2, hx2, -⟩ := exec_joinRound (P := P) hdir1 hrest1
      hnd'.of_cons hrf'
    refine ⟨[left, right].filter isBin ++ names, ?_, ?_⟩
    · exact drains_seq (joinPair_drains pairIdx hdir hl hr hlf hrgt hlr) hx1 (drains_before
        (S := fun _ => False) hdrains hx2 (Prog.all_pure _) fun _ => False.elim)
    · rw [filter_nextRound, List.append_assoc, hnames, ← List.filter_append]
      rfl

/-- The rounds drain all the tables. -/
theorem joinRounds_drains (pass : Nat) (files : List String) (h : 2 ≤ files.length) :
    ∀ {runs : List (List Record)} {d : Disk} (consumed : List String),
      1 ≤ dir ∧ dir ≤ d.levels → List.Forall₂ (FileHolds d dir) files runs → files.Nodup →
      (∀ f ∈ files, RoundFile id pass f) →
      Drains P dir (joinRounds dir id pass files consumed) d (files.filter isBin) := by
  induction pass, files, h using rounds_induction id with
  | last pass left right h =>
    intro runs d consumed hdir hruns hnd hrf
    obtain ⟨names, hdrains, hnames⟩ := joinRound_drains (P := P) 0 hdir hruns hnd hrf
    obtain ⟨d1, hx1, -⟩ := exec_joinRound (P := P) hdir hruns hnd hrf
    rw [joinRounds, ← hnames]
    refine drains_seq hdrains hx1 ?_
    rw [filter_nextRound, nextRound_pair, joinRounds]
    exact drains_nothing (S := fun _ => False) (Prog.all_pure _) fun _ => False.elim
  | more pass left right x rest h ih =>
    intro runs d consumed hdir hruns hnd hrf
    obtain ⟨names, hdrains, hnames⟩ := joinRound_drains (P := P) 0 hdir hruns hnd hrf
    obtain ⟨d1, hx1, hround⟩ := exec_joinRound (P := P) hdir hruns hnd hrf
    have hk1 := keeps_of_exec (joinRound_roundPath _ _) hx1
    rw [joinRounds, ← hnames]
    exact drains_seq hdrains hx1 (ih (two_le_nextRound id pass left right x rest) _
      ⟨hdir.1, hdir.2.trans hk1.levels⟩ hround.runs (nextRound_nodup hrf hnd)
      (nextRound_roundFile hrf))

/-- **A unit** drains its tables in the order they are listed in. -/
theorem compact_drains (id outputLevel : Nat) (bloomFalsePositiveRate : F64) {files : List String}
    {runs : List (List Record)} (hlen : 2 ≤ files.length) (hdir : 1 ≤ dir ∧ dir ≤ d.levels)
    (hruns : List.Forall₂ (FileHolds d dir) files runs) (hnd : files.Nodup)
    (hb : ∀ f ∈ files, isBin f = true) :
    Drains P dir (compact P id dir outputLevel bloomFalsePositiveRate files) d files := by
  have hrf : ∀ f ∈ files, RoundFile id 0 f := fun f hf => .inl (hb f hf)
  obtain ⟨d1, hx1, -⟩ := exec_unitRounds (P := P) hlen hdir hruns hnd hb
  have hrounds := joinRounds_drains (P := P) 0 files hlen [] hdir hruns hnd hrf
  rw [List.filter_eq_self.2 hb] at hrounds
  -- what follows the rounds touches no table
  have htail : ∀ p : Path, p.name = outputName id files ∨ p.name ∈ consumedBy id 0 files →
      isBin p.name = false := by
    rintro p (h | h)
    · rw [h, outputName_eq, isBin_roundsOutput]
    · exact isBin_consumedBy hlen hrf _ h
  refine drains_after (S := fun _ => False) (Prog.all_ensure _ _) (fun _ => False.elim)
    (Prog.exec_ensure_pos (not_isEmpty hlen) d) ?_
  refine drains_before hrounds hx1 ?_ htail
  exact (within_read _).bind fun _ => (Prog.all_ofExcept _).bind fun _ =>
    (within_truncate (.inl rfl)).bind fun _ => (within_append (.inl rfl) _).bind fun _ =>
      (removeConsumed_within fun f hf => .inr hf).bind fun _ => Prog.all_pure _

/-! ## The units -/

/-- **The units** drain their tables, one after the other. -/
theorem compactUnits_drains (bloomFalsePositiveRate : F64) {run : String → List Record} :
    ∀ (id : Nat) {units : List (List String)}
    {d : Disk}, UnitsGiven dir units noneBad run d →
      Drains P dir (compactUnits P dir bloomFalsePositiveRate id units) d units.flatten
  | _, [], _, _ => drains_nothing (S := fun _ => False) (Prog.all_pure _) fun _ => False.elim
  | id, u :: units, d, h => by
    have hlen := h.len u (.head _)
    have hruns : List.Forall₂ (FileHolds d dir) u (u.map run) :=
      List.forall₂_map_right_iff.2
        (List.forall₂_same.2 fun t ht => h.good u (.head _) t ht rfl)
    obtain ⟨r, d1, hx1, -⟩ := exec_compact_given (P := P) id bloomFalsePositiveRate h (.head units)
    have h1 := h.after (keeps_of_exec (compact_within hlen fun p hp => hp) hx1)
    obtain ⟨outs, d2, hx2, -⟩ := exec_compactUnits_given (P := P) bloomFalsePositiveRate (id + 1) h1
    have hunit := compact_drains (P := P) id (dir + 1) bloomFalsePositiveRate hlen h.dir_ok hruns
      (h.unit_nodup (.head _)) (h.bin u (.head _))
    have hattempt : Prog.exec (Disk.handler P) ((compact P id dir (dir + 1) bloomFalsePositiveRate
        u).attempt : CompactionProg _) d = (.ok r, d1) := by
      rw [Prog.exec_attempt, hx1]
    rw [compactUnits, List.flatten_cons]
    refine drains_seq hunit.attempt hattempt (drains_before (S := fun _ => False)
      (compactUnits_drains _ (id + 1) h1) hx2 ?_ fun _ => False.elim)
    cases r <;> exact Prog.all_pure _

end Compaction
