import SwiftMerge.Compaction.Proof.Success

/-!
# A unit with a table that cannot be read

A unit meets such a table when it opens the pair, and fails. By then it has drained the pairs before
that one, so their tables are no longer there, and their merges stay behind as intermediate files
(`exec_compact_bad`). A unit whose merge does not fit its index has drained all its tables when it
fails (`exec_compact_unfit`).
-/

namespace Compaction

open Lib Lsm

variable {P : Platform} {dir id pass : Nat} {d d' : Disk} {bad : String → Bool}

/-! ## Tables that are gone -/

/-- From `d` to `d'` the tables `names` of a level went, and every other table stayed as it was. -/
structure BinsGone (dir : Nat) (names : List String) (d d' : Disk) : Prop where
  gone : ∀ name ∈ names, isBin name = true → d'.file? ⟨dir, name⟩ = none
  kept : ∀ p, isBin p.name = true → (p.level = dir → p.name ∉ names) → d'.file? p = d.file? p

theorem BinsGone.of_keeps {S : Path → Prop} (hk : Disk.Keeps S d d')
    (hs : ∀ p, S p → isBin p.name = false) : BinsGone dir [] d d' := by
  refine ⟨fun _ h => absurd h List.not_mem_nil, fun p hb _ => hk.file fun hp => ?_⟩
  rw [hs p hp] at hb
  cases hb

theorem BinsGone.trans {a b c : Disk} {names names' : List String} (h : BinsGone dir names a b)
    (h' : BinsGone dir names' b c) : BinsGone dir (names ++ names') a c := by
  refine ⟨fun name hn hb => ?_, fun p hb hp => ?_⟩
  · by_cases hn' : name ∈ names'
    · exact h'.gone name hn' hb
    · rw [h'.kept ⟨dir, name⟩ hb fun _ => hn']
      exact h.gone name ((List.mem_append.1 hn).resolve_right hn') hb
  · rw [h'.kept p hb fun hl hn => hp hl (List.mem_append_right _ hn),
      h.kept p hb fun hl hn => hp hl (List.mem_append_left _ hn)]

theorem BinsGone.congr {names names' : List String} (h : BinsGone dir names d d')
    (hn : ∀ name, isBin name = true → (name ∈ names ↔ name ∈ names')) : BinsGone dir names' d d' :=
  ⟨fun name hm hb => h.gone name ((hn name hb).2 hm) hb, fun p hb hp =>
    h.kept p hb fun hl hm => hp hl ((hn _ hb).1 hm)⟩

/-! ## Files of a round -/

/-- `to_data_section` rejects the file. -/
def Unreadable (d : Disk) (dir : Nat) (name : String) : Prop :=
  ∃ f e, d.file? ⟨dir, name⟩ = some f ∧
    toDataSection name ⟨tableTypeFromName name, f.bytes⟩ = .error e

/-- A file that a merge may be given: one that holds a run, or a bad one. -/
structure Given (d : Disk) (dir : Nat) (bad : String → Bool) (name : String) : Prop where
  good : bad name = false → ∃ run, FileHolds d dir name run
  bad : bad name = true → Unreadable d dir name

theorem Given.congr {name : String} (h : Given d dir bad name)
    (he : d'.file? ⟨dir, name⟩ = d.file? ⟨dir, name⟩) : Given d' dir bad name := by
  refine ⟨fun hg => ?_, fun hb => ?_⟩
  · obtain ⟨run, hrun⟩ := h.good hg
    exact ⟨run, hrun.congr he⟩
  · obtain ⟨f, e, hf, hx⟩ := h.bad hb
    exact ⟨f, e, he.trans hf, hx⟩

theorem Given.file {name : String} (h : Given d dir bad name) :
    ∃ f, d.file? ⟨dir, name⟩ = some f := by
  cases hb : bad name with
  | false =>
    obtain ⟨_, -, f, hf, -⟩ := h.good hb
    exact ⟨f, hf⟩
  | true =>
    obtain ⟨f, _, hf, -⟩ := h.bad hb
    exact ⟨f, hf⟩

/-- A round has a pair with a bad file. -/
def badPair (bad : String → Bool) : List String → Bool
  | left :: right :: rest => bad left || bad right || badPair bad rest
  | [_] => false
  | [] => false

/-- The files of the pairs before the first one with a bad file. -/
def drainedBefore (bad : String → Bool) : List String → List String
  | left :: right :: rest =>
    if bad left || bad right then [] else left :: right :: drainedBefore bad rest
  | [_] => []
  | [] => []

theorem mem_drainedBefore {name : String} : ∀ {files : List String},
    name ∈ drainedBefore bad files → name ∈ files ∧ bad name = false
  | left :: right :: rest, h => by
    rw [drainedBefore] at h
    split at h
    · cases h
    · rename_i hbad
      simp only [Bool.or_eq_true, not_or, Bool.not_eq_true] at hbad
      rcases List.mem_cons.1 h with rfl | h
      · exact ⟨.head _, hbad.1⟩
      rcases List.mem_cons.1 h with rfl | h
      · exact ⟨.tail _ (.head _), hbad.2⟩
      obtain ⟨hm, hg⟩ := mem_drainedBefore h
      exact ⟨.tail _ (.tail _ hm), hg⟩

/-- A bad file that no pair has is the odd one, and the only table that goes on. -/
theorem nextRound_bad {name : String} : ∀ {pairIdx : Nat} {files : List String}, name ∈ files →
    bad name = true → badPair bad files = false → name ∈ nextRound id pass pairIdx files ∧
      ∀ t ∈ nextRound id pass pairIdx files, isBin t = true → t = name
  | _, [t], h, _, _ => by
    rw [List.mem_singleton.1 h]
    exact ⟨.head _, fun t ht _ => List.mem_singleton.1 ht⟩
  | pairIdx, left :: right :: rest, h, hb, hp => by
    simp only [badPair, Bool.or_eq_false_iff] at hp
    obtain ⟨⟨hl, hr⟩, hp⟩ := hp
    have hrest : name ∈ rest := by
      rcases List.mem_cons.1 h with rfl | h
      · rw [hl] at hb
        cases hb
      rcases List.mem_cons.1 h with rfl | h
      · rw [hr] at hb
        cases hb
      exact h
    obtain ⟨hm, honly⟩ := nextRound_bad hrest hb hp
    refine ⟨.tail _ hm, fun t ht htb => ?_⟩
    rcases List.mem_cons.1 ht with rfl | ht
    · rw [isBin_tmpName] at htb
      cases htb
    · exact honly t ht htb

/-! ## A pair -/

theorem joinTables_left {left right : TableType} {lName rName : String} {e : CompactionError}
    (h : toDataSection lName left = .error e) :
    joinTables left lName right rName = ([], .error e) := by
  simp only [joinTables, h, error_bind]

theorem joinTables_right {left right : TableType} {lName rName : String} {L : List Record}
    {e : CompactionError} (hl : Holds left L) (h : toDataSection rName right = .error e) :
    joinTables left lName right rName = ([], .error e) := by
  obtain ⟨tail, ht⟩ := hl.dataSection
  simp only [joinTables, ht, h, ok_bind, error_bind]

/-- A pair with a bad file fails when it is opened, and leaves an empty output. -/
theorem exec_joinPair_bad {left right : String} (i : Nat) (hdir : 1 ≤ dir ∧ dir ≤ d.levels)
    (hl : Given d dir bad left) (hr : Given d dir bad right) (h : (bad left || bad right) = true) :
    ∃ e d', Prog.exec (Disk.handler P) (joinPair dir left right (tmpName id pass i)) d =
        (.error e, d') ∧ BinsGone dir [] d d' := by
  obtain ⟨fl, hfl⟩ := hl.file
  obtain ⟨fr, hfr⟩ := hr.file
  have hjoin : ∃ e, joinTables ⟨tableTypeFromName left, fl.bytes⟩ left
      ⟨tableTypeFromName right, fr.bytes⟩ right = ([], .error e) := by
    cases hbl : bad left with
    | true =>
      obtain ⟨f, e, hf, hx⟩ := hl.bad hbl
      obtain rfl := Option.some.inj (hfl.symm.trans hf)
      exact ⟨e, joinTables_left hx⟩
    | false =>
      obtain ⟨L, -, f, hf, hholds⟩ := hl.good hbl
      obtain rfl := Option.some.inj (hfl.symm.trans hf)
      rw [hbl, Bool.false_or] at h
      obtain ⟨g, e, hg, hx⟩ := hr.bad h
      obtain rfl := Option.some.inj (hfr.symm.trans hg)
      exact ⟨e, joinTables_right hholds hx⟩
  obtain ⟨e, hjoin⟩ := hjoin
  let S (p : Path) : Prop := p = ⟨dir, tmpName id pass i⟩
  have hout : S ⟨dir, tmpName id pass i⟩ := rfl
  refine ⟨e, _, ?_, .of_keeps ((Disk.keeps_create (P := P) hout).trans
    (Disk.keeps_append hout [])) fun p hp => ?_⟩
  · rw [exec_joinPair_joined hdir hfl hfr hjoin, Prog.exec_bind_error (Prog.exec_ofExcept _ _ _)]
  · rw [show p = _ from hp]
    exact isBin_tmpName id pass i

/-- A joined pair drains its tables, and touches no other one. -/
theorem BinsGone.of_pair {left right : String} {i : Nat}
    (hk : Disk.Keeps (PairPath dir left right (tmpName id pass i)) d d')
    (hl : RoundFile id pass left) (hr : RoundFile id pass right)
    (hgoneL : isBin left = true → d'.file? ⟨dir, left⟩ = none)
    (hgoneR : isBin right = true → d'.file? ⟨dir, right⟩ = none) :
    BinsGone dir [left, right] d d' := by
  refine ⟨fun name hn hb => ?_, fun p hb hp => hk.file ?_⟩
  · rcases List.mem_cons.1 hn with rfl | hn
    · exact hgoneL hb
    · obtain rfl := List.mem_singleton.1 hn
      exact hgoneR hb
  · rintro ⟨hlevel, he | he | he | he | he⟩
    · exact hp hlevel (he ▸ .head _)
    · rw [he, hl.isBin_drainedName] at hb
      cases hb
    · exact hp hlevel (he ▸ .tail _ (.head _))
    · rw [he, hr.isBin_drainedName] at hb
      cases hb
    · rw [he, isBin_tmpName] at hb
      cases hb

/-! ## A round -/

/-- How a round over such files ends: the tables of the pairs before a bad file are drained. -/
structure RoundEnds (dir id pass pairIdx : Nat) (bad : String → Bool) (files : List String)
    (r : Except CompactionError (List String)) (d d' : Disk) : Prop where
  bins : BinsGone dir (drainedBefore bad files) d d'
  ok : badPair bad files = false → r = .ok (drainedNames files) ∧
    ∀ f ∈ nextRound id pass pairIdx files, Given d' dir bad f
  error : badPair bad files = true → ∃ e, r = .error e

theorem exec_joinRound_given (hbin : ∀ t, bad t = true → isBin t = true) :
    ∀ (pairIdx : Nat) {files : List String} {d : Disk}, 1 ≤ dir ∧ dir ≤ d.levels →
      (∀ f ∈ files, Given d dir bad f) → files.Nodup → (∀ f ∈ files, RoundFile id pass f) →
      ∃ r d', Prog.exec (Disk.handler P) (joinRound dir id pass pairIdx files) d = (r, d') ∧
        RoundEnds dir id pass pairIdx bad files r d d'
  | _, [], d, _, h, _, _ =>
    ⟨_, d, rfl, ⟨.of_keeps (S := fun _ => False) (.refl d) fun _ => False.elim, fun _ => ⟨rfl, h⟩,
      fun hb => by cases hb⟩⟩
  | _, [f], d, _, h, _, _ =>
    ⟨_, d, rfl, ⟨.of_keeps (S := fun _ => False) (.refl d) fun _ => False.elim, fun _ => ⟨rfl, h⟩,
      fun hb => by cases hb⟩⟩
  | pairIdx, left :: right :: rest, d, hdir, h, hnd, hrf => by
    have hl := h left (.head _)
    have hr := h right (.tail _ (.head _))
    have hlf := hrf left (.head _)
    have hrgt := hrf right (.tail _ (.head _))
    have hrf' : ∀ f ∈ rest, RoundFile id pass f := fun f hm => hrf f (.tail _ (.tail _ hm))
    obtain ⟨hlnd, hnd'⟩ := List.nodup_cons.1 hnd
    obtain ⟨-, hnd''⟩ := List.nodup_cons.1 hnd'
    cases hpair : bad left || bad right with
    | true =>
      obtain ⟨e, d', hx, hbins⟩ := exec_joinPair_bad (P := P) pairIdx hdir
        hl hr hpair
      refine ⟨.error e, d', by rw [joinRound, Prog.exec_bind_error hx], ?_, fun hp => ?_, fun _ =>
        ⟨e, rfl⟩⟩
      · rwa [drainedBefore, if_pos hpair]
      · rw [badPair, hpair] at hp
        cases hp
    | false =>
      obtain ⟨hgl, hgr⟩ := Bool.or_eq_false_iff.1 hpair
      obtain ⟨L, hL⟩ := hl.good hgl
      obtain ⟨R, hR⟩ := hr.good hgr
      obtain ⟨d1, hx1, hout, hgoneL, hgoneR⟩ := exec_joinPair (P := P) pairIdx hdir hL hR hlf hrgt
        fun he => hlnd (he ▸ .head _)
      have hk1 := keeps_of_exec (joinPair_pairPath _ _ _) hx1
      have hbins1 := BinsGone.of_pair hk1 hlf hrgt hgoneL hgoneR
      have hrest1 : ∀ f ∈ rest, Given d1 dir bad f := fun f hf =>
        (h f (.tail _ (.tail _ hf))).congr (pair_rest hk1 hnd hrf f hf)
      obtain ⟨r, d2, hx2, hends⟩ := exec_joinRound_given hbin (pairIdx + 1)
        ⟨hdir.1, hdir.2.trans hk1.levels⟩ hrest1 hnd'' hrf'
      have hk2 := keeps_of_exec (joinRound_roundPath _ _) hx2
      have hrec : badPair bad (left :: right :: rest) = badPair bad rest := by
        rw [badPair, hpair, Bool.false_or]
      have hbins : BinsGone dir (drainedBefore bad (left :: right :: rest)) d d2 := by
        rw [drainedBefore, hpair, if_neg Bool.false_ne_true]
        exact hbins1.trans hends.bins
      cases hp : badPair bad rest with
      | true =>
        obtain ⟨e, rfl⟩ := hends.error hp
        refine ⟨.error e, d2, ?_, hbins, fun hp' => ?_, fun _ => ⟨e, rfl⟩⟩
        · rw [joinRound, Prog.exec_bind_ok hx1, Prog.exec_bind_error hx2]
        · rw [hrec, hp] at hp'
          cases hp'
      | false =>
        obtain ⟨rfl, hnext⟩ := hends.ok hp
        refine ⟨.ok (drainedNames (left :: right :: rest)), d2, ?_, hbins,
          fun _ => ⟨rfl, fun f hf => ?_⟩,
          fun hp' => ?_⟩
        · rw [joinRound, Prog.exec_bind_ok hx1, Prog.exec_bind_ok hx2]
          rfl
        · rcases List.mem_cons.1 hf with rfl | hf
          · -- the output of the pair
            have hout2 := (hk2.file (tmpName_not_roundPath (Nat.le_refl _)
              (fun _ => Nat.lt_succ_self _) hrf')).trans hout
            refine ⟨fun _ => ⟨_, hL.joined hR hout2⟩, fun hb => ?_⟩
            have := hbin _ hb
            rw [isBin_tmpName] at this
            cases this
          · exact hnext f hf
        · rw [hrec, hp] at hp'
          cases hp'

/-! ## The rounds -/

theorem exec_joinRounds_bad (hbin : ∀ t, bad t = true → isBin t = true) (pass : Nat)
    (files : List String) (h : 2 ≤ files.length) :
    ∀ {d : Disk} (consumed : List String), 1 ≤ dir ∧ dir ≤ d.levels →
      (∀ f ∈ files, Given d dir bad f) → files.Nodup → (∀ f ∈ files, RoundFile id pass f) →
      (∃ f ∈ files, bad f = true) →
      ∃ e d', Prog.exec (Disk.handler P) (joinRounds dir id pass files consumed) d =
        (.error e, d') ∧ BinsGone dir (drainedBefore bad files) d d' := by
  induction pass, files, h using rounds_induction id with
  | last pass left right h =>
    intro d consumed hdir hgiven hnd hrf hbad
    obtain ⟨f, hf, hb⟩ := hbad
    obtain ⟨r, d', hx, hends⟩ := exec_joinRound_given (P := P) hbin 0 hdir hgiven hnd hrf
    have hpair : badPair bad [left, right] = true := by
      rcases List.mem_cons.1 hf with rfl | hf
      · simp [badPair, hb]
      · simp [badPair, ← List.mem_singleton.1 hf, hb]
    obtain ⟨e, rfl⟩ := hends.error hpair
    exact ⟨e, d', by rw [joinRounds, Prog.exec_bind_error hx], hends.bins⟩
  | more pass left right x rest h ih =>
    intro d consumed hdir hgiven hnd hrf hbad
    obtain ⟨f, hf, hb⟩ := hbad
    obtain ⟨r, d1, hx1, hends⟩ := exec_joinRound_given (P := P) hbin 0 hdir hgiven hnd hrf
    cases hpair : badPair bad (left :: right :: x :: rest) with
    | true =>
      obtain ⟨e, rfl⟩ := hends.error hpair
      exact ⟨e, d1, by rw [joinRounds, Prog.exec_bind_error hx1], hends.bins⟩
    | false =>
      -- the odd file is the bad one; the later rounds drain no table
      obtain ⟨rfl, hnext⟩ := hends.ok hpair
      have hk1 := keeps_of_exec (joinRound_roundPath _ _) hx1
      obtain ⟨hfnext, honly⟩ := nextRound_bad hf hb hpair
      obtain ⟨e, d2, hx2, hbins⟩ := ih (two_le_nextRound id pass left right x rest)
        (consumed ++ drainedNames (left :: right :: x :: rest))
        ⟨hdir.1, hdir.2.trans hk1.levels⟩ hnext (nextRound_nodup hrf hnd) (nextRound_roundFile hrf)
        ⟨f, hfnext, hb⟩
      refine ⟨e, d2, by rw [joinRounds, Prog.exec_bind_ok hx1, hx2], ?_⟩
      refine (hends.bins.trans hbins).congr fun name hname => ?_
      rw [List.mem_append, or_iff_left]
      intro hm
      obtain ⟨hm, hg⟩ := mem_drainedBefore hm
      rw [honly name hm hname, hb] at hg
      cases hg

/-! ## The unit -/

section
variable {outputLevel : Nat} {bloomFalsePositiveRate : F64} {files : List String}

/-- **A unit with a bad table** fails, and the tables of the pairs before it are gone. -/
theorem exec_compact_bad (hbin : ∀ t, bad t = true → isBin t = true) (hlen : 2 ≤ files.length)
    (hdir : 1 ≤ dir ∧ dir ≤ d.levels) (hb : ∀ f ∈ files, isBin f = true)
    (hgiven : ∀ f ∈ files, Given d dir bad f) (hnd : files.Nodup)
    (hbad : ∃ f ∈ files, bad f = true) :
    ∃ e d', Prog.exec (Disk.handler P)
        (compact P id dir outputLevel bloomFalsePositiveRate files) d = (.error e, d') ∧
      BinsGone dir (drainedBefore bad files) d d' := by
  obtain ⟨e, d', hx, hbins⟩ := exec_joinRounds_bad (P := P) hbin 0 files hlen [] hdir
    hgiven hnd (fun f hf => .inl (hb f hf)) hbad
  refine ⟨e, d', ?_, hbins⟩
  rw [compact, Prog.exec_bind_ok (Prog.exec_ensure_pos (not_isEmpty hlen) _),
    Prog.exec_bind_error hx]

variable {runs : List (List Record)}

/-- What a unit touches of the tables of all levels: its own. -/
theorem BinsGone.of_unit {S : Path → Prop} (hk : Disk.Keeps S d d') (hlen : 2 ≤ files.length)
    (hs : ∀ p, S p → UnitPath dir id files p) (hb : ∀ f ∈ files, isBin f = true)
    (hgone : ∀ f ∈ files, d'.file? ⟨dir, f⟩ = none) : BinsGone dir files d d' := by
  refine ⟨fun name hn _ => hgone name hn, fun p hp hn => hk.file fun h => ?_⟩
  have h := hs p h
  have hlevel := h.1
  obtain ⟨level, name⟩ := p
  dsimp only at hp hn hlevel
  subst hlevel
  exact not_unitPath hlen hb hp (hn rfl) h

/-- **A unit whose index does not fit** fails, and its tables are gone. -/
theorem exec_compact_unfit (hlen : 2 ≤ files.length) (hdir : 1 ≤ dir ∧ dir ≤ d.levels)
    (hruns : List.Forall₂ (FileHolds d dir) files runs) (hnd : files.Nodup)
    (hb : ∀ f ∈ files, isBin f = true) (hfits : ¬IndexFits outputLevel (merged runs)) :
    ∃ e d', Prog.exec (Disk.handler P)
        (compact P id dir outputLevel bloomFalsePositiveRate files) d = (.error e, d') ∧
      BinsGone dir files d d' := by
  obtain ⟨d1, hx1, ⟨f, hf, hbytes, -⟩, hgone⟩ := exec_unitRounds (P := P) hlen hdir
    hruns hnd hb
  have hk := keeps_of_exec (joinRounds_roundsPath hlen _) hx1
  have hbuild : ∃ e, buildFromDataSection P f.bytes outputLevel bloomFalsePositiveRate = .error e := by
    rw [hbytes]
    cases h : buildFromDataSection P (encodeSection (merged runs)) outputLevel
        bloomFalsePositiveRate with
    | ok bs => exact absurd ((buildFromDataSection_ok_iff (forall₂_fits hruns)).1 h).1 hfits
    | error e => exact ⟨e, rfl⟩
  obtain ⟨e, hbuild⟩ := hbuild
  have hunit : ∀ p, RoundsPath dir id 0 files p → UnitPath dir id files p := fun p hp => by
    rw [RoundsPath, ← outputName_eq] at hp
    exact hp
  refine ⟨e, d1, ?_, .of_unit hk hlen hunit hb hgone⟩
  rw [exec_compact_built (not_isEmpty hlen) hx1 hf, hbuild]

end

end Compaction
