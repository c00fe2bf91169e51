import SwiftMerge.Compaction.Proof.OwnFiles
import SwiftMerge.Compaction.Proof.StoreReads

/-!
# A compaction and the flushes beside it

While a level is compacted the memtable may be flushed: a table appears in the first level under a
name that it has not had before (`FlushPlace`), and nothing else changes (`Flushed`). The compaction
does not see these tables, so its files end as those of the compaction alone (`Mirrors`), and the
store is the compacted one with the flushed tables in front: readers find in it what they are to find
(`ReadsOk.beside`).
-/

namespace Compaction

open Lib Lsm Mem TableStore

variable {P : Platform} {s v : TableStore} {level : Nat} {c : Cycle} {d d' : Disk} {p q : Path}
  {f g : File}

/-- Where a table may be flushed to from now on. -/
def FlushPlace (s : TableStore) (p : Path) : Prop :=
  p.level = 1 ∧ isBin p.name = true ∧ s.disk.file? p = none

/-- `v` is `s` after flushes. -/
structure Flushed (s v : TableStore) : Prop where
  file : ∀ {p}, ¬FlushPlace s p → v.disk.file? p = s.disk.file? p
  written : ∀ {p}, ¬FlushPlace s p → v.written p = s.written p
  dates : ∀ {p f r}, FlushPlace s p → v.Table p f → r ∈ v.written p → s.since ≤ r.2.2
  created : ∀ {p f}, FlushPlace s p → v.Table p f → s.disk.clock ≤ f.created
  since : s.since ≤ v.since
  clock : s.disk.clock ≤ v.disk.clock

/-! ## The flushes -/

theorem Flushed.refl (s : TableStore) : Flushed s s where
  file _ := rfl
  written _ := rfl
  dates hp ht _ := by cases hp.2.2.symm.trans ht.1
  created hp ht := by cases hp.2.2.symm.trans ht.1
  since := Nat.le_refl _
  clock := Nat.le_refl _

theorem StoreOk.flushPlace (h : StoreOk P s) (hclock : s.disk.clock ≤ d.clock) :
    FlushPlace s (flushPath P d) := by
  refine ⟨rfl, isBin_ssTableName _, ?_⟩
  cases hf : s.disk.file? (flushPath P d) with
  | none => rfl
  | some f =>
    obtain ⟨t, ht, he⟩ := h.flushed _ f ⟨hf, isBin_ssTableName _⟩
    have := P.uuid_inj (ssTableName_inj he)
    omega

theorem Flushed.flush {m : Memtable} {writtenAt : Bytes → Nat} (hs : StoreOk P s)
    (h : Flushed s v) (hv : StoreOk P v) (hdates : ∀ r ∈ records m.inMemoryRepr,
      v.since ≤ writtenAt r.1 ∧ writtenAt r.1 ≤ v.disk.clock) :
    Flushed s (flushedStore P v m writtenAt) := by
  have hplace := hs.flushPlace (P := P) h.clock
  have hne : ∀ {p}, ¬FlushPlace s p → p ≠ flushPath P v.disk := fun hp he => hp (he ▸ hplace)
  have hclock : v.disk.clock ≤ (flushedDisk P m v.disk).clock := flushedDisk_keeps.clock
  refine ⟨fun hp => (flushedDisk_keeps.file (hne hp)).trans (h.file hp), fun hp => ?_,
    fun {p f r} hp ht hr => ?_, fun {p f} hp ht => ?_, (h.since.trans hv.since_le).trans hclock,
    h.clock.trans hclock⟩
  · exact (Function.update_of_ne (hne hp) _ _).trans (h.written hp)
  · by_cases hpath : p = flushPath P v.disk
    · have hw : (flushedStore P v m writtenAt).written p =
          datedRecords m.inMemoryRepr writtenAt := by
        rw [hpath]
        exact Function.update_self ..
      rw [hw] at hr
      obtain ⟨hmem, hdate⟩ := mem_datedRecords.1 hr
      have hsince := (hdates _ hmem).1
      dsimp only at hdate hsince
      rw [hdate]
      exact h.since.trans hsince
    · have hw : (flushedStore P v m writtenAt).written p = v.written p :=
        Function.update_of_ne hpath _ _
      rw [hw] at hr
      exact h.dates hp ⟨(flushedDisk_keeps.file hpath).symm.trans ht.1, ht.2⟩ hr
  · rcases flush_table hv ht with ⟨-, hcreated⟩ | ⟨ht, -⟩
    · rw [hcreated]
      exact h.clock
    · exact h.created hp ht

theorem Flushed.idle (h : Flushed s v) (hk : Disk.Keeps (fun _ => False) v.disk d) :
    Flushed s { v with disk := d } where
  file hp := (hk.file fun h => h).trans (h.file hp)
  written := h.written
  dates hp ht := h.dates hp (idle_table hk ht)
  created hp ht := h.created hp (idle_table hk ht)
  since := h.since
  clock := h.clock.trans hk.clock

theorem StoreOk.ownFiles (hpos : 1 ≤ level) (hnames : c.tableNames = levelTables s.disk level) :
    OwnFiles (fun p => ¬FlushPlace s p) level c.tableNames where
  given name hname hp := by
    rw [hnames, mem_levelTables] at hname
    obtain ⟨-, f, hf⟩ := hname
    cases hp.2.2.symm.trans hf
  tmp name hb hp := by
    rw [hp.2.1] at hb
    cases hb
  next name hp := by
    have := hp.1
    dsimp only at this
    omega

/-- On `d`, what is left of a compaction goes on as it would alone, from the tables `s` to `d'`. -/
abbrev GoesOn (P : Platform) (s : TableStore) (level : Nat) (rest : CompactionProg Unit)
    (d d' : Disk) : Prop :=
  Prog.Follows (Disk.handler P) (DiskOp.Own (fun p => ¬FlushPlace s p) (level + 1)) DiskOp.Agree
    (fun d t => ∃ φ, Mirrors (fun p => ¬FlushPlace s p) (level + 1) s.disk.clock φ d t) rest d
    (.ok (), d')

theorem Compacts.goesOn (hc : Compacts P s level c d') : GoesOn P s level
    (sizeTierCompaction P c.targetChunks c.bloomFalsePositiveRate level c.tableNames) s.disk d' := by
  have halike := sizeTierCompaction_alike (P := P) (StoreOk.ownFiles (s := s) hc.pos hc.names)
    c.targetChunks c.bloomFalsePositiveRate
  exact ⟨_, s.disk, halike, hc.errorFree.returns, id, .refl _ _ s.disk⟩

theorem StoreOk.mirrors_flush {m : Memtable} {φ : Nat → Nat} {t : Disk} (h : StoreOk P s)
    (hm : Mirrors (fun p => ¬FlushPlace s p) (level + 1) s.disk.clock φ d t) (hpos : 1 ≤ level)
    (hdir : 1 ≤ d.levels) :
    Mirrors (fun p => ¬FlushPlace s p) (level + 1) s.disk.clock φ (flushedDisk P m d) t := by
  have hplace := h.flushPlace (P := P) hm.clock.1
  refine hm.move (fun hp => flushedDisk_keeps.file fun he => hp (he ▸ hplace)) ?_ ?_
    flushedDisk_keeps.clock
  · have hlevel : (flushPath P d).level ≠ level + 1 := by
      change 1 ≠ level + 1
      omega
    exact names_write (d := withL1 d) hlevel _
  · rw [levels_flushedDisk, Nat.max_eq_left hdir]

/-! ## The end of the compaction -/

/-- What holds when the compaction alone would end on `d'` and ends on `d` beside the flushes. -/
structure EndsBeside (P : Platform) (s v : TableStore) (level : Nat) (c : Cycle) (d' d : Disk) :
    Prop where
  compacts : Compacts P s level c d'
  flushed : Flushed s v
  mirrors : ∃ φ, Mirrors (fun p => ¬FlushPlace s p) (level + 1) s.disk.clock φ d d'
  place : ∀ {p}, FlushPlace s p → d.file? p = v.disk.file? p
  clock : d.clock = v.disk.clock

namespace EndsBeside

variable (h : StoreOk P s) (he : EndsBeside P s v level c d' d)
include he

theorem not_promoted (hp : FlushPlace s p) (j : Nat) (u : List String) :
    p ≠ promotedPath level j u := by
  intro hpath
  have hlevel := hp.1
  have := he.compacts.pos
  rw [hpath] at hlevel
  dsimp only [promotedPath] at hlevel
  omega

theorem written_place (hp : FlushPlace s p) : (compacted v level c d).written p = v.written p :=
  Compacts.written_other fun j u _ => he.not_promoted hp j u

include h

theorem written_own (hp : ¬FlushPlace s p) :
    (compacted v level c d).written p = (compacted s level c d').written p := by
  by_cases hout : ∃ j u, c.units[j]? = some u ∧ p = promotedPath level j u
  · obtain ⟨j, u, hj, rfl⟩ := hout
    have hu : ∀ name ∈ u, v.written ⟨level, name⟩ = s.written ⟨level, name⟩ := by
      intro name hn
      obtain ⟨f, ht⟩ := he.compacts.table_mem h (List.mem_of_getElem? hj) hn
      exact he.flushed.written fun hplace => by cases hplace.2.2.symm.trans ht.1
    rw [Compacts.written_output hj, Compacts.written_output hj, unitRecords, unitRecords,
      List.map_congr_left hu]
  · have hother : ∀ j u, c.units[j]? = some u → p ≠ promotedPath level j u :=
      fun j u hj hpath => hout ⟨j, u, hj, hpath⟩
    rw [Compacts.written_other hother, Compacts.written_other hother, he.flushed.written hp]

omit h in
theorem source_place (hp : FlushPlace s p) : (compacted v level c d).source p = v.source p := by
  funext k
  rw [source, source, he.written_place hp]

theorem source_own (hp : ¬FlushPlace s p) :
    (compacted v level c d).source p = (compacted s level c d').source p := by
  funext k
  rw [source, source, he.written_own h hp]

/-- The compaction alone makes no file where a table may be flushed to. -/
theorem not_place (hf : d'.file? p = some f) : ¬FlushPlace s p := by
  intro hp
  have hpos := he.compacts.pos
  rcases compact_file (he.compacts.done h) hf with ⟨j, u, -, hpath⟩ | hpath | ⟨hs, -, -⟩
  · exact he.not_promoted hp j u hpath
  · have hlevel := hp.1
    rw [hpath] at hlevel
    dsimp only at hlevel
    omega
  · cases hp.2.2.symm.trans hs

omit h in
theorem table_place (hp : FlushPlace s p) (ht : (compacted v level c d).Table p f) : v.Table p f :=
  ⟨(he.place hp).symm.trans ht.1, ht.2⟩

omit h he in
/-- Every other table is one of the compaction alone. -/
theorem table_alone {φ : Nat → Nat}
    (hm : Mirrors (fun p => ¬FlushPlace s p) (level + 1) s.disk.clock φ d d')
    (hp : ¬FlushPlace s p) (ht : (compacted v level c d).Table p f) :
    (compacted s level c d').Table p (f.restamp φ) :=
  ⟨hm.file_some hp ht.1, ht.2⟩

theorem table_own (ht : (compacted s level c d').Table p g) :
    ∃ f, (compacted v level c d).Table p f := by
  obtain ⟨φ, hm⟩ := he.mirrors
  have hd' : d'.file? p = some g := ht.1
  rw [hm.file (he.not_place h hd')] at hd'
  obtain ⟨f, hf, -⟩ := Option.map_eq_some_iff.1 hd'
  exact ⟨f, hf, ht.2⟩

/-- A flushed table has later writes than those of the compaction. -/
theorem place_newer (hp : FlushPlace s p) (ht : v.Table p f) (hq : ¬FlushPlace s q) :
    Newer ((compacted v level c d).source p) ((compacted v level c d).source q) := by
  rw [he.source_place hp, he.source_own h hq]
  intro k x t x' t' hk hk'
  have hnew := he.flushed.dates hp ht (mem_of_lookup hk)
  have hold := (Compacts.ok h he.compacts).dates q _ (mem_of_lookup hk')
  exact hold.trans_le hnew

/-- A table of the first level that is not flushed beside it was there before. -/
theorem file_first {φ : Nat → Nat}
    (hm : Mirrors (fun p => ¬FlushPlace s p) (level + 1) s.disk.clock φ d d')
    (hp : ¬FlushPlace s p) (hlevel : p.level = 1) (ht : (compacted v level c d).Table p f) :
    s.disk.file? p = some (f.restamp φ) := by
  have hpos := he.compacts.pos
  have halone := table_alone hm hp ht
  rcases compact_file (he.compacts.done h) halone.1 with ⟨j, u, -, hpath⟩ | hpath | ⟨hs, -, -⟩
  · rw [hpath] at hlevel
    dsimp only [promotedPath] at hlevel
    omega
  · rw [hpath] at hlevel
    dsimp only at hlevel
    omega
  · exact hs

/-- The tables of the first level are those of the store without the compaction. -/
theorem table_first (hlevel : p.level = 1) (ht : (compacted v level c d).Table p f) :
    v.Table p f ∧ (compacted v level c d).written p = v.written p := by
  by_cases hp : FlushPlace s p
  · exact ⟨he.table_place hp ht, he.written_place hp⟩
  · obtain ⟨φ, hm⟩ := he.mirrors
    have hs := he.file_first h hm hp hlevel ht
    -- it was created before the compaction, at the same instant in both stores
    have hlt : φ f.created < s.disk.clock := s.disk.stamped.created_lt hs
    have hold : f.created < s.disk.clock := by
      by_contra hge
      exact absurd hlt (Nat.not_lt.2 (hm.new _ (Nat.not_lt.1 hge)))
    have hsame : f.restamp φ = f := by rw [File.restamp, hm.old _ hold]
    rw [hsame] at hs
    refine ⟨⟨(he.flushed.file hp).trans hs, ht.2⟩, Compacts.written_other fun j u _ hpath => ?_⟩
    have hpos := he.compacts.pos
    rw [hpath] at hlevel
    dsimp only [promotedPath] at hlevel
    omega

/-- **A reader tells the tables apart** that are left by a compaction between flushes, if it would
those of the flushes and those of the compaction alone, which leaves one in each further level. -/
theorem readable (hv : v.Readable) (hw : (compacted s level c d').Readable)
    (hone : ∀ p q f g, (compacted s level c d').Table p f → (compacted s level c d').Table q g →
      p.level = q.level → p.level ≠ 1 → p = q) : (compacted v level c d).Readable := by
  obtain ⟨φ, hm⟩ := he.mirrors
  have hplace : ∀ {p}, p.level ≠ 1 → ¬FlushPlace s p := fun hp hplace => hp hplace.1
  refine ⟨fun p f ht => ?_, fun p f ht => ?_, fun p q f g hp hq hne hl hsec => ?_⟩
  · by_cases hp : p.level = 1
    · exact hv.size p f (he.table_first h hp ht).1
    · have hsize := hw.size p _ (table_alone hm (hplace hp) ht)
      exact hsize
  · by_cases hp : p.level = 1
    · obtain ⟨htv, hwritten⟩ := he.table_first h hp ht
      rw [hwritten]
      exact hv.short p f htv
    · rw [he.written_own h (hplace hp)]
      exact hw.short p _ (table_alone hm (hplace hp) ht)
  · by_cases hpl : p.level = 1
    · obtain ⟨hpv, hpw⟩ := he.table_first h hpl hp
      obtain ⟨hqv, hqw⟩ := he.table_first h (hl ▸ hpl) hq
      rw [hpw, hqw]
      exact hv.apart p q f g hpv hqv hne hl hsec
    · have hql : q.level ≠ 1 := hl ▸ hpl
      exact absurd (hone p q _ _ (table_alone hm (hplace hpl) hp) (table_alone hm (hplace hql) hq)
        hl hpl) hne

/-! ### What readers find -/

theorem storeOk (hv : StoreOk P v) : StoreOk P (compacted v level c d) := by
  have hw := Compacts.ok h he.compacts
  obtain ⟨φ, hm⟩ := he.mirrors
  have hpos := he.compacts.pos
  have hclock : v.since ≤ d.clock := he.clock ▸ hv.since_le
  refine ⟨fun p f ht => ?_, fun p f hf => ?_, fun p f hf => ?_, fun name f ht => ?_,
    fun p r hr => ?_, hclock⟩
  · by_cases hp : FlushPlace s p
    · rw [he.written_place hp]
      exact hv.faithful p f (he.table_place hp ht)
    · rw [he.written_own h hp]
      have hfaithful := hw.faithful p _ (table_alone hm hp ht)
      exact hfaithful
  · by_cases hp : FlushPlace s p
    · exact .inl hp.2.1
    · have hd' := hm.file_some hp hf
      exact hw.names p _ hd'
  · by_cases hp : FlushPlace s p
    · exact hp.1.ge
    · have hd' := hm.file_some hp hf
      exact hw.level_pos p _ hd'
  · by_cases hp : FlushPlace s ⟨1, name⟩
    · obtain ⟨t, ht', he'⟩ := hv.flushed name f (he.table_place hp ht)
      exact ⟨t, ht'.trans_eq he.clock.symm, he'⟩
    · obtain ⟨t, ht', he'⟩ := h.flushed name _ ⟨he.file_first h hm hp rfl ht, ht.2⟩
      exact ⟨t, ht'.trans_le hm.clock.1, he'⟩
  · by_cases hp : FlushPlace s p
    · rw [he.written_place hp] at hr
      exact hv.dates p r hr
    · rw [he.written_own h hp] at hr
      exact (hw.dates p r hr).trans_le he.flushed.since

theorem loadOk (hs : LoadOk P s) (hv : LoadOk P v)
    (hnonempty : ∀ u ∈ c.units, unitRecords s.written level u ≠ []) :
    LoadOk P (compacted v level c d) := by
  have hw := hs.compact he.compacts hnonempty
  obtain ⟨φ, hm⟩ := he.mirrors
  refine ⟨he.storeOk h hv.ok, fun p f hf => ?_, fun p f ht hsize => ?_⟩
  · by_cases hp : FlushPlace s p
    · have hdir := he.compacts.pos.trans he.compacts.dir
      have hlevels := (Disk.exec_keeps (P := P) (d := s.disk) (sizeTierCompaction_within P
        c.targetChunks c.bloomFalsePositiveRate level c.tableNames)).1.levels
      rw [he.compacts.errorFree.returns] at hlevels
      change p.level ≤ d.levels
      rw [← hm.levels, hp.1]
      exact hdir.trans hlevels
    · have hd' := hm.file_some hp hf
      exact (hw.dirs p _ hd').trans_eq hm.levels
  · by_cases hp : FlushPlace s p
    · rw [he.written_place hp]
      exact hv.loadable p f (he.table_place hp ht) hsize
    · rw [he.written_own h hp]
      have hloadable := hw.loadable p _ (table_alone hm hp ht) hsize
      exact hloadable

theorem levelsByAge (hv : StoreOk P v) (hw : (compacted s level c d').LevelsByAge) :
    (compacted v level c d).LevelsByAge := by
  obtain ⟨φ, hm⟩ := he.mirrors
  refine ⟨(he.storeOk h hv).faithful, fun p q f g hp hq hlt => ?_⟩
  by_cases hpp : FlushPlace s p
  · by_cases hqp : FlushPlace s q
    · have := hpp.1.trans hqp.1.symm
      omega
    · exact he.place_newer h hpp (he.table_place hpp hp) hqp
  · by_cases hqp : FlushPlace s q
    · have := (he.storeOk h hv).level_pos p f hp.1
      have := hqp.1
      omega
    · have hnewer := hw.newer p q _ _ (table_alone hm hpp hp) (table_alone hm hqp hq) hlt
      rwa [he.source_own h hpp, he.source_own h hqp]

theorem createdByAge (hv : StoreOk P v) (hw : (compacted s level c d').CreatedByAge)
    (hvc : v.CreatedByAge) : (compacted v level c d).CreatedByAge := by
  obtain ⟨φ, hm⟩ := he.mirrors
  refine ⟨(he.storeOk h hv).faithful, fun p q f g hp hq hl hlt => ?_⟩
  by_cases hpp : FlushPlace s p
  · by_cases hqp : FlushPlace s q
    · have hnewer := hvc.newer p q f g (he.table_place hpp hp) (he.table_place hqp hq) hl hlt
      rwa [he.source_place hpp, he.source_place hqp]
    · exact he.place_newer h hpp (he.table_place hpp hp) hqp
  · by_cases hqp : FlushPlace s q
    · -- what is flushed beside it is created later
      have hnew := he.flushed.created hqp (he.table_place hqp hq)
      have hold := s.disk.stamped.created_lt (he.file_first h hm hpp (hl.trans hqp.1) hp)
      by_cases hbefore : f.created < s.disk.clock
      · omega
      · exact absurd hold (Nat.not_lt.2 (hm.new f.created (Nat.not_lt.1 hbefore)))
    · have horder := hm.order hqp hpp hq.1 hp.1 hlt
      have hnewer := hw.newer p q _ _ (table_alone hm hpp hp) (table_alone hm hqp hq) hl horder
      rwa [he.source_own h hpp, he.source_own h hqp]

theorem records_subset : (compacted v level c d).records ⊆ v.records := by
  rintro x ⟨p, f, ht, hx⟩
  obtain ⟨φ, hm⟩ := he.mirrors
  by_cases hp : FlushPlace s p
  · rw [he.written_place hp] at hx
    exact ⟨p, f, he.table_place hp ht, hx⟩
  · rw [he.written_own h hp] at hx
    obtain ⟨q, g, hq, hx⟩ := Compacts.records_subset h he.compacts ⟨p, _, table_alone hm hp ht, hx⟩
    have hqp : ¬FlushPlace s q := fun hqp => by cases hqp.2.2.symm.trans hq.1
    exact ⟨q, g, ⟨(he.flushed.file hqp).trans hq.1, hq.2⟩, (he.flushed.written hqp).symm ▸ hx⟩

theorem keeps_latest (ha : s.CreatedByAge) (hk : LosesNothing s level c) {k : Bytes}
    {r : Bytes × Nat} (hlatest : Latest v.records k r) :
    (k, r) ∈ (compacted v level c d).records := by
  have hsub : s.records ⊆ v.records := by
    rintro x ⟨p, f, ht, hx⟩
    have hp : ¬FlushPlace s p := fun hp => by cases hp.2.2.symm.trans ht.1
    exact ⟨p, f, ⟨(he.flushed.file hp).trans ht.1, ht.2⟩, (he.flushed.written hp).symm ▸ hx⟩
  obtain ⟨p, f, ht, hr⟩ := hlatest.mem
  by_cases hp : FlushPlace s p
  · refine ⟨p, f, ⟨(he.place hp).trans ht.1, ht.2⟩, ?_⟩
    rwa [he.written_place hp]
  · have hs : (k, r) ∈ s.records := by
      rw [he.flushed.written hp] at hr
      exact ⟨p, f, ⟨(he.flushed.file hp).symm.trans ht.1, ht.2⟩, hr⟩
    obtain ⟨q, g, hq, hr⟩ := Compacts.keeps_latest h he.compacts ha hk (hlatest.subset hsub hs)
    obtain ⟨f', hf'⟩ := he.table_own h hq
    refine ⟨q, f', hf', ?_⟩
    rwa [he.written_own h (he.not_place h hq.1)]

end EndsBeside

/-- **A compaction between flushes keeps what readers find**, if it would alone. -/
theorem ReadsOk.beside {before events : List StoreEvent} (hs : ReadsOk P before s)
    (hv : ReadsOk P events v) (he : EndsBeside P s v level c d' d)
    (hkeeps : KeepsReads s (.compact level c)) : ReadsOk P events (compacted v level c d) := by
  have hw := hs.compact he.compacts hkeeps
  exact ⟨he.loadOk hs.ok hs.toLoadOk hv.toLoadOk hkeeps.2.2.nonempty,
    he.levelsByAge hs.ok hv.ok hw.levels, he.createdByAge hs.ok hv.ok hw.created hv.created,
    hv.view.subset (he.records_subset hs.ok) fun _ _ hlatest =>
      he.keeps_latest hs.ok hs.created hkeeps.2.2 hlatest⟩

end Compaction
