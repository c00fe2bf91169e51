import SwiftMerge.Compaction.Proof.Promotion
import SwiftMerge.Compaction.Proof.StoreProof

/-!
# Recency in the tables of a store

Readers take the first record of a key that they find: level by level, and within a level the table
created last first. Each of the two orders is kept by a flush, and by a compaction exactly when it
takes its inputs by age: for the levels, when the table it leaves out is newer than the ones it moves
(`levelsByAge_compact_iff`); for the creation order, when every unit is newer than the units before
it and than what it joins in the next level (`createdByAge_compact_iff`). So each holds in every
state of a run exactly when every compaction of the run meets its condition.
-/

namespace Compaction

open Lib Lsm Mem TableStore

variable {P : Platform} {s s' : TableStore} {level : Nat} {c : Cycle} {d' : Disk}

/-! ## A flush -/

/-- The store after a flush. -/
def flushedStore (P : Platform) (s : TableStore) (m : Memtable) (writtenAt : Bytes → Nat) :
    TableStore :=
  ⟨flushedDisk P m s.disk, Function.update s.written (flushPath P s.disk)
    (datedRecords m.inMemoryRepr writtenAt), (flushedDisk P m s.disk).clock⟩

section
variable {m : Memtable} {writtenAt : Bytes → Nat}

/-- **The tables after a flush**: the new one, created last, and those before it. -/
theorem flush_table (h : StoreOk P s) {p : Path} {f : File}
    (ht : (flushedStore P s m writtenAt).Table p f) :
    (p = flushPath P s.disk ∧ f.created = s.disk.clock) ∨
    (s.Table p f ∧ (flushedStore P s m writtenAt).source p = s.source p) := by
  have hfile := file?_flushedDisk (P := P) (m := m) h.flushPath_new
  by_cases hp : p = flushPath P s.disk
  · subst hp
    obtain rfl := Option.some.inj (hfile.symm.trans ht.1)
    exact .inl ⟨rfl, rfl⟩
  · refine .inr ⟨⟨(flushedDisk_keeps.file hp).symm.trans ht.1, ht.2⟩, ?_⟩
    funext k
    rw [source, flushedStore]
    dsimp only
    rw [Function.update_of_ne hp]
    rfl

/-- The new table has later writes than every other one. -/
theorem flush_newer (h : StoreOk P s) (hdates : ∀ r ∈ records m.inMemoryRepr,
    s.since ≤ writtenAt r.1 ∧ writtenAt r.1 ≤ s.disk.clock) (p : Path) :
    Newer ((flushedStore P s m writtenAt).source (flushPath P s.disk)) (s.source p) := by
  intro k v t v' t' hv hv'
  rw [source, flushedStore] at hv
  dsimp only at hv
  rw [Function.update_self] at hv
  obtain ⟨r, hr, he⟩ := List.mem_map.1 (mem_of_lookup hv)
  obtain ⟨rfl, rfl, rfl⟩ : r.1 = k ∧ r.2 = v ∧ writtenAt r.1 = t := by simpa using he
  exact (h.dates p _ (mem_of_lookup hv')).trans_le (hdates r hr).1

theorem LevelsByAge.flush (h : StoreOk P s) (ha : s.LevelsByAge)
    (hfits : FlushFits P m.inMemoryRepr) (hdates : ∀ r ∈ records m.inMemoryRepr,
      s.since ≤ writtenAt r.1 ∧ writtenAt r.1 ≤ s.disk.clock) :
    (flushedStore P s m writtenAt).LevelsByAge := by
  refine ⟨(h.flush hfits hdates).faithful, fun p q f g hp hq hlt => ?_⟩
  rcases flush_table h hp with ⟨rfl, -⟩ | ⟨hp, hsp⟩
  · rcases flush_table h hq with ⟨rfl, -⟩ | ⟨-, hsq⟩
    · exact absurd hlt (Nat.lt_irrefl _)
    · rw [hsq]
      exact flush_newer h hdates q
  · rcases flush_table h hq with ⟨rfl, -⟩ | ⟨hq, hsq⟩
    · have := h.level_pos p f hp.1
      exact absurd hlt (Nat.not_lt.2 this)
    · rw [hsp, hsq]
      exact ha.newer p q f g hp hq hlt

theorem CreatedByAge.flush (h : StoreOk P s) (ha : s.CreatedByAge)
    (hfits : FlushFits P m.inMemoryRepr) (hdates : ∀ r ∈ records m.inMemoryRepr,
      s.since ≤ writtenAt r.1 ∧ writtenAt r.1 ≤ s.disk.clock) :
    (flushedStore P s m writtenAt).CreatedByAge := by
  refine ⟨(h.flush hfits hdates).faithful, fun p q f g hp hq hl hlt => ?_⟩
  rcases flush_table h hp with ⟨rfl, hf⟩ | ⟨hp, hsp⟩
  · rcases flush_table h hq with ⟨-, hg⟩ | ⟨-, hsq⟩
    · omega
    · rw [hsq]
      exact flush_newer h hdates q
  · rcases flush_table h hq with ⟨-, hg⟩ | ⟨hq, hsq⟩
    · have := s.disk.stamped.created_lt hp.1
      omega
    · rw [hsp, hsq]
      exact ha.newer p q f g hp hq hl hlt

end

/-! ## A compaction -/

section
variable (h : StoreOk P s) (hc : Compacts P s level c d')
include h hc

theorem Compacts.leftOut {name : String} (hn : name ∈ c.tableNames) (hout : name ∉ c.units.flatten) :
    ∃ f, (compacted s level c d').Table ⟨level, name⟩ f := by
  have hready := hc.ready h
  rw [hc.names, mem_levelTables] at hn
  obtain ⟨hdot, f, hf⟩ := hn
  have hb : isBin name := by
    rcases h.names _ f hf with hb | hb
    · exact hb
    · rw [show name = levelFilterName from hb] at hdot
      exact absurd hdot lastDotPart_levelFilterName
  refine ⟨f, ?_, hb⟩
  change d'.file? _ = _
  rw [(hc.done h).frame.file, hf]
  rintro (⟨j, u, hj, hp | hp⟩ | hp)
  · have hu := List.mem_of_getElem? hj
    exact not_unitPath (hready.len u hu) (hready.bin u hu) hb
      (fun hm => hout (List.mem_flatten.2 ⟨u, hu, hm⟩)) hp
  · exact next_level_ne hp
  · exact next_level_ne hp

/-- A table of the next level stays unless an output takes its name. -/
theorem Compacts.stays {name : String} {f : File} (ht : s.Table ⟨level + 1, name⟩ f)
    (hout : name ∉ c.outputs) : (compacted s level c d').Table ⟨level + 1, name⟩ f := by
  refine ⟨?_, ht.2⟩
  change d'.file? _ = _
  rw [(hc.done h).frame.file]
  · exact ht.1
  · rintro (⟨j, u, hj, hp | hp⟩ | hp)
    · have := hp.1
      dsimp only at this
      omega
    · apply hout
      refine List.mem_map.2 ⟨_, mem_unitOutputs.2 ⟨j, u, hj, rfl⟩, ?_⟩
      rw [Nat.zero_add]
      exact (congrArg Path.name hp).symm
    · rw [show name = levelFilterName from congrArg Path.name hp] at ht
      exact absurd (isBin_levelFilterName.symm.trans ht.2) (by decide)

omit h hc in
theorem Compacts.source_stays {p : Path}
    (hp : ∀ j u, c.units[j]? = some u → p ≠ promotedPath level j u) :
    (compacted s level c d').source p = s.source p := by
  funext k
  rw [source, written_other hp]
  rfl

/-- **The level order** is kept by a compaction exactly when the table it leaves out is newer than
the units. -/
theorem levelsByAge_compact_iff (ha : s.LevelsByAge) :
    (compacted s level c d').LevelsByAge ↔ LeftOutNewer s (.compact level c) := by
  constructor
  · intro hq name hn hout u hu
    obtain ⟨f, hf⟩ := hc.leftOut h hn hout
    obtain ⟨j, hj⟩ := List.getElem?_of_mem hu
    obtain ⟨g, hg, -⟩ := hc.output h hj
    have hnewer := hq.newer _ _ f g hf hg (Nat.lt_succ_self _)
    rwa [Compacts.source_stays fun j u _ => next_level_ne, hc.source_output h hj] at hnewer
  · intro hleft
    refine ⟨(Compacts.ok h hc).faithful, fun p q f g hp hq hlt => ?_⟩
    rcases hc.table_cases h hp with ⟨i, u, hi, rfl⟩ | ⟨hp, hsp, hpl, -⟩
    · -- an output was above what lies below the next level
      have hu := List.mem_of_getElem? hi
      rcases hc.table_cases h hq with ⟨j, v, -, rfl⟩ | ⟨hq, hsq, -⟩
      · exact absurd hlt (Nat.lt_irrefl _)
      · rw [hc.source_output h hi, hsq]
        refine .of_left (hc.fromSome h hu) fun a ⟨name, hn, ha'⟩ => ?_
        obtain ⟨f', hf'⟩ := hc.table_mem h hu hn
        rw [ha']
        exact ha.newer _ _ f' g hf' hq ((Nat.lt_succ_self level).trans hlt)
    · rcases hc.table_cases h hq with ⟨j, v, hj, rfl⟩ | ⟨hq, hsq, -⟩
      · have hv := List.mem_of_getElem? hj
        rw [hsp, hc.source_output h hj]
        rcases Nat.lt_succ_iff_lt_or_eq.1 hlt with hlt | heq
        · refine .of_right (hc.fromSome h hv) fun a ⟨name, hn, ha'⟩ => ?_
          obtain ⟨g', hg'⟩ := hc.table_mem h hv hn
          rw [ha']
          exact ha.newer _ _ f g' hp hg' hlt
        · obtain ⟨hn, hout⟩ := hpl heq
          obtain ⟨pl, pn⟩ := p
          dsimp only at heq hn hout
          subst heq
          exact hleft pn hn hout v hv
      · rw [hsp, hsq]
        exact ha.newer p q f g hp hq hlt

/-- **The creation order** is kept by a compaction exactly when its outputs are created in the order
of their writes. -/
theorem createdByAge_compact_iff (ha : s.CreatedByAge) :
    (compacted s level c d').CreatedByAge ↔ OutputsByAge s (.compact level c) := by
  have hordered := (hc.done h).ordered
  constructor
  · intro hq
    constructor
    · intro i j u v hij hi hj
      obtain ⟨f, hf, -⟩ := hc.output h hi
      obtain ⟨g, hg, -⟩ := hc.output h hj
      have hnewer := hq.newer _ _ g f hg hf rfl (hordered i j u v f g hij hi hj hf.1 hg.1)
      rwa [hc.source_output h hi, hc.source_output h hj] at hnewer
    · intro name f hf hout u hu
      obtain ⟨j, hj⟩ := List.getElem?_of_mem hu
      obtain ⟨g, hg, hcreated⟩ := hc.output h hj
      have hother : ∀ j u, c.units[j]? = some u → (⟨level + 1, name⟩ : Path) ≠
          promotedPath level j u := by
        intro i v hi he
        apply hout
        refine List.mem_map.2 ⟨_, mem_unitOutputs.2 ⟨i, v, hi, rfl⟩, ?_⟩
        rw [Nat.zero_add]
        exact (congrArg Path.name he).symm
      have hnewer := hq.newer _ _ g f hg (hc.stays h hf hout) rfl
        ((s.disk.stamped.created_lt hf.1).trans_le hcreated)
      rwa [hc.source_output h hj, Compacts.source_stays hother] at hnewer
  · intro hage
    refine ⟨(Compacts.ok h hc).faithful, fun p q f g hp hq hl hlt => ?_⟩
    have hpf := hp.1
    have hqg := hq.1
    rcases hc.table_cases h hp with ⟨i, u, hi, rfl⟩ | ⟨hp, hsp, -⟩
    · rw [hc.source_output h hi]
      rcases hc.table_cases h hq with ⟨j, v, hj, rfl⟩ | ⟨hq, hsq, -, hout⟩
      · rw [hc.source_output h hj]
        -- the output created later is of the later unit
        rcases Nat.lt_trichotomy i j with hij | rfl | hij
        · exact absurd (hordered i j u v f g hij hi hj hpf hqg) (Nat.not_lt.2 hlt.le)
        · rw [hi, Option.some.injEq] at hj
          subst hj
          obtain rfl := Option.some.inj (hpf.symm.trans hqg)
          exact absurd hlt (Nat.lt_irrefl _)
        · exact hage.units j i v u hij hj hi
      · rw [hsq]
        obtain ⟨ql, qn⟩ := q
        dsimp only at hl
        subst hl
        exact hage.next qn g hq (hout rfl) u (List.mem_of_getElem? hi)
    · rcases hc.table_cases h hq with ⟨j, v, hj, rfl⟩ | ⟨hq, hsq, -⟩
      · -- an output is created after every table that was there
        obtain ⟨g', hg', hcreated⟩ := hc.output h hj
        obtain rfl := Option.some.inj (hg'.1.symm.trans hqg)
        have := s.disk.stamped.created_lt hp.1
        omega
      · rw [hsp, hsq]
        exact ha.newer p q f g hp hq hl hlt

end

/-! ## Runs -/

theorem EmptyStore.no_table (h : EmptyStore s) {p : Path} {f : File} : ¬s.Table p f := by
  intro ht
  have hf := ht.1
  rw [Disk.file?, h.1, AList.lookup_empty] at hf
  cases hf

theorem EmptyStore.levelsByAge (h : EmptyStore s) : s.LevelsByAge :=
  ⟨fun _ _ ht => absurd ht h.no_table, fun _ _ _ _ ht => absurd ht h.no_table⟩

theorem EmptyStore.createdByAge (h : EmptyStore s) : s.CreatedByAge :=
  ⟨fun _ _ ht => absurd ht h.no_table, fun _ _ _ _ ht => absurd ht h.no_table⟩

/-- A step that keeps the files keeps what is said of them. -/
theorem idle_table (hk : Disk.Keeps (fun _ => False) s.disk d') {p : Path} {f : File}
    (ht : ({ s with disk := d' } : TableStore).Table p f) : s.Table p f :=
  ⟨(hk.file fun h => h).symm.trans ht.1, ht.2⟩

theorem LevelsByAge.step {e : StoreEvent} (h : StoreOk P s) (ha : s.LevelsByAge)
    (hs : StoreStep P s e s') : s'.LevelsByAge ↔ LeftOutNewer s e := by
  cases hs with
  | flush hx hfits hdates =>
    rw [exec_flush (flushable_of_exec hx), Prod.mk.injEq, Prod.mk.injEq] at hx
    obtain ⟨-, -, rfl⟩ := hx
    exact iff_of_true (LevelsByAge.flush h ha hfits hdates) trivial
  | compact hlevel hdir _ hnames herr =>
    exact levelsByAge_compact_iff h ⟨hlevel.1, hdir, hnames, herr⟩ ha
  | idle hk => exact iff_of_true ⟨(h.idle hk).faithful, fun p q f g hp hq hlt =>
      ha.newer p q f g (idle_table hk hp) (idle_table hk hq) hlt⟩ trivial

theorem CreatedByAge.step {e : StoreEvent} (h : StoreOk P s) (ha : s.CreatedByAge)
    (hs : StoreStep P s e s') : s'.CreatedByAge ↔ OutputsByAge s e := by
  cases hs with
  | flush hx hfits hdates =>
    rw [exec_flush (flushable_of_exec hx), Prod.mk.injEq, Prod.mk.injEq] at hx
    obtain ⟨-, -, rfl⟩ := hx
    exact iff_of_true (CreatedByAge.flush h ha hfits hdates) trivial
  | compact hlevel hdir _ hnames herr =>
    exact createdByAge_compact_iff h ⟨hlevel.1, hdir, hnames, herr⟩ ha
  | idle hk => exact iff_of_true ⟨(h.idle hk).faithful, fun p q f g hp hq hl hlt =>
      ha.newer p q f g (idle_table hk hp) (idle_table hk hq) hl hlt⟩ trivial

/-- **The levels are by age in every state of a run exactly when every compaction leaves out a newer
table.** -/
theorem always_levelsByAge_iff {h : List (StoreEvent × TableStore)} (hr : StoreRun P h s) :
    Always (fun _ s => s.LevelsByAge) h s ↔ ∀ x ∈ h, LeftOutNewer x.2 x.1 := by
  refine hr.always_iff (I := fun _ s => StoreOk P s ∧ s.LevelsByAge) (C := LeftOutNewer)
    (fun hs => ⟨.start hs, hs.levelsByAge⟩) ?_ And.right ?_
  · intro h s e s' hinv hs hc
    exact ⟨hinv.1.step hs, (LevelsByAge.step hinv.1 hinv.2 hs).2 hc⟩
  · intro h s e s' hinv hs hq
    exact (LevelsByAge.step hinv.1 hinv.2 hs).1 hq

/-- **The tables of a level are by age in every state of a run exactly when every compaction creates
its outputs by age.** -/
theorem always_createdByAge_iff {h : List (StoreEvent × TableStore)} (hr : StoreRun P h s) :
    Always (fun _ s => s.CreatedByAge) h s ↔ ∀ x ∈ h, OutputsByAge x.2 x.1 := by
  refine hr.always_iff (I := fun _ s => StoreOk P s ∧ s.CreatedByAge) (C := OutputsByAge)
    (fun hs => ⟨.start hs, hs.createdByAge⟩) ?_ And.right ?_
  · intro h s e s' hinv hs hc
    exact ⟨hinv.1.step hs, (CreatedByAge.step hinv.1 hinv.2 hs).2 hc⟩
  · intro h s e s' hinv hs hq
    exact (CreatedByAge.step hinv.1 hinv.2 hs).1 hq

/-! ## Stores after flushes -/

/-- A flush puts its table in front of the first level's. -/
theorem levelTables_flush {m : Memtable} (h : StoreOk P s) :
    levelTables (flushedDisk P m s.disk) 1 =
      (flushPath P s.disk).name :: levelTables s.disk 1 := by
  have hnew := h.flushPath_new
  have hself := file?_flushedDisk (P := P) (m := m) hnew
  have hold : ∀ {name}, name ≠ (flushPath P s.disk).name →
      (flushedDisk P m s.disk).file? ⟨1, name⟩ = s.disk.file? ⟨1, name⟩ := fun hne =>
    flushedDisk_keeps.file fun he => hne (congrArg Path.name he)
  have hmem : ∀ {name}, name ∈ levelTables s.disk 1 → name ≠ (flushPath P s.disk).name := by
    intro name hm he
    obtain ⟨-, f, hf⟩ := mem_levelTables.1 hm
    rw [he] at hf
    exact absurd (hnew.symm.trans hf) (by simp)
  refine levelTables_eq (List.nodup_cons.2 ⟨fun hm => hmem hm rfl, levelTables_nodup _ _⟩) ?_ ?_
  · intro name
    rw [List.mem_cons, mem_levelTables, mem_levelTables]
    by_cases he : name = (flushPath P s.disk).name
    · subst he
      exact iff_of_true (.inl rfl) ⟨lastDotPart_bin (isBin_ssTableName _), _, hself⟩
    · rw [hold he]
      simp [he]
  · refine List.pairwise_cons.2 ⟨fun name hm f g hf hg => ?_, ?_⟩
    · obtain rfl := Option.some.inj (hself.symm.trans hf)
      rw [hold (hmem hm)] at hg
      exact (s.disk.stamped.created_lt hg).le
    · refine (levelTables_sorted _ _).imp_of_mem fun ha hb hab f g hf hg => ?_
      rw [hold (hmem ha)] at hf
      rw [hold (hmem hb)] at hg
      exact hab f g hf hg

/-- A memtable with one key. -/
def oneKey : Memtable where
  inMemoryRepr := (∅ : InMemoryRepr).insert [107] (some ⟨[118], none⟩)
  config := defaultConfig
  flushBy := 0
  currentSizeBytes := 1

/-- The key is flushed. -/
def flushOne (s : TableStore) : TableStore :=
  flushedStore Platform.plain s oneKey fun _ => s.since

def flushOneStep (s : TableStore) : StoreEvent × TableStore := (.flush oneKey fun _ => s.since, s)

/-- The store after `n` flushes of one key. -/
def flushes : Nat → TableStore
  | 0 => ⟨Disk.empty 0, fun _ => [], 0⟩
  | n + 1 => flushOne (flushes n)

def flushesRun : Nat → List (StoreEvent × TableStore)
  | 0 => []
  | n + 1 => flushOneStep (flushes n) :: flushesRun n

def flushName (n : Nat) : String := ssTableName (Platform.plain.uuid n)

/-- The names of the tables, the last one first. -/
def flushNames : Nat → List String
  | 0 => []
  | n + 1 => flushName n :: flushNames n

/-- The value field of its record. -/
def oneValue : Bytes := (recordOf ([107], some ⟨[118], none⟩)).2

theorem oneKey_fits : FlushFits Platform.plain oneKey.inMemoryRepr := by constructor <;> decide

theorem oneKey_records : records oneKey.inMemoryRepr = [recordOf ([107], some ⟨[118], none⟩)] := by
  decide

theorem length_flushNames : ∀ n, (flushNames n).length = n
  | 0 => rfl
  | n + 1 => congrArg (· + 1) (length_flushNames n)

theorem flushesRun_leftOut : ∀ n, ∀ x ∈ flushesRun n, LeftOutNewer x.2 x.1
  | 0 => by simp [flushesRun]
  | n + 1 => List.forall_mem_cons.2 ⟨trivial, flushesRun_leftOut n⟩

theorem flushesRun_outputs : ∀ n, ∀ x ∈ flushesRun n, OutputsByAge x.2 x.1
  | 0 => by simp [flushesRun]
  | n + 1 => List.forall_mem_cons.2 ⟨trivial, flushesRun_outputs n⟩

theorem flushOne_step {s : TableStore} (h : s.since ≤ s.disk.clock) :
    StoreStep Platform.plain s (flushOneStep s).1 (flushOne s) :=
  .flush (exec_flush (by constructor <;> decide)) oneKey_fits fun _ _ => ⟨Nat.le_refl _, h⟩

theorem flushes_run : ∀ n, StoreRun Platform.plain (flushesRun n) (flushes n) ∧
    StoreOk Platform.plain (flushes n)
  | 0 => by
    have hempty : EmptyStore (flushes 0) := ⟨rfl, fun _ => rfl, Nat.le_refl _⟩
    exact ⟨.start hempty, .start hempty⟩
  | n + 1 => by
    obtain ⟨hr, hok⟩ := flushes_run n
    have hs := flushOne_step hok.since_le
    exact ⟨.step hr hs, hok.step hs⟩

theorem flushes_clock : ∀ n, (flushes n).disk.clock = n ∧ (flushes n).since = n
  | 0 => ⟨rfl, rfl⟩
  | n + 1 => by
    have hclock : (flushedDisk Platform.plain oneKey (flushes n).disk).clock = n + 1 := by
      rw [clock_flushedDisk (flushes_run n).2.flushPath_new, (flushes_clock n).1]
      rfl
    exact ⟨hclock, hclock⟩

theorem flushes_path (n : Nat) : flushPath Platform.plain (flushes n).disk = ⟨1, flushName n⟩ := by
  rw [flushPath, (flushes_clock n).1]
  rfl

theorem flushes_level {p : Path} {f : File} : ∀ {n : Nat}, (flushes n).disk.file? p = some f →
    p.level = 1
  | 0, h => by
    rw [flushes, Disk.file?_empty] at h
    cases h
  | n + 1, h => by
    by_cases hp : p = flushPath Platform.plain (flushes n).disk
    · rw [hp]
      rfl
    · exact flushes_level ((flushedDisk_keeps.file hp).symm.trans h)

theorem levelTables_flushes : ∀ n, levelTables (flushes n).disk 1 = flushNames n
  | 0 => by simp [levelTables, flushes, Disk.empty, Disk.dir, flushNames]
  | n + 1 => by
    have h := levelTables_flush (m := oneKey) (flushes_run n).2
    rw [flushes_path, levelTables_flushes n] at h
    exact h

theorem flushes_levels (n : Nat) : 1 ≤ (flushes (n + 1)).disk.levels := by
  have hlevels := levels_flushedDisk (P := Platform.plain) (m := oneKey) (d := (flushes n).disk)
  exact (Nat.le_max_right _ _).trans_eq hlevels.symm

/-- The table of the `i`-th flush has its one record, written at `i`. -/
theorem flushes_written {i : Nat} : ∀ {n : Nat}, i < n →
    (flushes n).written ⟨1, flushName i⟩ =
      [([107], oneValue, i)]
  | n + 1, h => by
    have hw : (flushes (n + 1)).written = Function.update (flushes n).written ⟨1, flushName n⟩
        (datedRecords oneKey.inMemoryRepr fun _ => (flushes n).since) := by
      rw [← flushes_path]
      rfl
    rw [hw]
    by_cases hin : i = n
    · rw [hin, Function.update_self, datedRecords, oneKey_records, (flushes_clock n).2]
      rfl
    · rw [Function.update_of_ne, flushes_written (by omega)]
      intro he
      exact hin (Platform.plain.uuid_inj (ssTableName_inj (congrArg Path.name he)))

/-- The compaction of the tables of `n` flushes, two at a time. -/
def compactFlushes (n : Nat) : Cycle where
  targetChunks := compactTwo.targetChunks
  bloomFalsePositiveRate := ⟨0x3F847AE147AE147B⟩
  tableNames := flushNames n

theorem mem_flushNames {name : String} : ∀ {n : Nat},
    name ∈ flushNames n ↔ ∃ i < n, name = flushName i
  | 0 => by simp [flushNames]
  | n + 1 => by
    rw [flushNames, List.mem_cons, mem_flushNames]
    constructor
    · rintro (rfl | ⟨i, hi, rfl⟩)
      · exact ⟨n, Nat.lt_succ_self n, rfl⟩
      · exact ⟨i, Nat.lt_succ_of_lt hi, rfl⟩
    · rintro ⟨i, hi, rfl⟩
      rcases Nat.lt_succ_iff_lt_or_eq.1 hi with hi | rfl
      · exact .inr ⟨i, hi, rfl⟩
      · exact .inl rfl

/-- The indexes of what is merged of the tables of fewer than a thousand flushes fit. -/
theorem flushes_fit {n : Nat} (hn : n < 1000) {u : List String} (hsub : u.Sublist (flushNames n)) :
    ((u.map fun name => undated ((flushes n).written ⟨1, name⟩)).map indexSize).sum < 2 ^ 32 := by
  have hone : ∀ x ∈ (u.map fun name => undated ((flushes n).written ⟨1, name⟩)).map indexSize,
      x ≤ 13 := by
    intro x hx
    obtain ⟨l, hl, rfl⟩ := List.mem_map.1 hx
    obtain ⟨name, hname, rfl⟩ := List.mem_map.1 hl
    obtain ⟨i, hi, rfl⟩ := mem_flushNames.1 (hsub.subset hname)
    rw [flushes_written hi]
    exact Nat.le_refl 13
  have hsum := List.sum_le_card_nsmul _ 13 hone
  have hlen := hsub.length_le
  rw [length_flushNames] at hlen
  simp only [List.length_map, smul_eq_mul] at hsum
  omega

theorem flushes_compacts {n : Nat} (hn : n < 999) :
    ∃ d', Compacts Platform.plain (flushes (n + 1)) 1 (compactFlushes (n + 1)) d' :=
  (flushes_run (n + 1)).2.exists_compacts (Nat.le_refl 1) (flushes_levels n)
    (levelTables_flushes (n + 1)).symm fun _ hu =>
      flushes_fit (Nat.succ_lt_succ hn) (sublist_of_mem_splitUnits hu)

theorem compactFlushes_step {n : Nat} {d' : Disk}
    (h : Compacts Platform.plain (flushes n) 1 (compactFlushes n) d') :
    StoreStep Platform.plain (flushes n) (.compact 1 (compactFlushes n))
      (compacted (flushes n) 1 (compactFlushes n) d') :=
  .compact (by decide) h.dir (show 2 ≤ 128 by decide) h.names h.errorFree

/-- The run of `n` flushes and a compaction. -/
def compactRun (n : Nat) : List (StoreEvent × TableStore) :=
  (.compact 1 (compactFlushes n), flushes n) :: flushesRun n

theorem compactFlushes_two : (compactFlushes 2).units = [[flushName 1, flushName 0]] := by
  simp [Cycle.units, compactFlushes, compactTwo, splitUnits, splitLoop, flushNames]

theorem compactFlushes_three : (compactFlushes 3).units = [[flushName 2, flushName 1]] := by
  simp [Cycle.units, compactFlushes, compactTwo, splitUnits, splitLoop, flushNames]

theorem compactFlushes_four :
    (compactFlushes 4).units = [[flushName 3, flushName 2], [flushName 1, flushName 0]] := by
  simp [Cycle.units, compactFlushes, compactTwo, splitUnits, splitLoop, flushNames]

/-- Two flushes, their compaction, which leaves out no table, and a flush that brings the key into a
second level. -/
theorem two_levelsByAge : ∃ s d', s = compacted (flushes 2) 1 (compactFlushes 2) d' ∧
    Always (fun _ s => s.LevelsByAge) (flushOneStep s :: compactRun 2) (flushOne s) := by
  obtain ⟨d', hc⟩ := flushes_compacts (n := 1) (by decide)
  have hrun := flushes_run 2
  have hstep := compactFlushes_step hc
  have hok := hrun.2.step hstep
  refine ⟨_, d', rfl, (always_levelsByAge_iff (.step (.step hrun.1 hstep)
    (flushOne_step hok.since_le))).2 ?_⟩
  refine List.forall_mem_cons.2 ⟨trivial, List.forall_mem_cons.2 ⟨fun name hn hout => ?_,
    flushesRun_leftOut 2⟩⟩
  rw [compactFlushes_two] at hout
  exact absurd hn (by simpa [compactFlushes, flushNames] using hout)

/-- Two flushes, their compaction, which makes one table, and two more flushes of the key. -/
theorem two_createdByAge : ∃ s d', s = compacted (flushes 2) 1 (compactFlushes 2) d' ∧
    Always (fun _ s => s.CreatedByAge)
      (flushOneStep (flushOne s) :: flushOneStep s :: compactRun 2) (flushOne (flushOne s)) := by
  obtain ⟨d', hc⟩ := flushes_compacts (n := 1) (by decide)
  have hrun := flushes_run 2
  have hstep := compactFlushes_step hc
  have hok := hrun.2.step hstep
  have hagain := flushOne_step hok.since_le
  have hok' := hok.step hagain
  refine ⟨_, d', rfl, (always_createdByAge_iff (.step (.step (.step hrun.1 hstep) hagain)
    (flushOne_step hok'.since_le))).2 ?_⟩
  refine List.forall_mem_cons.2 ⟨trivial, List.forall_mem_cons.2 ⟨trivial, List.forall_mem_cons.2
    ⟨⟨?_, ?_⟩, flushesRun_outputs 2⟩⟩⟩
  · intro i j u v hij hi hj
    rw [compactFlushes_two] at hi hj
    have := (List.getElem?_eq_some_iff.1 hj).1
    simp only [List.length_singleton] at this
    omega
  · intro name f ht
    exact absurd (flushes_level ht.1) (by simp)

/-- **An older record above a newer one**: three flushes, and a compaction of the last two, which
leaves the table of the first behind in the first level. -/
theorem left_out_older : ∃ d', StoreRun Platform.plain (compactRun 3)
      (compacted (flushes 3) 1 (compactFlushes 3) d') ∧
    ¬Always (fun _ s => s.LevelsByAge) (compactRun 3)
      (compacted (flushes 3) 1 (compactFlushes 3) d') := by
  obtain ⟨d', hc⟩ := flushes_compacts (n := 2) (by decide)
  have hs := compactFlushes_step hc
  refine ⟨d', .step (flushes_run 3).1 hs, fun ha => ?_⟩
  have hleft := (levelsByAge_compact_iff (flushes_run 3).2 hc ha.2.now).1 ha.1
  have hnewer := hleft (flushName 0) (by simp [compactFlushes, flushNames]) (by
    rw [compactFlushes_three]
    decide) [flushName 2, flushName 1] (by simp [compactFlushes_three])
  have hold : (flushes 3).source ⟨1, flushName 0⟩ [107] = some (oneValue, 0) := by
    rw [source, flushes_written (by decide)]
    rfl
  have hunit : (flushes 3).unitSource 1 [flushName 2, flushName 1] [107] = some (oneValue, 2) := by
    rw [unitSource, List.map_cons, overlay_cons, flushes_written (by decide)]
    rfl
  exact absurd (hnewer _ _ _ _ _ hold hunit) (by decide)

/-- **Newer records in a table created earlier**: four flushes, and a compaction of the last two
and then of the first two. -/
theorem later_unit_older : ∃ d', StoreRun Platform.plain (compactRun 4)
      (compacted (flushes 4) 1 (compactFlushes 4) d') ∧
    ¬Always (fun _ s => s.CreatedByAge) (compactRun 4)
      (compacted (flushes 4) 1 (compactFlushes 4) d') := by
  obtain ⟨d', hc⟩ := flushes_compacts (n := 3) (by decide)
  have hs := compactFlushes_step hc
  refine ⟨d', .step (flushes_run 4).1 hs, fun ha => ?_⟩
  have hage := (createdByAge_compact_iff (flushes_run 4).2 hc ha.2.now).1 ha.1
  have hnewer := hage.units 0 1 [flushName 3, flushName 2] [flushName 1, flushName 0] (by decide)
    (by rw [compactFlushes_four]; rfl) (by rw [compactFlushes_four]; rfl)
  have hfirst : (flushes 4).unitSource 1 [flushName 3, flushName 2] [107] = some (oneValue, 3) := by
    rw [unitSource, List.map_cons, overlay_cons, flushes_written (by decide)]
    rfl
  have hsecond : (flushes 4).unitSource 1 [flushName 1, flushName 0] [107] = some (oneValue, 1) := by
    rw [unitSource, List.map_cons, overlay_cons, flushes_written (by decide)]
    rfl
  exact absurd (hnewer _ _ _ _ _ hsecond hfirst) (by decide)

end Compaction
