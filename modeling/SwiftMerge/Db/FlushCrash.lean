import SwiftMerge.Db.ReadPaths
import SwiftMerge.Memtable.Proof.Replay

/-!
# A crash during a flush

A flush creates its table under the final `.bin` name and writes it in place. Stopped right after
the creation it leaves an empty file whose header `createLevelArray` cannot read, and the reader
does not start again (`not_crashSafe`). Only a flush that panics before that is crash-safe
(`crashSafe_iff`).
-/

namespace Db

open Lib Lsm Mem Service Compaction

variable {P : Platform} {m : Memtable} {d : Disk}

/-- The value bytes of the record a search found. -/
def foundValue : SearchResult → Option Bytes
  | .found value _ _ => some value
  | .missing _ _ => none

/-- The value bytes of the record of a key: the memtable's, or else the one the tables have. -/
def recordAt (m : Memtable) (levelArray : List FileMap) (key : Bytes) :
    Except LsmTreeError (Option Bytes) :=
  match Mem.get m key with
  | some slot => .ok (some (WalEntry.ofSlot slot).contents)
  | none => (Lsm.read levelArray key).map foundValue

/-- Wherever the flush is stopped, the server starts again with its log, the tables load, and every
key has the record that it had before the flush (of tables loaded in some order). -/
def CrashSafe (P : Platform) (m : Memtable) (d : Disk) : Prop :=
  ∀ s, Prog.visits (memHandler P) (flush P) (m, d) s →
    ∀ content config, content.load P = .ok config → config.walEnabled = true →
      (∃ m', Memtable.new P s.2 content = .ok m' ∧ ∀ levelArray', Loaded s.2 levelArray' →
        ∃ levelArray, Loaded d levelArray ∧
          ∀ key, recordAt m' levelArray' key = recordAt m levelArray key) ∧
      ∃ levelArray', Loaded s.2 levelArray'

/-! ## The empty table -/

theorem header_of_loadLevel : ∀ {entries : List (String × File)} {m m' : FileMap},
    entries.foldlM loadEntry m = .ok m' → ∀ e ∈ entries, isBin e.1 = true → 64 ≤ e.2.bytes.length
  | e :: entries, m, m', h, x, hx, hbin => by
    rw [List.foldlM_cons] at h
    obtain ⟨m1, hload, h⟩ := bind_ok h
    cases hx with
    | tail _ hx => exact header_of_loadLevel h x hx hbin
    | head =>
      unfold loadEntry at hload
      rw [if_pos hbin] at hload
      obtain ⟨crc, hcrc, -⟩ := bind_ok hload
      unfold TableReader.readHeader readExact at hcrc
      by_cases hlen : 0 + TableReader.headerSize ≤ e.2.bytes.length
      · rw [TableReader.headerSize] at hlen
        omega
      · rw [if_neg hlen] at hcrc
        cases hcrc

theorem not_loaded {levelArray : List FileMap} {p : Lsm.Path} {f : File} (hp : 1 ≤ p.level)
    (hle : p.level ≤ d.levels) (hf : d.file? p = some f) (hbin : isBin p.name = true)
    (hlen : f.bytes.length < 64) : ¬Loaded d levelArray := by
  intro hl
  obtain ⟨hlength, hlevels⟩ := loaded_levels hl
  have hlt : p.level - 1 < levelArray.length := by omega
  obtain ⟨m, hm, -⟩ := hlevels _ _ (List.getElem?_eq_getElem hlt)
  rw [Nat.sub_add_cancel hp] at hm
  have := header_of_loadLevel hm (p.name, f) (Disk.mem_dir.2 hf) hbin
  change 64 ≤ f.bytes.length at this
  omega

/-- The disk just after the flush has created its file. -/
theorem visits_created (h : Flushable m) : Prog.visits (memHandler P) (flush P) (m, d)
    (m, (withL1 d).create P (flushPath P d)) := by
  obtain ⟨hne, hs, hl⟩ := h
  unfold flush
  refine (Prog.visits_bind_ok (exec_get _)).2 (.inr ?_)
  dsimp only
  refine (Prog.visits_bind_ok (Prog.exec_ensure_pos (by rw [hne]; rfl) _)).2 (.inr ?_)
  refine (Prog.visits_bind_ok exec_createL1).2 (.inr ?_)
  refine (Prog.visits_bind_ok exec_now).2 (.inr ?_)
  refine (Prog.visits_bind_ok (Prog.exec_ensure_pos (decide_eq_true hs) _)).2 (.inr ?_)
  refine (Prog.visits_bind_ok (Prog.exec_ensure_pos hl _)).2 (.inr ?_)
  refine (Prog.visits_bind_ok (Mem.exec_io (step_createTable P d))).2 (.inr ?_)
  exact Prog.visits_self _ _

/-- **A flush that creates its file is not crash-safe.** -/
theorem not_crashSafe (h : Flushable m) (d : Disk) : ¬CrashSafe P m d := by
  intro hsafe
  obtain ⟨-, levelArray', hl⟩ := hsafe _ (visits_created h) .default _ rfl rfl
  refine not_loaded (Nat.le_refl 1) ?_ (Disk.file?_create_self (P := P) (d := withL1 d)
    (p := flushPath P d)) (isBin_ssTableName _) (Nat.zero_lt_succ _) hl
  rw [Disk.levels_create]
  exact Nat.le_max_right _ _

/-! ## A flush that panics -/

/-- Every file lies in a directory that exists. -/
def Housed (d : Disk) : Prop := ∀ p f, d.file? p = some f → p.level ≤ d.levels

theorem visits_io {α : Type} {o : DiskOp (Except IoError α)} {s : Store}
    (ho : ∀ t, ¬Disk.during o d t) (h : Prog.visits (memHandler P) (MemProg.io o) (m, d) s) :
    s = (m, d) ∨ s = (m, (Disk.step P o d).2) := by
  rw [MemProg.io, Prog.visits_bind] at h
  rcases h with h | ⟨a, s', hexec, h⟩
  · rcases (Prog.visits_perform _ _ _).1 h with h | h | h
    · exact .inl h
    · exact absurd h.2 (ho _)
    · exact .inr h
  · rw [Prog.exec_perform, Prod.mk.injEq] at hexec
    rw [Prog.visits_ofExcept] at h
    rw [h, ← hexec.2]
    exact .inr rfl

theorem visits_createL1 {s : Store} (h : Prog.visits (memHandler P) createL1 (m, d) s) :
    s = (m, d) ∨ s = (m, withL1 d) := by
  rw [createL1, Prog.visits_bind_ok (Mem.exec_dirExists 1)] at h
  rcases h with h | h
  · rcases (Prog.visits_perform _ _ _).1 h with h | h | h
    · exact .inl h
    · exact absurd h.2 id
    · exact .inl h
  · cases hdir : decide (1 ≤ 1 ∧ 1 ≤ d.levels) with
    | true =>
      rw [hdir] at h
      exact .inl h
    | false =>
      rw [hdir] at h
      change Prog.visits _ (MemProg.io (.createDir 1)) (m, d) s at h
      have hstep : (Disk.step P (.createDir 1) d).2 = withL1 d := by
        rw [Disk.step_createDir (by omega)]
        rfl
      rw [← hstep]
      exact visits_io (fun _ ht => ht) h

theorem visits_now {s : Store}
    (h : Prog.visits (memHandler P) (Prog.perform (.disk .now) : MemProg Nat) (m, d) s) :
    s = (m, d) := by
  rcases (Prog.visits_perform _ _ _).1 h with h | h | h
  · exact h
  · exact absurd h.2 id
  · exact h

theorem visits_get {s : Store}
    (h : Prog.visits (memHandler P) (Prog.perform .get : MemProg Memtable) (m, d) s) :
    s = (m, d) := by
  rcases (Prog.visits_perform _ _ _).1 h with h | h | h
  · exact h
  · exact absurd h id
  · exact h

/-- A flush without a counter or a local disk makes `data/l1` at most. -/
theorem visits_panic {s : Store} (hne : m.inMemoryRepr.isEmpty = false)
    (hpanic : m.currentSizeBytes = 0 ∨ m.config.localDisk = false)
    (h : Prog.visits (memHandler P) (flush P) (m, d) s) : s = (m, d) ∨ s = (m, withL1 d) := by
  unfold flush at h
  rw [Prog.visits_bind_ok (exec_get _)] at h
  rcases h with h | h
  · exact .inl (visits_get h)
  dsimp only at h
  rw [Prog.visits_bind_ok (Prog.exec_ensure_pos (by rw [hne]; rfl) _)] at h
  rcases h with h | h
  · exact .inl ((Prog.visits_ensure _ _ _ _).1 h)
  rw [Prog.visits_bind_ok exec_createL1] at h
  rcases h with h | h
  · exact visits_createL1 h
  rw [Prog.visits_bind_ok exec_now] at h
  rcases h with h | h
  · exact .inr (visits_now h)
  by_cases hs : m.currentSizeBytes = 0
  · rw [Prog.visits_bind_error (Prog.exec_ensure_neg (decide_eq_false fun hn => hn hs) _)] at h
    exact .inr ((Prog.visits_ensure _ _ _ _).1 h)
  · rw [Prog.visits_bind_ok (Prog.exec_ensure_pos (decide_eq_true hs) _)] at h
    rcases h with h | h
    · exact .inr ((Prog.visits_ensure _ _ _ _).1 h)
    rw [Prog.visits_bind_error (Prog.exec_ensure_neg (hpanic.resolve_left hs) _)] at h
    exact .inr ((Prog.visits_ensure _ _ _ _).1 h)

/-- Making `data/l1` changes nothing, or adds an empty level. -/
theorem withL1_cases (h : Housed d) : withL1 d = d ∨
    (d.levels = 0 ∧ createLevelArray (withL1 d) = .ok [[]]) := by
  by_cases hlevels : d.levels = 0
  · have hdir : d.dir 1 = [] := by
      refine List.eq_nil_iff_forall_not_mem.2 fun e he => ?_
      have := h ⟨1, e.1⟩ e.2 (Disk.mem_dir.1 he)
      change 1 ≤ d.levels at this
      omega
    refine .inr ⟨hlevels, ?_⟩
    rw [createLevelArray, show (withL1 d).levels = 1 by rw [withL1, hlevels]; rfl]
    change [0].mapM (fun i => loadLevel (d.dir (i + 1))) = _
    rw [List.mapM_cons, hdir]
    rfl
  · exact .inl (by rw [withL1, Nat.max_eq_left (by omega)])

theorem exists_loaded_withL1 {levelArray : List FileMap} (hhoused : Housed d)
    (h : Loaded d levelArray) : ∃ levelArray', Loaded (withL1 d) levelArray' := by
  cases withL1_cases hhoused with
  | inl hsame => exact ⟨levelArray, by rw [hsame]; exact h⟩
  | inr hempty => exact ⟨[[]], [[]], hempty.2, .cons (List.Perm.refl _) .nil⟩

/-- What a store with `data/l1` answers, the store without it answers too. -/
theorem loaded_withL1 {levelArray : List FileMap} (hhoused : Housed d)
    (h : Loaded (withL1 d) levelArray) : ∃ levelArray', Loaded d levelArray' ∧
      ∀ key, (Lsm.read levelArray key).map foundValue = (Lsm.read levelArray' key).map foundValue := by
  cases withL1_cases hhoused with
  | inl hsame =>
    rw [hsame] at h
    exact ⟨levelArray, h, fun _ => rfl⟩
  | inr hempty =>
    obtain ⟨hlevels, hcreate⟩ := hempty
    obtain ⟨maps, hmaps, hperm⟩ := h
    rw [hcreate, Except.ok.injEq] at hmaps
    subst hmaps
    obtain ⟨map, rest, hmap, hrest, rfl⟩ := List.forall₂_cons_left_iff.1 hperm
    rw [List.forall₂_nil_left_iff.1 hrest, List.nil_perm.1 hmap]
    refine ⟨[], ⟨[], ?_, .nil⟩, fun key => ?_⟩
    · rw [createLevelArray, hlevels]
      rfl
    · obtain ⟨tables, levels, hread⟩ := read_missing [[]]
        (show ∀ us ∈ _, levelFind us key = none by simp)
      change Lsm.read [[]] key = _ at hread
      rw [hread]
      rfl

theorem restarts {content : ConfigSource} {config : ConfigInfo} {size : Nat} {d' : Disk}
    (hd : d'.wal = d.wal) (hload : content.load P = .ok config) (hw : config.walEnabled = true)
    (hlog : rebuildMemtable d.wal ∅ 0 = .ok (m.inMemoryRepr, size)) :
    ∃ m', Memtable.new P d' content = .ok m' ∧ m'.inMemoryRepr = m.inMemoryRepr := by
  refine ⟨⟨m.inMemoryRepr, config, d'.clock + config.ramMaxTime * 10 ^ 9, size⟩, ?_, rfl⟩
  rw [Memtable.new, hload]
  change (if config.walEnabled then _ else _) = _
  rw [if_pos hw, hd, hlog]
  rfl

/-- **A flush is crash-safe** only when it panics before it creates its file. -/
theorem crashSafe_iff {size : Nat} (hne : m.inMemoryRepr.isEmpty = false)
    (hlog : rebuildMemtable d.wal ∅ 0 = .ok (m.inMemoryRepr, size)) (hhoused : Housed d)
    (hloaded : ∃ levelArray, Loaded d levelArray) :
    CrashSafe P m d ↔ m.currentSizeBytes = 0 ∨ m.config.localDisk = false := by
  constructor
  · intro hsafe
    by_contra hpanic
    rw [not_or, Bool.not_eq_false] at hpanic
    exact not_crashSafe ⟨hne, hpanic.1, hpanic.2⟩ d hsafe
  · intro hpanic s hs content config hload hw
    obtain ⟨levelArray, hl⟩ := hloaded
    have hmem : ∀ {m' : Memtable}, m'.inMemoryRepr = m.inMemoryRepr → ∀ {a a' : List FileMap},
        (∀ key, (Lsm.read a' key).map foundValue = (Lsm.read a key).map foundValue) →
          ∀ key, recordAt m' a' key = recordAt m a key := by
      intro m' hm a a' hread key
      rw [recordAt, recordAt, Mem.get, Mem.get, hm]
      cases m.inMemoryRepr[key]? with
      | some slot => rfl
      | none => exact hread key
    cases visits_panic hne hpanic hs with
    | inl he =>
      obtain ⟨m', hnew, hm⟩ := restarts (show s.2.wal = d.wal by rw [he]) hload hw hlog
      refine ⟨⟨m', hnew, fun a' ha' => ?_⟩, levelArray, by rw [he]; exact hl⟩
      rw [he] at ha'
      exact ⟨a', ha', hmem hm fun _ => rfl⟩
    | inr he =>
      obtain ⟨m', hnew, hm⟩ := restarts (show s.2.wal = d.wal by rw [he]; rfl) hload hw hlog
      refine ⟨⟨m', hnew, fun a' ha' => ?_⟩, ?_⟩
      · rw [he] at ha'
        obtain ⟨a, ha, hread⟩ := loaded_withL1 hhoused ha'
        exact ⟨a, ha, hmem hm hread⟩
      · rw [he]
        exact exists_loaded_withL1 hhoused hl

/-! ### Samples -/

/-- The log of one write of the key `[107]`. -/
def oneWriteLog : List LogOp := [⟨[107], some ⟨[118], none⟩⟩]

/-- A store without tables, and that log. -/
def loggedStore : Disk := { Disk.empty 0 with wal := LogOp.log oneWriteLog }

/-- The memtable that the log rebuilds, with the disk it is configured for. -/
def loggedMem (localDisk : Bool) : Memtable where
  inMemoryRepr := LogOp.replay oneWriteLog ∅
  config := { defaultConfig with localDisk := localDisk }
  flushBy := 0
  currentSizeBytes := 15

theorem rebuild_loggedStore (localDisk : Bool) : rebuildMemtable loggedStore.wal ∅ 0 =
    .ok ((loggedMem localDisk).inMemoryRepr, 15) := by
  refine rebuildMemtable_log oneWriteLog fun op hop => ?_
  rw [List.mem_singleton.1 hop]
  exact ⟨by decide, by decide, fun e he => by
    rw [← Option.some.inj he]
    exact ⟨⟨by decide, fun md hmd => by cases hmd⟩, by decide⟩⟩

/-- Without a local disk the flush stops before it writes. -/
theorem remote_crashSafe : CrashSafe Platform.plain (loggedMem false) loggedStore :=
  (crashSafe_iff (by decide) (rebuild_loggedStore false)
    (fun p f hf => by simp [loggedStore, Disk.file?, Disk.empty] at hf)
    ⟨[], [], rfl, .nil⟩).2 (.inr rfl)

/-- **The empty table of a stopped flush** keeps the reader from starting again. -/
theorem torn_flush_unreadable :
    rebuildMemtable loggedStore.wal ∅ 0 = .ok ((loggedMem true).inMemoryRepr, 15) ∧
      ¬CrashSafe Platform.plain (loggedMem true) loggedStore :=
  ⟨rebuild_loggedStore true, not_crashSafe (by constructor <;> decide) _⟩

end Db
