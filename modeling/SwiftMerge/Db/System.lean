import SwiftMerge.Compaction.Proof.StoreReads
import SwiftMerge.Compaction.Proof.UnitsEnd
import SwiftMerge.Db.Recovery
import SwiftMerge.Memtable.Proof.FailedWrites

/-!
# The server over its tables

A `System` is the memtable, the tables of its store and the level array that the reader holds. It
takes writes one at a time, as the lock of the memtable does, flushes when a write fills the
memtable, compacts levels, reloads the reader and the configuration, and starts again on what is on
the disk. What it has acknowledged is a map, the writes replayed (`acknowledged`).

The memtable and the tables together are that map in every state of a run whose steps keep what they
hold (`SystemOk`): a flush moves the memtable's records to the front of the tables, a compaction
leaves what readers find as it is, the log replays to the memtable.

* `storeEvent`: what a step is for the tables; a run of the system is one of its store.
* `SystemOk.step`: every step keeps the invariant.
* `run_finds_acknowledged`: a reader that loads the tables, behind the memtable, answers every key
  as the map does.
-/

namespace Db

open Lib Lsm Mem Compaction

structure System where
  mem : Memtable
  tables : TableStore
  /-- what the reader has loaded -/
  levelArray : List FileMap

/-- The memtable and the disk. -/
def System.store (s : System) : Store := (s.mem, s.tables.disk)

inductive SystemEvent
  /-- the write of a put or a delete, or one of the writes of a batch -/
  | write (op : LogOp)
  | updateConfig (content : ConfigSource)
  | compact (level : Nat) (c : Cycle)
  | reload
  | restart (content : ConfigSource)
  /-- time that passes, directories that are made -/
  | idle

/-- The write fills the memtable or finds its time come: it runs the flush. -/
def System.flushes (s : System) (op : LogOp) : Bool :=
  shouldFlush (written s.mem op.key op.slot) s.tables.disk.clock

/-- The tables when a write has got to the log. -/
def System.loggedTables (s : System) (op : LogOp) : TableStore :=
  { s.tables with disk := logged s.mem s.tables.disk op.key op.slot }

/-- The server after a write that flushes. The records of the flush are dated by it. -/
def System.afterFlush (P : Platform) (s : System) (op : LogOp) : System where
  mem := flushedMem P (written s.mem op.key op.slot) (s.loggedTables op).disk
  tables := flushedStore P (s.loggedTables op) (written s.mem op.key op.slot)
    fun _ => s.tables.disk.clock
  levelArray := s.levelArray

/-- The tables after a write. -/
def System.tablesAfter (P : Platform) (s : System) (op : LogOp) : TableStore :=
  if s.flushes op then (s.afterFlush P op).tables else s.loggedTables op

/-- What can happen to a server whose log stays enabled. -/
inductive SystemStep (P : Platform) : System → SystemEvent → System → Prop
  | write {s : System} {op : LogOp} {st : Store} :
    Prog.exec (memHandler P) (Mem.write P op.key op.slot) s.store = (.ok (), st) →
    SystemStep P s (.write op)
      ⟨st.1, { s.tablesAfter P op with disk := st.2 }, s.levelArray⟩
  | updateConfig {s : System} {content : ConfigSource} {m : Memtable} :
    s.mem.updateConfig P s.tables.disk.clock content = .ok m → m.config.walEnabled = true →
    SystemStep P s (.updateConfig content) { s with mem := m }
  | compact {s : System} {level : Nat} {c : Cycle} {t : TableStore} :
    StoreStep P s.tables (.compact level c) t →
    SystemStep P s (.compact level c) { s with tables := t }
  | reload {s : System} {levelArray : List FileMap} : Loaded s.tables.disk levelArray →
    SystemStep P s .reload { s with levelArray := levelArray }
  | restart {s : System} {content : ConfigSource} {m : Memtable} {levelArray : List FileMap} :
    Memtable.new P s.tables.disk content = .ok m → m.config.walEnabled = true →
    Loaded s.tables.disk levelArray →
    SystemStep P s (.restart content) ⟨m, s.tables, levelArray⟩
  | idle {s : System} {d : Disk} : Disk.Keeps (fun _ => False) s.tables.disk d →
    Disk.SameLog s.tables.disk d →
    SystemStep P s .idle { s with tables := { s.tables with disk := d } }

/-- A server started with its log enabled, without tables and on an empty log. -/
structure SystemStart (P : Platform) (s : System) : Prop where
  store : EmptyStore s.tables
  wal : s.tables.disk.wal = []
  started : StartsLogged P s.store
  loaded : Loaded s.tables.disk s.levelArray

abbrev SystemRun (P : Platform) : List (SystemEvent × System) → System → Prop :=
  Lib.Run (SystemStart P) (SystemStep P)

/-- The writes of a run, replayed: what the server has acknowledged. -/
def acknowledged : List SystemEvent → InMemoryRepr
  | [] => ∅
  | .write op :: events => (acknowledged events).insert op.key op.slot
  | _ :: events => acknowledged events

/-- The step keeps what the memtable and the tables hold: the record of a write can be replayed, a
flush fits its table, and a compaction keeps what readers find. -/
def KeepsWrites (P : Platform) (s : System) : SystemEvent → Prop
  | .write op =>
    op.Fits ∧ (s.flushes op = true → FlushFits P (written s.mem op.key op.slot).inMemoryRepr)
  | .compact level c => KeepsReads s.tables (.compact level c)
  | _ => True

/-- The bytes of a slot in a table. -/
def tableValue (slot : Option TableEntry) : Bytes := (WalEntry.ofSlot slot).contents

/-- A reader answers as a map that has `slot?` under the key. -/
def TablesAnswer (levelArray : List FileMap) (k : Bytes) : Option (Option TableEntry) → Prop
  | some slot => ∃ tables levels,
    Lsm.read levelArray k = .ok (.found (tableValue slot) tables levels)
  | none => ∃ tables levels, Lsm.read levelArray k = .ok (.missing tables levels)

/-- A get that looks in the memtable and then asks a reader answers so. -/
def Answers (m : Memtable) (levelArray : List FileMap) (k : Bytes)
    (slot? : Option (Option TableEntry)) : Prop :=
  match Mem.get m k with
  | some slot => slot? = some slot
  | none => TablesAnswer levelArray k slot?

/-! ## The steps of the tables -/

/-- What a step is for the tables. -/
def System.storeEvent (s : System) : SystemEvent → StoreEvent
  | .write op =>
    if s.flushes op then .flush (written s.mem op.key op.slot) fun _ => s.tables.disk.clock
    else .idle
  | .compact level c => .compact level c
  | _ => .idle

/-- The steps of a run, for the tables. -/
def storeEvents (h : List (SystemEvent × System)) : List StoreEvent :=
  h.map fun x => x.2.storeEvent x.1

/-- What holds in every state: the memtable has the last writes of its keys, the tables those of the
other keys, and the log replays to the memtable. -/
structure SystemOk (P : Platform) (h : List (SystemEvent × System)) (s : System) : Prop where
  reads : ReadsOk P (storeEvents h) s.tables
  mem : ∀ (k : Bytes) (slot : Option TableEntry), s.mem.inMemoryRepr[k]? = some slot →
    (acknowledged (h.map Prod.fst))[k]? = some slot
  tables : ∀ k : Bytes, s.mem.inMemoryRepr[k]? = none →
    (lastFlushed (storeEvents h) k).map Prod.fst =
      (acknowledged (h.map Prod.fst))[k]?.map tableValue
  recoverable : Recoverable s.store

variable {P : Platform} {s s' : System} {h : List (SystemEvent × System)} {e : SystemEvent}

/-! ## Writes -/

theorem lookup_datedRecords (repr : InMemoryRepr) (writtenAt : Bytes → Nat) (k : Bytes) :
    (datedRecords repr writtenAt).lookup k =
      repr[k]?.map fun slot => (tableValue slot, writtenAt k) := by
  rw [datedRecords, Mem.records, List.map_map, ← lookup_toList]
  exact lookup_map_value (fun k slot => (tableValue slot, writtenAt k)) k repr.toList

theorem getElem?_acknowledged (events : List SystemEvent) (op : LogOp) (k : Bytes) :
    (acknowledged (.write op :: events))[k]? =
      if op.key = k then some op.slot else (acknowledged events)[k]? := by
  rw [acknowledged, Std.ExtTreeMap.getElem?_insert]
  by_cases hk : op.key = k
  · rw [if_pos hk, if_pos (Std.LawfulEqOrd.compare_eq_iff_eq.2 hk)]
  · rw [if_neg hk, if_neg fun h => hk (Std.LawfulEqOrd.eq_of_compare h)]

theorem keeps_logged (m : Memtable) (d : Disk) (key : Bytes) (slot : Option TableEntry) :
    Disk.Keeps (fun _ => False) d (logged m d key slot) := by
  unfold logged
  split
  · exact ⟨fun _ => rfl, Nat.le_refl _, Nat.le_refl _⟩
  · exact .refl d

theorem SystemOk.logged (hi : SystemOk P h s) (op : LogOp) :
    ReadsOk P (storeEvents h) (s.loggedTables op) :=
  ReadsOk.idle_iff.1 (hi.reads.idle (keeps_logged s.mem s.tables.disk op.key op.slot))

section
variable {op : LogOp}

/-- The memtable after a write has the last writes of its keys. -/
theorem SystemOk.mem_written (hi : SystemOk P h s) {k : Bytes} {slot : Option TableEntry}
    (hk : (written s.mem op.key op.slot).inMemoryRepr[k]? = some slot) :
    (acknowledged (.write op :: h.map Prod.fst))[k]? = some slot := by
  rw [getElem?_written] at hk
  rw [getElem?_acknowledged]
  by_cases hkey : op.key = k
  · rwa [if_pos hkey] at hk ⊢
  · rw [if_neg hkey] at hk ⊢
    exact hi.mem k slot hk

/-- The tables have the last writes of the keys that it has not. -/
theorem SystemOk.tables_written (hi : SystemOk P h s) {k : Bytes}
    (hk : (written s.mem op.key op.slot).inMemoryRepr[k]? = none) :
    (lastFlushed (storeEvents h) k).map Prod.fst =
      (acknowledged (.write op :: h.map Prod.fst))[k]?.map tableValue := by
  rw [getElem?_written] at hk
  rw [getElem?_acknowledged]
  by_cases hkey : op.key = k
  · rw [if_pos hkey] at hk
    cases hk
  · rw [if_neg hkey] at hk ⊢
    exact hi.tables k hk

/-- **A flush moves the memtable to the tables**: they have every last write. -/
theorem SystemOk.tables_flushed (hi : SystemOk P h s) (hf : s.flushes op = true) (k : Bytes) :
    (lastFlushed (storeEvents ((.write op, s) :: h)) k).map Prod.fst =
      (acknowledged (.write op :: h.map Prod.fst))[k]?.map tableValue := by
  have hevent : storeEvents ((.write op, s) :: h) =
      .flush (written s.mem op.key op.slot) (fun _ => s.tables.disk.clock) :: storeEvents h := by
    rw [storeEvents, List.map_cons, System.storeEvent, if_pos hf]
    rfl
  rw [hevent, lastFlushed, lookup_datedRecords]
  cases hk : (written s.mem op.key op.slot).inMemoryRepr[k]? with
  | some slot =>
    rw [hi.mem_written hk]
    rfl
  | none => exact hi.tables_written hk

theorem SystemOk.write_quiet (hi : SystemOk P h s) (hf : s.flushes op = false)
    (hfits : op.Fits) :
    SystemOk P ((.write op, s) :: h)
      ⟨written s.mem op.key op.slot, s.loggedTables op, s.levelArray⟩ := by
  have hevent : s.storeEvent (.write op) = .idle := by
    rw [System.storeEvent, hf]
    rfl
  have hlast : lastFlushed (storeEvents ((.write op, s) :: h)) = lastFlushed (storeEvents h) := by
    rw [storeEvents, List.map_cons, hevent]
    rfl
  have hreads : ReadsOk P (storeEvents ((.write op, s) :: h)) (s.loggedTables op) := by
    rw [storeEvents, List.map_cons, hevent]
    exact ReadsOk.idle_iff.2 (hi.logged op)
  refine ⟨hreads, fun k slot => hi.mem_written, fun k hk => hlast ▸ hi.tables_written hk, ?_,
    hi.recoverable.2⟩
  have hw : s.mem.config.walEnabled = true := hi.recoverable.2
  have hwal : (s.loggedTables op).disk.wal = s.tables.disk.wal ++ LogOp.log [op] := by
    rw [System.loggedTables, Mem.logged, if_pos hw]
    simp [LogOp.log, LogOp.record]
  have happend : Replays (s.tables.disk.wal ++ LogOp.log [op]) _ :=
    hi.recoverable.1.append (by simpa using hfits)
  rw [← hwal] at happend
  exact happend

theorem SystemOk.write_flush (hi : SystemOk P h s) (hf : s.flushes op = true)
    (hfits : FlushFits P (written s.mem op.key op.slot).inMemoryRepr) :
    SystemOk P ((.write op, s) :: h) (s.afterFlush P op) := by
  have hclock : (s.loggedTables op).disk.clock = s.tables.disk.clock := clock_logged ..
  have hevent : storeEvents ((.write op, s) :: h) =
      .flush (written s.mem op.key op.slot) (fun _ => s.tables.disk.clock) :: storeEvents h := by
    rw [storeEvents, List.map_cons, System.storeEvent, if_pos hf]
    rfl
  have hne : (written s.mem op.key op.slot).inMemoryRepr ≠ ∅ := by
    simp [written]
  refine ⟨?_, fun k slot hk => ?_, fun k _ => hi.tables_flushed hf k, replays_nil,
    hi.recoverable.2⟩
  · rw [hevent]
    refine (hi.logged op).flush hne hfits fun r _ => ⟨?_, hclock.ge⟩
    exact hi.reads.ok.since_le
  · have hempty : (∅ : InMemoryRepr)[k]? = some slot := hk
    simp at hempty

end

theorem SystemStep.flush {op : LogOp} (ho : CounterOk P s.mem op.key op.slot)
    (hf : s.flushes op = true) (hfl : Flushable (written s.mem op.key op.slot)) :
    SystemStep P s (.write op) (s.afterFlush P op) := by
  have hx : Prog.exec (memHandler P) (Mem.write P op.key op.slot) s.store = _ :=
    exec_write_flush ho hf hfl
  have htables : s.tablesAfter P op = (s.afterFlush P op).tables := if_pos hf
  have hs := SystemStep.write hx
  rw [htables] at hs
  exact hs

/-! ## The invariant -/

theorem SystemOk.start (hs : SystemStart P s) : SystemOk P [] s := by
  have hreplays := hs.started.recoverable
  have hempty : s.mem.inMemoryRepr = ∅ := by
    have hlog : Replays s.tables.disk.wal s.mem.inMemoryRepr := hreplays.1
    rw [hs.wal] at hlog
    exact hlog.unique replays_nil
  refine ⟨.start hs.store, fun k slot hk => ?_, fun _ _ => rfl, hreplays⟩
  rw [hempty] at hk
  simp at hk

theorem compaction_sameLog {level : Nat} {c : Cycle} {d d' : Disk} (hx : ErrorFree P level c d d') :
    Disk.SameLog d d' := by
  have hsame := Disk.exec_sameLog (P := P) (d := d)
    (sizeTierCompaction_within P c.targetChunks c.bloomFalsePositiveRate level c.tableNames)
  rwa [hx.returns] at hsame

/-- **Every step keeps the invariant.** -/
theorem SystemOk.step (hi : SystemOk P h s) (hs : SystemStep P s e s') (hk : KeepsWrites P s e) :
    SystemOk P ((e, s) :: h) s' := by
  cases hs with
  | write hx =>
    rename_i op st
    rcases exec_write_ok hx with ⟨hf, rfl⟩ | ⟨hf, -, rfl⟩
    · have htables : s.tablesAfter P op = s.loggedTables op :=
        if_neg fun ht => Bool.false_ne_true (hf.symm.trans ht)
      rw [htables]
      exact hi.write_quiet hf hk.1
    · have htables : s.tablesAfter P op = (s.afterFlush P op).tables := if_pos hf
      rw [htables]
      exact hi.write_flush hf (hk.2 hf)
  | updateConfig hm hw =>
    rw [Memtable.updateConfig] at hm
    obtain ⟨config, -, hm⟩ := bind_ok hm
    obtain rfl := Except.ok.inj hm
    exact ⟨ReadsOk.idle_iff.2 hi.reads, hi.mem, hi.tables, hi.recoverable.1, hw⟩
  | compact hc =>
    refine ⟨hi.reads.step hc hk, hi.mem, hi.tables, ?_, hi.recoverable.2⟩
    cases hc with
    | compact _ _ _ _ herr =>
      have hwal : Disk.SameLog _ _ := compaction_sameLog herr
      change Replays (System.store _).2.wal _
      rw [System.store]
      dsimp only
      rw [hwal]
      exact hi.recoverable.1
  | reload => exact ⟨ReadsOk.idle_iff.2 hi.reads, hi.mem, hi.tables, hi.recoverable⟩
  | restart hm hw hl =>
    rename_i content m levelArray
    have hstarted : StartsLogged P (m, s.tables.disk) := ⟨⟨content, hm⟩, hw⟩
    have hrecovered := hstarted.recoverable
    have hrepr : m.inMemoryRepr = s.mem.inMemoryRepr := hrecovered.1.unique hi.recoverable.1
    exact ⟨ReadsOk.idle_iff.2 hi.reads, fun k slot hslot => hi.mem k slot (hrepr ▸ hslot),
      fun k hnone => hi.tables k (hrepr ▸ hnone), hrecovered⟩
  | idle hd hwal =>
    refine ⟨hi.reads.idle hd, hi.mem, hi.tables, ?_, hi.recoverable.2⟩
    have hreplays := hi.recoverable.1
    rw [System.store] at hreplays ⊢
    dsimp only at hreplays ⊢
    rwa [hwal]

theorem always_systemOk (hr : SystemRun P h s) (hk : ∀ x ∈ h, KeepsWrites P x.2 x.1) :
    Always (SystemOk P) h s :=
  hr.always_of (C := KeepsWrites P) .start (fun hi hs hc => hi.step hs hc) hk

/-! ## Reading -/

/-- A reader that loads the tables answers with what was flushed last. -/
theorem SystemOk.tablesAnswer (hi : SystemOk P h s) (hread : s.tables.Readable)
    {levelArray : List FileMap} (hl : Loaded s.tables.disk levelArray) {k : Bytes}
    {slot? : Option (Option TableEntry)}
    (hlast : (lastFlushed (storeEvents h) k).map Prod.fst = slot?.map tableValue) :
    TablesAnswer levelArray k slot? := by
  obtain ⟨searched, levels, hx⟩ := hi.reads.read hread hl k
  cases slot? with
  | some slot =>
    obtain ⟨r, hr, hv⟩ := Option.map_eq_some_iff.1 hlast
    rw [hr, found?, hv] at hx
    exact ⟨searched, levels, hx⟩
  | none =>
    rw [Option.map_none, Option.map_eq_none_iff] at hlast
    rw [hlast] at hx
    exact ⟨searched, levels, hx⟩

theorem TablesAnswer.answers {m : Memtable} {levelArray : List FileMap} {k : Bytes}
    {slot? : Option (Option TableEntry)} (ht : TablesAnswer levelArray k slot?) :
    Answers m levelArray k (m.inMemoryRepr[k]?.or slot?) := by
  rw [Answers, Mem.get]
  cases m.inMemoryRepr[k]? with
  | some slot => rfl
  | none => exact ht

theorem SystemOk.answers (hi : SystemOk P h s) (hread : s.tables.Readable)
    {levelArray : List FileMap} (hl : Loaded s.tables.disk levelArray) (k : Bytes) :
    Answers s.mem levelArray k (acknowledged (h.map Prod.fst))[k]? := by
  rw [Answers, Mem.get]
  cases hmem : s.mem.inMemoryRepr[k]? with
  | some slot => exact hi.mem k slot hmem
  | none => exact hi.tablesAnswer hread hl (hi.tables k hmem)

/-- **No acknowledged write is lost**: after a run of writes, flushes, compactions, reloads and
restarts that keep what is held, a get through the memtable and a reader that loads the tables
answers every key as the acknowledged writes do. -/
theorem run_finds_acknowledged (hr : SystemRun P h s) (hk : ∀ x ∈ h, KeepsWrites P x.2 x.1)
    (hread : s.tables.Readable) {levelArray : List FileMap}
    (hl : Loaded s.tables.disk levelArray) (k : Bytes) :
    Answers s.mem levelArray k (acknowledged (h.map Prod.fst))[k]? :=
  (always_systemOk hr hk).now.answers hread hl k

/-! ### A write that flushes -/

/-- A server just started without tables. -/
def idleSystem : System := ⟨idleMem, Compaction.flushes 0, []⟩

/-- The server once the time of its first flush has come. -/
def lateSystem : System :=
  { idleSystem with tables := { Compaction.flushes 0 with disk := Mem.lateDisk } }

def firstWrite : LogOp := ⟨[107], some ⟨[118], none⟩⟩

/-- The server after its first write. -/
def flushedSystem : System := lateSystem.afterFlush .plain firstWrite

def firstFlush : List (SystemEvent × System) :=
  [(.write firstWrite, lateSystem), (.idle, idleSystem)]

theorem firstWrite_flushes : lateSystem.flushes firstWrite = true := by decide

theorem firstWrite_fits : firstWrite.Fits :=
  ⟨by decide, by decide, fun e he => by
    rw [← Option.some.inj he]
    exact ⟨⟨by decide, fun md hmd => by cases hmd⟩, by decide⟩⟩

theorem idleSystem_start : SystemStart .plain idleSystem where
  store := ⟨rfl, fun _ => rfl, Nat.le_refl _⟩
  wal := rfl
  started := ⟨⟨.default, rfl⟩, rfl⟩
  loaded := ⟨[], rfl, .nil⟩

theorem firstFlush_late : SystemRun .plain [(.idle, idleSystem)] lateSystem :=
  .step (.start idleSystem_start) (.idle ⟨fun _ => rfl, Nat.le_refl _, Nat.zero_le _⟩ rfl)

theorem firstFlush_run : SystemRun .plain firstFlush flushedSystem :=
  .step firstFlush_late (.flush (counterOk_plain _ _ _) firstWrite_flushes
    ⟨by simp [written], by decide, rfl⟩)

theorem firstFlush_keeps : ∀ x ∈ firstFlush, KeepsWrites .plain x.2 x.1 := by
  have hfits : FlushFits .plain (oneKeyRepr [107] [118]) :=
    (fits_oneKey (by decide) (by decide)).1
  intro x hx
  rcases List.mem_pair.1 hx with rfl | rfl
  · exact ⟨firstWrite_fits, fun _ => hfits⟩
  · trivial

theorem emptyStore_readable {s : TableStore} (h : EmptyStore s) : s.Readable :=
  ⟨fun _ _ ht => absurd ht h.no_table, fun _ _ ht => absurd ht h.no_table,
    fun _ _ _ _ ht => absurd ht h.no_table⟩

theorem lateSystem_ok : SystemOk .plain [(.idle, idleSystem)] lateSystem :=
  (always_systemOk firstFlush_late fun x hx => by
    obtain rfl := List.mem_singleton.1 hx
    trivial).now

theorem lateSystem_empty : EmptyStore (lateSystem.loggedTables firstWrite) :=
  ⟨rfl, fun _ => rfl, Nat.zero_le _⟩

theorem flushedSystem_readable : flushedSystem.tables.Readable := by
  have hfits : FlushFits .plain (oneKeyRepr [107] [118]) ∧ _ := fits_oneKey (by decide) (by decide)
  exact (emptyStore_readable lateSystem_empty).flush (lateSystem_ok.logged firstWrite).ok hfits.2
    (by decide) fun q g hq => absurd hq lateSystem_empty.no_table

theorem firstFlush_found : ∃ levelArray, Loaded flushedSystem.tables.disk levelArray ∧
    Answers flushedSystem.mem levelArray [107] (some (some ⟨[118], none⟩)) := by
  have hreads := (always_systemOk firstFlush_run firstFlush_keeps).now.reads
  obtain ⟨levelArray, hl⟩ := hreads.exists_loaded flushedSystem_readable
  exact ⟨levelArray, hl,
    run_finds_acknowledged firstFlush_run firstFlush_keeps flushedSystem_readable hl [107]⟩

end Db
