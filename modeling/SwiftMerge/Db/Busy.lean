import SwiftMerge.Compaction.Proof.BusyStore
import SwiftMerge.Db.SplitGet

/-!
# The server while it compacts

The monitor runs beside the requests and shares no lock with them: between any two of a compaction's
calls to the file system keys are written, the memtable is flushed, the configuration is replaced,
the reader is asked. A `Busy` server is a `System` and what is left of the compaction under way; a
compaction starts with the tables that the monitor has listed, takes its calls one at a time
(`operation`), and ends. A write is one step, its flush included, and so are a listing of the
monitor and a load of the reader.

Beside the compaction the server is as it would be without it, and the compaction goes on as it
would alone (`Underway`). So what holds of runs that compact in one step holds of these:

* `ServerOk.step`: every step keeps the invariant.
* `busy_never_fails`: no compaction fails that would not alone.
* `busy_finishes`: a compaction that has started can always be ended.
-/

namespace Db

open Lib Lsm Mem Compaction

/-- A compaction under way. -/
structure Compacting where
  level : Nat
  cycle : Cycle
  /-- the disks that its calls so far have found -/
  seen : List Disk

/-- What is left of it. -/
def Compacting.rest (P : Platform) (k : Compacting) : CompactionProg Unit :=
  (sizeTierCompaction P k.cycle.targetChunks k.cycle.bloomFalsePositiveRate k.level
    k.cycle.tableNames).resume (Disk.handler P) k.seen

structure Busy where
  server : System
  compacting : Option Compacting

/-- The server on another disk. -/
def System.withDisk (s : System) (d : Disk) : System :=
  { s with tables := { s.tables with disk := d } }

inductive BusyEvent
  | server (e : SystemEvent)
  /-- time that passes -/
  | wait
  /-- the monitor has listed the tables and starts to compact them -/
  | start (level : Nat) (c : Cycle)
  /-- the next call of the compaction -/
  | operation
  | finish

/-- What a server does whether it compacts or not. -/
def IsRequest : SystemEvent → Prop
  | .write _ => True
  | .updateConfig _ => True
  | .reload => True
  | _ => False

/-- A call of the compaction under way, or its end. -/
def OfCompaction : BusyEvent → Prop
  | .operation => True
  | .finish => True
  | _ => False

inductive BusyStep (P : Platform) : Busy → BusyEvent → Busy → Prop
  | request {s s' : System} {k : Option Compacting} {e : SystemEvent} : IsRequest e →
    SystemStep P s e s' → BusyStep P ⟨s, k⟩ (.server e) ⟨s', k⟩
  | wait {s : System} {k : Option Compacting} {t : Nat} (ht : s.tables.disk.clock ≤ t) :
    BusyStep P ⟨s, k⟩ .wait ⟨s.withDisk (s.tables.disk.waitUntil t ht), k⟩
  | idle {s s' : System} : SystemStep P s .idle s' →
    BusyStep P ⟨s, none⟩ (.server .idle) ⟨s', none⟩
  | restart {s s' : System} {k : Option Compacting} {content : ConfigSource} :
    SystemStep P s (.restart content) s' →
    BusyStep P ⟨s, k⟩ (.server (.restart content)) ⟨s', none⟩
  | start {s : System} {level : Nat} {c : Cycle} : 1 ≤ level ∧ level ≤ 10 →
    level ≤ s.tables.disk.levels → c.tableNames = levelTables s.tables.disk level →
    BusyStep P ⟨s, none⟩ (.start level c) ⟨s, some ⟨level, c, []⟩⟩
  | operation {s : System} {k : Compacting} {β : Type} {o : DiskOp β}
    {rest : β → CompactionProg Unit} : k.rest P = .step o rest →
    BusyStep P ⟨s, some k⟩ .operation ⟨s.withDisk (Disk.step P o s.tables.disk).2,
      some { k with seen := k.seen ++ [s.tables.disk] }⟩
  | finish {s : System} {k : Compacting} {u : Unit} : k.rest P = .ret u →
    BusyStep P ⟨s, some k⟩ .finish
      ⟨{ s with tables := compacted s.tables k.level k.cycle s.tables.disk }, none⟩
  /-- its error is dropped -/
  | fail {s : System} {k : Compacting} {e : CompactionError} : k.rest P = .fail e →
    BusyStep P ⟨s, some k⟩ .finish ⟨s, none⟩

/-- A server just started that does not compact. -/
structure BusyStart (P : Platform) (b : Busy) : Prop where
  server : SystemStart P b.server
  compacting : b.compacting = none

abbrev BusyRun (P : Platform) : List (BusyEvent × Busy) → Busy → Prop :=
  Lib.Run (BusyStart P) (BusyStep P)

/-- What a step is for the server. -/
def BusyEvent.serverEvent : BusyEvent → SystemEvent
  | .server e => e
  | .start level c => .compact level c
  | _ => .idle

/-- The steps of a run, for the server. -/
def serverHistory (h : List (BusyEvent × Busy)) : List (SystemEvent × System) :=
  h.map fun x => (x.1.serverEvent, x.2.server)

/-- The indexes of the merges fit their four-byte lengths. -/
def UnitsFit (s : TableStore) (level : Nat) (c : Cycle) : Prop :=
  ∀ u ∈ c.units, ((u.map fun name => undated (s.written ⟨level, name⟩)).map indexSize).sum < 2 ^ 32

/-- The step keeps what the memtable and the tables hold; a compaction that starts would do so
alone, and the server does not restart in the middle of one. -/
def KeepsBusy (P : Platform) (b : Busy) : BusyEvent → Prop
  | .server (.restart _) => b.compacting = none
  | .server e => KeepsWrites P b.server e
  | .start level c =>
    KeepsReads b.server.tables (.compact level c) ∧ UnitsFit b.server.tables level c
  | _ => True

variable {P : Platform} {h h' : List (BusyEvent × Busy)} {b b' : Busy} {e : BusyEvent}
  {e' : SystemEvent} {s s' : System} {hist : List (SystemEvent × System)} {d : Disk}

/-! ## The invariant -/

/-- Two disks that differ in the files of a compaction only. -/
structure SameBeside (t : TableStore) (d v : Disk) : Prop where
  place : ∀ {p}, FlushPlace t p → d.file? p = v.file? p
  clock : d.clock = v.clock
  wal : d.wal = v.wal

/-- In the middle of a compaction: it goes on as it would alone from the tables `t`, to end on `d'`,
and the server without it would be on `v`. -/
structure Underway (P : Platform) (hist : List (SystemEvent × System)) (s : System) (k : Compacting)
    (before : List StoreEvent) (t : TableStore) (d' v : Disk) : Prop where
  start : ReadsOk P before t
  keeps : KeepsReads t (.compact k.level k.cycle)
  compacts : Compacts P t k.level k.cycle d'
  goesOn : GoesOn P t k.level (k.rest P) s.tables.disk d'
  server : SystemOk P hist (s.withDisk v)
  flushed : Flushed t (s.withDisk v).tables
  same : SameBeside t s.tables.disk v
  levels : 1 ≤ s.tables.disk.levels

/-- What holds of the server in every state. -/
def ServerOk (P : Platform) (hist : List (SystemEvent × System)) (b : Busy) : Prop :=
  match b.compacting with
  | none => SystemOk P hist b.server
  | some k => ∃ before t d' v, Underway P hist b.server k before t d' v

/-! ## The server beside the compaction -/

/-- The steps of a run matter as far as they write and flush. -/
theorem SystemOk.congr {hist' : List (SystemEvent × System)} (hi : SystemOk P hist s)
    (hstore : storeEvents hist' = storeEvents hist)
    (hack : hist'.map Prod.fst = hist.map Prod.fst) : SystemOk P hist' s := by
  refine ⟨?_, ?_, ?_, hi.recoverable⟩
  · rw [hstore]
    exact hi.reads
  · rw [hack]
    exact hi.mem
  · rw [hstore, hack]
    exact hi.tables

/-- A step that neither writes nor changes the store. -/
theorem SystemOk.quiet (hi : SystemOk P hist s) {e : SystemEvent} (r : System)
    (hev : ∀ op, e ≠ .write op) : SystemOk P ((e, r) :: hist) s := by
  have hlast : lastFlushed (storeEvents ((e, r) :: hist)) = lastFlushed (storeEvents hist) :=
    lastFlushed_quiet fun op he => absurd he (hev op)
  have hack : acknowledged (((e, r) :: hist).map Prod.fst) = acknowledged (hist.map Prod.fst) := by
    cases e with
    | write op => exact absurd rfl (hev op)
    | updateConfig | compact | reload | restart | idle => rfl
  refine ⟨⟨hi.reads.toLoadOk, hi.reads.levels, hi.reads.created, ?_⟩, ?_, ?_, hi.recoverable⟩
  · rw [hlast]
    exact hi.reads.view
  · rw [hack]
    exact hi.mem
  · rw [hlast, hack]
    exact hi.tables

theorem flushes_withDisk (hclock : s.tables.disk.clock = d.clock) (op : LogOp) :
    (s.withDisk d).flushes op = s.flushes op := by
  rw [System.flushes, System.flushes, System.withDisk, hclock]

/-- On another disk at the same instant a step is the same for the store. -/
theorem storeEvent_withDisk (hclock : s.tables.disk.clock = d.clock) (e : SystemEvent) :
    (s.withDisk d).storeEvent e = s.storeEvent e := by
  cases e with
  | write op =>
    rw [System.storeEvent, System.storeEvent, flushes_withDisk hclock, System.withDisk, hclock]
  | updateConfig | compact | reload | restart | idle => rfl

theorem keeps_waitUntil {n : Nat} (hn : d.clock ≤ n) :
    Disk.Keeps (fun _ => False) d (d.waitUntil n hn) :=
  ⟨fun _ => rfl, Nat.le_refl _, hn⟩

theorem SystemOk.wait (hi : SystemOk P hist s) {n : Nat} (hn : s.tables.disk.clock ≤ n) :
    SystemOk P ((.idle, s) :: hist) (s.withDisk (s.tables.disk.waitUntil n hn)) :=
  hi.step (.idle (keeps_waitUntil hn) rfl) trivial

theorem SystemOk.withHistory (hclock : s.tables.disk.clock = d.clock) {e : SystemEvent}
    (hi : SystemOk P ((e, s.withDisk d) :: hist) s') : SystemOk P ((e, s) :: hist) s' := by
  refine hi.congr ?_ rfl
  rw [storeEvents, storeEvents, List.map_cons, List.map_cons, storeEvent_withDisk hclock]

section
variable {m : Memtable} {t : TableStore} {v : Disk} {key : Bytes} {slot : Option TableEntry}

theorem files_logged (m : Memtable) (d : Disk) (key : Bytes) (slot : Option TableEntry) :
    (logged m d key slot).files = d.files ∧ (logged m d key slot).levels = d.levels := by
  unfold logged
  split
  · exact ⟨rfl, rfl⟩
  · exact ⟨rfl, rfl⟩

theorem SameBeside.logged (h : SameBeside t d v) :
    SameBeside t (Mem.logged m d key slot) (Mem.logged m v key slot) := by
  refine ⟨fun hp => ?_, ?_, ?_⟩
  · rw [Disk.file?, Disk.file?, (files_logged m d key slot).1, (files_logged m v key slot).1]
    exact h.place hp
  · rw [clock_logged, clock_logged, h.clock]
  · unfold Mem.logged
    split
    · exact congrArg (· ++ _) h.wal
    · exact h.wal

theorem SameBeside.flush (h : SameBeside t d v) (ht : StoreOk P t) (hclock : t.disk.clock ≤ d.clock)
    (hnew : v.file? (flushPath P v) = none) :
    SameBeside t (flushedDisk P m d) (flushedDisk P m v) := by
  have hpath : flushPath P d = flushPath P v := by
    rw [flushPath, flushPath, h.clock]
  have hplace := ht.flushPlace (P := P) hclock
  have hnewd : d.file? (flushPath P d) = none := by
    rw [h.place hplace, hpath, hnew]
  refine ⟨fun {p} hp => ?_, ?_, rfl⟩
  · by_cases hpp : p = flushPath P d
    · rw [hpp, file?_flushedDisk hnewd, hpath, file?_flushedDisk hnew, h.clock]
    · rw [flushedDisk_keeps.file hpp, flushedDisk_keeps.file (hpath ▸ hpp), h.place hp]
  · rw [clock_flushedDisk hnewd, clock_flushedDisk hnew, h.clock]

end

theorem afterFlush_withDisk {op : LogOp} (hclock : s.tables.disk.clock = d.clock)
    (hnext : (flushedDisk P (written s.mem op.key op.slot) (s.loggedTables op).disk).clock =
      (flushedDisk P (written s.mem op.key op.slot) (logged s.mem d op.key op.slot)).clock) :
    (s.withDisk d).afterFlush P op = (s.afterFlush P op).withDisk
      (flushedDisk P (written s.mem op.key op.slot) (logged s.mem d op.key op.slot)) := by
  have hpath : flushPath P (logged s.mem s.tables.disk op.key op.slot) =
      flushPath P (logged s.mem d op.key op.slot) := by
    rw [flushPath, flushPath, clock_logged, clock_logged, hclock]
  rw [System.loggedTables] at hnext
  simp only [System.afterFlush, System.withDisk, System.loggedTables, flushedStore, flushedMem,
    hnext, hpath, hclock]

namespace Underway

variable {k : Compacting} {before : List StoreEvent} {t : TableStore} {d' v : Disk}
  (hu : Underway P hist s k before t d' v)
include hu

theorem write_quiet {op : LogOp} (hf : s.flushes op = false) (hfits : op.Fits) :
    Underway P ((.write op, s) :: hist)
      ⟨written s.mem op.key op.slot, s.loggedTables op, s.levelArray⟩ k before t d'
      (logged s.mem v op.key op.slot) := by
  have hfv : (s.withDisk v).flushes op = false := (flushes_withDisk hu.same.clock op).trans hf
  obtain ⟨hfiles, hlevels⟩ := files_logged s.mem s.tables.disk op.key op.slot
  refine ⟨hu.start, hu.keeps, hu.compacts, hu.goesOn.move ?_,
    .withHistory hu.same.clock (hu.server.write_quiet hfv hfits),
    hu.flushed.idle (keeps_logged s.mem v op.key op.slot), hu.same.logged, ?_⟩
  · intro d' ⟨φ, hm⟩
    refine ⟨φ, hm.move (fun _ => ?_) (congrArg (Files.names · _) hfiles) hlevels
      (clock_logged ..).ge⟩
    rw [Disk.file?, Disk.file?]
    exact congrArg _ hfiles
  · exact hu.levels.trans_eq hlevels.symm

theorem write_flush {op : LogOp} (hf : s.flushes op = true)
    (hfits : FlushFits P (written s.mem op.key op.slot).inMemoryRepr) :
    Underway P ((.write op, s) :: hist) (s.afterFlush P op) k before t d'
      (flushedDisk P (written s.mem op.key op.slot) (logged s.mem v op.key op.slot)) := by
  have hfv : (s.withDisk v).flushes op = true := (flushes_withDisk hu.same.clock op).trans hf
  have hok := (hu.server.logged op).ok
  have hstart := hu.start.ok
  have hclock := hu.flushed.clock
  rw [System.withDisk] at hclock
  have hlogged : SameBeside t (s.loggedTables op).disk (logged s.mem v op.key op.slot) :=
    hu.same.logged
  have hclockd : t.disk.clock ≤ (s.loggedTables op).disk.clock := by
    rw [hlogged.clock, clock_logged]
    exact hclock
  have hsame := hlogged.flush (m := written s.mem op.key op.slot) hstart hclockd hok.flushPath_new
  have hafter := afterFlush_withDisk hu.same.clock hsame.clock
  obtain ⟨hfiles, hlevels⟩ := files_logged s.mem s.tables.disk op.key op.slot
  have hdir : 1 ≤ (s.loggedTables op).disk.levels := hu.levels.trans_eq hlevels.symm
  refine ⟨hu.start, hu.keeps, hu.compacts, hu.goesOn.move ?_, ?_, ?_, hsame, ?_⟩
  · intro d' ⟨φ, hm⟩
    refine ⟨φ, hstart.mirrors_flush (hm.move (fun _ => ?_) (congrArg (Files.names · _) hfiles)
      hlevels (clock_logged ..).ge) hu.compacts.pos hdir⟩
    rw [Disk.file?, Disk.file?]
    exact congrArg _ hfiles
  · rw [← hafter]
    exact .withHistory hu.same.clock (hu.server.write_flush hfv hfits)
  · rw [← hafter]
    refine (hu.flushed.idle (keeps_logged s.mem v op.key op.slot)).flush hstart hok fun r _ => ?_
    exact ⟨hu.server.reads.ok.since_le, (clock_logged ..).ge⟩
  · exact hdir.trans ((Nat.le_max_left _ _).trans_eq levels_flushedDisk.symm)

/-- What touches neither the memtable's records nor the disk. -/
theorem request {e : SystemEvent} (hs : SystemStep P s e s') (he : IsRequest e)
    (hk : KeepsWrites P s e) : ∃ v', Underway P ((e, s) :: hist) s' k before t d' v' := by
  cases hs with
  | write hx =>
    rename_i op st
    rcases exec_write_ok hx with ⟨hf, rfl⟩ | ⟨hf, -, rfl⟩
    · have htables : s.tablesAfter P op = s.loggedTables op :=
        if_neg fun ht => Bool.false_ne_true (hf.symm.trans ht)
      rw [htables]
      exact ⟨_, hu.write_quiet hf hk.1⟩
    · have htables : s.tablesAfter P op = (s.afterFlush P op).tables := if_pos hf
      rw [htables]
      exact ⟨_, hu.write_flush hf (hk.2 hf)⟩
  | @updateConfig content m hm hw =>
    have hmv : (s.withDisk v).mem.updateConfig P (s.withDisk v).tables.disk.clock content =
        .ok m := by
      rw [← hm, System.withDisk, hu.same.clock]
    have hi := hu.server.step (.updateConfig hmv hw) trivial
    exact ⟨v, hu.start, hu.keeps, hu.compacts, hu.goesOn, .withHistory hu.same.clock hi, hu.flushed,
      hu.same, hu.levels⟩
  | reload hl =>
    have hi := hu.server.quiet s (e := .reload) (by simp)
    exact ⟨v, hu.start, hu.keeps, hu.compacts, hu.goesOn, ⟨hi.reads, hi.mem, hi.tables,
      hi.recoverable⟩, hu.flushed, hu.same, hu.levels⟩
  | compact | restart | idle => exact he.elim

theorem wait {n : Nat} (hn : s.tables.disk.clock ≤ n) : ∃ hnv : v.clock ≤ n,
    Underway P ((.idle, s) :: hist) (s.withDisk (s.tables.disk.waitUntil n hn)) k before t d'
      (v.waitUntil n hnv) := by
  have hnv : v.clock ≤ n := hu.same.clock ▸ hn
  refine ⟨hnv, hu.start, hu.keeps, hu.compacts, hu.goesOn.move ?_,
    .withHistory hu.same.clock (hu.server.wait hnv), hu.flushed.idle (keeps_waitUntil hnv),
    ⟨hu.same.place, rfl, hu.same.wal⟩, hu.levels⟩
  intro d' ⟨φ, hm⟩
  exact ⟨φ, hm.move (fun _ => rfl) rfl rfl hn⟩

theorem operation {β : Type} {o : DiskOp β} {rest : β → CompactionProg Unit}
    (ho : k.rest P = .step o rest) : ∃ hn : v.clock ≤ (Disk.step P o s.tables.disk).2.clock,
      Underway P ((.idle, s) :: hist) (s.withDisk (Disk.step P o s.tables.disk).2)
        { k with seen := k.seen ++ [s.tables.disk] } before t d' (v.waitUntil _ hn) := by
  have hfollows := hu.goesOn
  rw [ho] at hfollows
  have hown := hfollows.own.within
  have hkeeps := (Disk.step_keeps (P := P) (d := s.tables.disk) hown).1
  have hlog : Disk.SameLog _ _ := (Disk.step_sameLog (P := P) (d := s.tables.disk) hown).1
  have hnv : v.clock ≤ (Disk.step P o s.tables.disk).2.clock := hu.same.clock ▸ hkeeps.clock
  refine ⟨hnv, hu.start, hu.keeps, hu.compacts, ?_,
    .withHistory hu.same.clock (hu.server.wait hnv), hu.flushed.idle (keeps_waitUntil hnv),
    ⟨fun hp => ?_, rfl, hlog.trans hu.same.wal⟩, hu.levels.trans hkeeps.levels⟩
  · have hnext := hfollows.step (H := Disk.handler P) fun d' hA hR => by
      obtain ⟨φ, hm⟩ := hR
      exact hm.step (P := P) hA
    rw [Compacting.rest, Prog.resume_concat _ _ _ ho]
    exact hnext
  · exact (hkeeps.file fun hq => hq hp).trans (hu.same.place hp)

theorem recoverable : Recoverable s.store := by
  have hreplays : Replays v.wal s.mem.inMemoryRepr := hu.server.recoverable.1
  rw [← hu.same.wal] at hreplays
  exact ⟨hreplays, hu.server.recoverable.2⟩

theorem endsBeside {u : Unit} (hret : k.rest P = .ret u) :
    EndsBeside P t (s.withDisk v).tables k.level k.cycle d' s.tables.disk := by
  have hfollows := hu.goesOn
  rw [hret] at hfollows
  obtain ⟨d'', hx, φ, hm⟩ := hfollows.ret
  obtain rfl : d' = d'' := (Prod.mk.inj hx).2
  exact ⟨hu.compacts, hu.flushed, ⟨φ, hm⟩, hu.same.place, hu.same.clock⟩

/-- **At its end the tables are compacted**, with those flushed in the meantime. -/
theorem finish {u : Unit} (hret : k.rest P = .ret u) : SystemOk P ((.idle, s) :: hist)
    { s with tables := compacted s.tables k.level k.cycle s.tables.disk } := by
  have hi := hu.server.quiet s (e := .idle) (by simp)
  have hreads := hu.start.beside hi.reads (hu.endsBeside hret) hu.keeps
  exact ⟨hreads, hi.mem, hi.tables, hu.recoverable⟩

theorem not_fail (e : CompactionError) : k.rest P ≠ .fail e := by
  intro hfail
  have hfollows := hu.goesOn
  rw [hfail] at hfollows
  obtain ⟨d'', hx, -⟩ := hfollows.fail
  cases hx

end Underway

/-! ## The steps -/

theorem SystemOk.startCompacting (hi : SystemOk P hist s) {level : Nat} {c : Cycle}
    (hlevel : 1 ≤ level) (hdir : level ≤ s.tables.disk.levels)
    (hnames : c.tableNames = levelTables s.tables.disk level)
    (hkeeps : KeepsReads s.tables (.compact level c)) (hfit : UnitsFit s.tables level c) :
    ∃ before d', Underway P ((.compact level c, s) :: hist) s ⟨level, c, []⟩ before s.tables d'
      s.tables.disk := by
  obtain ⟨d', hc⟩ := hi.reads.ok.exists_compacts hlevel hdir hnames hfit
  have hgoes := hc.goesOn
  refine ⟨_, d', hi.reads, hkeeps, hc, ?_, hi.quiet s (by simp),
    .refl s.tables, ⟨fun _ => rfl, rfl, rfl⟩, hlevel.trans hdir⟩
  rw [Compacting.rest, Prog.resume_nil]
  exact hgoes

theorem keepsWrites_of_request (he : IsRequest e') (hk : KeepsBusy P b (.server e')) :
    KeepsWrites P b.server e' := by
  cases e' with
  | write | updateConfig | reload => exact hk
  | compact | restart | idle => exact he.elim

/-- **Every step keeps the invariant.** -/
theorem ServerOk.step (hi : ServerOk P hist b) (hs : BusyStep P b e b') (hk : KeepsBusy P b e) :
    ServerOk P ((e.serverEvent, b.server) :: hist) b' := by
  cases hs with
  | @request s s' k e he hs =>
    have hk := keepsWrites_of_request he hk
    cases k with
    | none => exact SystemOk.step hi hs hk
    | some k =>
      obtain ⟨before, t, d', v, hu⟩ := hi
      obtain ⟨v', hu'⟩ := hu.request hs he hk
      exact ⟨before, t, d', v', hu'⟩
  | @wait s k n hn =>
    cases k with
    | none => exact SystemOk.wait hi hn
    | some k =>
      obtain ⟨before, t, d', v, hu⟩ := hi
      obtain ⟨_, hu'⟩ := hu.wait hn
      exact ⟨before, t, d', _, hu'⟩
  | idle hs => exact SystemOk.step hi hs trivial
  | @restart s s' k content hs =>
    obtain rfl : k = none := hk
    exact SystemOk.step hi hs trivial
  | start hlevel hdir hnames =>
    obtain ⟨before, d', hu⟩ := SystemOk.startCompacting hi hlevel.1 hdir hnames hk.1 hk.2
    exact ⟨before, _, d', _, hu⟩
  | operation ho =>
    obtain ⟨before, t, d', v, hu⟩ := hi
    obtain ⟨_, hu'⟩ := hu.operation ho
    exact ⟨before, t, d', _, hu'⟩
  | finish hret =>
    obtain ⟨before, t, d', v, hu⟩ := hi
    exact hu.finish hret
  | fail hfail =>
    obtain ⟨before, t, d', v, hu⟩ := hi
    exact absurd hfail (hu.not_fail _)

theorem always_serverOk (hr : BusyRun P h b) (hk : ∀ x ∈ h, KeepsBusy P x.2 x.1) :
    Always (fun h b => ServerOk P (serverHistory h) b) h b := by
  refine hr.always_of (C := KeepsBusy P) (fun hs => ?_) (fun hi hs hc => hi.step hs hc) hk
  rw [ServerOk, hs.compacting]
  exact .start hs.server

/-- **A compaction never fails beside the requests** if it would not alone. -/
theorem busy_never_fails (hr : BusyRun P h b) (hk : ∀ x ∈ h, KeepsBusy P x.2 x.1) {k : Compacting}
    (hc : b.compacting = some k) (e : CompactionError) : k.rest P ≠ .fail e := by
  have hi := (always_serverOk hr hk).now
  rw [ServerOk, hc] at hi
  obtain ⟨before, t, d', v, hu⟩ := hi
  exact hu.not_fail e

/-! ## The end of a compaction -/

theorem keepsBusy_ofCompaction (hops : ∀ x ∈ h', OfCompaction x.1)
    (hk : ∀ x ∈ h, KeepsBusy P x.2 x.1) : ∀ x ∈ h' ++ h, KeepsBusy P x.2 x.1 := by
  intro x hx
  rcases List.mem_append.1 hx with hx | hx
  · have hop := hops x hx
    obtain ⟨e, b⟩ := x
    cases e with
    | operation | finish => trivial
    | server | wait | start => exact hop.elim
  · exact hk x hx

/-- The compaction's own calls bring it to its end. -/
theorem Underway.exists_end {p : CompactionProg Unit} {k : Compacting} {before : List StoreEvent}
    {t : TableStore} {d' v : Disk} (hu : Underway P (serverHistory h) s k before t d' v)
    (hr : BusyRun P h ⟨s, some k⟩) (hp : k.rest P = p) :
    ∃ h' d seen v', BusyRun P (h' ++ h) ⟨s.withDisk d, some { k with seen := seen }⟩ ∧
      (∀ x ∈ h', OfCompaction x.1) ∧ Compacting.rest P { k with seen := seen } = .ret () ∧
      Underway P (serverHistory (h' ++ h)) (s.withDisk d) { k with seen := seen } before t d' v' ∧
      s.tables.disk.clock ≤ d.clock ∧ ∀ p, v'.file? p = v.file? p := by
  induction p generalizing h s k v with
  | ret u => exact ⟨[], s.tables.disk, k.seen, v, hr, by simp, hp, hu, Nat.le_refl _, fun _ => rfl⟩
  | fail e => exact absurd hp (hu.not_fail e)
  | step o rest ih =>
    obtain ⟨hn, hu'⟩ := hu.operation hp
    obtain ⟨h', d, seen, v', hr', hops, hret, hend, hclock, hfile⟩ :=
      ih (h := (.operation, ⟨s, some k⟩) :: h) _ hu' (.step hr (.operation hp))
        (Prog.resume_concat _ _ _ hp)
    refine ⟨h' ++ [(.operation, ⟨s, some k⟩)], d, seen, v', ?_, ?_, hret, ?_,
      (hu.same.clock.trans_le hn).trans hclock, hfile⟩
    · rw [List.append_assoc]
      exact hr'
    · intro x hx
      rcases List.mem_append.1 hx with hx | hx
      · exact hops x hx
      · rw [List.mem_singleton.1 hx]
        trivial
    · rw [List.append_assoc]
      exact hend

theorem BusyStep.finish_withDisk {k : Compacting} {u : Unit} (hret : k.rest P = .ret u) :
    BusyStep P ⟨s.withDisk d, some k⟩ .finish
      ⟨{ s with tables := compacted s.tables k.level k.cycle d }, none⟩ := .finish hret

/-- **A compaction that has started can be ended**: from any state of a run its own calls bring it
to its end, and never to a failure. -/
theorem busy_finishes {k : Compacting} (hr : BusyRun P h ⟨s, some k⟩)
    (hk : ∀ x ∈ h, KeepsBusy P x.2 x.1) : ∃ h' d',
      BusyRun P (h' ++ h) ⟨{ s with tables := compacted s.tables k.level k.cycle d' }, none⟩ ∧
      (∀ x ∈ h', OfCompaction x.1) ∧ s.tables.disk.clock ≤ d'.clock := by
  obtain ⟨before, t, d', v, hu⟩ : ∃ before t d' v,
      Underway P (serverHistory h) s k before t d' v := (always_serverOk hr hk).now
  obtain ⟨h', d, seen, v', hr', hops, hret, -, hclock, -⟩ := hu.exists_end hr rfl
  exact ⟨(.finish, ⟨s.withDisk d, some { k with seen := seen }⟩) :: h', d,
    .step hr' (.finish_withDisk hret), List.forall_mem_cons.2 ⟨trivial, hops⟩, hclock⟩

/-! ### A flush in the middle of a compaction -/

/-- A run without compactions is one of a server that may compact. -/
theorem busyRun_of_system {hist : List (SystemEvent × System)} (hr : SystemRun P hist s)
    (hc : ∀ x ∈ hist, ∀ level c, x.1 ≠ .compact level c) :
    BusyRun P (hist.map fun x => (.server x.1, ⟨x.2, none⟩)) ⟨s, none⟩ := by
  induction hr with
  | start hs => exact .start ⟨hs, rfl⟩
  | @step hist s s' e hr hs ih =>
    rw [List.forall_mem_cons] at hc
    refine .step (ih hc.2) ?_
    cases e with
    | write | updateConfig | reload => exact .request trivial hs
    | compact level c => exact absurd rfl (hc.1 level c)
    | restart => exact .restart hs
    | idle => exact .idle hs

/-- A second after the time of the next flush. The clock stands last: the sum is not computed. -/
def System.dueAt (s : System) : Nat := 10 ^ 9 + s.mem.flushBy + s.tables.disk.clock

theorem System.clock_le_dueAt (s : System) : s.tables.disk.clock ≤ s.dueAt := Nat.le_add_left _ _

def System.due (s : System) : System :=
  s.withDisk (s.tables.disk.waitUntil s.dueAt s.clock_le_dueAt)

theorem System.due_flushes (s : System) (op : LogOp) : s.due.flushes op = true := by
  have hdue : (written s.due.mem op.key op.slot).flushBy < s.due.tables.disk.clock :=
    show s.mem.flushBy < 10 ^ 9 + s.mem.flushBy + s.tables.disk.clock by omega
  rw [System.flushes, shouldFlush, decide_eq_true hdue, Bool.or_true]

section
variable {op : LogOp} {key value : Bytes} {p : Path} {f : File}

theorem levelTables_waitUntil {t : Nat} (ht : d.clock ≤ t) (level : Nat) :
    levelTables (d.waitUntil t ht) level = levelTables d level := rfl

theorem System.due_tables (s : System) (level : Nat) :
    levelTables s.due.tables.disk level = levelTables s.tables.disk level :=
  levelTables_waitUntil s.clock_le_dueAt level

theorem levelTables_afterFlush (hok : StoreOk P (s.loggedTables op)) :
    levelTables (s.afterFlush P op).tables.disk 1 =
      (flushPath P (s.loggedTables op).disk).name :: levelTables s.tables.disk 1 := by
  have hlogged : levelTables (s.loggedTables op).disk 1 = levelTables s.tables.disk 1 := by
    rw [levelTables, levelTables, Disk.dir, Disk.dir, System.loggedTables,
      (files_logged s.mem s.tables.disk op.key op.slot).1]
  rw [← hlogged]
  exact levelTables_flush hok

theorem afterFlush_first (h : ∀ {p f}, s.tables.disk.file? p = some f → p.level = 1)
    (hf : (s.afterFlush P op).tables.disk.file? p = some f) : p.level = 1 := by
  by_cases hp : p = flushPath P (s.loggedTables op).disk
  · rw [hp]
    rfl
  · have hold := (flushedDisk_keeps.file hp).symm.trans hf
    rw [Disk.file?, System.loggedTables, (files_logged _ _ _ _).1] at hold
    exact h hold

theorem written_afterFlush (hempty : s.mem.inMemoryRepr = ∅) :
    (s.afterFlush P ⟨key, some ⟨value, none⟩⟩).tables.written
        (flushPath P (s.loggedTables ⟨key, some ⟨value, none⟩⟩).disk) =
      [(key, tableValue (some ⟨value, none⟩), s.tables.disk.clock)] := by
  have hone : (written s.mem key (some ⟨value, none⟩)).inMemoryRepr = oneKeyRepr key value := by
    rw [written, hempty]
    rfl
  refine (Function.update_self ..).trans ?_
  rw [datedRecords, hone, records_oneKeyRepr]
  rfl

theorem written_afterFlush_other (hp : p ≠ flushPath P (s.loggedTables op).disk) :
    (s.afterFlush P op).tables.written p = s.tables.written p :=
  Function.update_of_ne hp _ _

end

/-- The server when the time of its second flush has come. -/
def lateAgain : System := flushedSystem.due

def secondWrite : LogOp := ⟨[108], some ⟨[118], none⟩⟩

/-- The server after its second flush. -/
def flushedAgain : System := lateAgain.afterFlush .plain secondWrite

def secondFlush : List (SystemEvent × System) :=
  (.write secondWrite, lateAgain) :: (.idle, flushedSystem) :: firstFlush

theorem secondFlush_late : SystemRun .plain ((.idle, flushedSystem) :: firstFlush) lateAgain :=
  .step firstFlush_run (.idle (keeps_waitUntil flushedSystem.clock_le_dueAt) rfl)

theorem secondFlush_run : SystemRun .plain secondFlush flushedAgain := by
  refine .step secondFlush_late (.flush (counterOk_plain _ _ _)
    (flushedSystem.due_flushes secondWrite) ⟨?_, ?_, rfl⟩)
  · simp [written]
  · decide

theorem secondFlush_keeps : ∀ x ∈ secondFlush, KeepsWrites .plain x.2 x.1 := by
  have hfits : FlushFits .plain (oneKeyRepr [108] [118]) :=
    (fits_oneKey (by decide) (by decide)).1
  have hsecond : secondWrite.Fits := ⟨by decide, by decide, fun e he => by
    rw [← Option.some.inj he]
    exact ⟨⟨by decide, fun md hmd => by cases hmd⟩, by decide⟩⟩
  exact List.forall_mem_cons.2 ⟨⟨hsecond, fun _ => hfits⟩,
    List.forall_mem_cons.2 ⟨trivial, firstFlush_keeps⟩⟩

theorem lateAgain_ok : SystemOk .plain ((.idle, flushedSystem) :: firstFlush) lateAgain :=
  (always_systemOk secondFlush_late (List.forall_mem_cons.1 secondFlush_keeps).2).now

/-- The tables of the two flushes. -/
def firstPath : Path := flushPath .plain (lateSystem.loggedTables firstWrite).disk

def secondPath : Path := flushPath .plain (lateAgain.loggedTables secondWrite).disk

theorem System.written_withDisk (s : System) (d : Disk) :
    (s.withDisk d).tables.written = s.tables.written := rfl

theorem flushedAgain_tables :
    levelTables flushedAgain.tables.disk 1 = [secondPath.name, firstPath.name] := by
  have hnone : levelTables lateSystem.tables.disk 1 = [] := by
    apply List.eq_nil_iff_forall_not_mem.2
    intro name hname
    obtain ⟨-, f, hf⟩ := mem_levelTables.1 hname
    cases (Disk.file?_empty 0).symm.trans hf
  have hfirst := levelTables_afterFlush (lateSystem_ok.logged firstWrite).ok
  rw [hnone] at hfirst
  have hsecond := levelTables_afterFlush (lateAgain_ok.logged secondWrite).ok
  rw [lateAgain, System.due_tables, flushedSystem, hfirst] at hsecond
  exact hsecond

theorem secondPath_ne : secondPath ≠ firstPath := by
  have hnd := levelTables_nodup flushedAgain.tables.disk 1
  rw [flushedAgain_tables, List.nodup_cons, List.mem_singleton] at hnd
  exact fun he => hnd.1 (congrArg Path.name he)

theorem written_secondPath : flushedAgain.tables.written secondPath =
    [([108], tableValue (some ⟨[118], none⟩), lateAgain.tables.disk.clock)] :=
  written_afterFlush rfl

theorem written_firstPath : flushedAgain.tables.written firstPath =
    [([107], tableValue (some ⟨[118], none⟩), lateSystem.tables.disk.clock)] := by
  have hlate : lateAgain.tables.written = flushedSystem.tables.written :=
    System.written_withDisk _ _
  rw [flushedAgain, written_afterFlush_other secondPath_ne.symm, hlate]
  exact written_afterFlush rfl

theorem file?_waitUntil {d : Disk} {t : Nat} (ht : d.clock ≤ t) (p : Path) :
    (d.waitUntil t ht).file? p = d.file? p := rfl

/-- The compaction of the two tables. -/
def compactBoth : Cycle where
  targetChunks := compactTwo.targetChunks
  bloomFalsePositiveRate := compactTwo.bloomFalsePositiveRate
  tableNames := levelTables flushedAgain.tables.disk 1

theorem compactBoth_oneUnit : OneUnit flushedAgain.tables compactBoth where
  units := by
    rw [Cycle.units, show compactBoth.tableNames = _ from flushedAgain_tables]
    simp [compactBoth, compactTwo, splitUnits, splitLoop]
  first := afterFlush_first fun hf => by
    have hold : flushedSystem.tables.disk.file? _ = some _ :=
      (file?_waitUntil flushedSystem.clock_le_dueAt _).symm.trans hf
    exact afterFlush_first (fun hf => by cases (Disk.file?_empty 0).symm.trans hf) hold

/-- They hold two keys. -/
theorem unitRecords_both : unitRecords flushedAgain.tables.written 1 compactBoth.tableNames =
    [([107], tableValue (some ⟨[118], none⟩), lateSystem.tables.disk.clock),
      ([108], tableValue (some ⟨[118], none⟩), lateAgain.tables.disk.clock)] := by
  have hfirst : (⟨1, firstPath.name⟩ : Path) = firstPath := rfl
  have hsecond : (⟨1, secondPath.name⟩ : Path) = secondPath := rfl
  rw [show compactBoth.tableNames = _ from flushedAgain_tables, unitRecords, List.map_cons,
    List.map_singleton, hfirst, hsecond, written_firstPath, written_secondPath]
  have hkept (k : UInt8) (t : Nat) :
      keptRecord ([k], tableValue (some ⟨[118], none⟩), t) = true := rfl
  have hgt : compare (108 : UInt8) 107 = .gt := rfl
  simp [mergeStack, hkept, mergeLeft, hgt]

theorem compactBoth_tables : compactBoth.tableNames = [secondPath.name, firstPath.name] :=
  flushedAgain_tables

theorem compactBoth_fits : UnitsFit flushedAgain.tables 1 compactBoth := by
  have hfirst : (⟨1, firstPath.name⟩ : Path) = firstPath := rfl
  have hsecond : (⟨1, secondPath.name⟩ : Path) = secondPath := rfl
  intro u hu
  rw [compactBoth_oneUnit.units, List.mem_singleton] at hu
  rw [hu, compactBoth_tables, List.map_cons, List.map_singleton, hfirst, hsecond,
    written_firstPath, written_secondPath]
  decide

theorem compactBoth_keeps : KeepsReads flushedAgain.tables (.compact 1 compactBoth) := by
  have hfirst : (⟨1, firstPath.name⟩ : Path) = firstPath := rfl
  have hsecond : (⟨1, secondPath.name⟩ : Path) = secondPath := rfl
  refine compactBoth_oneUnit.keepsReads (fun name hname r hr => ?_) ?_
  · rw [compactBoth_tables] at hname
    rcases List.mem_pair.1 hname with rfl | rfl
    · rw [hsecond, written_secondPath, List.mem_singleton] at hr
      rw [hr]
      rfl
    · rw [hfirst, written_firstPath, List.mem_singleton] at hr
      rw [hr]
      rfl
  · rw [unitRecords_both]
    exact List.cons_ne_nil _ _

/-- The compaction when it starts. -/
def compactingBoth : Compacting := ⟨1, compactBoth, []⟩

/-- The compaction after its first call. -/
def readingBoth : Compacting := ⟨1, compactBoth, [flushedAgain.tables.disk]⟩

theorem compactingBoth_reads :
    ∃ rest, compactingBoth.rest .plain = .step (.read secondPath) rest := by
  have hunits : splitUnits compactBoth.targetChunks compactBoth.tableNames =
      [[secondPath.name, firstPath.name]] :=
    compactBoth_oneUnit.units.trans (congrArg (fun u => [u]) compactBoth_tables)
  exact (sizeTierCompaction_reads hunits).imp fun rest hrest => (Prog.resume_nil _).trans hrest

/-- The server when its reader has loaded both tables. -/
def loadedSystem (levelArray : List FileMap) : System :=
  { flushedAgain with levelArray := levelArray }

def bothLoaded : List (SystemEvent × System) := (.reload, flushedAgain) :: secondFlush

def thirdWrite : LogOp := ⟨[107], some ⟨[119], none⟩⟩

/-- The server after its third flush. -/
def flushedThrice (levelArray : List FileMap) : System :=
  (loadedSystem levelArray).due.afterFlush .plain thirdWrite

/-- A write that flushes when the compaction has made its first call. -/
def whileCompacting (levelArray : List FileMap) : List (BusyEvent × Busy) :=
  [(.server (.write thirdWrite), ⟨(loadedSystem levelArray).due, some readingBoth⟩),
    (.wait, ⟨loadedSystem levelArray, some readingBoth⟩),
    (.operation, ⟨loadedSystem levelArray, some compactingBoth⟩),
    (.start 1 compactBoth, ⟨loadedSystem levelArray, none⟩)]

def busyHistory (levelArray : List FileMap) : List (BusyEvent × Busy) :=
  whileCompacting levelArray ++ bothLoaded.map fun x => (.server x.1, ⟨x.2, none⟩)

theorem System.withDisk_self (s : System) : s.withDisk s.tables.disk = s := rfl

theorem secondPath_read (levelArray : List FileMap) :
    ∃ f, Disk.step .plain (.read secondPath) (loadedSystem levelArray).tables.disk =
      (.ok f, (loadedSystem levelArray).tables.disk) := by
  have hmem : secondPath.name ∈ levelTables flushedAgain.tables.disk 1 := by
    rw [flushedAgain_tables]
    exact List.mem_cons_self ..
  obtain ⟨-, f, hf⟩ := mem_levelTables.1 hmem
  exact ⟨f, Disk.step_read hf⟩

theorem operation_reads (levelArray : List FileMap) : BusyStep .plain
    ⟨loadedSystem levelArray, some compactingBoth⟩ .operation
    ⟨loadedSystem levelArray, some readingBoth⟩ := by
  obtain ⟨f, hread⟩ := secondPath_read levelArray
  obtain ⟨rest, hrest⟩ := compactingBoth_reads
  have hstep := BusyStep.operation (s := loadedSystem levelArray) hrest
  rw [hread, System.withDisk_self] at hstep
  exact hstep

theorem flushedAgain_levels : 1 ≤ flushedAgain.tables.disk.levels :=
  (Nat.le_max_right _ _).trans_eq levels_flushedDisk.symm

theorem whileCompacting_run (levelArray : List FileMap) :
    Lib.Run (· = ⟨loadedSystem levelArray, none⟩) (BusyStep .plain) (whileCompacting levelArray)
      ⟨flushedThrice levelArray, some readingBoth⟩ := by
  have hstart : Lib.Run (· = ⟨loadedSystem levelArray, none⟩) (BusyStep .plain) _
      ⟨loadedSystem levelArray, some compactingBoth⟩ := .step (.start rfl)
    (.start (c := compactBoth) ⟨Nat.le_refl 1, by decide⟩ flushedAgain_levels rfl)
  refine .step (.step (.step hstart (operation_reads levelArray))
    (.wait (loadedSystem levelArray).clock_le_dueAt)) (.request trivial
      (.flush (counterOk_plain _ _ _) ((loadedSystem levelArray).due_flushes thirdWrite)
        ⟨?_, ?_, rfl⟩))
  · simp [written]
  · change (written flushedAgain.mem [107] (some ⟨[119], none⟩)).currentSizeBytes ≠ 0
    decide

theorem bothLoaded_run {levelArray : List FileMap}
    (hl : Loaded flushedAgain.tables.disk levelArray) :
    BusyRun .plain (bothLoaded.map fun x => (.server x.1, ⟨x.2, none⟩))
      ⟨loadedSystem levelArray, none⟩ := by
  have hr : SystemRun .plain bothLoaded (loadedSystem levelArray) :=
    .step secondFlush_run (.reload hl)
  refine busyRun_of_system hr fun x hx level c he => ?_
  simp only [bothLoaded, secondFlush, firstFlush, List.mem_cons, List.not_mem_nil,
    or_false] at hx
  rcases hx with rfl | rfl | rfl | rfl | rfl <;> cases he

theorem busyHistory_run {levelArray : List FileMap}
    (hl : Loaded flushedAgain.tables.disk levelArray) :
    BusyRun .plain (busyHistory levelArray) ⟨flushedThrice levelArray, some readingBoth⟩ :=
  (bothLoaded_run hl).append (whileCompacting_run levelArray)

theorem thirdWrite_fits : thirdWrite.Fits ∧ FlushFits .plain (oneKeyRepr [107] [119]) :=
  ⟨⟨by decide, by decide, fun e he => by
    rw [← Option.some.inj he]
    exact ⟨⟨by decide, fun md hmd => by cases hmd⟩, by decide⟩⟩,
    (fits_oneKey (by decide) (by decide)).1⟩

theorem whileCompacting_keeps (levelArray : List FileMap) :
    ∀ x ∈ whileCompacting levelArray, KeepsBusy .plain x.2 x.1 :=
  List.forall_mem_cons.2 ⟨⟨thirdWrite_fits.1, fun _ => thirdWrite_fits.2⟩,
    List.forall_mem_cons.2 ⟨trivial, List.forall_mem_cons.2 ⟨trivial,
      List.forall_mem_singleton.2 ⟨compactBoth_keeps, compactBoth_fits⟩⟩⟩⟩

theorem bothLoaded_keeps :
    ∀ x ∈ bothLoaded.map fun x => (BusyEvent.server x.1, (⟨x.2, none⟩ : Busy)),
      KeepsBusy .plain x.2 x.1 := by
  intro x hx
  obtain ⟨y, hy, rfl⟩ := List.mem_map.1 hx
  have hkeeps : KeepsWrites .plain y.2 y.1 := by
    rcases List.mem_cons.1 hy with rfl | hy
    · trivial
    · exact secondFlush_keeps y hy
  obtain ⟨e, s⟩ := y
  cases e with
  | restart => rfl
  | write | updateConfig | compact | reload | idle => exact hkeeps

theorem busyHistory_keeps (levelArray : List FileMap) :
    ∀ x ∈ busyHistory levelArray, KeepsBusy .plain x.2 x.1 :=
  List.forall_mem_append.2 ⟨whileCompacting_keeps levelArray, bothLoaded_keeps⟩

theorem System.table_due {op : LogOp} {p : Path} {f : File}
    (ht : (s.due.loggedTables op).Table p f) : s.tables.Table p f := by
  refine ⟨?_, ht.2⟩
  rw [← file?_waitUntil s.clock_le_dueAt, ← ht.1, Disk.file?, Disk.file?, System.loggedTables,
    (files_logged _ _ _ _).1]
  rfl

/-- The table of a flush a second later has an instant of its own. -/
theorem System.readable_due {op : LogOp} (hread : s.tables.Readable)
    (hok : StoreOk P (s.due.loggedTables op))
    (hsize : (flushBuffer P (written s.mem op.key op.slot).inMemoryRepr
      s.mem.config.bloomFalsePositiveRate).length < 2 ^ 64)
    (hshort : (lastKey (records (written s.mem op.key op.slot).inMemoryRepr)).length ≤ 9996) :
    (s.due.afterFlush P op).tables.Readable := by
  have hlogged : (s.due.loggedTables op).Readable :=
    hread.subset (fun _ _ ht => System.table_due ht) (System.written_withDisk s _)
  refine hlogged.flush hok hsize hshort fun q g hq hsec => absurd hsec ?_
  have hlt : g.created < s.tables.disk.clock :=
    s.tables.disk.stamped.created_lt (System.table_due hq).1
  have hclock : (s.due.loggedTables op).disk.clock = s.dueAt := clock_logged ..
  rw [hclock, System.dueAt, File.createdSecs]
  omega

theorem flushedAgain_readable : flushedAgain.tables.Readable := by
  have hfits : FlushFits .plain (oneKeyRepr [108] [118]) ∧ _ := fits_oneKey (by decide) (by decide)
  exact System.readable_due flushedSystem_readable (lateAgain_ok.logged secondWrite).ok hfits.2
    (by decide)

/-- The reader loads both tables. -/
theorem exists_loadedBoth : ∃ levelArray, Loaded flushedAgain.tables.disk levelArray :=
  (always_systemOk secondFlush_run secondFlush_keeps).now.reads.exists_loaded flushedAgain_readable

-- the state stays closed in what follows, since what it computes to is large
theorem exists_busyHistory :
    ∃ levelArray s, BusyRun .plain (busyHistory levelArray) ⟨s, some readingBoth⟩ :=
  exists_loadedBoth.imp fun _ hl => ⟨_, busyHistory_run hl⟩

theorem busyHistory_finishes : ∃ levelArray s,
    BusyRun .plain (busyHistory levelArray) ⟨s, some readingBoth⟩ ∧
    ∃ h' d', BusyRun .plain (h' ++ busyHistory levelArray)
      ⟨{ s with tables := compacted s.tables 1 compactBoth d' }, none⟩ ∧
      (∀ x ∈ h', OfCompaction x.1) ∧ s.tables.disk.clock ≤ d'.clock := by
  obtain ⟨levelArray, s, hr⟩ := exists_busyHistory
  exact ⟨levelArray, s, hr, busy_finishes hr (busyHistory_keeps levelArray)⟩

end Db
