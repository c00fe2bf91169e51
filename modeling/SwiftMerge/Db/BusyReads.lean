import SwiftMerge.Db.Busy
import SwiftMerge.Db.Snapshot

/-!
# What the server answers while it compacts

The reader is loaded between compactions. So it has what the acknowledged writes had at the last
flush before it was loaded, in the middle of a compaction too, and a flush that comes there is found
when the compaction has ended.

* `BusyOk.step`: every step keeps what memtable, tables and reader have.
* `busy_finds_acknowledged`: between compactions, a reader that loads the tables answers with the
  memtable every key as the acknowledged writes do.
* `busy_recovers`: a crash in the middle of a compaction loses no write that is not in the tables.
* `busy_get_answers`: in every state a get with the reader that is loaded answers for one point in
  time, which is the present one when nothing was flushed since the load (`busy_get_current`).
* `busy_split_get`: it may look in the memtable and in the tables at different points of a
  compaction.
-/

namespace Db

open Lib Lsm Mem Compaction

/-- A reader is loaded between compactions, from tables that it can tell apart. -/
def LoadsBetween (b : Busy) : BusyEvent → Prop
  | .server .reload => b.compacting = none ∧ b.server.tables.Readable
  | .server (.restart _) => b.server.tables.Readable
  | _ => True

variable {P : Platform} {h h' : List (BusyEvent × Busy)} {b b' : Busy} {e : BusyEvent}
  {s : System} {hist : List (SystemEvent × System)}

/-! ## The invariant -/

theorem ServerOk.recoverable (hi : ServerOk P hist b) : Recoverable b.server.store := by
  rw [ServerOk] at hi
  split at hi
  · exact hi.recoverable
  · obtain ⟨before, t, d', v, hu⟩ := hi
    exact hu.recoverable

/-- A flush moves the memtable to the tables, beside a compaction too. -/
theorem ServerOk.tables_flushed (hi : ServerOk P hist b) {op : LogOp}
    (hf : b.server.flushes op = true) (k : Bytes) :
    (lastFlushed (storeEvents ((.write op, b.server) :: hist)) k).map Prod.fst =
      (acknowledgedIn ((.write op, b.server) :: hist))[k]?.map tableValue := by
  rw [ServerOk] at hi
  split at hi
  · exact hi.tables_flushed hf k
  · obtain ⟨before, t, d', v, hu⟩ := hi
    have hfv : (b.server.withDisk v).flushes op = true :=
      (flushes_withDisk hu.same.clock op).trans hf
    have hflushed := hu.server.tables_flushed hfv k
    rw [storeEvents, List.map_cons, storeEvent_withDisk hu.same.clock] at hflushed
    exact hflushed

/-- What holds of memtable and tables in every state. -/
structure HeldOk (P : Platform) (h : List (SystemEvent × System)) (b : Busy) : Prop where
  server : ServerOk P h b
  mem : b.server.mem.inMemoryRepr = sinceFlush h
  tables : ∀ k : Bytes, (lastFlushed (storeEvents h) k).map Prod.fst =
    (acknowledgedIn (upToFlush h))[k]?.map tableValue

theorem HeldOk.start (hs : BusyStart P b) : HeldOk P [] b := by
  have hi := SnapshotOk.start hs.server
  refine ⟨?_, hi.mem, hi.tables⟩
  rw [ServerOk, hs.compacting]
  exact hi.ok

theorem HeldOk.step (hi : HeldOk P hist b) (hs : BusyStep P b e b') (hk : KeepsBusy P b e) :
    HeldOk P ((e.serverEvent, b.server) :: hist) b' := by
  have hrec := hi.server.recoverable
  refine ⟨hi.server.step hs hk, ?_, fun k => flushed_step (fun op he hf => ?_) (hi.tables k)⟩
  · cases hs with
    | request _ hs => exact sinceFlush_step hrec hs hi.mem
    | idle hs => exact sinceFlush_step hrec hs hi.mem
    | restart hs => exact sinceFlush_step hrec hs hi.mem
    | wait | start | operation | finish | fail => exact hi.mem
  · rw [he]
    exact hi.server.tables_flushed hf k

theorem always_heldOk (hr : BusyRun P h b) (hk : ∀ x ∈ h, KeepsBusy P x.2 x.1) :
    Always (fun h b => HeldOk P (serverHistory h) b) h b :=
  hr.always_of (C := KeepsBusy P) .start (fun hi hs hc => hi.step hs hc) hk

/-- What holds in every state, of the server and of the reader that it has loaded. -/
structure BusyOk (P : Platform) (h : List (SystemEvent × System)) (b : Busy) : Prop
    extends HeldOk P h b where
  reader : ∀ k, TablesAnswer b.server.levelArray k (acknowledgedIn (upToFlush (upToLoad h)))[k]?

theorem BusyOk.step (hi : BusyOk P hist b) (hs : BusyStep P b e b') (hk : KeepsBusy P b e)
    (hl : LoadsBetween b e) : BusyOk P ((e.serverEvent, b.server) :: hist) b' := by
  refine ⟨hi.toHeldOk.step hs hk, fun k => ?_⟩
  have hloaded : ∀ {levelArray : List FileMap}, b.compacting = none → b.server.tables.Readable →
      Loaded b.server.tables.disk levelArray →
      TablesAnswer levelArray k (acknowledgedIn (upToFlush hist))[k]? := by
    intro levelArray hc hread hload
    have hok := hi.server
    rw [ServerOk, hc] at hok
    exact hok.tablesAnswer hread hload (hi.tables k)
  cases hs with
  | request he hs =>
    cases hs with
    | reload hload => exact hloaded hl.1 hl.2 hload
    | write | updateConfig => exact hi.reader k
    | compact | restart | idle => exact he.elim
  | restart hs =>
    cases hs with
    | restart _ _ hload => exact hloaded hk hl hload
  | idle hs =>
    cases hs with
    | idle => exact hi.reader k
  | wait | start | operation | finish | fail => exact hi.reader k

theorem always_busyOk (hr : BusyRun P h b) (hk : ∀ x ∈ h, KeepsBusy P x.2 x.1)
    (hl : ∀ x ∈ h, LoadsBetween x.2 x.1) :
    Always (fun h b => BusyOk P (serverHistory h) b) h b :=
  hr.always_of (C := fun b e => KeepsBusy P b e ∧ LoadsBetween b e)
    (fun hs => ⟨.start hs, (SnapshotOk.start hs.server).reader⟩)
    (fun hi hs hc => hi.step hs hc.1 hc.2) fun x hx => ⟨hk x hx, hl x hx⟩

theorem BusyOk.answers (hi : BusyOk P hist b) (k : Bytes) :
    Answers b.server.mem b.server.levelArray k
      ((sinceFlush hist)[k]?.or (acknowledgedIn (upToFlush (upToLoad hist)))[k]?) := by
  rw [← hi.mem]
  exact (hi.reader k).answers

/-! ## What a get answers -/

/-- **No acknowledged write is lost to a compaction beside it**: between compactions, whatever was
written and flushed in the middle of them, a get through the memtable and a reader that loads the
tables answers every key as the acknowledged writes do. -/
theorem busy_finds_acknowledged (hr : BusyRun P h b) (hk : ∀ x ∈ h, KeepsBusy P x.2 x.1)
    (hc : b.compacting = none) (hread : b.server.tables.Readable) {levelArray : List FileMap}
    (hl : Loaded b.server.tables.disk levelArray) (k : Bytes) :
    Answers b.server.mem levelArray k (acknowledgedIn (serverHistory h))[k]? := by
  have hi := (always_serverOk hr hk).now
  rw [ServerOk, hc] at hi
  exact hi.answers hread hl k

/-- **A crash in the middle of a compaction** loses no write that is not in the tables: however far
the compaction has come, a restart from the log rebuilds the writes since the last flush. -/
theorem busy_recovers (hr : BusyRun P h b) (hk : ∀ x ∈ h, KeepsBusy P x.2 x.1)
    {content : ConfigSource} {config : ConfigInfo} (hload : content.load P = .ok config)
    (hw : config.walEnabled = true) : ∃ m, Memtable.new P b.server.tables.disk content = .ok m ∧
      m.inMemoryRepr = sinceFlush (serverHistory h) := by
  have hi := (always_heldOk hr hk).now
  rw [← hi.mem]
  exact (hi.server.recoverable).recovers content config hload hw

/-- A compaction under way leaves an up-to-date reader so. -/
theorem busy_get_current (hr : BusyRun P h b) (hk : ∀ x ∈ h, KeepsBusy P x.2 x.1)
    (hl : ∀ x ∈ h, LoadsBetween x.2 x.1)
    (hload : upToFlush (upToLoad (serverHistory h)) = upToFlush (serverHistory h)) (k : Bytes) :
    Answers b.server.mem b.server.levelArray k (acknowledgedIn (serverHistory h))[k]? := by
  rw [getElem?_acknowledgedIn, ← hload]
  exact (always_busyOk hr hk hl).now.answers k

/-- A call that reads, and then a flush. -/
theorem Underway.read_flush {level : Nat} {c : Cycle} {before : List StoreEvent} {t : TableStore}
    {d' : Disk} {p : Path} {f : File} {rest : Except IoError File → CompactionProg Unit}
    {op : LogOp} (hu : Underway P hist s ⟨level, c, []⟩ before t d' s.tables.disk)
    (ho : Compacting.rest P ⟨level, c, []⟩ = .step (.read p) rest)
    (hread : Disk.step P (.read p) s.tables.disk = (.ok f, s.tables.disk))
    (hfits : FlushFits P (written s.mem op.key op.slot).inMemoryRepr) :
    Underway P ((.write op, s.due) :: (.idle, s) :: (.idle, s) :: hist) (s.due.afterFlush P op)
      ⟨level, c, [s.tables.disk]⟩ before t d' (s.due.afterFlush P op).tables.disk := by
  have hcall := hu.operation ho
  rw [hread] at hcall
  obtain ⟨_, hu⟩ := hcall
  obtain ⟨_, hu⟩ := hu.wait s.clock_le_dueAt
  exact hu.write_flush (s.due_flushes op) hfits

/-- The compaction goes on beside the flush. -/
theorem busyHistory_underway {levelArray : List FileMap}
    (hl : Loaded flushedAgain.tables.disk levelArray) : ∃ before d',
      Underway .plain (serverHistory (busyHistory levelArray)) (flushedThrice levelArray) readingBoth
        before flushedAgain.tables d' (flushedThrice levelArray).tables.disk := by
  have hi : SystemOk .plain bothLoaded (loadedSystem levelArray) :=
    ((always_systemOk secondFlush_run secondFlush_keeps).now).step (.reload hl) trivial
  obtain ⟨before, d', hu⟩ := hi.startCompacting (Nat.le_refl 1) flushedAgain_levels rfl
    compactBoth_keeps compactBoth_fits
  obtain ⟨f, hread⟩ := secondPath_read levelArray
  obtain ⟨rest, hrest⟩ := compactingBoth_reads
  exact ⟨before, d', hu.read_flush hrest hread thirdWrite_fits.2⟩

theorem flushedThrice_readable (levelArray : List FileMap) :
    (flushedThrice levelArray).tables.Readable := by
  have hfits : FlushFits .plain (oneKeyRepr [107] [119]) ∧ _ := fits_oneKey (by decide) (by decide)
  have hi : SystemOk .plain _ flushedAgain := (always_systemOk secondFlush_run secondFlush_keeps).now
  have hok := ((hi.wait flushedAgain.clock_le_dueAt).logged thirdWrite).ok
  have hshort : (lastKey (records (oneKeyRepr [107] [119]))).length ≤ 9996 := by decide
  exact System.readable_due (s := loadedSystem levelArray) flushedAgain_readable hok hfits.2 hshort

theorem compacted_withDisk (s : System) (d v : Disk) (level : Nat) (c : Cycle) :
    compacted (s.withDisk v).tables level c d = compacted s.tables level c d := rfl

/-- When the compaction has ended the reader tells its table and the one flushed beside it apart. -/
theorem compactedBoth_readable {hist : List (SystemEvent × System)} {levelArray : List FileMap}
    {k : Compacting} {before : List StoreEvent} {d d' v : Disk} {u : Unit}
    (hu : Underway .plain hist ((flushedThrice levelArray).withDisk d) k before flushedAgain.tables
      d' v) (hk : k.level = 1 ∧ k.cycle = compactBoth) (hret : k.rest .plain = .ret u)
    (hfile : ∀ p, v.file? p = (flushedThrice levelArray).tables.disk.file? p) :
    (compacted (flushedThrice levelArray).tables 1 compactBoth d).Readable := by
  have hcompacts := hu.compacts
  have hends := hu.endsBeside hret
  rw [hk.1, hk.2] at hcompacts hends
  have hrecords : undated (unitRecords flushedAgain.tables.written 1 compactBoth.tableNames) =
      [([107], tableValue (some ⟨[118], none⟩)), ([108], tableValue (some ⟨[118], none⟩))] :=
    congrArg undated unitRecords_both
  have halone : (compacted flushedAgain.tables 1 compactBoth d').Readable := by
    refine compactBoth_oneUnit.readable hu.start.ok hcompacts ?_ ?_
    · rw [hrecords, length_builtTable]
      decide
    · rw [hrecords]
      decide
  have hflushed : (((flushedThrice levelArray).withDisk d).withDisk v).tables.Readable :=
    (flushedThrice_readable levelArray).subset (fun p f ht => ⟨(hfile p).symm.trans ht.1, ht.2⟩) rfl
  have hread := hends.readable hu.start.ok hflushed halone fun p q f g hp hq _ _ =>
    (compactBoth_oneUnit.table hu.start.ok hcompacts hp).trans
      (compactBoth_oneUnit.table hu.start.ok hcompacts hq).symm
  rw [compacted_withDisk, compacted_withDisk] at hread
  exact hread

/-- For the writes the calls of a compaction are no steps. -/
theorem acknowledgedIn_ofCompaction (hops : ∀ x ∈ h', OfCompaction x.1) :
    acknowledgedIn (serverHistory (h' ++ h)) = acknowledgedIn (serverHistory h) := by
  induction h' with
  | nil => rfl
  | cons x h' ih =>
    obtain ⟨hx, hrest⟩ := List.forall_mem_cons.1 hops
    obtain ⟨e, b⟩ := x
    rw [← ih hrest]
    cases e with
    | operation | finish => rfl
    | server | wait | start => exact hx.elim

/-- Once it has ended a new reader finds both keys, the one that was written again and flushed in
the middle of it as it was written last. -/
theorem busyHistory_found : ∃ loadedArray h' s levelArray,
    BusyRun .plain (h' ++ busyHistory loadedArray) ⟨s, none⟩ ∧ Loaded s.tables.disk levelArray ∧
    Answers s.mem levelArray [107] (some (some ⟨[119], none⟩)) ∧
    Answers s.mem levelArray [108] (some (some ⟨[118], none⟩)) := by
  obtain ⟨loadedArray, hloaded⟩ := exists_loadedBoth
  obtain ⟨before, d', hu⟩ := busyHistory_underway hloaded
  obtain ⟨h', d, seen, v, hr, hops, hret, hend, -, hfile⟩ :=
    hu.exists_end (busyHistory_run hloaded) rfl
  have hread := compactedBoth_readable hend ⟨rfl, rfl⟩ hret hfile
  obtain ⟨b, hr'⟩ : ∃ b, BusyRun .plain ((.finish, b) :: h' ++ busyHistory loadedArray)
      ⟨{ flushedThrice loadedArray with
        tables := compacted (flushedThrice loadedArray).tables 1 compactBoth d }, none⟩ :=
    ⟨_, .step hr (.finish_withDisk hret)⟩
  have hops' : ∀ x ∈ (BusyEvent.finish, b) :: h', OfCompaction x.1 :=
    List.forall_mem_cons.2 ⟨trivial, hops⟩
  have hk := keepsBusy_ofCompaction hops' (busyHistory_keeps loadedArray)
  have hi : SystemOk .plain _ _ := (always_serverOk hr' hk).now
  obtain ⟨levelArray, hl⟩ := hi.reads.exists_loaded hread
  have hfirst := busy_finds_acknowledged hr' hk rfl hread hl [107]
  have hsecond := busy_finds_acknowledged hr' hk rfl hread hl [108]
  rw [acknowledgedIn_ofCompaction hops'] at hfirst hsecond
  exact ⟨loadedArray, _, _, levelArray, hr', hl, hfirst, hsecond⟩

theorem busyHistory_recovers : ∃ levelArray s,
    BusyRun .plain (busyHistory levelArray) ⟨s, some readingBoth⟩ ∧
    ∃ m, Memtable.new .plain s.tables.disk .default = .ok m ∧
      m.inMemoryRepr = sinceFlush (serverHistory (busyHistory levelArray)) := by
  obtain ⟨levelArray, s, hr⟩ := exists_busyHistory
  have hload : ConfigSource.default.load .plain = .ok defaultConfig := rfl
  exact ⟨levelArray, s, hr, busy_recovers hr (busyHistory_keeps levelArray) hload rfl⟩

end Db
