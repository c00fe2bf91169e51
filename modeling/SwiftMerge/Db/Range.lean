import SwiftMerge.Db.System

/-!
# Range requests (`service.rs`)

`range` lists the keys of the memtable between two bounds, both included, in their order: the
tombstones are skipped, the filter of the request is not looked at, and the tables are not asked. So
a pair of its response is what a get of the key answers from memory (`range_gets`), and over a
run of the server the response is the puts since the last flush that are still live
(`run_range`).
-/

namespace Mem

open Lib

/-- `Memtable::range`. The range of a map panics when its bounds are the other way round. -/
def range (m : Memtable) (start stop : Bytes) :
    Except (Failure MemtableError) (List (Bytes × Option TableEntry)) := do
  ensure (compare start stop ≠ .gt) (.panic "range start is greater than range end in BTreeMap")
  pure (m.inMemoryRepr.toList.filter fun e => compare start e.1 != .gt && compare e.1 stop != .gt)

end Mem

namespace Service

open Lib Mem

structure RangeRequest where
  startKey : Bytes
  endKey : Bytes
  filter : Option FilterParam

structure KeyValuePair where
  key : Bytes
  value : Bytes
  metadata : Std.ExtTreeMap String TypeInfo

/-- The pair of a put. -/
def KeyValuePair.of (key : Bytes) (entry : TableEntry) : KeyValuePair where
  key := key
  value := entry.value
  metadata := match entry.metaData with
    | some md => md.map fun _ info => ⟨info.raw, (grpcType info.trueType).toInt⟩
    | none => ∅

structure RangeResponse where
  results : List KeyValuePair

def range (m : Memtable) (req : RangeRequest) : Except Status RangeResponse := do
  ensure (compare req.startKey req.endKey ≠ .gt)
    (.invalidArgument "start_key must be less than or equal to end_key")
  let rangeResults ← (Mem.range m req.startKey req.endKey).mapError .internal
  -- tombstones are skipped
  pure ⟨rangeResults.filterMap fun e => e.2.map (KeyValuePair.of e.1)⟩

/-- The key is between the bounds of the request. -/
def RangeRequest.Covers (req : RangeRequest) (key : Bytes) : Prop :=
  compare req.startKey key ≠ .gt ∧ compare key req.endKey ≠ .gt

end Service

namespace Db

open Lib Lsm Mem Service

variable {m : Memtable} {req : RangeRequest}

/-- The response when the bounds are in order. -/
def rangeResponse (m : Memtable) (req : RangeRequest) : RangeResponse where
  results := (m.inMemoryRepr.toList.filter fun e =>
    compare req.startKey e.1 != .gt && compare e.1 req.endKey != .gt).filterMap fun e =>
      e.2.map (KeyValuePair.of e.1)

theorem range_ok (h : compare req.startKey req.endKey ≠ .gt) :
    Service.range m req = .ok (rangeResponse m req) := by
  rw [Service.range, Mem.range, ensure_pos h, ok_bind, ensure_pos h]
  rfl

theorem mem_rangeResponse {pair : KeyValuePair} : pair ∈ (rangeResponse m req).results ↔
    req.Covers pair.key ∧
      ∃ entry, m.inMemoryRepr[pair.key]? = some (some entry) ∧
        KeyValuePair.of pair.key entry = pair := by
  rw [rangeResponse, List.mem_filterMap]
  constructor
  · intro ⟨⟨key, slot⟩, he, hpair⟩
    obtain ⟨he, hcovers⟩ := List.mem_filter.1 he
    obtain ⟨entry, rfl, rfl⟩ := Option.map_eq_some_iff.1 hpair
    rw [Std.ExtTreeMap.mem_toList_iff_getElem?_eq_some] at he
    have hkey : (KeyValuePair.of key entry).key = key := rfl
    rw [hkey]
    refine ⟨?_, entry, he, rfl⟩
    simpa [RangeRequest.Covers] using hcovers
  · intro ⟨hcovers, entry, hslot, hpair⟩
    refine ⟨(pair.key, some entry), List.mem_filter.2 ⟨?_, ?_⟩, ?_⟩
    · rwa [Std.ExtTreeMap.mem_toList_iff_getElem?_eq_some]
    · simpa [RangeRequest.Covers] using hcovers
    · exact congrArg some hpair

theorem sorted_rangeResponse (m : Memtable) (req : RangeRequest) :
    (rangeResponse m req).results.Pairwise fun a b => compare a.key b.key = .lt := by
  refine List.pairwise_filterMap.2 (((keySorted_toList m.inMemoryRepr).filter _).imp ?_)
  intro a b hab pa hpa pb hpb
  obtain ⟨entry, -, rfl⟩ := Option.map_eq_some_iff.1 hpa
  obtain ⟨entry', -, rfl⟩ := Option.map_eq_some_iff.1 hpb
  exact hab

/-- **A range is the gets of its keys**, in their order: it lists the keys between its bounds that
the memtable holds a value of, each once and with what a get without a filter answers. -/
theorem range_gets (h : compare req.startKey req.endKey ≠ .gt) (m : Memtable) :
    ∃ response, Service.range m req = .ok response ∧
      response.results.Pairwise (fun a b => compare a.key b.key = .lt) ∧
      ∀ pair, pair ∈ response.results ↔ req.Covers pair.key ∧ (Mem.get m pair.key).isSome ∧
        ∀ levelArray, Service.get m levelArray ⟨pair.key, none⟩ =
          .ok ⟨some pair.value, pair.metadata⟩ := by
  refine ⟨_, range_ok h, sorted_rangeResponse m req, fun pair => ?_⟩
  rw [mem_rangeResponse]
  refine and_congr_right fun _ => ⟨fun ⟨entry, hslot, hpair⟩ => ?_, fun ⟨hheld, hget⟩ => ?_⟩
  · refine ⟨?_, fun levelArray => ?_⟩
    · rw [Mem.get, hslot]
      rfl
    · rw [Service.get, Mem.get, hslot, ← hpair]
      rfl
  · obtain ⟨slot, hslot⟩ := Option.isSome_iff_exists.1 hheld
    have hget := hget []
    rw [Service.get, hslot, Except.ok.injEq] at hget
    cases slot with
    | none => cases congrArg GetResponse.value hget
    | some entry =>
      refine ⟨entry, hslot, ?_⟩
      have hvalue : entry.value = pair.value := Option.some.inj (congrArg GetResponse.value hget)
      have hmetadata : (KeyValuePair.of pair.key entry).metadata = pair.metadata :=
        congrArg GetResponse.metadata hget
      obtain ⟨key, value, metadata⟩ := pair
      dsimp only [KeyValuePair.of] at hvalue hmetadata ⊢
      rw [← hmetadata, ← hvalue]

/-- A memtable with a key that was overwritten and one that was deleted. -/
def rewrittenMem : Memtable :=
  [(([108] : Bytes), some ⟨[118], none⟩), ([109], some ⟨[118], none⟩), ([107], some ⟨[118], none⟩),
    ([109], none), ([107], some ⟨[119], none⟩), ([110], some ⟨[118], none⟩)].foldl
    (fun m op => written m op.1 op.2) idleMem

theorem rewrittenMem_range : ∃ response,
    Service.range rewrittenMem ⟨[107], [109], none⟩ = .ok response ∧
    response.results.Pairwise (fun a b => compare a.key b.key = .lt) ∧
    ∀ pair, pair ∈ response.results ↔ RangeRequest.Covers ⟨[107], [109], none⟩ pair.key ∧
      (Mem.get rewrittenMem pair.key).isSome ∧
      ∀ levelArray, Service.get rewrittenMem levelArray ⟨pair.key, none⟩ =
        .ok ⟨some pair.value, pair.metadata⟩ :=
  range_gets (by decide) _

/-! ## Over a run -/

/-- The writes since the last flush, replayed. -/
def sinceFlush : List (SystemEvent × System) → InMemoryRepr
  | [] => ∅
  | (.write op, s) :: h => if s.flushes op then ∅ else (sinceFlush h).insert op.key op.slot
  | _ :: h => sinceFlush h

section
variable {P : Platform} {s s' : System} {h : List (SystemEvent × System)} {e : SystemEvent}

/-- A step keeps the memtable at the writes since the last flush. -/
theorem sinceFlush_step (hi : Recoverable s.store) (hs : SystemStep P s e s')
    (hmem : s.mem.inMemoryRepr = sinceFlush h) : s'.mem.inMemoryRepr = sinceFlush ((e, s) :: h) := by
  cases hs with
  | @write op st hx =>
    have hif : s.flushes op = shouldFlush (written s.mem op.key op.slot) s.tables.disk.clock := rfl
    rw [sinceFlush, ← hmem, hif]
    rcases exec_write_ok hx with ⟨hf, hst⟩ | ⟨hf, -, hst⟩ <;> cases hst
    · rw [hf]
      rfl
    · rw [hf]
      rfl
  | updateConfig hm =>
    rw [Memtable.updateConfig] at hm
    obtain ⟨config, -, hm⟩ := bind_ok hm
    obtain rfl := Except.ok.inj hm
    exact hmem
  | restart hm hw hl =>
    rename_i content m levelArray
    have hstarted : StartsLogged P (m, s.tables.disk) := ⟨⟨content, hm⟩, hw⟩
    exact (hstarted.recoverable.1.unique hi.1).trans hmem
  | compact | reload | idle => exact hmem

theorem always_sinceFlush (hr : SystemRun P h s) (hk : ∀ x ∈ h, KeepsWrites P x.2 x.1) :
    Always (fun h s => SystemOk P h s ∧ s.mem.inMemoryRepr = sinceFlush h) h s := by
  refine hr.always_of (C := KeepsWrites P) (fun {s} hs => ?_)
    (fun hi hs hc => ⟨hi.1.step hs hc, sinceFlush_step hi.1.recoverable hs hi.2⟩) hk
  have hreplays : Replays s.tables.disk.wal s.mem.inMemoryRepr := hs.started.recoverable.1
  rw [hs.wal] at hreplays
  exact ⟨.start hs, hreplays.unique replays_nil⟩

/-- **A range over a running server** lists the live puts since the last flush, none of them
overwritten or deleted since; what was flushed it does not see. -/
theorem run_range (hr : SystemRun P h s) (hk : ∀ x ∈ h, KeepsWrites P x.2 x.1)
    (hreq : compare req.startKey req.endKey ≠ .gt) :
    ∃ response, Service.range s.mem req = .ok response ∧
      ∀ pair, pair ∈ response.results ↔ req.Covers pair.key ∧ ∃ entry,
        (sinceFlush h)[pair.key]? = some (some entry) ∧
        (acknowledged (h.map Prod.fst))[pair.key]? = some (some entry) ∧
        KeyValuePair.of pair.key entry = pair := by
  obtain ⟨hi, hmem⟩ := (always_sinceFlush hr hk).now
  refine ⟨_, range_ok hreq, fun pair => ?_⟩
  rw [mem_rangeResponse, ← hmem]
  refine and_congr_right fun _ => exists_congr fun entry => ⟨fun ⟨hslot, hpair⟩ => ?_, fun h => ?_⟩
  · exact ⟨hslot, hi.mem _ _ hslot, hpair⟩
  · exact ⟨h.1, h.2.2⟩

/-! ### Writes after a flush -/

/-- The server after a write that does not flush. -/
def System.afterWrite (s : System) (op : LogOp) : System :=
  ⟨written s.mem op.key op.slot, s.loggedTables op, s.levelArray⟩

theorem SystemStep.quiet {op : LogOp} (ho : CounterOk P s.mem op.key op.slot)
    (hf : s.flushes op = false) : SystemStep P s (.write op) (s.afterWrite op) := by
  have hx : Prog.exec (memHandler P) (Mem.write P op.key op.slot) s.store = _ :=
    exec_write_quiet ho hf
  have htables : s.tablesAfter P op = s.loggedTables op :=
    if_neg fun ht => Bool.false_ne_true (hf.symm.trans ht)
  have hs := SystemStep.write hx
  rw [htables] at hs
  exact hs

theorem flushBy_afterFlush (s : System) (op : LogOp) :
    (s.afterFlush P op).tables.disk.clock ≤ (s.afterFlush P op).mem.flushBy :=
  Nat.le_add_right _ _

theorem flushBy_afterWrite (ht : s.tables.disk.clock ≤ s.mem.flushBy) (op : LogOp) :
    (s.afterWrite op).tables.disk.clock ≤ (s.afterWrite op).mem.flushBy := by
  have hclock : (s.afterWrite op).tables.disk.clock = s.tables.disk.clock := clock_logged ..
  exact hclock.trans_le ht

/-- A small write before the time of the flush. -/
theorem System.quiet_of {op : LogOp} (ht : s.tables.disk.clock ≤ s.mem.flushBy)
    (hsize : (written s.mem op.key op.slot).currentSizeBytes < s.mem.config.ramMaxSize) :
    s.flushes op = false := by
  have htime : ¬(written s.mem op.key op.slot).flushBy < s.tables.disk.clock := Nat.not_lt.2 ht
  have hfull : ¬(written s.mem op.key op.slot).config.ramMaxSize ≤
      (written s.mem op.key op.slot).currentSizeBytes := Nat.not_le.2 hsize
  rw [System.flushes, shouldFlush, decide_eq_false htime, decide_eq_false hfull]
  rfl

end

def laterPut : LogOp := ⟨[108], some ⟨[118], none⟩⟩

/-- A delete of the key that is in the table. -/
def laterDelete : LogOp := ⟨[107], none⟩

def laterWrites : List (SystemEvent × System) :=
  (.write laterDelete, flushedSystem.afterWrite laterPut) :: (.write laterPut, flushedSystem) ::
    firstFlush

theorem flushBy_flushedSystem : flushedSystem.tables.disk.clock ≤ flushedSystem.mem.flushBy :=
  flushBy_afterFlush (P := .plain) lateSystem firstWrite

theorem laterPut_quiet : flushedSystem.flushes laterPut = false :=
  System.quiet_of flushBy_flushedSystem (by decide)

theorem laterDelete_quiet : (flushedSystem.afterWrite laterPut).flushes laterDelete = false :=
  System.quiet_of (flushBy_afterWrite flushBy_flushedSystem laterPut) (by decide)

theorem laterWrites_run : SystemRun .plain laterWrites
    ((flushedSystem.afterWrite laterPut).afterWrite laterDelete) :=
  .step (.step firstFlush_run (.quiet (counterOk_plain _ _ _) laterPut_quiet))
    (.quiet (counterOk_plain _ _ _) laterDelete_quiet)

theorem laterWrites_keeps : ∀ x ∈ laterWrites, KeepsWrites .plain x.2 x.1 := by
  have hput : laterPut.Fits := ⟨by decide, by decide, fun e he => by
    rw [← Option.some.inj he]
    exact ⟨⟨by decide, fun md hmd => by cases hmd⟩, by decide⟩⟩
  have hdelete : laterDelete.Fits := ⟨by decide, by decide, fun e he => by cases he⟩
  refine List.forall_mem_cons.2 ⟨⟨hdelete, fun hf => ?_⟩,
    List.forall_mem_cons.2 ⟨⟨hput, fun hf => ?_⟩, firstFlush_keeps⟩⟩
  · exact absurd (laterDelete_quiet.symm.trans hf) Bool.false_ne_true
  · exact absurd (laterPut_quiet.symm.trans hf) Bool.false_ne_true

theorem laterWrites_range : ∃ response, Service.range
      ((flushedSystem.afterWrite laterPut).afterWrite laterDelete).mem ⟨[], [255], none⟩ =
        .ok response ∧
    ∀ pair, pair ∈ response.results ↔ RangeRequest.Covers ⟨[], [255], none⟩ pair.key ∧ ∃ entry,
      (sinceFlush laterWrites)[pair.key]? = some (some entry) ∧
      (acknowledged (laterWrites.map Prod.fst))[pair.key]? = some (some entry) ∧
      KeyValuePair.of pair.key entry = pair :=
  run_range laterWrites_run laterWrites_keeps (by decide)

end Db
