import SwiftMerge.Compaction.Proof.StoreReads

/-!
# Where the records of the tables come from

Compactions take tables in an order that need not be that of their writes, drop the tombstones of
one-byte keys and may replace tables. Whatever they lose, they make nothing up: in every state of a
run whose flushes and merges have something to write, every record of a table is one of a memtable
that was flushed, and a reader that loads the tables answers with such a record, or with none when
no table has one (`reads_only_flushed`).
-/

namespace Compaction

open Lib Lsm Mem TableStore

variable {P : Platform} {s s' : TableStore} {events : List StoreEvent} {e : StoreEvent}

/-- The records of the flushes of a run. -/
def flushedRecords (events : List StoreEvent) : Set (Bytes × Bytes × Nat) :=
  {x | ∃ m writtenAt, .flush m writtenAt ∈ events ∧ x ∈ datedRecords m.inMemoryRepr writtenAt}

/-- The step writes no table without records. -/
def WritesRecords (s : TableStore) : StoreEvent → Prop
  | .flush m _ => m.inMemoryRepr ≠ ∅
  | .compact level c => ∀ u ∈ c.units, unitRecords s.written level u ≠ []
  | .idle => True

/-- The tables can be loaded, and their records were flushed. -/
structure OriginOk (P : Platform) (events : List StoreEvent) (s : TableStore) : Prop
    extends LoadOk P s where
  flushed : s.records ⊆ flushedRecords events

theorem flushedRecords_cons : flushedRecords events ⊆ flushedRecords (e :: events) :=
  fun _ ⟨m, writtenAt, hm, hx⟩ => ⟨m, writtenAt, .tail _ hm, hx⟩

theorem OriginOk.start (h : EmptyStore s) : OriginOk P [] s where
  toLoadOk := .start h
  flushed := fun _ ⟨_, _, ht, _⟩ => absurd ht h.no_table

/-- **A step makes no records** but those it flushes. -/
theorem OriginOk.step (h : OriginOk P events s) (hs : StoreStep P s e s') (hw : WritesRecords s e) :
    OriginOk P (e :: events) s' := by
  have hold := h.flushed.trans (flushedRecords_cons (e := e))
  cases hs with
  | flush hx hfits hdates =>
    rename_i m m' writtenAt d'
    rw [exec_flush (flushable_of_exec hx), Prod.mk.injEq, Prod.mk.injEq] at hx
    obtain ⟨-, -, rfl⟩ := hx
    refine ⟨h.toLoadOk.flush hw hfits hdates, ?_⟩
    change (flushedStore P s m writtenAt).records ⊆ _
    rw [records_flush h.ok]
    exact Set.union_subset (fun x hx => ⟨m, writtenAt, .head _, hx⟩) hold
  | compact hlevel hdir _ hnames herr =>
    have hc : Compacts P s _ _ _ := ⟨hlevel.1, hdir, hnames, herr⟩
    exact ⟨h.toLoadOk.compact hc hw, (Compacts.records_subset h.ok hc).trans hold⟩
  | idle hk =>
    refine ⟨h.toLoadOk.idle hk, ?_⟩
    rw [records_idle hk]
    exact hold

theorem always_originOk {h : List (StoreEvent × TableStore)} (hr : StoreRun P h s)
    (hw : ∀ x ∈ h, WritesRecords x.2 x.1) :
    Always (fun h s => OriginOk P (h.map Prod.fst) s) h s :=
  hr.always_of (C := WritesRecords) .start (fun hi hs hc => hi.step hs hc) hw

/-- The stack answers with a record of some table, if one has the key. -/
theorem LoadOk.overlay_stack_some (h : LoadOk P s) {k : Bytes} {r : Bytes × Nat}
    (hr : overlay s.stack.flatten k = some r) : (k, r) ∈ s.records := by
  obtain ⟨run, hrun, hk⟩ := List.exists_of_findSome?_eq_some hr
  obtain ⟨p, f, ht, rfl⟩ := h.mem_stack.1 hrun
  exact ⟨p, f, ht, mem_of_lookup hk⟩

theorem LoadOk.overlay_stack_none (h : LoadOk P s) {k : Bytes} :
    overlay s.stack.flatten k = none ↔ ∀ r, (k, r) ∉ s.records := by
  refine ⟨fun hnone r ⟨p, f, ht, hr⟩ => ?_, fun hno => ?_⟩
  · have hk := List.findSome?_eq_none_iff.1 hnone _ (h.mem_stack.2 ⟨p, f, ht, rfl⟩)
    exact lookup_eq_none.1 hk _ hr rfl
  · cases hr : overlay s.stack.flatten k with
    | none => rfl
    | some r => exact absurd (h.overlay_stack_some hr) (hno r)

/-- **Reads make nothing up**: after a run whose flushes and merges have records, the tables can be
loaded, and a reader that has loaded them answers every key with a record that was flushed under it,
or with none when no table has one. -/
theorem reads_only_flushed {h : List (StoreEvent × TableStore)} (hr : StoreRun P h s)
    (hw : ∀ x ∈ h, WritesRecords x.2 x.1) (hread : s.Readable) :
    (∃ levelArray, Loaded s.disk levelArray) ∧ ∀ levelArray, Loaded s.disk levelArray →
      ∀ key, ∃ r? searched levels, Lsm.read levelArray key = .ok (found? r? searched levels) ∧
        (∀ r ∈ r?, (key, r) ∈ flushedRecords (h.map Prod.fst)) ∧
        (r? = none ↔ ∀ r, (key, r) ∉ s.records) := by
  have hi := (always_originOk hr hw).now
  refine ⟨hi.toLoadOk.exists_loaded hread, fun levelArray hl key => ?_⟩
  obtain ⟨searched, levels, hx⟩ := hi.toLoadOk.read hread hl key
  exact ⟨_, searched, levels, hx, fun r hr => hi.flushed (hi.overlay_stack_some hr),
    hi.overlay_stack_none⟩

/-- A step that keeps what readers find has records to write. -/
theorem KeepsReads.writesRecords (h : KeepsReads s e) : WritesRecords s e := by
  cases e with
  | flush m writtenAt => exact h
  | compact level c => exact h.2.2.nonempty
  | idle => trivial

theorem two_flushes_only_flushed : ∃ d', (∃ levelArray, Loaded d' levelArray) ∧
    ∀ levelArray, Loaded d' levelArray →
      ∀ key, ∃ r? searched levels, Lsm.read levelArray key = .ok (found? r? searched levels) ∧
        (∀ r ∈ r?, (key, r) ∈ flushedRecords ((compactRun 2).map Prod.fst)) ∧
        (r? = none ↔ ∀ r, (key, r) ∉ (compacted (flushes 2) 1 (compactFlushes 2) d').records) := by
  obtain ⟨d', hc⟩ := flushes_compacts (n := 1) (by decide)
  have hr : StoreRun Platform.plain (compactRun 2) _ :=
    .step (flushes_run 2).1 (compactFlushes_step hc)
  have hw : ∀ x ∈ compactRun 2, WritesRecords x.2 x.1 := fun x hx =>
    (compactRun_keepsReads x hx).writesRecords
  exact ⟨d', reads_only_flushed hr hw (two_readable hc)⟩

end Compaction
