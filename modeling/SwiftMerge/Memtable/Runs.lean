import SwiftMerge.Lib.Run
import SwiftMerge.Memtable.Proof.Replay
import SwiftMerge.Memtable.Proof.Writes

/-!
# Runs of the memtable, whatever the outcomes of the log's writes

`write_entry` calls `write` once, and `write` may fail or write some of the bytes only; a
`WriteOutcome` is one of these answers. The events of a run are puts and deletes, each with the
outcome of its write to the log, reloads of the configuration and the passing of time.

* `exec_write_outcome`: a write to the memtable under any outcome.
-/

namespace Mem

open Lib Lsm

/-- What one `write` call does: it fails, or appends the first bytes, at most `n`. -/
inductive WriteOutcome
  | fails (e : IoError)
  | writes (n : Nat)

/-- The disk after a `write` on the log, and its answer. -/
def WriteOutcome.apply (d : Disk) (bs : Bytes) : WriteOutcome → Except IoError Nat × Disk
  | .fails e => (.error e, d)
  | .writes n => (.ok (min n bs.length), { d with wal := d.wal ++ bs.take n })

/-- The memtable's operations when a `write` on the log has the given outcome. -/
def outcomeHandler (P : Platform) (outcome : WriteOutcome) : Handler MemOp Store where
  step
    | .disk (.walWrite bs), (m, d) => ((outcome.apply d bs).1, (m, (outcome.apply d bs).2))
    | o, s => (memHandler P).step o s
  during := (memHandler P).during

inductive Event
  | write (key : Bytes) (slot : Option TableEntry) (outcome : WriteOutcome)
  | updateConfig (content : ConfigSource)
  | wait

/-- What an event returns. -/
def Event.result (P : Platform) (s : Store) : Event → Except (Failure MemtableError) Unit
  | .write key slot outcome => (Prog.exec (outcomeHandler P outcome) (Mem.write P key slot) s).1
  | _ => .ok ()

inductive Step (P : Platform) : Store → Event → Store → Prop
  | write {s : Store} {key : Bytes} {slot : Option TableEntry} {outcome : WriteOutcome} :
    Step P s (.write key slot outcome)
      (Prog.exec (outcomeHandler P outcome) (Mem.write P key slot) s).2
  | updateConfig {m m' : Memtable} {d : Disk} {content : ConfigSource} :
    m.updateConfig P d.clock content = .ok m' → Step P (m, d) (.updateConfig content) (m', d)
  | wait {m : Memtable} {d : Disk} {t : Nat} (h : d.clock ≤ t) :
    Step P (m, d) .wait (m, d.waitUntil t h)

/-- A memtable just made, without a log or on an empty one. -/
structure Started (P : Platform) (s : Store) : Prop where
  made : ∃ content, Memtable.new P s.2 content = .ok s.1
  unreplayed : s.1.config.walEnabled = true → s.2.wal = []

/-! ## A write under each outcome -/

/-- The operations other than a `write` on the log. -/
def MemOp.Unlogged : {β : Type} → MemOp β → Prop
  | _, .disk (.walWrite _) => False
  | _, _ => True

theorem unlogged_io {α : Type} {o : DiskOp (Except IoError α)} (h : (MemOp.disk o).Unlogged) :
    Prog.All MemOp.Unlogged (MemProg.io o) :=
  Prog.All.bind (Prog.all_perform.2 h) fun _ => Prog.all_ofExcept _

theorem unlogged_flush (P : Platform) : Prog.All MemOp.Unlogged (flush P) := by
  refine .bind (Prog.all_perform.2 trivial) fun m => .bind (Prog.all_ensure _ _) fun _ => ?_
  have hdir : Prog.All MemOp.Unlogged createL1 :=
    .bind (Prog.all_perform.2 trivial) fun _ =>
      (unlogged_io (o := .createDir 1) trivial).when
  refine .bind hdir fun _ => .bind (Prog.all_perform.2 trivial) fun _ => ?_
  refine .bind (Prog.all_ensure _ _) fun _ => .bind (Prog.all_ensure _ _) fun _ => ?_
  refine .bind (unlogged_io trivial) fun _ => .bind (unlogged_io trivial) fun _ => ?_
  refine .bind (unlogged_io trivial) fun _ => .bind (unlogged_io trivial) fun _ => ?_
  exact .bind (Prog.all_perform.2 trivial) fun _ => Prog.all_perform.2 trivial

theorem unlogged_updateSize (P : Platform) (a b : Nat) (old : Option Nat) :
    Prog.All MemOp.Unlogged (updateSize P a b old) := by
  have hadd : ∀ x y, Prog.All MemOp.Unlogged (addU32 P x y) := fun x y => by
    unfold addU32
    split <;> trivial
  have hsub : ∀ x y, Prog.All MemOp.Unlogged (subU32 P x y) := fun x y => by
    unfold subU32
    split <;> trivial
  cases old with
  | none => exact hadd _ _
  | some old =>
    unfold updateSize
    dsimp only
    split
    · exact hadd _ _
    · exact hsub _ _

theorem unlogged_applyWrite (P : Platform) (m : Memtable) (key : Bytes)
    (slot : Option TableEntry) : Prog.All MemOp.Unlogged (applyWrite P m key slot) := by
  refine .bind (unlogged_updateSize P _ _ _) fun _ => .bind (Prog.all_perform.2 trivial) fun _ => ?_
  refine .bind (Prog.all_perform.2 trivial) fun m => .bind (Prog.all_perform.2 trivial) fun _ => ?_
  exact (unlogged_flush P).when

/-- The disk after the first bytes of a record, at most `n`, are written to the log. -/
def loggedPart (m : Memtable) (d : Disk) (key : Bytes) (slot : Option TableEntry) (n : Nat) : Disk :=
  if m.config.walEnabled then { d with wal := d.wal ++ (toWalEntry key (.ofSlot slot)).take n }
  else d

section
variable {P : Platform} {m : Memtable} {d : Disk} {key : Bytes} {slot : Option TableEntry}

@[simp] theorem clock_loggedPart (n : Nat) : (loggedPart m d key slot n).clock = d.clock := by
  unfold loggedPart
  split <;> rfl

/-- The outcome of a `write` on the log is nothing to what follows it. -/
theorem exec_applyWrite_outcome (outcome : WriteOutcome) (s : Store) :
    Prog.exec (outcomeHandler P outcome) (applyWrite P m key slot) s =
      Prog.exec (memHandler P) (applyWrite P m key slot) s := by
  refine (unlogged_applyWrite P m key slot).exec_congr (fun o ho s => ?_) _
  cases o with
  | get => rfl
  | set => rfl
  | disk o => cases o <;> first | rfl | exact ho.elim

/-- A `write` on the log that fails leaves everything as it was. -/
theorem exec_write_fails (hw : m.config.walEnabled = true) (e : IoError) :
    Prog.exec (outcomeHandler P (.fails e)) (write P key slot) (m, d) =
      (.error (.err (.writeAheadLog (.ioErr e))), (m, d)) := by
  have hget : Prog.exec (outcomeHandler P (.fails e)) (Prog.perform .get : MemProg Memtable) (m, d) =
      (.ok m, (m, d)) := rfl
  unfold write
  rw [Prog.exec_bind_ok hget]
  dsimp only
  rw [hw]
  rfl

/-- **A `write` on the log that returns**, whatever it has written, is followed by the update of the
counter and the map. -/
theorem exec_write_writes (n : Nat) :
    Prog.exec (outcomeHandler P (.writes n)) (write P key slot) (m, d) =
      Prog.exec (memHandler P) (applyWrite P m key slot) (m, loggedPart m d key slot n) := by
  have hget : Prog.exec (outcomeHandler P (.writes n)) (Prog.perform .get : MemProg Memtable)
      (m, d) = (.ok m, (m, d)) := rfl
  have hlog : Prog.exec (outcomeHandler P (.writes n)) (Prog.when m.config.walEnabled (do
      let _ ← MemProg.io (.walWrite (toWalEntry key (.ofSlot slot)))
      : MemProg Unit)) (m, d) = (.ok (), (m, loggedPart m d key slot n)) := by
    unfold loggedPart
    cases m.config.walEnabled <;> rfl
  unfold write
  rw [Prog.exec_bind_ok hget]
  dsimp only
  rw [Prog.exec_bind_ok hlog]
  exact exec_applyWrite_outcome _ _

theorem exec_write_unlogged (hw : m.config.walEnabled = false) (outcome : WriteOutcome) :
    Prog.exec (outcomeHandler P outcome) (write P key slot) (m, d) =
      Prog.exec (memHandler P) (applyWrite P m key slot) (m, d) := by
  have hget : Prog.exec (outcomeHandler P outcome) (Prog.perform .get : MemProg Memtable)
      (m, d) = (.ok m, (m, d)) := rfl
  unfold write
  rw [Prog.exec_bind_ok hget]
  dsimp only
  rw [hw]
  exact exec_applyWrite_outcome _ _

end

/-- **A write under any outcome** fails at the log and changes nothing, or goes on to the update. -/
theorem exec_write_outcome (P : Platform) (m : Memtable) (d : Disk) (key : Bytes)
    (slot : Option TableEntry) (outcome : WriteOutcome) :
    (∃ e, outcome = .fails e ∧ m.config.walEnabled = true ∧
      Prog.exec (outcomeHandler P outcome) (write P key slot) (m, d) =
        (.error (.err (.writeAheadLog (.ioErr e))), (m, d))) ∨
    ∃ n, (m.config.walEnabled = true → outcome = .writes n) ∧
      Prog.exec (outcomeHandler P outcome) (write P key slot) (m, d) =
        Prog.exec (memHandler P) (applyWrite P m key slot) (m, loggedPart m d key slot n) := by
  cases hw : m.config.walEnabled with
  | false =>
    refine .inr ⟨0, nofun, ?_⟩
    rw [exec_write_unlogged hw, loggedPart, if_neg (by simp [hw])]
  | true =>
    cases outcome with
    | fails e => exact .inl ⟨e, rfl, rfl, exec_write_fails hw e⟩
    | writes n => exact .inr ⟨n, fun _ => rfl, exec_write_writes n⟩

/-- A write that stays in memory, whatever it has written to the log. -/
theorem exec_write_kept {P : Platform} {m : Memtable} {d : Disk} (key : Bytes)
    (slot : Option TableEntry) (ho : CounterOk P m key slot)
    (hf : shouldFlush (written m key slot) d.clock = false) (n : Nat) :
    Prog.exec (outcomeHandler P (.writes n)) (write P key slot) (m, d) =
      (.ok (), (written m key slot, loggedPart m d key slot n)) := by
  rw [exec_write_writes, exec_applyWrite ho, clock_loggedPart, hf]
  rfl

/-! ## Starts -/

theorem Started.empty {P : Platform} {s : Store} (h : Started P s) :
    s.1.inMemoryRepr = ∅ ∧ s.1.currentSizeBytes = 0 := by
  obtain ⟨⟨content, hm⟩, hlog⟩ := h
  rw [Memtable.new] at hm
  obtain ⟨config, -, hm⟩ := bind_ok hm
  cases hw : config.walEnabled with
  | false =>
    rw [if_neg (by simp [hw])] at hm
    simp [← Except.ok.inj hm]
  | true =>
    rw [if_pos hw] at hm
    obtain ⟨⟨repr, size⟩, hrebuild, hm⟩ := bind_ok hm
    have hs := Except.ok.inj hm
    rw [hlog (by rw [← hs]; exact hw)] at hrebuild
    cases hrebuild
    simp [← hs]

/-- A memtable with the built-in configuration on an empty disk when the clock shows 0. -/
def idleStore : Store := (⟨∅, defaultConfig, 600 * 10 ^ 9, 0⟩, Disk.empty 0)

theorem started_idleStore : Started .plain idleStore := ⟨⟨.default, rfl⟩, fun _ => rfl⟩

end Mem
