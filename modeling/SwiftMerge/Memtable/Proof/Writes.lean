import SwiftMerge.Memtable.Memtable

/-!
# What a write and a flush do

`write` first updates the log, the counter and the map (`logged`, `written`), and then flushes when
the updated memtable asks for it; `exec_flush` is the whole effect of a flush that succeeds, and
`flushable_of_exec` says that only a non-empty memtable with a non-zero counter and a local disk has
one.

* `exec_write_ok`: an accepted write is one of the two cases.
-/

namespace Mem

open Lib Lsm

variable {P : Platform} {m : Memtable} {d : Disk}

@[simp] theorem exec_get (s : Store) :
    Prog.exec (memHandler P) (Prog.perform .get : MemProg Memtable) s = (.ok s.1, s) := rfl

@[simp] theorem exec_set (m' : Memtable) (s : Store) :
    Prog.exec (memHandler P) (Prog.perform (.set m') : MemProg Unit) s = (.ok (), (m', s.2)) := rfl

@[simp] theorem exec_now :
    Prog.exec (memHandler P) (Prog.perform (.disk .now) : MemProg Nat) (m, d) =
      (.ok d.clock, (m, d)) := rfl

theorem exec_dirExists (level : Nat) :
    Prog.exec (memHandler P) (Prog.perform (.disk (.dirExists level)) : MemProg Bool) (m, d) =
      (.ok (decide (1 ≤ level ∧ level ≤ d.levels)), (m, d)) := rfl

theorem exec_io {α : Type} {o : DiskOp (Except IoError α)} {a : α} {d' : Disk}
    (h : Disk.step P o d = (.ok a, d')) :
    Prog.exec (memHandler P) (MemProg.io o) (m, d) = (.ok a, (m, d')) := by
  rw [MemProg.io, Prog.exec_bind, Prog.exec_perform]
  show Prog.exec _ (Prog.ofExcept ((Disk.step P o d).1.mapError _)) (m, (Disk.step P o d).2) = _
  rw [Prog.exec_ofExcept, h]
  rfl

/-! ## The flush -/

/-- The disk with `data/l1`. -/
def withL1 (d : Disk) : Disk := { d with levels := max d.levels 1 }

/-- The path of the table a flush writes. -/
def flushPath (P : Platform) (d : Disk) : Path := ⟨1, ssTableName (P.uuid d.clock)⟩

/-- The disk after the table is written and before the log is emptied. -/
def tableWritten (P : Platform) (m : Memtable) (d : Disk) : Disk :=
  ((withL1 d).create P (flushPath P d)).append (flushPath P d)
    (flushBuffer P m.inMemoryRepr m.config.bloomFalsePositiveRate)

/-- The disk after a flush. -/
def flushedDisk (P : Platform) (m : Memtable) (d : Disk) : Disk :=
  { tableWritten P m d with wal := [] }

/-- The memtable after a flush. -/
def flushedMem (P : Platform) (m : Memtable) (d : Disk) : Memtable :=
  { m with
    flushBy := (flushedDisk P m d).clock + m.config.ramMaxTime * 10 ^ 9
    currentSizeBytes := 0
    inMemoryRepr := ∅ }

section
variable (P : Platform) (m : Memtable) (d : Disk)

theorem step_createTable : Disk.step P (.create (flushPath P d)) (withL1 d) =
    (.ok (), (withL1 d).create P (flushPath P d)) :=
  Disk.step_create ⟨Nat.le_refl 1, Nat.le_max_right _ _⟩

theorem step_appendTable : Disk.step P (.append (flushPath P d) (flushBuffer P m.inMemoryRepr
    m.config.bloomFalsePositiveRate)) ((withL1 d).create P (flushPath P d)) =
    (.ok (), tableWritten P m d) := Disk.step_append Disk.file?_create_self _

theorem step_syncTable : Disk.step P (.sync (flushPath P d)) (tableWritten P m d) =
    (.ok (), tableWritten P m d) := Disk.step_sync (Disk.file?_append_self Disk.file?_create_self)

end

/-- A memtable that can be flushed. -/
structure Flushable (m : Memtable) : Prop where
  ne_empty : m.inMemoryRepr.isEmpty = false
  size_ne : m.currentSizeBytes ≠ 0
  localDisk : m.config.localDisk = true

theorem exec_createL1 :
    Prog.exec (memHandler P) createL1 (m, d) = (.ok (), (m, withL1 d)) := by
  rw [createL1, Prog.exec_bind_ok (exec_dirExists 1)]
  by_cases h : 1 ≤ 1 ∧ 1 ≤ d.levels
  · rw [decide_eq_true h]
    show (Except.ok (), (m, d)) = _
    rw [withL1, Nat.max_eq_left h.2]
  · rw [decide_eq_false h]
    show Prog.exec _ (MemProg.io (.createDir 1)) (m, d) = _
    exact exec_io (Disk.step_createDir (by omega))

/-- **The effect of a flush.** -/
theorem exec_flush (h : Flushable m) : Prog.exec (memHandler P) (flush P) (m, d) =
    (.ok (), (flushedMem P m d, flushedDisk P m d)) := by
  obtain ⟨hne, hs, hl⟩ := h
  unfold flush
  rw [Prog.exec_bind_ok (exec_get _)]
  dsimp only
  rw [Prog.exec_bind_ok (Prog.exec_ensure_pos (by rw [hne]; rfl) _), Prog.exec_bind_ok exec_createL1,
    Prog.exec_bind_ok exec_now,
    Prog.exec_bind_ok (Prog.exec_ensure_pos (decide_eq_true hs) _),
    Prog.exec_bind_ok (Prog.exec_ensure_pos hl _)]
  show Prog.exec _ (MemProg.io (.create (flushPath P d)) >>= _) _ = _
  rw [Prog.exec_bind_ok (exec_io (step_createTable P d))]
  show Prog.exec _ (MemProg.io (.append (flushPath P d) _) >>= _) _ = _
  rw [Prog.exec_bind_ok (exec_io (step_appendTable P m d))]
  show Prog.exec _ (MemProg.io (.sync (flushPath P d)) >>= _) _ = _
  rw [Prog.exec_bind_ok (exec_io (step_syncTable P m d)), Prog.exec_bind_ok (exec_io rfl),
    Prog.exec_bind_ok exec_now, exec_set]
  rfl

theorem flushable_of_exec {s : Store} (h : Prog.exec (memHandler P) (flush P) (m, d) = (.ok (), s)) :
    Flushable m := by
  unfold flush at h
  rw [Prog.exec_bind_ok (exec_get _)] at h
  dsimp only at h
  refine ⟨?_, ?_, ?_⟩
  · cases hne : m.inMemoryRepr.isEmpty with
    | false => rfl
    | true =>
      rw [Prog.exec_bind_error (Prog.exec_ensure_neg (by rw [hne]; rfl) _)] at h
      cases h
  · intro hs
    obtain ⟨_, _, -, h⟩ := Prog.exec_bind_eq_ok h
    obtain ⟨_, _, -, h⟩ := Prog.exec_bind_eq_ok h
    obtain ⟨_, _, -, h⟩ := Prog.exec_bind_eq_ok h
    rw [Prog.exec_bind_error (Prog.exec_ensure_neg (decide_eq_false fun hn => hn hs) _)] at h
    cases h
  · cases hl : m.config.localDisk with
    | true => rfl
    | false =>
      obtain ⟨_, _, -, h⟩ := Prog.exec_bind_eq_ok h
      obtain ⟨_, _, -, h⟩ := Prog.exec_bind_eq_ok h
      obtain ⟨_, _, -, h⟩ := Prog.exec_bind_eq_ok h
      obtain ⟨_, _, -, h⟩ := Prog.exec_bind_eq_ok h
      rw [Prog.exec_bind_error (Prog.exec_ensure_neg hl _)] at h
      cases h

theorem exec_flush_remote (hne : m.inMemoryRepr.isEmpty = false) (hs : m.currentSizeBytes ≠ 0)
    (hl : m.config.localDisk = false) : Prog.exec (memHandler P) (flush P) (m, d) =
    (.error (.panic "not implemented"), (m, withL1 d)) := by
  unfold flush
  rw [Prog.exec_bind_ok (exec_get _)]
  dsimp only
  rw [Prog.exec_bind_ok (Prog.exec_ensure_pos (by rw [hne]; rfl) _), Prog.exec_bind_ok exec_createL1,
    Prog.exec_bind_ok exec_now, Prog.exec_bind_ok (Prog.exec_ensure_pos (decide_eq_true hs) _),
    Prog.exec_bind_error (Prog.exec_ensure_neg hl _)]

/-- A memtable that cannot be flushed makes the flush panic, unless it is empty. -/
theorem exec_flush_panic (hne : m.inMemoryRepr.isEmpty = false) (h : ¬Flushable m) (d : Disk) :
    ∃ msg s, Prog.exec (memHandler P) (flush P) (m, d) = (.error (.panic msg), s) := by
  by_cases hs : m.currentSizeBytes = 0
  · refine ⟨"attempt to divide by zero", (m, withL1 d), ?_⟩
    unfold flush
    rw [Prog.exec_bind_ok (exec_get _)]
    dsimp only
    rw [Prog.exec_bind_ok (Prog.exec_ensure_pos (by rw [hne]; rfl) _),
      Prog.exec_bind_ok exec_createL1, Prog.exec_bind_ok exec_now,
      Prog.exec_bind_error (Prog.exec_ensure_neg (decide_eq_false fun hn => hn hs) _)]
  · cases hl : m.config.localDisk with
    | true => exact absurd ⟨hne, hs, hl⟩ h
    | false => exact ⟨_, _, exec_flush_remote hne hs hl⟩

/-! ## The counter -/

/-- The counter after a write, when its arithmetic does not panic. -/
def sizeAfter (currentSizeBytes newSize : Nat) : Option Nat → Nat
  | some oldSize =>
    let newSize := newSize % 2 ^ 32
    let oldSize := oldSize % 2 ^ 32
    if oldSize < newSize then (currentSizeBytes + (newSize - oldSize)) % 2 ^ 32
    else (currentSizeBytes + (2 ^ 32 - (oldSize - newSize) % 2 ^ 32)) % 2 ^ 32
  | none => (currentSizeBytes + newSize % 2 ^ 32) % 2 ^ 32

/-- The addition or subtraction of `updateSize` stays within 32 bits. -/
def NoOverflow (currentSizeBytes newSize : Nat) : Option Nat → Prop
  | some oldSize =>
    let newSize := newSize % 2 ^ 32
    let oldSize := oldSize % 2 ^ 32
    if oldSize < newSize then currentSizeBytes + (newSize - oldSize) < 2 ^ 32
    else oldSize - newSize ≤ currentSizeBytes
  | none => currentSizeBytes + newSize % 2 ^ 32 < 2 ^ 32

section
variable {S : Type} {H : Handler MemOp S} {a b : Nat} {s s' : S}

theorem exec_addU32 {n : Nat} (h : Prog.exec H (addU32 P a b) s = (.ok n, s')) :
    n = (a + b) % 2 ^ 32 ∧ s' = s := by
  unfold addU32 at h
  split at h
  · cases h
  · cases h
    exact ⟨rfl, rfl⟩

theorem exec_subU32 {n : Nat} (h : Prog.exec H (subU32 P a b) s = (.ok n, s')) :
    n = (a + (2 ^ 32 - b % 2 ^ 32)) % 2 ^ 32 ∧ s' = s := by
  unfold subU32 at h
  split at h
  · cases h
  · cases h
    exact ⟨rfl, rfl⟩

/-- Counter arithmetic that returns gives `sizeAfter`. -/
theorem exec_updateSize {n : Nat} {old : Option Nat}
    (h : Prog.exec H (updateSize P a b old) s = (.ok n, s')) : n = sizeAfter a b old ∧ s' = s := by
  cases old with
  | none => exact exec_addU32 h
  | some old =>
    unfold updateSize at h
    unfold sizeAfter
    dsimp only at h ⊢
    split at h
    · rename_i hlt
      rw [if_pos hlt]
      exact exec_addU32 h
    · rename_i hlt
      rw [if_neg hlt]
      exact exec_subU32 h

/-- Counter arithmetic that does not return panics. -/
theorem exec_updateSize_error {old : Option Nat} {e : Failure MemtableError}
    (h : Prog.exec H (updateSize P a b old) s = (.error e, s')) : ∃ msg, e = .panic msg := by
  have hadd : ∀ x y, Prog.exec H (addU32 P x y) s = (.error e, s') → ∃ msg, e = .panic msg := by
    intro x y h
    unfold addU32 at h
    split at h
    · cases h
      exact ⟨_, rfl⟩
    · cases h
  have hsub : ∀ x y, Prog.exec H (subU32 P x y) s = (.error e, s') → ∃ msg, e = .panic msg := by
    intro x y h
    unfold subU32 at h
    split at h
    · cases h
      exact ⟨_, rfl⟩
    · cases h
  cases old with
  | none => exact hadd _ _ h
  | some old =>
    unfold updateSize at h
    dsimp only at h
    split at h
    · exact hadd _ _ h
    · exact hsub _ _ h

/-- Counter arithmetic returns when it wraps around or stays within 32 bits. -/
theorem exec_updateSize_ok {old : Option Nat} (ho : P.overflowChecks = true → NoOverflow a b old)
    (s : S) : Prog.exec H (updateSize P a b old) s = (.ok (sizeAfter a b old), s) := by
  cases old with
  | none =>
    have hno : ¬(P.overflowChecks = true ∧ 2 ^ 32 ≤ a + b % 2 ^ 32) := fun hc =>
      absurd (ho hc.1) (Nat.not_lt.2 hc.2)
    show Prog.exec _ (addU32 P a (b % 2 ^ 32)) s = _
    rw [addU32, if_neg hno]
    rfl
  | some old =>
    unfold NoOverflow at ho
    unfold updateSize sizeAfter
    dsimp only at ho ⊢
    split
    · rename_i hlt
      rw [if_pos hlt] at ho
      rw [addU32, if_neg fun hc => absurd (ho hc.1) (Nat.not_lt.2 hc.2)]
      rfl
    · rename_i hlt
      rw [if_neg hlt] at ho
      rw [subU32, if_neg fun hc => absurd (ho hc.1) (Nat.not_le.2 hc.2)]
      rfl

/-- With overflow checks, arithmetic that returns stayed within 32 bits. -/
theorem noOverflow_of_exec {n : Nat} {old : Option Nat} (ho : P.overflowChecks = true)
    (h : Prog.exec H (updateSize P a b old) s = (.ok n, s')) : NoOverflow a b old := by
  have hadd : ∀ x y, Prog.exec H (addU32 P x y) s = (.ok n, s') → x + y < 2 ^ 32 := by
    intro x y h
    by_contra hge
    rw [addU32, if_pos ⟨ho, Nat.not_lt.1 hge⟩] at h
    cases h
  have hsub : ∀ x y, Prog.exec H (subU32 P x y) s = (.ok n, s') → y ≤ x := by
    intro x y h
    by_contra hlt
    rw [subU32, if_pos ⟨ho, Nat.not_le.1 hlt⟩] at h
    cases h
  cases old with
  | none => exact hadd _ _ h
  | some old =>
    unfold updateSize at h
    unfold NoOverflow
    dsimp only at h ⊢
    split at h
    · rename_i hlt
      rw [if_pos hlt]
      exact hadd _ _ h
    · rename_i hlt
      rw [if_neg hlt]
      exact hsub _ _ h

end

/-! ## A write -/

/-- The memtable after a write updated its map, before any flush. -/
def written (m : Memtable) (key : Bytes) (slot : Option TableEntry) : Memtable :=
  { m with
    currentSizeBytes := sizeAfter m.currentSizeBytes (toWalEntry key (.ofSlot slot)).length
      (getExistingEntrySize m key)
    inMemoryRepr := m.inMemoryRepr.insert key slot }

/-- The disk after a write to the log. -/
def logged (m : Memtable) (d : Disk) (key : Bytes) (slot : Option TableEntry) : Disk :=
  if m.config.walEnabled then { d with wal := d.wal ++ toWalEntry key (.ofSlot slot) } else d

/-- The arithmetic of a write of `slot` under `key` returns. -/
def CounterOk (P : Platform) (m : Memtable) (key : Bytes) (slot : Option TableEntry) : Prop :=
  P.overflowChecks = true → NoOverflow m.currentSizeBytes (toWalEntry key (.ofSlot slot)).length
    (getExistingEntrySize m key)

theorem counterOk_plain (m : Memtable) (key : Bytes) (slot : Option TableEntry) :
    CounterOk .plain m key slot := fun ho => absurd ho Bool.false_ne_true

/-- What follows the write to the log: the counter, the map and the flush. -/
def applyWrite (P : Platform) (m : Memtable) (key : Bytes) (slot : Option TableEntry) :
    MemProg Unit := do
  let size ← updateSize P m.currentSizeBytes (toWalEntry key (.ofSlot slot)).length
    (getExistingEntrySize m key)
  Prog.perform (.set { m with
    currentSizeBytes := size, inMemoryRepr := m.inMemoryRepr.insert key slot })
  manageFlush P

section
variable {key : Bytes} {slot : Option TableEntry}

/-- A write to the log is complete, and the rest follows. -/
theorem exec_write : Prog.exec (memHandler P) (write P key slot) (m, d) =
    Prog.exec (memHandler P) (applyWrite P m key slot) (m, logged m d key slot) := by
  have hlog : Prog.exec (memHandler P) (Prog.when m.config.walEnabled (do
      let _ ← MemProg.io (.walWrite (toWalEntry key (.ofSlot slot)))
      : MemProg Unit)) (m, d) = (.ok (), (m, logged m d key slot)) := by
    unfold logged
    cases m.config.walEnabled <;> rfl
  unfold write
  rw [Prog.exec_bind_ok (exec_get _)]
  dsimp only
  rw [Prog.exec_bind_ok hlog]
  rfl

theorem clock_logged (m : Memtable) (d : Disk) (key : Bytes) (slot : Option TableEntry) :
    (logged m d key slot).clock = d.clock := by
  unfold logged
  split <;> rfl

theorem exec_manageFlush :
    Prog.exec (memHandler P) (manageFlush P) (m, d) =
      Prog.exec (memHandler P) (Prog.when (shouldFlush m d.clock) (flush P)) (m, d) := by
  rw [manageFlush, Prog.exec_bind_ok (exec_get _), Prog.exec_bind_ok exec_now]

/-- Once the counter is known the map is updated, and the flush follows when it is due. -/
theorem exec_updated : Prog.exec (memHandler P) (do
      Prog.perform (.set (written m key slot))
      manageFlush P) (m, d) =
    Prog.exec (memHandler P) (Prog.when (shouldFlush (written m key slot) d.clock) (flush P))
      (written m key slot, d) := by
  rw [Prog.exec_bind_ok (exec_set _ _)]
  exact exec_manageFlush

/-- The map and the counter are updated, and the flush follows when it is due. -/
theorem exec_applyWrite (ho : CounterOk P m key slot) :
    Prog.exec (memHandler P) (applyWrite P m key slot) (m, d) =
      Prog.exec (memHandler P) (Prog.when (shouldFlush (written m key slot) d.clock) (flush P))
        (written m key slot, d) := by
  rw [applyWrite, Prog.exec_bind_ok (exec_updateSize_ok ho _)]
  exact exec_updated

/-- **An update that returns** changes the counter and the map, and then flushes if and only if the
updated memtable asks for it. -/
theorem exec_applyWrite_ok {s : Store}
    (h : Prog.exec (memHandler P) (applyWrite P m key slot) (m, d) = (.ok (), s)) :
    (shouldFlush (written m key slot) d.clock = false ∧ s = (written m key slot, d)) ∨
    (shouldFlush (written m key slot) d.clock = true ∧ Flushable (written m key slot) ∧
      s = (flushedMem P (written m key slot) d, flushedDisk P (written m key slot) d)) := by
  unfold applyWrite at h
  obtain ⟨n, s1, hn, h⟩ := Prog.exec_bind_eq_ok h
  obtain ⟨rfl, rfl⟩ := exec_updateSize hn
  replace h := exec_updated.symm.trans h
  cases hf : shouldFlush (written m key slot) d.clock with
  | false =>
    rw [hf] at h
    cases h
    exact .inl ⟨rfl, rfl⟩
  | true =>
    rw [hf] at h
    have hfl : Flushable (written m key slot) := flushable_of_exec h
    rw [show Prog.exec (memHandler P) (Prog.when true (flush P)) _ = _ from exec_flush hfl] at h
    cases h
    exact .inr ⟨rfl, hfl, rfl⟩

theorem exec_applyWrite_error {e : Failure MemtableError} {s : Store}
    (h : Prog.exec (memHandler P) (applyWrite P m key slot) (m, d) = (.error e, s)) :
    ∃ msg, e = .panic msg := by
  rw [applyWrite, Prog.exec_bind] at h
  cases hn : Prog.exec (memHandler P) (updateSize P m.currentSizeBytes
      (toWalEntry key (.ofSlot slot)).length (getExistingEntrySize m key)) (m, d) with
  | mk r s1 =>
    rw [hn] at h
    cases r with
    | error e' =>
      cases h
      exact exec_updateSize_error hn
    | ok n =>
      obtain ⟨rfl, rfl⟩ := exec_updateSize hn
      replace h := exec_updated.symm.trans h
      cases hf : shouldFlush (written m key slot) d.clock with
      | false =>
        rw [hf] at h
        cases h
      | true =>
        rw [hf] at h
        change Prog.exec _ (flush P) _ = _ at h
        by_cases hfl : Flushable (written m key slot)
        · rw [exec_flush hfl] at h
          cases h
        · obtain ⟨msg, s', hx⟩ := exec_flush_panic (by simp [written]) hfl d
          rw [hx] at h
          cases h
          exact ⟨msg, rfl⟩

/-- **An accepted write** updates the log, the counter and the map, and then flushes if and only if
the updated memtable asks for it. -/
theorem exec_write_ok {s : Store}
    (h : Prog.exec (memHandler P) (write P key slot) (m, d) = (.ok (), s)) :
    (shouldFlush (written m key slot) d.clock = false ∧
      s = (written m key slot, logged m d key slot)) ∨
    (shouldFlush (written m key slot) d.clock = true ∧ Flushable (written m key slot) ∧
      s = (flushedMem P (written m key slot) (logged m d key slot),
        flushedDisk P (written m key slot) (logged m d key slot))) := by
  rw [exec_write] at h
  have hok := exec_applyWrite_ok h
  rwa [clock_logged] at hok

theorem exec_write_quiet (ho : CounterOk P m key slot)
    (hf : shouldFlush (written m key slot) d.clock = false) :
    Prog.exec (memHandler P) (write P key slot) (m, d) =
      (.ok (), (written m key slot, logged m d key slot)) := by
  rw [exec_write, exec_applyWrite ho, clock_logged, hf]
  rfl

theorem exec_write_flush (ho : CounterOk P m key slot)
    (hf : shouldFlush (written m key slot) d.clock = true) (hfl : Flushable (written m key slot)) :
    Prog.exec (memHandler P) (write P key slot) (m, d) =
      (.ok (), (flushedMem P (written m key slot) (logged m d key slot),
        flushedDisk P (written m key slot) (logged m d key slot))) := by
  rw [exec_write, exec_applyWrite ho, clock_logged, hf]
  exact exec_flush hfl

end

end Mem
