import SwiftMerge.Memtable.Proof.Replay
import SwiftMerge.Memtable.Proof.Writes

/-!
# What a failed write leaves behind

A put or a delete writes the log, updates the counter and the map, and only then runs the flush that
may be due; nothing is taken back when a call of the flush fails. `noTrace_iff` says exactly when a
write that returns an error has left the map, the counter and the log as they were.

* `faultHandler`: the memtable's operations when one call to the file system fails.
* `exec_flush_fault`: the flush, whichever of its calls fails.
-/

namespace Mem

open Lib Lsm

/-- How a call fails: its error, and how many bytes a `write_all` has written before it. -/
structure Fault where
  error : IoError
  written : Nat

/-- The answer of a call that fails and the disk it leaves; `none` for the calls that cannot. -/
def Fault.call (f : Fault) : {β : Type} → DiskOp β → Disk → Option (β × Disk)
  | _, .now, _ => none
  | _, .dirExists _, _ => none
  | _, .createDir _, d => some (.error f.error, d)
  | _, .readDir _, d => some (.error f.error, d)
  | _, .read _, d => some (.error f.error, d)
  | _, .create _, d => some (.error f.error, d)
  | _, .append p bs, d => some (.error f.error, d.append p (bs.take f.written))
  | _, .sync _, d => some (.error f.error, d)
  | _, .truncate _, d => some (.error f.error, d)
  | _, .rename _ _, d => some (.error f.error, d)
  | _, .remove _, d => some (.error f.error, d)
  | _, .walWrite _, d => some (.error f.error, d)
  | _, .walRead, d => some (.error f.error, d)
  | _, .walClear, d => some (.error f.error, d)

/-- A call, when the one after the next `n` that may fail does: its answer, the disk it leaves and
the number of calls still to succeed. -/
def Fault.step (P : Platform) (f : Fault) {β : Type} (o : DiskOp β) (d : Disk) (n : Nat) :
    β × Disk × Nat :=
  match f.call o d, n with
  | some (b, d'), 0 => (b, d', 0)
  | some _, n + 1 => ((Disk.step P o d).1, (Disk.step P o d).2, n)
  | none, n => ((Disk.step P o d).1, (Disk.step P o d).2, n)

/-- The memtable's operations when one call to the file system fails. -/
def faultHandler (P : Platform) (f : Fault) : Handler MemOp (Store × Nat) where
  step
    | .get, (s, n) => (s.1, (s, n))
    | .set m, (s, n) => ((), ((m, s.2), n))
    | .disk o, ((m, d), n) =>
      ((f.step P o d n).1, ((m, (f.step P o d n).2.1), (f.step P o d n).2.2))
  during o s t := (memHandler P).during o s.1 t.1

/-- Whatever error the write returns, it leaves the map, the counter and the log as they were. -/
def NoTrace (P : Platform) (f : Fault) (m : Memtable) (d : Disk) (key : Bytes)
    (slot : Option TableEntry) (n : Nat) : Prop :=
  ∀ e s, Prog.exec (faultHandler P f) (write P key slot) ((m, d), n) = (.error (.err e), s) →
    s.1.1.inMemoryRepr = m.inMemoryRepr ∧ s.1.1.currentSizeBytes = m.currentSizeBytes ∧
      s.1.2.wal = d.wal

/-- The calls that make `data/l1`. -/
def dirCalls (d : Disk) : Nat := if 1 ≤ d.levels then 0 else 1

/-- The calls of a write before its flush. -/
def logCalls (m : Memtable) : Nat := if m.config.walEnabled then 1 else 0

/-- The flush is due, and the call that fails is one of those it gets to: making the directory, or,
when the flush does not panic before, creating, writing and syncing the table and emptying the
log. -/
def FlushCallFails (P : Platform) (m : Memtable) (d : Disk) (key : Bytes)
    (slot : Option TableEntry) (n : Nat) : Prop :=
  CounterOk P m key slot ∧ shouldFlush (written m key slot) d.clock = true ∧ logCalls m ≤ n ∧
    (n < logCalls m + dirCalls d ∨
      (n < logCalls m + dirCalls d + 4 ∧ Flushable (written m key slot)))

variable {P : Platform} {f : Fault} {m : Memtable} {d : Disk}

/-- The error of the call that fails. -/
def Fault.err (f : Fault) : Failure MemtableError := .err (.writeAheadLog (.ioErr f.error))

theorem exec_get_fault (n : Nat) :
    Prog.exec (faultHandler P f) (Prog.perform .get : MemProg Memtable) ((m, d), n) =
      (.ok m, ((m, d), n)) := rfl

theorem exec_now_fault (n : Nat) :
    Prog.exec (faultHandler P f) (Prog.perform (.disk .now) : MemProg Nat) ((m, d), n) =
      (.ok d.clock, ((m, d), n)) := rfl

theorem exec_io_fail {α : Type} {o : DiskOp (Except IoError α)} {d' : Disk}
    (h : f.call o d = some (.error f.error, d')) :
    Prog.exec (faultHandler P f) (MemProg.io o) ((m, d), 0) = (.error f.err, ((m, d'), 0)) := by
  have hstep : f.step P o d 0 = (.error f.error, d', 0) := by simp [Fault.step, h]
  rw [MemProg.io, Prog.exec_bind, Prog.exec_perform]
  simp only [faultHandler, hstep]
  rfl

theorem exec_io_pass {α : Type} {o : DiskOp (Except IoError α)} {x : Except IoError α × Disk}
    {a : α} {d' : Disk} (hf : f.call o d = some x) (h : Disk.step P o d = (.ok a, d')) (n : Nat) :
    Prog.exec (faultHandler P f) (MemProg.io o) ((m, d), n + 1) = (.ok a, ((m, d'), n)) := by
  have hstep : f.step P o d (n + 1) = (.ok a, d', n) := by simp [Fault.step, hf, h]
  rw [MemProg.io, Prog.exec_bind, Prog.exec_perform]
  simp only [faultHandler, hstep]
  rfl

theorem exec_io_bind {α β : Type} {o : DiskOp (Except IoError α)} {g : α → MemProg β} {a : α}
    {d' d'' : Disk} (hf : f.call o d = some (.error f.error, d''))
    (h : Disk.step P o d = (.ok a, d')) (n : Nat) :
    Prog.exec (faultHandler P f) (MemProg.io o >>= g) ((m, d), n) =
      match n with
      | 0 => (.error f.err, ((m, d''), 0))
      | n + 1 => Prog.exec (faultHandler P f) (g a) ((m, d'), n) := by
  cases n with
  | zero => exact Prog.exec_bind_error (exec_io_fail hf)
  | succ n => exact Prog.exec_bind_ok (exec_io_pass hf h n)

/-! ## The flush -/

theorem exec_createL1_fault (n : Nat) :
    (n < dirCalls d →
      Prog.exec (faultHandler P f) createL1 ((m, d), n) = (.error f.err, ((m, d), 0))) ∧
    ∀ k, n = dirCalls d + k →
      Prog.exec (faultHandler P f) createL1 ((m, d), n) = (.ok (), ((m, withL1 d), k)) := by
  have hexists : Prog.exec (faultHandler P f) (Prog.perform (.disk (.dirExists 1)) : MemProg Bool)
      ((m, d), n) = (.ok (decide (1 ≤ 1 ∧ 1 ≤ d.levels)), ((m, d), n)) := rfl
  rw [createL1, Prog.exec_bind_ok hexists]
  by_cases h : 1 ≤ d.levels
  · have hdir : dirCalls d = 0 := if_pos h
    rw [decide_eq_true (show 1 ≤ 1 ∧ 1 ≤ d.levels from ⟨Nat.le_refl 1, h⟩), hdir]
    refine ⟨fun hn => absurd hn (Nat.not_lt_zero n), fun k hk => ?_⟩
    rw [withL1, Nat.max_eq_left h, hk, Nat.zero_add]
    rfl
  · have hdir : dirCalls d = 1 := if_neg h
    rw [decide_eq_false (show ¬(1 ≤ 1 ∧ 1 ≤ d.levels) from fun hc => h hc.2), hdir]
    refine ⟨fun hn => ?_, fun k hk => ?_⟩
    · obtain rfl : n = 0 := by omega
      exact exec_io_fail (o := .createDir 1) rfl
    · obtain rfl : n = k + 1 := by omega
      exact exec_io_pass (o := .createDir 1) rfl (Disk.step_createDir (by omega)) k

/-- The flush gets to its calls on the table and the log, one of which fails or none. -/
theorem exec_flush_table (h : Flushable m) {n k : Nat} (hn : n = dirCalls d + k) :
    (k < 4 → ∃ d', Prog.exec (faultHandler P f) (flush P) ((m, d), n) = (.error f.err, ((m, d'), 0)) ∧
      d'.wal = d.wal) ∧
    (4 ≤ k → ∃ s, Prog.exec (faultHandler P f) (flush P) ((m, d), n) = (.ok (), s)) := by
  obtain ⟨hne, hs, hl⟩ := h
  have hwal : (tableWritten P m d).wal = d.wal := by simp [tableWritten, withL1]
  unfold flush
  rw [Prog.exec_bind_ok (exec_get_fault n)]
  dsimp only
  rw [Prog.exec_bind_ok (Prog.exec_ensure_pos (by rw [hne]; rfl) _),
    Prog.exec_bind_ok ((exec_createL1_fault n).2 k hn), Prog.exec_bind_ok (exec_now_fault k),
    Prog.exec_bind_ok (Prog.exec_ensure_pos (decide_eq_true hs) _),
    Prog.exec_bind_ok (Prog.exec_ensure_pos hl _)]
  show (k < 4 → ∃ d', Prog.exec _ (MemProg.io (.create (flushPath P d)) >>= _) _ = _ ∧ _) ∧
    (4 ≤ k → ∃ s, Prog.exec _ (MemProg.io (.create (flushPath P d)) >>= _) _ = _)
  -- the call that fails: creating, writing or syncing the table, emptying the log, or none of them
  rw [exec_io_bind rfl (step_createTable P d)]
  rcases k with _ | k
  · exact ⟨fun _ => ⟨_, rfl, rfl⟩, fun h => absurd h (by omega)⟩
  show (_ → ∃ d', Prog.exec _ (MemProg.io (.append (flushPath P d) _) >>= _) _ = _ ∧ _) ∧
    (_ → ∃ s, Prog.exec _ (MemProg.io (.append (flushPath P d) _) >>= _) _ = _)
  rw [exec_io_bind rfl (step_appendTable P m d)]
  rcases k with _ | k
  · exact ⟨fun _ => ⟨_, rfl, by simp [withL1]⟩, fun h => absurd h (by omega)⟩
  show (_ → ∃ d', Prog.exec _ (MemProg.io (.sync (flushPath P d)) >>= _) _ = _ ∧ _) ∧
    (_ → ∃ s, Prog.exec _ (MemProg.io (.sync (flushPath P d)) >>= _) _ = _)
  rw [exec_io_bind rfl (step_syncTable P m d)]
  rcases k with _ | k
  · exact ⟨fun _ => ⟨_, rfl, hwal⟩, fun h => absurd h (by omega)⟩
  dsimp only
  rw [exec_io_bind rfl rfl]
  rcases k with _ | k
  · exact ⟨fun _ => ⟨_, rfl, hwal⟩, fun h => absurd h (by omega)⟩
  exact ⟨fun h => absurd h (by omega), fun _ => ⟨_, rfl⟩⟩

/-- **The flush of a map that is not empty** fails when the call to fail is one it gets to, and leaves
the memtable and the log; otherwise it returns or panics. -/
theorem exec_flush_fault (hne : m.inMemoryRepr.isEmpty = false) (n : Nat) :
    ((n < dirCalls d ∨ (n < dirCalls d + 4 ∧ Flushable m)) →
      ∃ d', Prog.exec (faultHandler P f) (flush P) ((m, d), n) = (.error f.err, ((m, d'), 0)) ∧
        d'.wal = d.wal) ∧
    (¬(n < dirCalls d ∨ (n < dirCalls d + 4 ∧ Flushable m)) →
      ∀ e s, Prog.exec (faultHandler P f) (flush P) ((m, d), n) ≠ (.error (.err e), s)) := by
  rcases Nat.lt_or_ge n (dirCalls d) with hn | hn
  · refine ⟨fun _ => ⟨d, ?_, rfl⟩, fun hno => absurd (.inl hn) hno⟩
    unfold flush
    rw [Prog.exec_bind_ok (exec_get_fault n)]
    dsimp only
    rw [Prog.exec_bind_ok (Prog.exec_ensure_pos (by rw [hne]; rfl) _),
      Prog.exec_bind_error ((exec_createL1_fault n).1 hn)]
  obtain ⟨k, hk⟩ : ∃ k, n = dirCalls d + k := ⟨n - dirCalls d, by omega⟩
  by_cases hfl : Flushable m
  · obtain ⟨hfails, hreturns⟩ := exec_flush_table (P := P) (f := f) hfl hk
    refine ⟨fun hcalls => hfails (by omega), fun hcalls e s hx => ?_⟩
    obtain ⟨s', hok⟩ := hreturns (by
      by_contra hlt
      exact hcalls (.inr ⟨by omega, hfl⟩))
    rw [hok] at hx
    cases hx
  · refine ⟨fun hcalls => ?_, fun _ e s hx => ?_⟩
    · rcases hcalls with hlt | ⟨-, h⟩
      · omega
      · exact absurd h hfl
    · unfold flush at hx
      rw [Prog.exec_bind_ok (exec_get_fault n)] at hx
      dsimp only at hx
      rw [Prog.exec_bind_ok (Prog.exec_ensure_pos (by rw [hne]; rfl) _),
        Prog.exec_bind_ok ((exec_createL1_fault n).2 k hk), Prog.exec_bind_ok (exec_now_fault k)] at hx
      by_cases hs : m.currentSizeBytes = 0
      · rw [Prog.exec_bind_error (Prog.exec_ensure_neg (decide_eq_false fun hn => hn hs) _)] at hx
        cases hx
      · have hl : m.config.localDisk = false := by
          by_contra hl
          exact hfl ⟨hne, hs, by simpa using hl⟩
        rw [Prog.exec_bind_ok (Prog.exec_ensure_pos (decide_eq_true hs) _),
          Prog.exec_bind_error (Prog.exec_ensure_neg hl _)] at hx
        cases hx

/-! ## The write -/

section
variable {key : Bytes} {slot : Option TableEntry}

theorem exec_applyWrite_fault (n : Nat) (ho : CounterOk P m key slot) :
    Prog.exec (faultHandler P f) (applyWrite P m key slot) ((m, d), n) =
      Prog.exec (faultHandler P f) (Prog.when (shouldFlush (written m key slot) d.clock) (flush P))
        ((written m key slot, d), n) := by
  have hset : ∀ m', Prog.exec (faultHandler P f) (Prog.perform (.set m') : MemProg Unit)
      ((m, d), n) = (.ok (), ((m', d), n)) := fun _ => rfl
  rw [applyWrite, Prog.exec_bind_ok (exec_updateSize_ok ho _), Prog.exec_bind_ok (hset _)]
  show Prog.exec _ (manageFlush P) ((written m key slot, d), n) = _
  rw [manageFlush, Prog.exec_bind_ok (exec_get_fault n), Prog.exec_bind_ok (exec_now_fault n)]

/-- A write that returns an error did not panic in its arithmetic. -/
theorem counterOk_of_error {n : Nat} {e : MemtableError} {s : Store × Nat}
    (h : Prog.exec (faultHandler P f) (applyWrite P m key slot) ((m, d), n) = (.error (.err e), s)) :
    CounterOk P m key slot := by
  rw [applyWrite, Prog.exec_bind] at h
  cases hu : Prog.exec (faultHandler P f) (updateSize P m.currentSizeBytes
      (toWalEntry key (.ofSlot slot)).length (getExistingEntrySize m key)) ((m, d), n) with
  | mk r s1 =>
    rw [hu] at h
    cases r with
    | error e' =>
      obtain ⟨msg, rfl⟩ := exec_updateSize_error hu
      cases h
    | ok size => exact fun ho => noOverflow_of_exec ho hu

/-- The write to the log, when a call fails: the one on the log, or one after it. -/
theorem exec_write_fault (n : Nat) :
    (n < logCalls m → Prog.exec (faultHandler P f) (write P key slot) ((m, d), n) =
      (.error f.err, ((m, d), 0))) ∧
    ∀ k, n = logCalls m + k → Prog.exec (faultHandler P f) (write P key slot) ((m, d), n) =
      Prog.exec (faultHandler P f) (applyWrite P m key slot) ((m, logged m d key slot), k) := by
  unfold write
  rw [Prog.exec_bind_ok (exec_get_fault n)]
  dsimp only
  cases hw : m.config.walEnabled with
  | false =>
    have hcalls : logCalls m = 0 := by simp [logCalls, hw]
    have hlog : logged m d key slot = d := by simp [logged, hw]
    rw [hcalls, hlog]
    refine ⟨fun hn => absurd hn (Nat.not_lt_zero n), fun k hk => ?_⟩
    rw [hk, Nat.zero_add]
    rfl
  | true =>
    have hcalls : logCalls m = 1 := by simp [logCalls, hw]
    have hlog : logged m d key slot = { d with wal := d.wal ++ toWalEntry key (.ofSlot slot) } := by
      simp [logged, hw]
    rw [hcalls, hlog]
    refine ⟨fun hn => ?_, fun k hk => ?_⟩
    · obtain rfl : n = 0 := by omega
      rfl
    · obtain rfl : n = k + 1 := by omega
      rfl

theorem levels_logged : (logged m d key slot).levels = d.levels := by
  unfold logged
  split <;> rfl

/-- The log is as it was only when it is disabled. -/
theorem wal_logged_eq : (logged m d key slot).wal = d.wal ↔ m.config.walEnabled = false := by
  have hpos : (toWalEntry key (.ofSlot slot)).length ≠ 0 := by
    have hl := LogOp.length_record ⟨key, slot⟩
    simp only [LogOp.record] at hl
    omega
  cases hw : m.config.walEnabled with
  | false => simp [logged, hw]
  | true =>
    refine iff_of_false (fun h => hpos ?_) nofun
    have hlen := congrArg List.length h
    simp only [logged, hw, if_true, List.length_append] at hlen
    omega

theorem insert_eq_self {repr : InMemoryRepr} :
    repr.insert key slot = repr ↔ repr[key]? = some slot := by
  constructor
  · intro h
    rw [← h, Std.ExtTreeMap.getElem?_insert_self]
  · intro h
    refine Std.ExtTreeMap.ext_getElem? fun k => ?_
    rw [Std.ExtTreeMap.getElem?_insert]
    by_cases hk : compare key k = .eq
    · rw [if_pos hk, ← Std.LawfulEqOrd.eq_of_compare hk, h]
    · rw [if_neg hk]

/-- Writing what is there already does not change the counter. -/
theorem written_size_same (hs : m.currentSizeBytes < 2 ^ 32) (h : m.inMemoryRepr[key]? = some slot) :
    (written m key slot).currentSizeBytes = m.currentSizeBytes := by
  simp only [written, getExistingEntrySize, h, Option.map_some, sizeAfter, lt_self_iff_false,
    if_false]
  omega

/-- A call of the flush that fails leaves the updated memtable and the record in the log. -/
theorem exec_write_flushFails {n : Nat} (h : FlushCallFails P m d key slot n) :
    ∃ d', Prog.exec (faultHandler P f) (write P key slot) ((m, d), n) =
      (.error f.err, ((written m key slot, d'), 0)) ∧ d'.wal = (logged m d key slot).wal := by
  obtain ⟨ho, hf, hle, hcalls⟩ := h
  have hdir : dirCalls (logged m d key slot) = dirCalls d := by rw [dirCalls, dirCalls, levels_logged]
  obtain ⟨k, hk⟩ : ∃ k, n = logCalls m + k := ⟨n - logCalls m, by omega⟩
  obtain ⟨d', hx, hwal⟩ := (exec_flush_fault (P := P) (f := f) (m := written m key slot)
    (d := logged m d key slot) (by simp [written]) k).1
    (by rw [hdir]; exact hcalls.imp (fun h => by omega) fun h => ⟨by omega, h.2⟩)
  refine ⟨d', ?_, hwal⟩
  rw [(exec_write_fault n).2 k hk, exec_applyWrite_fault k ho, clock_logged, hf]
  exact hx

/-- **A write that returns an error leaves no trace exactly when** the call that fails is not one of
the flush's, or there is no log and the map has had this slot under this key already. -/
theorem noTrace_iff (hs : m.currentSizeBytes < 2 ^ 32) (n : Nat) :
    NoTrace P f m d key slot n ↔ (FlushCallFails P m d key slot n →
      m.config.walEnabled = false ∧ m.inMemoryRepr[key]? = some slot) := by
  have hne : (written m key slot).inMemoryRepr.isEmpty = false := by simp [written]
  have hdir : dirCalls (logged m d key slot) = dirCalls d := by rw [dirCalls, dirCalls, levels_logged]
  constructor
  · intro hno hcalls
    obtain ⟨d', hx, hwal⟩ := exec_write_flushFails (f := f) hcalls
    obtain ⟨hrepr, -, hlog⟩ := hno _ _ hx
    exact ⟨wal_logged_eq.1 (hwal.symm.trans hlog), insert_eq_self.1 hrepr⟩
  · intro hcond e s hx
    rcases Nat.lt_or_ge n (logCalls m) with hn | hn
    · rw [(exec_write_fault n).1 hn] at hx
      cases hx
      exact ⟨rfl, rfl, rfl⟩
    obtain ⟨k, hk⟩ : ∃ k, n = logCalls m + k := ⟨n - logCalls m, by omega⟩
    rw [(exec_write_fault n).2 k hk] at hx
    have ho := counterOk_of_error hx
    rw [exec_applyWrite_fault k ho, clock_logged] at hx
    cases hf : shouldFlush (written m key slot) d.clock with
    | false =>
      rw [hf] at hx
      cases hx
    | true =>
      rw [hf] at hx
      change Prog.exec _ (flush P) _ = _ at hx
      have hflush := exec_flush_fault (P := P) (f := f) (d := logged m d key slot) hne k
      rw [hdir] at hflush
      by_cases hcalls : k < dirCalls d ∨ (k < dirCalls d + 4 ∧ Flushable (written m key slot))
      · obtain ⟨hw, hsame⟩ := hcond ⟨ho, hf, hn,
          hcalls.imp (fun h => by omega) fun h => ⟨by omega, h.2⟩⟩
        obtain ⟨d', hfail, hwal⟩ := hflush.1 hcalls
        rw [hfail] at hx
        cases hx
        exact ⟨insert_eq_self.2 hsame, written_size_same hs hsame, hwal.trans (wal_logged_eq.2 hw)⟩
      · exact absurd hx (hflush.2 hcalls e s)

end

/-- A memtable whose next flush is due when the clock shows 600 seconds. -/
def dueMem : Memtable := ⟨∅, defaultConfig, 600 * 10 ^ 9, 0⟩

/-- An empty disk one nanosecond later. -/
def lateDisk : Disk := (Disk.empty 0).waitUntil (600 * 10 ^ 9 + 1) (Nat.zero_le _)

theorem log_failure_noTrace : NoTrace .plain ⟨.other "No space left on device", 0⟩ dueMem lateDisk
    [107] (some ⟨[118], none⟩) 0 :=
  (noTrace_iff (by decide) 0).2 fun h => absurd h.2.2.1 (by decide)

/-- **A put that returns an error and is applied**: the flush it runs fails to create its table, and
the put stays in the map, the counter and the log. -/
theorem create_failure_trace :
    ¬NoTrace .plain ⟨.other "No space left on device", 0⟩ dueMem lateDisk [107]
      (some ⟨[118], none⟩) 2 := by
  intro hno
  have hable : Flushable (written dueMem [107] (some ⟨[118], none⟩)) :=
    ⟨by simp [written], by decide, rfl⟩
  have hfails : FlushCallFails .plain dueMem lateDisk [107] (some ⟨[118], none⟩) 2 :=
    ⟨counterOk_plain _ _ _, by decide, by decide, .inr ⟨by decide, hable⟩⟩
  have hne : (written dueMem [107] (some ⟨[118], none⟩)).currentSizeBytes ≠
      dueMem.currentSizeBytes := by decide
  obtain ⟨d', hx, -⟩ := exec_write_flushFails (f := ⟨.other "No space left on device", 0⟩) hfails
  exact hne (hno _ _ hx).2.1

end Mem
