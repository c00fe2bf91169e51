import SwiftMerge.Memtable.Proof.GrowingLog
import SwiftMerge.Memtable.Runs

/-!
# The log and the memtable, whatever the log's writes do

`write_entry` drops the number of bytes that `write` returns. So an entry that is written in part is
applied to the map all the same, and the log is no longer the concatenation of the applied
operations' records. It is this in every state of a run exactly when every write that returns and
does not flush has written its whole record (`always_mirrors_iff`).
-/

namespace Mem

open Lib Lsm

/-- The operations applied to the memtable since the last flush, in order. -/
def applied : List (Event × Store) → List LogOp
  | [] => []
  | (.write key slot (.writes _), s) :: h =>
    if shouldFlush (written s.1 key slot) s.2.clock then [] else applied h ++ [⟨key, slot⟩]
  | _ :: h => applied h

/-- After an operation that returns, the log is the records of the applied operations. -/
def Mirrors (P : Platform) (h : List (Event × Store)) (s : Store) : Prop :=
  ∀ e s₀ h₀, h = (e, s₀) :: h₀ → e.result P s₀ = .ok () → s.2.wal = LogOp.log (applied h)

/-- Runs from an empty memtable and an empty log, in which the log stays enabled. A panic poisons
the lock of the memtable, so no operation after it returns. -/
abbrev LoggedRun (P : Platform) : List (Event × Store) → Store → Prop :=
  Lib.Run (fun s => Started P s ∧ s.2.wal = []) fun s e s' =>
    Step P s e s' ∧ s.1.config.walEnabled = true ∧ ∀ msg, e.result P s ≠ .error (.panic msg)

/-- A write that returns and does not flush writes its whole record. -/
def WritesWhole (s : Store) : Event → Prop
  | .write key slot (.writes n) => shouldFlush (written s.1 key slot) s.2.clock = false →
      (LogOp.mk key slot).record.length ≤ n
  | _ => True

variable {P : Platform} {s s' : Store} {e : Event} {h : List (Event × Store)}

/-- **A write with the log enabled** fails and changes nothing, or appends its bytes and stays in
memory, or empties the log. -/
theorem write_logged {m : Memtable} {d : Disk} {key : Bytes} {slot : Option TableEntry}
    {outcome : WriteOutcome} (hw : m.config.walEnabled = true)
    (hpanic : ∀ msg, (Event.write key slot outcome).result P (m, d) ≠ .error (.panic msg)) :
    (∃ e, outcome = .fails e ∧ (Event.write key slot outcome).result P (m, d) ≠ .ok () ∧
      (Prog.exec (outcomeHandler P outcome) (write P key slot) (m, d)).2 = (m, d)) ∨
    ∃ n, outcome = .writes n ∧ (Event.write key slot outcome).result P (m, d) = .ok () ∧
      (Prog.exec (outcomeHandler P outcome) (write P key slot) (m, d)).2.2.wal =
        if shouldFlush (written m key slot) d.clock then []
        else d.wal ++ (LogOp.mk key slot).record.take n := by
  rcases exec_write_outcome P m d key slot outcome with ⟨e, rfl, -, hx⟩ | ⟨n, hn, hx⟩
  · exact .inl ⟨e, rfl, by rw [Event.result, hx]; nofun, by rw [hx]⟩
  refine .inr ⟨n, hn hw, ?_⟩
  have hpart : (loggedPart m d key slot n).wal = d.wal ++ (LogOp.mk key slot).record.take n := by
    rw [loggedPart, if_pos hw]
    rfl
  cases hu : Prog.exec (memHandler P) (applyWrite P m key slot) (m, loggedPart m d key slot n) with
  | mk r s =>
    cases r with
    | error e =>
      obtain ⟨msg, rfl⟩ := exec_applyWrite_error hu
      exact absurd (by rw [Event.result, hx, hu]) (hpanic msg)
    | ok u =>
      have hok := exec_applyWrite_ok hu
      rw [clock_loggedPart] at hok
      refine ⟨by rw [Event.result, hx, hu], ?_⟩
      rw [hx, hu]
      rcases hok with ⟨hf, rfl⟩ | ⟨hf, -, rfl⟩
      · rw [hf]
        exact hpart
      · rw [hf]
        rfl

/-- The log is the records of the applied operations. -/
def Mirrored (h : List (Event × Store)) (s : Store) : Prop := s.2.wal = LogOp.log (applied h)

/-- **The log stays exactly when every write that returns and does not flush is whole.** -/
theorem always_mirrors_iff (hr : LoggedRun P h s) :
    Always (Mirrors P) h s ↔ ∀ x ∈ h, WritesWhole x.2 x.1 := by
  refine hr.always_iff (I := Mirrored) (fun hstart => ?_) ?_ (fun hi e s₀ h₀ _ _ => hi) ?_
  · rw [Mirrored, hstart.2]
    rfl
  · intro h s e s' hi ⟨hs, hw, hpanic⟩ hc
    cases hs with
    | @write _ key slot outcome =>
      obtain ⟨m, d⟩ := s
      rcases write_logged hw hpanic with ⟨e, rfl, -, hx⟩ | ⟨n, rfl, -, hx⟩
      · rw [Mirrored, hx]
        exact hi
      · have hwal : d.wal = LogOp.log (applied h) := hi
        rw [Mirrored, hx, applied]
        cases hf : shouldFlush (written m key slot) d.clock with
        | true => simp [LogOp.log]
        | false =>
          have hwhole : (LogOp.mk key slot).record.length ≤ n := hc hf
          simp [log_append, List.take_of_length_le hwhole, hwal]
    | updateConfig => exact hi
    | wait => exact hi
  · intro h s e s' hi ⟨hs, hw, hpanic⟩ hq
    cases hs with
    | @write _ key slot outcome =>
      obtain ⟨m, d⟩ := s
      rcases write_logged hw hpanic with ⟨e, rfl, -, -⟩ | ⟨n, rfl, hok, hx⟩
      · trivial
      · intro hf
        have hlog : d.wal = LogOp.log (applied h) := hi
        have hf : shouldFlush (written m key slot) d.clock = false := hf
        have hwal := hq _ _ _ rfl hok
        rw [hx, applied, hf] at hwal
        simpa [log_append, hlog] using hwal
    | updateConfig => trivial
    | wait => trivial

theorem LoggedRun.write {key : Bytes} {slot : Option TableEntry} {outcome : WriteOutcome}
    (hr : LoggedRun P h s) (hw : s.1.config.walEnabled = true)
    (hx : Prog.exec (outcomeHandler P outcome) (Mem.write P key slot) s = (.ok (), s')) :
    LoggedRun P ((.write key slot outcome, s) :: h) s' := by
  have hstep : Step P s (.write key slot outcome) _ := .write
  rw [hx] at hstep
  exact hr.step ⟨hstep, hw, fun msg => by rw [Event.result, hx]; nofun⟩

theorem whole_put_mirrored : ∃ h s, LoggedRun .plain h s ∧
    h.map Prod.fst = [.write [107] (some ⟨[118], none⟩) (.writes 15)] ∧
    Always (Mirrors .plain) h s := by
  have hput := exec_write_kept (P := .plain) (m := idleStore.1) (d := idleStore.2) [107]
    (some ⟨[118], none⟩) (counterOk_plain _ _ _) (by decide) 15
  have hrun : LoggedRun .plain [] idleStore := .start ⟨started_idleStore, rfl⟩
  have hrun := hrun.write rfl hput
  refine ⟨_, _, hrun, rfl, (always_mirrors_iff hrun).2 fun x hx => ?_⟩
  obtain rfl := List.mem_singleton.1 hx
  intro _
  decide

/-- **A short write is applied and breaks the log**: the put's record has fifteen bytes, `write`
appends the first three, and the put is acknowledged. -/
theorem short_put_not_mirrored : ∃ h s, LoggedRun .plain h s ∧
    h.map Prod.fst = [.write [107] (some ⟨[118], none⟩) (.writes 3)] ∧
    ¬Always (Mirrors .plain) h s := by
  have hput := exec_write_kept (P := .plain) (m := idleStore.1) (d := idleStore.2) [107]
    (some ⟨[118], none⟩) (counterOk_plain _ _ _) (by decide) 3
  have hrun : LoggedRun .plain [] idleStore := .start ⟨started_idleStore, rfl⟩
  refine ⟨_, _, hrun.write rfl hput, rfl, fun ha => ?_⟩
  have hwal := ha.now _ _ _ rfl (by rw [Event.result]; exact congrArg Prod.fst hput)
  revert hwal
  decide

end Mem
