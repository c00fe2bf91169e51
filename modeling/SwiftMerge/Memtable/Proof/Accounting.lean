import SwiftMerge.Lib.Total
import SwiftMerge.Memtable.Runs

/-!
# The size counter

`put` and `delete` adjust the counter by the difference of two record lengths, in unsigned 32-bit
arithmetic. The counter equals the sum of the record lengths of the map in every state of a run from
an empty memtable (`sizeExact_always`). What bounds it is the flush: after a write that returns it
is below `ram_max_size`, which a checked configuration keeps at 2^31 or less, so the next record
still fits in 32 bits.

* `Sized`: the invariant, the counter and the configuration.
* `Sized.noOverflow`, `Sized.written_size`: the arithmetic of one write.
-/

namespace Mem

open Lib Lsm

/-- The length of the record of a map's entry. -/
def recordSize (key : Bytes) (slot : Option TableEntry) : Nat := (toWalEntry key (.ofSlot slot)).length

/-- The sum of the record lengths of a map. -/
def reprSize (repr : InMemoryRepr) : Nat := total recordSize repr

/-- The record of the event is shorter than 2^31 bytes. -/
def Event.Small : Event → Prop
  | .write key slot _ => recordSize key slot < 2 ^ 31
  | _ => True

/-- Runs from an empty memtable in which every record is small and no flush fails. -/
abbrev SizedRun (P : Platform) : List (Event × Store) → Store → Prop :=
  Lib.Run (Started P) fun s e s' =>
    Step P s e s' ∧ e.Small ∧ e.result P s ≠ .error (.panic "not implemented")

/-- What is asked of the counter at a write of `slot` under `key` that finds `s` and leaves `s'`. -/
structure CountedWrite (P : Platform) (s s' : Store) (key : Bytes) (slot : Option TableEntry)
    (outcome : WriteOutcome) : Prop where
  noOverflow : NoOverflow s.1.currentSizeBytes (recordSize key slot) (getExistingEntrySize s.1 key)
  /-- the counter once the map is updated -/
  updated : (written s.1 key slot).currentSizeBytes = reprSize (written s.1 key slot).inMemoryRepr
  divisor : shouldFlush (written s.1 key slot) s.2.clock = true →
    (written s.1 key slot).currentSizeBytes ≠ 0
  noPanic : ∀ msg, (Event.write key slot outcome).result P s ≠ .error (.panic msg)
  below : (Event.write key slot outcome).result P s = .ok () →
    s'.1.currentSizeBytes < s'.1.config.ramMaxSize

/-- The counter is the sum of the record lengths, and the last write kept to its rules. -/
structure SizeExact (P : Platform) (h : List (Event × Store)) (s : Store) : Prop where
  size : s.1.currentSizeBytes = reprSize s.1.inMemoryRepr
  write : ∀ key slot outcome s₀ h₀, h = (.write key slot outcome, s₀) :: h₀ →
    CountedWrite P s₀ s key slot outcome

/-! ## Configurations -/

theorem ramMaxSize_of_load {P : Platform} {content : ConfigSource} {config : ConfigInfo}
    (h : content.load P = .ok config) : 0 < config.ramMaxSize ∧ config.ramMaxSize ≤ 2 ^ 31 := by
  cases content with
  | default =>
    obtain rfl := Except.ok.inj h
    decide
  | json parsed =>
    cases parsed with
    | error e => cases h
    | ok c =>
      change (c.validate P).mapError MemtableError.initError = .ok config at h
      cases hv : c.validate P with
      | error e =>
        rw [hv] at h
        cases h
      | ok c' =>
        rw [hv] at h
        obtain rfl : c' = config := Except.ok.inj h
        unfold ConfigInfo.validate at hv
        obtain ⟨_, hsize, hv⟩ := bind_ok hv
        obtain ⟨_, -, hv⟩ := bind_ok hv
        obtain ⟨_, -, hv⟩ := bind_ok hv
        obtain ⟨_, -, hv⟩ := bind_ok hv
        obtain ⟨_, -, hv⟩ := bind_ok hv
        obtain ⟨_, -, hv⟩ := bind_ok hv
        have hr := ensure_ok hsize
        rw [pure_ok, Except.ok.injEq] at hv
        simp only [← hv]
        simp only [kilobyte, megabyte] at hr
        omega

/-! ## One write -/

theorem recordSize_pos (key : Bytes) (slot : Option TableEntry) : 0 < recordSize key slot := by
  have hl : recordSize key slot = _ := LogOp.length_record ⟨key, slot⟩
  omega

/-- The counter is exact, and a checked configuration bounds it. -/
structure Sized (m : Memtable) : Prop where
  size : m.currentSizeBytes = reprSize m.inMemoryRepr
  bound : m.currentSizeBytes < 2 ^ 31
  positive : 0 < m.config.ramMaxSize
  limit : m.config.ramMaxSize ≤ 2 ^ 31

section
variable {m : Memtable} {key : Bytes} {slot : Option TableEntry}

theorem reprSize_insert (repr : InMemoryRepr) (key : Bytes) (slot : Option TableEntry) :
    reprSize (repr.insert key slot) + weightOf recordSize repr key =
      reprSize repr + recordSize key slot := total_insert recordSize repr key slot

/-- The record of a key is no longer than all of them. -/
theorem weightOf_le (repr : InMemoryRepr) (key : Bytes) :
    weightOf recordSize repr key ≤ reprSize repr := by
  unfold weightOf
  cases h : repr[key]? with
  | none => exact Nat.zero_le _
  | some old =>
    have htotal := total_eq_add recordSize h
    simp only [reprSize]
    omega

/-- The size the counter takes the old record of a key for. -/
theorem getExistingEntrySize_eq (m : Memtable) (key : Bytes) :
    (m.inMemoryRepr[key]? = none ∧ getExistingEntrySize m key = none) ∨
    ∃ n, getExistingEntrySize m key = some n ∧ weightOf recordSize m.inMemoryRepr key = n := by
  cases h : m.inMemoryRepr[key]? with
  | none => exact .inl ⟨rfl, by simp [getExistingEntrySize, h]⟩
  | some old =>
    exact .inr ⟨recordSize key old, by simp [getExistingEntrySize, h, recordSize],
      by simp [weightOf, h]⟩

theorem Sized.noOverflow (h : Sized m) (hs : recordSize key slot < 2 ^ 31) :
    NoOverflow m.currentSizeBytes (recordSize key slot) (getExistingEntrySize m key) := by
  have hb := h.bound
  rcases getExistingEntrySize_eq m key with ⟨-, he⟩ | ⟨n, he, hn⟩
  · rw [he]
    simp only [NoOverflow]
    omega
  · have hle := weightOf_le m.inMemoryRepr key
    rw [hn, ← h.size] at hle
    rw [he]
    simp only [NoOverflow]
    split <;> omega

/-- A write keeps an exact counter exact while the map stays below 2^32 bytes. -/
theorem written_exact (hsize : m.currentSizeBytes = reprSize m.inMemoryRepr)
    (hold : reprSize m.inMemoryRepr < 2 ^ 32)
    (hnew : reprSize (m.inMemoryRepr.insert key slot) < 2 ^ 32) :
    (written m key slot).currentSizeBytes = reprSize (written m key slot).inMemoryRepr := by
  have hinsert := reprSize_insert m.inMemoryRepr key slot
  have hle := weightOf_le m.inMemoryRepr key
  show sizeAfter m.currentSizeBytes (recordSize key slot) (getExistingEntrySize m key) =
    reprSize (m.inMemoryRepr.insert key slot)
  rcases getExistingEntrySize_eq m key with ⟨hk, he⟩ | ⟨n, he, hn⟩
  · have hw : weightOf recordSize m.inMemoryRepr key = 0 := by simp [weightOf, hk]
    rw [he]
    simp only [sizeAfter]
    omega
  · rw [he]
    simp only [sizeAfter]
    split <;> omega

/-- **The updated counter** is exact again. -/
theorem Sized.written_size (h : Sized m) (hs : recordSize key slot < 2 ^ 31) :
    (written m key slot).currentSizeBytes = reprSize (written m key slot).inMemoryRepr := by
  have hb := h.bound
  have hsize := h.size
  have hinsert := reprSize_insert m.inMemoryRepr key slot
  have hold : reprSize m.inMemoryRepr < 2 ^ 32 := by omega
  have hnew : reprSize (m.inMemoryRepr.insert key slot) < 2 ^ 32 := by omega
  exact written_exact hsize hold hnew

theorem Sized.written_pos (h : Sized m) (hs : recordSize key slot < 2 ^ 31) :
    (written m key slot).currentSizeBytes ≠ 0 := by
  have hle := weightOf_le m.inMemoryRepr key
  have hinsert := reprSize_insert m.inMemoryRepr key slot
  have hpos := recordSize_pos key slot
  rw [h.written_size hs]
  show reprSize (m.inMemoryRepr.insert key slot) ≠ 0
  omega

end

/-! ## Runs -/

section
variable {P : Platform} {s s' : Store} {e : Event}

theorem Started.sized (h : Started P s) : Sized s.1 := by
  obtain ⟨hrepr, hsize⟩ := h.empty
  obtain ⟨content, hm⟩ := h.made
  have hconfig : content.load P = .ok s.1.config := by
    rw [Memtable.new] at hm
    obtain ⟨config, hc, hm⟩ := bind_ok hm
    have heq : s.1.config = config := by
      split at hm
      · obtain ⟨x, -, hm⟩ := bind_ok hm
        rw [← Except.ok.inj hm]
      · rw [← Except.ok.inj hm]
    cases hl : content.load P with
    | error e =>
      rw [hl] at hc
      cases hc
    | ok c =>
      rw [hl] at hc
      rw [heq, ← Except.ok.inj hc]
  obtain ⟨hpos, hle⟩ := ramMaxSize_of_load hconfig
  refine ⟨?_, ?_, hpos, hle⟩
  · simp [hrepr, hsize, reprSize]
  · simp [hsize]

/-- A small write from an exact counter fails at the log, stays in memory or is flushed. -/
theorem exec_write_sized {m : Memtable} {d : Disk} {key : Bytes} {slot : Option TableEntry}
    {outcome : WriteOutcome} (h : Sized m) (hs : recordSize key slot < 2 ^ 31)
    (hr : (Event.write key slot outcome).result P (m, d) ≠ .error (.panic "not implemented")) :
    (∃ e, Prog.exec (outcomeHandler P outcome) (write P key slot) (m, d) =
      (.error (.err e), (m, d))) ∨
    ∃ d', (shouldFlush (written m key slot) d.clock = false ∧
        Prog.exec (outcomeHandler P outcome) (write P key slot) (m, d) =
          (.ok (), (written m key slot, d'))) ∨
      (shouldFlush (written m key slot) d.clock = true ∧
        Prog.exec (outcomeHandler P outcome) (write P key slot) (m, d) =
          (.ok (), (flushedMem P (written m key slot) d',
            flushedDisk P (written m key slot) d'))) := by
  rcases exec_write_outcome P m d key slot outcome with ⟨e, -, -, hx⟩ | ⟨n, -, hx⟩
  · exact .inl ⟨_, hx⟩
  refine .inr ⟨loggedPart m d key slot n, ?_⟩
  have hcounter : CounterOk P m key slot := fun _ => h.noOverflow hs
  rw [exec_applyWrite hcounter, clock_loggedPart] at hx
  cases hf : shouldFlush (written m key slot) d.clock with
  | false =>
    rw [hf] at hx
    exact .inl ⟨rfl, hx⟩
  | true =>
    rw [hf] at hx
    change _ = Prog.exec _ (flush P) _ at hx
    have hne : (written m key slot).inMemoryRepr.isEmpty = false := by simp [written]
    refine .inr ⟨rfl, ?_⟩
    cases hl : m.config.localDisk with
    | true => rw [hx, exec_flush ⟨hne, h.written_pos hs, hl⟩]
    | false =>
      rw [exec_flush_remote hne (h.written_pos hs) hl] at hx
      exact absurd (by rw [Event.result, hx]) hr

/-- A quiet write leaves the counter below `ram_max_size`. -/
theorem below_of_quiet {m : Memtable} {now : Nat} (h : shouldFlush m now = false) :
    m.currentSizeBytes < m.config.ramMaxSize := by
  simp [shouldFlush] at h
  exact h.1

theorem countedWrite_of {m : Memtable} {d : Disk} {key : Bytes} {slot : Option TableEntry}
    {outcome : WriteOutcome} {r : Except (Failure MemtableError) Unit} (h : Sized m)
    (hs : recordSize key slot < 2 ^ 31)
    (hx : Prog.exec (outcomeHandler P outcome) (write P key slot) (m, d) = (r, s'))
    (hpanic : ∀ msg, r ≠ .error (.panic msg))
    (hbelow : r = .ok () → s'.1.currentSizeBytes < s'.1.config.ramMaxSize) :
    CountedWrite P (m, d) s' key slot outcome where
  noOverflow := h.noOverflow hs
  updated := h.written_size hs
  divisor := fun _ => h.written_pos hs
  noPanic := by rw [Event.result, hx]; exact hpanic
  below := by rw [Event.result, hx]; exact hbelow

/-- **A write** keeps the counter exact, and to its rules. -/
theorem write_sized {m : Memtable} {d : Disk} {key : Bytes} {slot : Option TableEntry}
    {outcome : WriteOutcome} (h : Sized m) (hs : recordSize key slot < 2 ^ 31)
    (hr : (Event.write key slot outcome).result P (m, d) ≠ .error (.panic "not implemented"))
    (hx : (Prog.exec (outcomeHandler P outcome) (write P key slot) (m, d)).2 = s') :
    Sized s'.1 ∧ CountedWrite P (m, d) s' key slot outcome := by
  rcases exec_write_sized h hs hr with ⟨e, he⟩ | ⟨d', ⟨hf, he⟩ | ⟨hf, he⟩⟩
  · rw [he] at hx
    subst hx
    exact ⟨h, countedWrite_of h hs he nofun nofun⟩
  · rw [he] at hx
    subst hx
    have hlt : (written m key slot).currentSizeBytes < m.config.ramMaxSize := below_of_quiet hf
    have hlimit := h.limit
    exact ⟨⟨h.written_size hs, hlt.trans_le hlimit, h.positive, hlimit⟩,
      countedWrite_of h hs he nofun fun _ => hlt⟩
  · rw [he] at hx
    subst hx
    refine ⟨⟨by simp [flushedMem, reprSize], Nat.two_pow_pos 31, h.positive, h.limit⟩, ?_⟩
    exact countedWrite_of h hs he nofun fun _ => h.positive

/-- **The counter is exact in every state of a run**, and its arithmetic safe at every write. -/
theorem sizeExact_always {h : List (Event × Store)} (hr : SizedRun P h s) :
    Always (SizeExact P) h s := by
  have hinv := hr.always_of (I := fun h s => Sized s.1 ∧ SizeExact P h s) (C := fun _ _ => True)
    (fun hstart => ⟨hstart.sized, hstart.sized.size, nofun⟩) ?_ fun _ _ => trivial
  · exact hinv.mono fun hi => hi.2
  · intro h s e s' ⟨hi, _⟩ ⟨hs, hsmall, hresult⟩ _
    cases hs with
    | @write _ key slot outcome =>
      obtain ⟨hsized, hcount⟩ := write_sized hi hsmall hresult rfl
      refine ⟨hsized, hsized.size, fun key' slot' outcome' s₀ h₀ heq => ?_⟩
      cases heq
      exact hcount
    | @updateConfig m m' d content hm =>
      rw [Memtable.updateConfig] at hm
      obtain ⟨config, hload, hm⟩ := bind_ok hm
      obtain ⟨hpos, hle⟩ := ramMaxSize_of_load hload
      obtain rfl := Except.ok.inj hm
      exact ⟨⟨hi.size, hi.bound, hpos, hle⟩, hi.size, nofun⟩
    | wait => exact ⟨hi, hi.size, nofun⟩

end

theorem SizedRun.write {P : Platform} {h : List (Event × Store)} {s s' : Store} {key : Bytes}
    {slot : Option TableEntry} {outcome : WriteOutcome} (hr : SizedRun P h s)
    (hs : recordSize key slot < 2 ^ 31)
    (hx : Prog.exec (outcomeHandler P outcome) (write P key slot) s = (.ok (), s')) :
    SizedRun P ((.write key slot outcome, s) :: h) s' := by
  have hstep : Step P s (.write key slot outcome) _ := .write
  rw [hx] at hstep
  exact hr.step ⟨hstep, hs, by rw [Event.result, hx]; nofun⟩

theorem put_delete_counted : ∃ h s, SizedRun .plain h s ∧
    h.map Prod.fst = [.write [107] none (.writes 14), .write [107] (some ⟨[118], none⟩) (.writes 15)] ∧
    Always (SizeExact .plain) h s := by
  have hput := exec_write_kept (P := .plain) (m := idleStore.1) (d := idleStore.2) [107]
    (some ⟨[118], none⟩) (counterOk_plain _ _ _) (by decide) 15
  have hdelete := exec_write_kept (P := .plain) (m := written idleStore.1 [107] (some ⟨[118], none⟩))
    (d := loggedPart idleStore.1 idleStore.2 [107] (some ⟨[118], none⟩) 15) [107] none
    (counterOk_plain _ _ _) (by decide) 14
  have hrun : SizedRun .plain [] idleStore := .start started_idleStore
  have hrun := (hrun.write (by decide) hput).write (by decide) hdelete
  exact ⟨_, _, hrun, rfl, sizeExact_always hrun⟩

end Mem
