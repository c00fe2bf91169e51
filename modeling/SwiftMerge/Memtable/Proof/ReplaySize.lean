import SwiftMerge.Memtable.Proof.Accounting

/-!
# The size counter after a replay

The replay sets the counter to the length of the log, records that later ones overwrite included
(`length_log`). The counter is the size of the rebuilt map, and what later writes and the flush rely
on, exactly when these records take a multiple of 2^32 bytes, the range of the counter
(`counterServes_iff`).
-/

namespace Mem

open Lib Lsm

variable {m : Memtable} {ops : List LogOp} {key : Bytes}

/-! ## The counter as later writes rely on it -/

/-- The memtable after writes of which none flushes. -/
def writtenAll (m : Memtable) (ops : List LogOp) : Memtable :=
  ops.foldl (fun m op => written m op.key op.slot) m

/-- The counter is the size of the map; and as long as the map stays below 2^32 bytes, the size of an
old record is never above the counter, and the counter of a map with entries is not zero. -/
structure CounterServes (m : Memtable) : Prop where
  size : m.currentSizeBytes = reprSize m.inMemoryRepr
  noUnderflow : ∀ ops,
    (∀ i ≤ ops.length, reprSize (LogOp.replay (ops.take i) m.inMemoryRepr) < 2 ^ 32) →
    ∀ key n, getExistingEntrySize (writtenAll m ops) key = some n →
      n ≤ (writtenAll m ops).currentSizeBytes
  divisor : ∀ ops, (∀ i ≤ ops.length, reprSize (LogOp.replay (ops.take i) m.inMemoryRepr) < 2 ^ 32) →
    (writtenAll m ops).inMemoryRepr ≠ ∅ → (writtenAll m ops).currentSizeBytes ≠ 0

theorem writtenAll_exact : ∀ {ops : List LogOp} {m : Memtable},
    m.currentSizeBytes = reprSize m.inMemoryRepr →
      (∀ i ≤ ops.length, reprSize (LogOp.replay (ops.take i) m.inMemoryRepr) < 2 ^ 32) →
        (writtenAll m ops).currentSizeBytes = reprSize (writtenAll m ops).inMemoryRepr
  | [], _, hsize, _ => hsize
  | op :: ops, m, hsize, h => by
    have hold := h 0 (Nat.zero_le _)
    have hnew := h 1 (by rw [List.length_cons]; omega)
    refine writtenAll_exact (m := written m op.key op.slot) (written_exact hsize hold hnew)
      fun i hi => ?_
    exact h (i + 1) (by rw [List.length_cons]; omega)

theorem reprSize_pos {repr : InMemoryRepr} (h : repr ≠ ∅) : 0 < reprSize repr := by
  have hne : repr.toList ≠ [] := fun hnil => by
    refine h (Std.ExtTreeMap.isEmpty_iff.1 ?_)
    rw [← Std.ExtTreeMap.isEmpty_toList, hnil]
    rfl
  obtain ⟨e, es, he⟩ := List.exists_cons_of_ne_nil hne
  have hpos := recordSize_pos e.1 e.2
  rw [reprSize, total, he, List.map_cons, List.sum_cons]
  omega

/-- An exact counter is all that later writes and the flush need. -/
theorem counterServes_of_exact (hsize : m.currentSizeBytes = reprSize m.inMemoryRepr) :
    CounterServes m := by
  refine ⟨hsize, fun ops h key n hn => ?_, fun ops h hne => ?_⟩
  · have hle := weightOf_le (writtenAll m ops).inMemoryRepr key
    rw [writtenAll_exact hsize h]
    rcases getExistingEntrySize_eq (writtenAll m ops) key with ⟨-, he⟩ | ⟨n', he, hw⟩
    · cases he.symm.trans hn
    · obtain rfl := Option.some.inj (he.symm.trans hn)
      omega
  · rw [writtenAll_exact hsize h]
    exact Nat.pos_iff_ne_zero.1 (reprSize_pos hne)

/-! ## The length of a log -/

/-- The bytes of the records whose key a later record has again. -/
def overwritten : List LogOp → Nat
  | [] => 0
  | op :: ops => (if op.key ∈ ops.map LogOp.key then op.record.length else 0) + overwritten ops

/-- The size of the last record of a key. -/
def lastSize (ops : List LogOp) (key : Bytes) : Nat :=
  ((LogOp.lastWrite ops key).map (recordSize key)).getD 0

theorem lastSize_cons (op : LogOp) (ops : List LogOp) (key : Bytes) : lastSize (op :: ops) key =
    if key ∈ ops.map LogOp.key then lastSize ops key
    else if op.key = key then op.record.length else 0 := by
  rw [lastSize, lastWrite_cons]
  by_cases hmem : key ∈ ops.map LogOp.key
  · obtain ⟨slot, hslot⟩ := Option.ne_none_iff_exists'.1 fun hn => lastWrite_eq_none.1 hn hmem
    rw [if_pos hmem, lastSize, hslot, Option.some_or]
  · rw [if_neg hmem, lastWrite_eq_none.2 hmem, Option.none_or]
    split
    · rename_i hk
      rw [← hk]
      rfl
    · rfl

theorem overwritten_append (op : LogOp) : ∀ ops : List LogOp,
    overwritten (ops ++ [op]) = overwritten ops + lastSize ops op.key
  | [] => rfl
  | o :: ops => by
    have ih := overwritten_append op ops
    rw [List.cons_append, overwritten, overwritten, ih, lastSize_cons, List.map_append,
      List.map_singleton]
    -- the first record is overwritten by a later one, or by the appended one only
    by_cases hlater : o.key ∈ ops.map LogOp.key
    · rw [if_pos hlater, if_pos (List.mem_append_left _ hlater)]
      split
      · omega
      · rename_i hnot
        rw [if_neg fun he : o.key = op.key => hnot (he ▸ hlater), lastSize, lastWrite_eq_none.2 hnot]
        rfl
    · rw [if_neg hlater]
      by_cases hk : o.key = op.key
      · have hnot : op.key ∉ ops.map LogOp.key := hk ▸ hlater
        have hnone : lastSize ops op.key = 0 := by rw [lastSize, lastWrite_eq_none.2 hnot]; rfl
        rw [if_pos (List.mem_append_right _ (List.mem_singleton.2 hk)), if_neg hnot, if_pos hk, hnone]
        omega
      · rw [if_neg fun hm => (List.mem_append.1 hm).elim hlater fun h => hk (List.mem_singleton.1 h),
          if_neg hk]
        split
        · omega
        · rename_i hnot
          rw [lastSize, lastWrite_eq_none.2 hnot]
          rfl

/-- **The length of a log**: the size of the map it builds, and the overwritten records. -/
theorem length_log (ops : List LogOp) :
    (LogOp.log ops).length = reprSize (LogOp.replay ops ∅) + overwritten ops := by
  induction ops using List.reverseRecOn with
  | nil => rw [LogOp.replay, List.foldl_nil, reprSize, total_empty]; rfl
  | append_singleton ops op ih =>
    have hweight : weightOf recordSize (LogOp.replay ops ∅) op.key = lastSize ops op.key := by
      rw [weightOf, getElem?_replay, lastSize]
      cases LogOp.lastWrite ops op.key <;> rfl
    have hinsert := reprSize_insert (LogOp.replay ops ∅) op.key op.slot
    have hlog : (LogOp.log (ops ++ [op])).length =
        (LogOp.log ops).length + recordSize op.key op.slot := by
      rw [LogOp.log, List.flatMap_append, List.length_append, List.flatMap_singleton]
      rfl
    have hreplay : LogOp.replay (ops ++ [op]) ∅ = (LogOp.replay ops ∅).insert op.key op.slot := by
      rw [LogOp.replay, List.foldl_append]
      rfl
    rw [overwritten_append, hlog, hreplay]
    omega

/-- **The counter of a replayed log** serves exactly when the overwritten records take a multiple of
2^32 bytes, and so whenever no key is written twice. -/
theorem counterServes_iff (hops : ∀ op ∈ ops, op.Fits) {repr : InMemoryRepr} {size : Nat}
    (hr : rebuildMemtable (LogOp.log ops) ∅ 0 = .ok (repr, size)) (hsize : reprSize repr < 2 ^ 32)
    (config : ConfigInfo) (flushBy : Nat) :
    CounterServes ⟨repr, config, flushBy, size⟩ ↔ 2 ^ 32 ∣ overwritten ops := by
  rw [rebuildMemtable_log ops hops, Except.ok.injEq, Prod.mk.injEq] at hr
  obtain ⟨rfl, rfl⟩ := hr
  have hlen := length_log ops
  constructor
  · intro h
    have hexact : (LogOp.log ops).length % 2 ^ 32 = reprSize (LogOp.replay ops ∅) := h.size
    omega
  · intro h
    apply counterServes_of_exact
    show (LogOp.log ops).length % 2 ^ 32 = reprSize (LogOp.replay ops ∅)
    omega

/-! ### Samples -/

/-- A put of a one-byte value. -/
def smallPut (value : UInt8) : LogOp := ⟨[107], some ⟨[value], none⟩⟩

theorem smallPut_fits (value : UInt8) : (smallPut value).Fits := by
  refine ⟨List.cons_ne_nil _ _, by simp [smallPut], fun e he => ?_⟩
  obtain rfl := Option.some.inj he
  exact ⟨⟨by simp, nofun⟩, by simp [TableEntry.serialize]⟩

theorem two_keys_serve :
    CounterServes ⟨LogOp.replay [smallPut 118, ⟨[108], none⟩] ∅, defaultConfig, 0, 25⟩ ↔
      2 ^ 32 ∣ overwritten [smallPut 118, ⟨[108], none⟩] := by
  have hfits : ∀ op ∈ [smallPut 118, ⟨[108], none⟩], op.Fits := by
    intro op hop
    rcases List.mem_pair.1 hop with rfl | rfl
    · exact smallPut_fits 118
    · exact ⟨by decide, by decide, nofun⟩
  exact counterServes_iff hfits (rebuildMemtable_log _ hfits) (by decide) defaultConfig 0

/-- **An overwritten record counts twice**: two puts of a key. -/
theorem put_twice_miscounted : ∃ repr size,
    rebuildMemtable (LogOp.log [smallPut 118, smallPut 119]) ∅ 0 = .ok (repr, size) ∧
      reprSize repr < 2 ^ 32 ∧ ¬CounterServes ⟨repr, defaultConfig, 0, size⟩ := by
  have hfits : ∀ op ∈ [smallPut 118, smallPut 119], op.Fits := by
    intro op hop
    rcases List.mem_pair.1 hop with rfl | rfl
    · exact smallPut_fits 118
    · exact smallPut_fits 119
  exact ⟨_, _, rebuildMemtable_log _ hfits, by decide, fun h => absurd h.size (by decide)⟩

end Mem
