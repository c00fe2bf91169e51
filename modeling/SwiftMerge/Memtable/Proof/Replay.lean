import SwiftMerge.Memtable.Proof.EntryCodec

/-!
# Replay of a prefix of the log

A log is the concatenation of the records of its operations. Replaying its first `n` bytes
succeeds exactly when `n` is a record boundary, and then gives the last-writer-wins map of the
operations before it (`rebuildMemtable_take`).

* `readWalEntry_record`: the loop's turn on a whole record.
* `readWalEntry_cut`: the loop's turn on a record whose end is missing fails, wherever the cut is.
* `take_log`: a prefix of a log is the log of a prefix of the operations, then at most one cut
  record.
-/

namespace Mem

open Lib

/-- An operation of the log: a put of a key with an entry, or a delete of a key. -/
structure LogOp where
  key : Bytes
  slot : Option TableEntry

namespace LogOp

/-- The operation's record. -/
def record (op : LogOp) : Bytes := toWalEntry op.key (.ofSlot op.slot)

/-- The key is not empty, and every length of the record fits its 32-bit prefix. -/
structure Fits (op : LogOp) : Prop where
  key_ne : op.key ≠ []
  key_lt : op.key.length < 2 ^ 32
  entry : ∀ e ∈ op.slot, e.Fits ∧ e.serialize.length < 2 ^ 32

/-- The records of a list of operations. -/
def log (ops : List LogOp) : Bytes := ops.flatMap record

/-- The last operation on `k` in a list. -/
def lastWrite (ops : List LogOp) (k : Bytes) : Option (Option TableEntry) :=
  (ops.reverse.find? (·.key == k)).map slot

/-- The memtable the operations build, one after another. -/
def replay (ops : List LogOp) (repr : InMemoryRepr) : InMemoryRepr :=
  ops.foldl (fun m op => m.insert op.key op.slot) repr

end LogOp

/-! ## The last write of a key -/

theorem lastWrite_cons (op : LogOp) (ops : List LogOp) (k : Bytes) :
    LogOp.lastWrite (op :: ops) k =
      (LogOp.lastWrite ops k).or (if op.key = k then some op.slot else none) := by
  rw [LogOp.lastWrite, LogOp.lastWrite, List.reverse_cons, List.find?_append, List.find?_singleton]
  cases ops.reverse.find? (·.key == k) with
  | some x => rfl
  | none => by_cases hk : op.key = k <;> simp [hk]

theorem lastWrite_eq_none {ops : List LogOp} {k : Bytes} :
    LogOp.lastWrite ops k = none ↔ k ∉ ops.map LogOp.key := by
  rw [LogOp.lastWrite, Option.map_eq_none_iff, List.find?_eq_none, List.mem_map]
  simp

theorem lastWrite_isSome {ops : List LogOp} {k : Bytes} :
    (LogOp.lastWrite ops k).isSome ↔ ∃ op ∈ ops, op.key = k := by
  simp [LogOp.lastWrite]

/-! ## Records -/

theorem toWalEntry_eq (key : Bytes) (value : WalEntry) :
    toWalEntry key value = field key ++ field value.contents := by
  cases value <;> rfl

/-- The bytes that stand for a tombstone are those of no entry. -/
theorem contents_eq_tombstone {slot : Option TableEntry} :
    (WalEntry.ofSlot slot).contents = [tombStoneByteRepresentation] ↔ slot = none := by
  cases slot with
  | none => exact iff_of_true rfl rfl
  | some e =>
    refine iff_of_false (fun h => ?_) (by simp)
    have hl := e.length_serialize
    have := congrArg List.length h
    simp only [WalEntry.ofSlot, WalEntry.contents, List.length_singleton] at this
    omega

theorem contents_ne_nil (slot : Option TableEntry) : (WalEntry.ofSlot slot).contents ≠ [] := by
  cases slot with
  | none => exact List.cons_ne_nil _ _
  | some e =>
    intro h
    have hl := e.length_serialize
    rw [show e.serialize = [] from h, List.length_nil] at hl
    omega

namespace LogOp

variable {op : LogOp}

theorem record_eq (op : LogOp) :
    op.record = field op.key ++ field (WalEntry.ofSlot op.slot).contents := toWalEntry_eq _ _

theorem length_record (op : LogOp) : op.record.length =
    4 + op.key.length + (4 + (WalEntry.ofSlot op.slot).contents.length) := by
  rw [record_eq, List.length_append, length_field, length_field]

theorem Fits.key_pos (h : op.Fits) : 0 < op.key.length := List.length_pos_iff.2 h.key_ne

theorem contents_lt (h : ∀ e ∈ op.slot, e.Fits ∧ e.serialize.length < 2 ^ 32) :
    (WalEntry.ofSlot op.slot).contents.length < 2 ^ 32 := by
  obtain ⟨key, _ | e⟩ := op
  · show 1 < 2 ^ 32
    decide
  · exact (h e rfl).2

theorem contents_pos (op : LogOp) : 0 < (WalEntry.ofSlot op.slot).contents.length :=
  List.length_pos_iff.2 (contents_ne_nil _)

theorem log_cons (op : LogOp) (ops : List LogOp) : log (op :: ops) = op.record ++ log ops := rfl

theorem length_log_cons (op : LogOp) (ops : List LogOp) : 4 < (log (op :: ops)).length := by
  have := op.contents_pos
  rw [log_cons, List.length_append, length_record]
  omega

end LogOp

/-! ## One turn of the replay -/

theorem readWalEntry_fields {key contents : Bytes} (hne : key ≠ []) (hk : key.length < 2 ^ 32)
    (hv : contents.length < 2 ^ 32) (pre : Bytes) {rest : Bytes} (hrest : contents ++ rest ≠ []) :
    readWalEntry (pre ++ (field key ++ (field contents ++ rest))) pre.length =
      if contents = [tombStoneByteRepresentation] then
        .ok ((key, none), pre.length + (8 + key.length + contents.length))
      else (liftDecoding (TableEntry.deserialize contents)).map fun x =>
        ((key, some x), pre.length + (8 + key.length + contents.length)) := by
  have hkl : leNat (leBytes 4 key.length) = key.length := leNat_leBytes (by simpa using hk)
  have hvl : leNat (leBytes 4 contents.length) = contents.length := leNat_leBytes (by simpa using hv)
  have h1 : pre ++ (field key ++ (field contents ++ rest)) = pre ++ (leBytes 4 key.length ++
      (key ++ (leBytes 4 contents.length ++ (contents ++ rest)))) := by
    simp [field]
  have h2 := next_part h1
  have h3 := next_part h2
  have h4 := next_part h3
  have hlen : (pre ++ (field key ++ (field contents ++ rest))).length =
      pre.length + (4 + key.length + (4 + contents.length)) + rest.length := by
    simp +arith
  have hkey := List.length_pos_iff.2 hne
  have hpos := List.length_pos_iff.2 hrest
  rw [List.length_append] at hpos
  have hidx : pre.length + 4 + key.length + 4 + contents.length =
      pre.length + (8 + key.length + contents.length) := by omega
  unfold readWalEntry
  dsimp only
  rw [slice_at h1 rfl (by simp), ok_bind, hkl, ensure_pos (by omega), ok_bind,
    ensure_pos (by rw [hlen]; omega), ok_bind, slice_at h2 (by simp) rfl, ok_bind,
    ensure_pos (by rw [hlen]; omega), ok_bind, slice_at h3 (by simp +arith) (by simp), ok_bind, hvl,
    ensure_pos (by rw [hlen]; omega), ok_bind, slice_at h4 (by simp +arith) rfl, ok_bind, hidx]
  split
  · rfl
  · cases liftDecoding (TableEntry.deserialize contents) <;> rfl

section
variable {op : LogOp} (h : op.Fits) (pre rest : Bytes)
include h

/-- The buffer around a record, from each of its parts on, and the numbers its prefixes hold. -/
private theorem record_parts :
    pre ++ (op.record ++ rest) = pre ++ (leBytes 4 op.key.length ++ (op.key ++
      (leBytes 4 (WalEntry.ofSlot op.slot).contents.length ++
        ((WalEntry.ofSlot op.slot).contents ++ rest)))) ∧
    leNat (leBytes 4 op.key.length) = op.key.length ∧
    leNat (leBytes 4 (WalEntry.ofSlot op.slot).contents.length) =
      (WalEntry.ofSlot op.slot).contents.length := by
  refine ⟨?_, leNat_leBytes (by simpa using h.key_lt),
    leNat_leBytes (by simpa using LogOp.contents_lt h.entry)⟩
  rw [LogOp.record_eq]
  simp [field]

/-- **The turn on a whole record** reads its operation and stops after it. -/
theorem readWalEntry_record : readWalEntry (pre ++ (op.record ++ rest)) pre.length =
    .ok ((op.key, op.slot), pre.length + op.record.length) := by
  have hcontents : (WalEntry.ofSlot op.slot).contents ++ rest ≠ [] := fun hn =>
    contents_ne_nil _ (List.append_eq_nil_iff.1 hn).1
  have hidx : pre.length + op.record.length =
      pre.length + (8 + op.key.length + (WalEntry.ofSlot op.slot).contents.length) := by
    rw [LogOp.length_record]
    omega
  rw [LogOp.record_eq, List.append_assoc, readWalEntry_fields h.key_ne h.key_lt
    (LogOp.contents_lt h.entry) pre hcontents, ← LogOp.record_eq, hidx]
  cases hs : op.slot with
  | none => exact if_pos (contents_eq_tombstone.2 rfl)
  | some e =>
    rw [if_neg fun hc => by simpa using contents_eq_tombstone.1 hc]
    have hd := TableEntry.deserialize_serialize (h.entry e hs).1
    simp only [WalEntry.ofSlot, WalEntry.contents, hd, liftDecoding]
    rfl

/-- **The turn on a cut record** fails: some bounds check sees the end of the buffer, or the slice
of the key's length prefix is out of range. -/
theorem readWalEntry_cut {n : Nat} (hlo : pre.length < n) (hhi : n < pre.length + op.record.length) :
    ∃ e, readWalEntry ((pre ++ (op.record ++ rest)).take n) pre.length = .error e := by
  obtain ⟨h1, hk, hv⟩ := record_parts h pre rest
  have h2 := next_part h1
  have h3 := next_part h2
  have hlen : ((pre ++ (op.record ++ rest)).take n).length = n := by
    rw [List.length_take, List.length_append, List.length_append]
    omega
  have hkey := h.key_pos
  rw [LogOp.length_record] at hhi
  unfold readWalEntry
  dsimp only
  rw [hlen]
  by_cases c1 : pre.length + 4 ≤ n
  · rw [slice_take c1, slice_at h1 rfl (by simp), ok_bind, hk, ensure_pos (by omega), ok_bind]
    by_cases c2 : pre.length + 4 + op.key.length < n
    · rw [ensure_pos c2, ok_bind, slice_take (by omega), slice_at h2 (by simp) rfl, ok_bind]
      by_cases c3 : pre.length + 4 + op.key.length + 4 < n
      · rw [ensure_pos c3, ok_bind, slice_take (by omega), slice_at h3 (by simp +arith) (by simp),
          ok_bind, hv, ensure_neg (by omega)]
        exact ⟨_, rfl⟩
      · rw [ensure_neg c3]
        exact ⟨_, rfl⟩
    · rw [ensure_neg c2]
      exact ⟨_, rfl⟩
  · rw [slice_panic (by rw [hlen]; omega)]
    exact ⟨_, rfl⟩

end

/-! ## The replay loop -/

/-- The loop over a log, from any point on, inserts its operations in order. -/
theorem rebuildLoop_log : ∀ (ops : List LogOp) (pre : Bytes) (repr : InMemoryRepr),
    (∀ op ∈ ops, op.Fits) →
    rebuildLoop (pre ++ LogOp.log ops) pre.length repr = .ok (LogOp.replay ops repr)
  | [], pre, repr, _ => by
    rw [rebuildLoop_end (by simp [LogOp.log])]
    rfl
  | op :: ops, pre, repr, h => by
    have hr := readWalEntry_record (h op (.head _)) pre (LogOp.log ops)
    have ih := rebuildLoop_log ops (pre ++ op.record) (repr.insert op.key op.slot)
      fun x hx => h x (.tail _ hx)
    rw [List.length_append, List.append_assoc] at ih
    rw [LogOp.log_cons, rebuildLoop_turn (by
      rw [List.length_append, List.length_append, LogOp.length_record]
      omega), hr, ok_bind]
    exact ih

/-- The loop over a log with a cut record at its end fails. -/
theorem rebuildLoop_cut {op : LogOp} (hop : op.Fits) {m : Nat} (hlo : 0 < m)
    (hhi : m < op.record.length) : ∀ (ops : List LogOp) (pre : Bytes) (repr : InMemoryRepr),
    (∀ op ∈ ops, op.Fits) →
    ∃ e, rebuildLoop (pre ++ (LogOp.log ops ++ op.record.take m)) pre.length repr = .error e
  | [], pre, repr, _ => by
    obtain ⟨e, he⟩ := readWalEntry_cut hop pre [] (n := pre.length + m) (by omega) (by omega)
    rw [List.append_nil, List.take_length_add_append] at he
    refine ⟨e, ?_⟩
    show rebuildLoop (pre ++ op.record.take m) _ _ = _
    rw [rebuildLoop_turn (by rw [List.length_append, List.length_take]; omega), he, error_bind]
  | op' :: ops, pre, repr, h => by
    have hr := readWalEntry_record (h op' (.head _)) pre (LogOp.log ops ++ op.record.take m)
    obtain ⟨e, ih⟩ := rebuildLoop_cut hop hlo hhi ops (pre ++ op'.record)
      (repr.insert op'.key op'.slot) fun x hx => h x (.tail _ hx)
    refine ⟨e, ?_⟩
    rw [List.length_append, List.append_assoc] at ih
    rw [LogOp.log_cons, List.append_assoc, rebuildLoop_turn (by
      rw [List.length_append, List.length_append, LogOp.length_record]
      omega), hr, ok_bind]
    exact ih

/-! ## Prefixes of a log -/

/-- A prefix of a log ends at a record boundary or inside one record. -/
theorem take_log : ∀ (ops : List LogOp) (n : Nat), n ≤ (LogOp.log ops).length →
    (∃ i, n = (LogOp.log (ops.take i)).length) ∨
    ∃ i op m, op ∈ ops ∧ 0 < m ∧ m < op.record.length ∧
      (LogOp.log ops).take n = LogOp.log (ops.take i) ++ op.record.take m
  | [], n, h => .inl ⟨0, by simpa [LogOp.log] using h⟩
  | op :: ops, n, h => by
    rw [LogOp.log_cons, List.length_append] at h
    by_cases hz : n = 0
    · exact .inl ⟨0, hz⟩
    by_cases hn : n < op.record.length
    · refine .inr ⟨0, op, n, .head _, by omega, hn, ?_⟩
      rw [LogOp.log_cons, List.take_append_of_le_length (by omega)]
      rfl
    · obtain ⟨m, rfl⟩ : ∃ m, n = op.record.length + m := ⟨n - op.record.length, by omega⟩
      rcases take_log ops m (by omega) with ⟨i, hi⟩ | ⟨i, op', m', hop, h0, h1, he⟩
      · refine .inl ⟨i + 1, ?_⟩
        rw [List.take_succ_cons, LogOp.log_cons, List.length_append, hi]
      · refine .inr ⟨i + 1, op', m', .tail _ hop, h0, h1, ?_⟩
        rw [LogOp.log_cons, List.take_length_add_append, he, List.take_succ_cons, LogOp.log_cons,
          List.append_assoc]

theorem log_take (ops : List LogOp) (i : Nat) :
    (LogOp.log ops).take (LogOp.log (ops.take i)).length = LogOp.log (ops.take i) := by
  have hs : LogOp.log ops = LogOp.log (ops.take i) ++ LogOp.log (ops.drop i) := by
    rw [LogOp.log, LogOp.log, LogOp.log, ← List.flatMap_append, List.take_append_drop]
  rw [hs, List.take_left]

theorem getElem?_replay (ops : List LogOp) (k : Bytes) :
    (LogOp.replay ops ∅)[k]? = LogOp.lastWrite ops k := by
  have hf : LogOp.replay ops ∅ =
      (ops.map fun op => (op.key, op.slot)).foldl (fun m r => m.insert r.1 r.2) ∅ := by
    rw [List.foldl_map]
    rfl
  have hl : ∀ l : List LogOp, (l.map fun op => (op.key, op.slot)).lookup k =
      (l.find? (·.key == k)).map LogOp.slot := by
    intro l
    induction l with
    | nil => rfl
    | cons op l ih =>
      rw [List.map_cons, List.lookup_cons, List.find?_cons, ih, Bool.beq_comm]
      split <;> rfl
  rw [hf, getElem?_foldl_insert, ← List.map_reverse, hl, LogOp.lastWrite]
  simp

/-- **A whole log** is replayed operation by operation. -/
theorem rebuildMemtable_log (ops : List LogOp) (h : ∀ op ∈ ops, op.Fits) :
    rebuildMemtable (LogOp.log ops) ∅ 0 =
      .ok (LogOp.replay ops ∅, (LogOp.log ops).length % 2 ^ 32) := by
  have hloop := rebuildLoop_log ops [] ∅ h
  rw [List.nil_append, List.length_nil] at hloop
  cases ops with
  | nil => rfl
  | cons op ops =>
    have hlen := LogOp.length_log_cons op ops
    rw [rebuildMemtable, if_neg (by omega), if_neg (by omega), hloop]
    rfl

/-- **Replay is exact on every prefix of the log.** The first `n` bytes of a log are accepted
exactly when `n` is a record boundary, and then the map is the last-writer-wins map of the
operations before it. -/
theorem rebuildMemtable_take (ops : List LogOp) (hops : ∀ op ∈ ops, op.Fits) (n : Nat)
    (hn : n ≤ (LogOp.log ops).length) (repr : InMemoryRepr) (size : Nat) :
    rebuildMemtable ((LogOp.log ops).take n) ∅ 0 = .ok (repr, size) ↔
      ∃ i, n = (LogOp.log (ops.take i)).length ∧ size = n % 2 ^ 32 ∧
        ∀ k, repr[k]? = LogOp.lastWrite (ops.take i) k := by
  have hlen : ((LogOp.log ops).take n).length = n := by rw [List.length_take]; omega
  constructor
  · intro h
    unfold rebuildMemtable at h
    rw [hlen] at h
    by_cases h0 : n = 0
    · rw [if_pos h0, Except.ok.injEq, Prod.mk.injEq] at h
      obtain ⟨rfl, rfl⟩ := h
      exact ⟨0, by simpa [LogOp.log] using h0, by rw [h0, Nat.zero_mod],
        fun k => by simp [LogOp.lastWrite]⟩
    rw [if_neg h0] at h
    by_cases h4 : n < 4
    · rw [if_pos h4] at h
      cases h
    rw [if_neg h4] at h
    obtain ⟨repr', hloop, hret⟩ := bind_ok h
    rw [pure_ok, Except.ok.injEq, Prod.mk.injEq] at hret
    obtain ⟨rfl, rfl⟩ := hret
    rcases take_log ops n hn with ⟨i, hi⟩ | ⟨i, op, m, hop, h0, h1, he⟩
    · have hb := rebuildLoop_log (ops.take i) [] ∅ fun op h => hops op (List.mem_of_mem_take h)
      rw [hi, log_take] at hloop
      rw [List.nil_append, List.length_nil, hloop, Except.ok.injEq] at hb
      exact ⟨i, hi, rfl, fun k => by rw [hb, getElem?_replay]⟩
    · obtain ⟨e, hc⟩ := rebuildLoop_cut (hops op hop) h0 h1 (ops.take i) [] ∅
        fun op h => hops op (List.mem_of_mem_take h)
      rw [List.nil_append, List.length_nil, ← he, hloop] at hc
      cases hc
  · rintro ⟨i, hi, rfl, hrepr⟩
    have hmap : LogOp.replay (ops.take i) ∅ = repr := Std.ExtTreeMap.ext_getElem? fun k => by
      rw [getElem?_replay, hrepr]
    have hlog := rebuildMemtable_log (ops.take i) fun op h => hops op (List.mem_of_mem_take h)
    rw [hmap] at hlog
    rw [hi, log_take, hlog]

/-- A put and then a delete of one key: the log up to the boundary between them. -/
theorem rebuildMemtable_take_put : rebuildMemtable
    ((LogOp.log [⟨[107], some ⟨[1], none⟩⟩, ⟨[107], none⟩]).take 15) ∅ 0 =
      .ok ((∅ : InMemoryRepr).insert [107] (some ⟨[1], none⟩), 15) := by
  refine (rebuildMemtable_take _ (fun op hop => ?_) 15 (by decide) _ _).2
    ⟨1, by decide, by decide, fun k => ?_⟩
  · rcases List.mem_cons.1 hop with rfl | hop
    · refine ⟨by decide, by decide, fun e he => ?_⟩
      obtain rfl := Option.some.inj he
      exact ⟨⟨by decide, fun md hmd => by cases hmd⟩, by decide⟩
    · obtain rfl := List.mem_singleton.1 hop
      exact ⟨by decide, by decide, fun e he => by cases he⟩
  · rw [← getElem?_replay]
    rfl

end Mem
