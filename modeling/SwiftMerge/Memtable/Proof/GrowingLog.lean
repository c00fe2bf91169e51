import SwiftMerge.Memtable.Proof.Replay

/-!
# Logs that grow, and what makes a log replay

A log that replays goes on replaying when records that fit are written behind it, and the map grows
by their operations (`Replays.append`). A log of records whose lengths fit their prefixes replays
only when no key is empty (`fits_of_replays`): the replay takes an empty key for damage.
-/

namespace Mem

open Lib

/-- The replay of a log succeeds with a map. -/
def Replays (wal : Bytes) (repr : InMemoryRepr) : Prop :=
  ∃ size, rebuildMemtable wal ∅ 0 = .ok (repr, size)

theorem replays_nil : Replays [] ∅ := ⟨0, rfl⟩

theorem Replays.unique {wal : Bytes} {repr repr' : InMemoryRepr} (h : Replays wal repr)
    (h' : Replays wal repr') : repr = repr' := by
  obtain ⟨size, h⟩ := h
  obtain ⟨size', h'⟩ := h'
  exact congrArg Prod.fst (Except.ok.inj (h.symm.trans h'))

/-! ## Bytes behind a log -/

/-- The loop's turn is the same with more bytes behind it. -/
theorem readWalEntry_append {wal : Bytes} {idx idx' : Nat} {e : Bytes × Option TableEntry}
    (h : readWalEntry wal idx = .ok (e, idx')) (rest : Bytes) :
    readWalEntry (wal ++ rest) idx = .ok (e, idx') ∧ idx' ≤ wal.length := by
  have hlen : (wal ++ rest).length = wal.length + rest.length := List.length_append
  unfold readWalEntry at h ⊢
  dsimp only at h ⊢
  obtain ⟨keyLen, h1, h⟩ := bind_ok h
  obtain ⟨_, h2, h⟩ := bind_ok h
  obtain ⟨_, h3, h⟩ := bind_ok h
  obtain ⟨key, h4, h⟩ := bind_ok h
  obtain ⟨_, h5, h⟩ := bind_ok h
  obtain ⟨valLen, h6, h⟩ := bind_ok h
  obtain ⟨_, h7, h⟩ := bind_ok h
  obtain ⟨rawValue, h8, h⟩ := bind_ok h
  have h3 := ensure_ok h3
  have h5 := ensure_ok h5
  have h7 := ensure_ok h7
  rw [slice_append h1, ok_bind, h2, ok_bind, ensure_pos (by omega), ok_bind, slice_append h4, ok_bind,
    ensure_pos (by omega), ok_bind, slice_append h6, ok_bind, ensure_pos (by omega), ok_bind,
    slice_append h8, ok_bind]
  refine ⟨h, ?_⟩
  split at h
  · cases h
    exact h7
  · obtain ⟨x, -, h⟩ := bind_ok h
    cases h
    exact h7

/-- The loop over a log that replays gets to what is behind it. -/
theorem rebuildLoop_append {wal : Bytes} {idx : Nat} {repr repr' : InMemoryRepr}
    (h : rebuildLoop wal idx repr = .ok repr') (hle : idx ≤ wal.length) (rest : Bytes) :
    rebuildLoop (wal ++ rest) idx repr = rebuildLoop (wal ++ rest) wal.length repr' := by
  induction idx, repr using rebuildLoop.induct wal with
  | case1 idx repr hend =>
    rw [rebuildLoop_end hend] at h
    obtain rfl := Except.ok.inj h
    obtain rfl : idx = wal.length := by omega
    rfl
  | case2 idx repr hlt e idx' he ih =>
    obtain ⟨happend, hle'⟩ := readWalEntry_append he rest
    have hlen : (wal ++ rest).length = wal.length + rest.length := List.length_append
    rw [rebuildLoop_turn (Nat.lt_of_not_le hlt), he] at h
    rw [rebuildLoop_turn (by omega), happend]
    exact ih h hle'
  | case3 idx repr hlt e he =>
    rw [rebuildLoop_turn (Nat.lt_of_not_le hlt), he] at h
    cases h

/-- **Records behind a log that replays** add their operations to its map. -/
theorem Replays.append {wal : Bytes} {repr : InMemoryRepr} (h : Replays wal repr)
    {ops : List LogOp} (hops : ∀ op ∈ ops, op.Fits) :
    Replays (wal ++ LogOp.log ops) (LogOp.replay ops repr) := by
  obtain ⟨size, h⟩ := h
  unfold rebuildMemtable at h
  split at h
  · rename_i hzero
    obtain rfl := List.length_eq_zero_iff.1 hzero
    obtain rfl : ∅ = repr := congrArg Prod.fst (Except.ok.inj h)
    exact ⟨_, by rw [List.nil_append, rebuildMemtable_log ops hops]⟩
  · split at h
    · cases h
    · rename_i hfour
      obtain ⟨r, hloop, h⟩ := bind_ok h
      cases h
      have hall := rebuildLoop_append hloop (Nat.zero_le _) (LogOp.log ops)
      rw [rebuildLoop_log ops wal _ hops] at hall
      have hlen : (wal ++ LogOp.log ops).length = wal.length + (LogOp.log ops).length :=
        List.length_append
      refine ⟨(wal ++ LogOp.log ops).length % 2 ^ 32, ?_⟩
      rw [rebuildMemtable, if_neg (by omega), if_neg (by omega), hall]
      rfl

/-! ## Empty keys -/

/-- Every length of the record fits its 32-bit prefix. -/
structure LogOp.Encodable (op : LogOp) : Prop where
  key_lt : op.key.length < 2 ^ 32
  entry : ∀ e ∈ op.slot, e.Fits ∧ e.serialize.length < 2 ^ 32

theorem LogOp.Encodable.fits {op : LogOp} (h : op.Encodable) (hne : op.key ≠ []) : op.Fits :=
  ⟨hne, h.key_lt, h.entry⟩

/-- The loop's turn on a record with an empty key fails. -/
theorem readWalEntry_emptyKey {op : LogOp} (h : op.key = []) (pre rest : Bytes) :
    ∃ e, readWalEntry (pre ++ (op.record ++ rest)) pre.length = .error e := by
  have hparts : pre ++ (op.record ++ rest) = pre ++ (leBytes 4 0 ++
      (field (WalEntry.ofSlot op.slot).contents ++ rest)) := by
    rw [LogOp.record_eq, h]
    simp [field]
  have hzero : leNat (leBytes 4 0) = 0 := leNat_leBytes (by decide)
  unfold readWalEntry
  dsimp only
  rw [slice_at hparts rfl (by simp), ok_bind, hzero, ensure_neg (by simp)]
  exact ⟨_, rfl⟩

/-- A loop over a log of encodable records that returns met no empty key. -/
theorem fits_of_rebuildLoop : ∀ (ops : List LogOp) (pre : Bytes) (repr repr' : InMemoryRepr),
    (∀ op ∈ ops, op.Encodable) →
    rebuildLoop (pre ++ LogOp.log ops) pre.length repr = .ok repr' → ∀ op ∈ ops, op.Fits
  | [], _, _, _, _, _ => nofun
  | op :: ops, pre, repr, repr', henc, h => by
    have hstep : pre.length < (pre ++ (op.record ++ LogOp.log ops)).length := by
      rw [List.length_append, List.length_append, LogOp.length_record]
      omega
    rw [LogOp.log_cons] at h
    by_cases hkey : op.key = []
    · obtain ⟨e, he⟩ := readWalEntry_emptyKey hkey pre (LogOp.log ops)
      rw [rebuildLoop_turn hstep, he] at h
      cases h
    · have hfits := (henc op (.head _)).fits hkey
      have hr := readWalEntry_record hfits pre (LogOp.log ops)
      rw [rebuildLoop_turn hstep, hr, ok_bind, ← List.append_assoc, ← List.length_append] at h
      have ih := fits_of_rebuildLoop ops (pre ++ op.record) _ repr'
        (fun x hx => henc x (.tail _ hx)) h
      exact List.forall_mem_cons.2 ⟨hfits, ih⟩

/-- **A log of encodable records replays only when no key is empty.** -/
theorem fits_of_replays {ops : List LogOp} {repr : InMemoryRepr} (henc : ∀ op ∈ ops, op.Encodable)
    (h : Replays (LogOp.log ops) repr) : (∀ op ∈ ops, op.Fits) ∧ repr = LogOp.replay ops ∅ := by
  have hfits : ∀ op ∈ ops, op.Fits := by
    obtain ⟨size, h⟩ := h
    cases ops with
    | nil => exact nofun
    | cons op ops =>
      have hlen := LogOp.length_log_cons op ops
      rw [rebuildMemtable, if_neg (by omega), if_neg (by omega)] at h
      obtain ⟨r, hloop, -⟩ := bind_ok h
      exact fits_of_rebuildLoop _ [] ∅ r henc hloop
  obtain ⟨size, h⟩ := h
  rw [rebuildMemtable_log ops hfits, Except.ok.injEq, Prod.mk.injEq] at h
  exact ⟨hfits, h.1.symm⟩

/-! ## The keys of a log -/

/-- The fields of a log: the key and the value of each record. -/
theorem log_eq_fields (ops : List LogOp) : LogOp.log ops =
    fields (ops.flatMap fun op => [op.key, (WalEntry.ofSlot op.slot).contents]) := by
  induction ops with
  | nil => rfl
  | cons op ops ih =>
    rw [LogOp.log_cons, ih, LogOp.record_eq]
    simp

/-- **Logs with the same bytes** have the same keys. -/
theorem log_keys_inj {ops ops' : List LogOp} (h : ∀ op ∈ ops, op.Encodable)
    (h' : ∀ op ∈ ops', op.Encodable) (he : LogOp.log ops = LogOp.log ops') :
    ops.map LogOp.key = ops'.map LogOp.key := by
  have hlt : ∀ {l : List LogOp}, (∀ op ∈ l, op.Encodable) →
      ∀ f ∈ l.flatMap fun op => [op.key, (WalEntry.ofSlot op.slot).contents], f.length < 2 ^ 32 := by
    intro l hl f hf
    obtain ⟨op, hop, hf⟩ := List.mem_flatMap.1 hf
    rcases List.mem_pair.1 hf with rfl | rfl
    · exact (hl op hop).key_lt
    · exact LogOp.contents_lt (hl op hop).entry
  rw [log_eq_fields, log_eq_fields] at he
  have hfields := fields_inj (hlt h) (hlt h') he
  clear he h h'
  induction ops generalizing ops' with
  | nil =>
    cases ops' with
    | nil => rfl
    | cons op' ops' => simp at hfields
  | cons op ops ih =>
    cases ops' with
    | nil => simp at hfields
    | cons op' ops' =>
      simp only [List.flatMap_cons, List.cons_append, List.nil_append, List.cons.injEq] at hfields
      rw [List.map_cons, List.map_cons, hfields.1, ih hfields.2.2]

/-! ## The map of a log -/

theorem replay_append (ops : List LogOp) (op : LogOp) (repr : InMemoryRepr) :
    LogOp.replay (ops ++ [op]) repr = (LogOp.replay ops repr).insert op.key op.slot := by
  simp [LogOp.replay]

theorem log_append (ops : List LogOp) (op : LogOp) :
    LogOp.log (ops ++ [op]) = LogOp.log ops ++ op.record := by
  simp [LogOp.log]

end Mem
