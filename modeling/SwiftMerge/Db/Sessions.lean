import SwiftMerge.Db.Visibility
import SwiftMerge.Lib.Journal
import SwiftMerge.Memtable.Proof.FlushTable
import SwiftMerge.Memtable.Proof.GrowingLog

/-!
# The log across sessions

A session starts with `Memtable::new` on the log and the tables that the one before left, under any
configuration: with the log disabled the memtable starts empty and the log stays as it is, and the
next flush empties it all the same. The journal of a run (`journal`) says which writes the log holds,
which the map was built from and which have been flushed; `Tied` connects it to the bytes of the log
and to the map. Every flush is safe exactly when the memtable has every key of the log it empties
(`always_safe_iff`).
-/

namespace Db

open Lib Lsm Mem

inductive SessionEvent
  | start (content : ConfigSource)
  | write (key : Bytes) (slot : Option TableEntry)
  | updateConfig (content : ConfigSource)
  | wait

/-- A start with a valid configuration, an accepted write whose lengths fit the record's prefixes, a
reload of the configuration or the passing of time. -/
inductive SessionStep (P : Platform) : Store → SessionEvent → Store → Prop
  | start {m m' : Memtable} {d : Disk} {content : ConfigSource} :
    Memtable.new P d content = .ok m' → SessionStep P (m, d) (.start content) (m', d)
  | write {s s' : Store} {key : Bytes} {slot : Option TableEntry} :
    (LogOp.mk key slot).Encodable →
    Prog.exec (memHandler P) (Mem.write P key slot) s = (.ok (), s') →
    SessionStep P s (.write key slot) s'
  | updateConfig {m m' : Memtable} {d : Disk} {content : ConfigSource} :
    m.updateConfig P d.clock content = .ok m' → SessionStep P (m, d) (.updateConfig content) (m', d)
  | wait {m : Memtable} {d : Disk} {t : Nat} (h : d.clock ≤ t) :
    SessionStep P (m, d) .wait (m, d.waitUntil t h)

/-- The first session's start, on an empty log. -/
def FirstStart (P : Platform) (s : Store) : Prop :=
  (∃ content, Memtable.new P s.2 content = .ok s.1) ∧ s.2.wal = []

abbrev SessionRun (P : Platform) : List (SessionEvent × Store) → Store → Prop :=
  Lib.Run (FirstStart P) (SessionStep P)

/-- A start under this configuration replays the log. -/
def replaysLog (P : Platform) (content : ConfigSource) : Bool :=
  match content.load P with
  | .ok config => config.walEnabled
  | .error _ => false

/-- The write runs the flush. -/
def flushes (s : Store) (key : Bytes) (slot : Option TableEntry) : Bool :=
  shouldFlush (written s.1 key slot) s.2.clock

/-- The writes of a run, each with the number of events before it. -/
def journal (P : Platform) : List (SessionEvent × Store) → Journal LogOp
  | [] => .empty
  | (.start content, _) :: h => (journal P h).restart (replaysLog P content)
  | (.write key slot, s) :: h =>
    (journal P h).write LogOp.key s.1.config.walEnabled (flushes s key slot) (⟨key, slot⟩, h.length)
  | _ :: h => journal P h

/-- What a flush takes from the log has been flushed or is superseded by what has; so no logged write
is lost. -/
structure Safe (P : Platform) (h : List (SessionEvent × Store)) (s : Store) : Prop where
  truncates : ∀ key slot s₀ h₀, h = (.write key slot, s₀) :: h₀ → flushes s₀ key slot = true →
    s.2.wal = [] ∧ ∀ x ∈ (journal P h₀).appended s₀.1.config.walEnabled (⟨key, slot⟩, h₀.length),
      Covered LogOp.key (journal P h).flushed x
  neverLost : (journal P h).NeverLost LogOp.key

/-- If the write flushes, every record of the log has the written key or a key of the memtable. -/
def LogInMemory (s : Store) : SessionEvent → Prop
  | .write key slot => flushes s key slot = true → ∀ ops : List LogOp, (∀ op ∈ ops, op.Encodable) →
      s.2.wal = LogOp.log ops → ∀ op ∈ ops, op.key = key ∨ op.key ∈ s.1.inMemoryRepr
  | _ => True

/-! ## The journal and the state -/

/-- The map that writes build is that of the last write of each key. -/
theorem getElem?_held (l : List (LogOp × Nat)) (k : Bytes) (slot : Option TableEntry) :
    (LogOp.replay (l.map Prod.fst) ∅)[k]? = some slot ↔
      ∃ x ∈ held LogOp.key l, x.1.key = k ∧ x.1.slot = slot := by
  rw [getElem?_replay]
  induction l with
  | nil => simp [LogOp.lastWrite, held]
  | cons x l ih =>
    rw [List.map_cons, lastWrite_cons, held]
    have hsome : (∃ y ∈ l, y.1.key = k) ↔ (LogOp.lastWrite (l.map Prod.fst) k).isSome := by
      simp [lastWrite_isSome]
    by_cases hlater : ∃ y ∈ l, y.1.key = x.1.key
    · rw [if_pos hlater]
      by_cases hk : x.1.key = k
      · rw [hk] at hlater
        obtain ⟨v, hv⟩ := Option.isSome_iff_exists.1 (hsome.1 hlater)
        rw [← ih, hv]
        rfl
      · rw [if_neg hk, Option.or_none, ih]
    · rw [if_neg hlater]
      by_cases hk : x.1.key = k
      · have hno : ∀ y ∈ held LogOp.key l, y.1.key ≠ k := fun y hy hyk =>
          hlater ⟨y, mem_of_mem_held hy, hyk.trans hk.symm⟩
        have hnone : LogOp.lastWrite (l.map Prod.fst) k = none := by
          rw [hk, hsome] at hlater
          simpa using hlater
        rw [hnone, if_pos hk]
        constructor
        · intro h
          exact ⟨x, .head _, hk, Option.some.inj h⟩
        · rintro ⟨y, hy, hyk, hys⟩
          cases hy with
          | head => rw [hys]; rfl
          | tail _ hy => exact absurd hyk (hno y hy)
      · rw [if_neg hk, Option.or_none, ih]
        simp [hk]

/-- The journal is in order and says what the log and the map hold. -/
structure Tied (P : Platform) (h : List (SessionEvent × Store)) (s : Store) : Prop where
  ordered : (journal P h).Ordered h.length
  encodable : ∀ x ∈ (journal P h).log, x.1.Encodable
  wal : s.2.wal = LogOp.log ((journal P h).log.map Prod.fst)
  mem : s.1.inMemoryRepr = LogOp.replay ((journal P h).mem.map Prod.fst) ∅

variable {P : Platform} {s s' : Store} {e : SessionEvent} {h : List (SessionEvent × Store)}

/-- The keys of the memtable are those of the writes it was built from. -/
theorem Tied.mem_repr (ht : Tied P h s) (k : Bytes) :
    k ∈ s.1.inMemoryRepr ↔ ∃ y ∈ (journal P h).mem, y.1.key = k := by
  rw [Std.ExtTreeMap.mem_iff_isSome_getElem?, ht.mem, Option.isSome_iff_exists]
  constructor
  · rintro ⟨slot, hslot⟩
    obtain ⟨y, hy, hk, -⟩ := (getElem?_held _ _ _).1 hslot
    exact ⟨y, mem_of_mem_held hy, hk⟩
  · rintro ⟨y, hy, hk⟩
    have hcov : Covered LogOp.key (held LogOp.key (journal P h).mem) y :=
      covered_held ht.ordered.mem_sorted hy
    obtain ⟨z, hz, hzk, -⟩ := hcov
    exact ⟨z.1.slot, (getElem?_held _ _ _).2 ⟨z, hz, hzk.trans hk, rfl⟩⟩

/-- A flush that is due covers the log exactly when the memtable has its keys. -/
theorem Tied.covers_iff (ht : Tied P h s) {key : Bytes} {slot : Option TableEntry}
    (hf : flushes s key slot = true) :
    (∀ x ∈ (journal P h).appended s.1.config.walEnabled (⟨key, slot⟩, h.length),
      Covered LogOp.key (journal P ((.write key slot, s) :: h)).flushed x) ↔
      LogInMemory s (.write key slot) := by
  have hcov := ht.ordered.flush_covers_iff LogOp.key s.1.config.walEnabled ⟨key, slot⟩
  rw [journal, hf, hcov]
  constructor
  · intro hkeys _ ops henc hwal op hop
    have hlog : ∀ op ∈ (journal P h).log.map Prod.fst, op.Encodable := fun op hop => by
      obtain ⟨x, hx, rfl⟩ := List.mem_map.1 hop
      exact ht.encodable x hx
    have hsame := log_keys_inj henc hlog (hwal.symm.trans ht.wal)
    have hin : op.key ∈ ((journal P h).log.map Prod.fst).map LogOp.key :=
      hsame ▸ List.mem_map_of_mem hop
    obtain ⟨op', hop', hkey⟩ := List.mem_map.1 hin
    obtain ⟨x, hx, rfl⟩ := List.mem_map.1 hop'
    rw [ht.mem_repr, ← hkey]
    exact hkeys x hx
  · intro hkeys x hx
    rw [← ht.mem_repr]
    refine hkeys hf ((journal P h).log.map Prod.fst) (fun op hop => ?_) ht.wal x.1
      (List.mem_map_of_mem hx)
    obtain ⟨y, hy, rfl⟩ := List.mem_map.1 hop
    exact ht.encodable y hy

/-! ## Steps -/

/-- A memtable just made holds the map of the log or nothing. -/
theorem new_repr {m : Memtable} {d : Disk} {content : ConfigSource}
    (h : Memtable.new P d content = .ok m) :
    (replaysLog P content = true ∧ Replays d.wal m.inMemoryRepr) ∨
      (replaysLog P content = false ∧ m.inMemoryRepr = ∅) := by
  rw [Memtable.new] at h
  obtain ⟨config, hload, h⟩ := bind_ok h
  have hreplays : replaysLog P content = config.walEnabled := by
    unfold replaysLog
    cases hl : content.load P with
    | error e =>
      rw [hl] at hload
      cases hload
    | ok c =>
      rw [hl] at hload
      rw [← Except.ok.inj hload]
  rw [hreplays]
  cases hw : config.walEnabled with
  | false =>
    rw [if_neg (by simp [hw])] at h
    exact .inr ⟨rfl, by rw [← Except.ok.inj h]⟩
  | true =>
    rw [if_pos hw] at h
    obtain ⟨⟨repr, size⟩, hr, h⟩ := bind_ok h
    exact .inl ⟨rfl, size, by rw [← Except.ok.inj h]; exact hr⟩

theorem FirstStart.tied (h : FirstStart P s) : Tied P [] s := by
  obtain ⟨⟨content, hm⟩, hwal⟩ := h
  refine ⟨Journal.ordered_empty, nofun, hwal, ?_⟩
  rcases new_repr hm with ⟨-, hr⟩ | ⟨-, hempty⟩
  · obtain ⟨size, hr⟩ := hr
    rw [hwal] at hr
    exact (congrArg Prod.fst (Except.ok.inj hr)).symm
  · exact hempty

/-- The memtable that a write leaves, or flushes, is that of the writes of the journal. -/
theorem Tied.written_repr (ht : Tied P h s) (key : Bytes) (slot : Option TableEntry) :
    (written s.1 key slot).inMemoryRepr =
      LogOp.replay (((journal P h).mem ++ [(LogOp.mk key slot, h.length)]).map Prod.fst) ∅ := by
  rw [List.map_append, List.map_singleton, replay_append, ← ht.mem]
  rfl

/-- **A write** keeps the journal tied. -/
theorem Tied.write {key : Bytes} {slot : Option TableEntry} (ht : Tied P h s)
    (henc : (LogOp.mk key slot).Encodable)
    (hx : Prog.exec (memHandler P) (Mem.write P key slot) s = (.ok (), s')) :
    Tied P ((.write key slot, s) :: h) s' := by
  obtain ⟨m, d⟩ := s
  have hordered : (journal P ((.write key slot, (m, d)) :: h)).Ordered (h.length + 1) :=
    ht.ordered.write _ _ _
  rcases exec_write_ok hx with ⟨hf, rfl⟩ | ⟨hf, -, rfl⟩
  · have hf : flushes (m, d) key slot = false := hf
    have hlog : (journal P ((.write key slot, (m, d)) :: h)).log =
        (journal P h).appended m.config.walEnabled (⟨key, slot⟩, h.length) := by
      rw [journal, hf]
      rfl
    have hmem : (journal P ((.write key slot, (m, d)) :: h)).mem =
        (journal P h).mem ++ [(⟨key, slot⟩, h.length)] := by
      rw [journal, hf]
      rfl
    refine ⟨hordered, fun x hx => ?_, ?_, ?_⟩
    · rw [hlog] at hx
      rcases Journal.Ordered.mem_appended hx with hx | ⟨-, rfl⟩
      · exact ht.encodable x hx
      · exact henc
    · have hwal := ht.wal
      rw [hlog]
      unfold logged Journal.appended
      cases m.config.walEnabled with
      | false => exact hwal
      | true =>
        simp only [if_true, List.map_append, List.map_cons, List.map_nil, log_append]
        rw [← hwal]
        rfl
    · rw [hmem]
      exact ht.written_repr key slot
  · have hf : flushes (m, d) key slot = true := hf
    have hempty : (journal P ((.write key slot, (m, d)) :: h)).log = [] ∧
        (journal P ((.write key slot, (m, d)) :: h)).mem = [] := by
      rw [journal, hf]
      exact ⟨rfl, rfl⟩
    refine ⟨hordered, fun x hx => ?_, ?_, ?_⟩
    · rw [hempty.1] at hx
      cases hx
    · rw [hempty.1]
      rfl
    · rw [hempty.2]
      rfl

/-- **A step** keeps the journal tied to the log and the map. -/
theorem step_tied (ht : Tied P h s) (hs : SessionStep P s e s') : Tied P ((e, s) :: h) s' := by
  cases hs with
  | @start m m' d content hm =>
    refine ⟨(ht.ordered.restart _).later (Nat.le_succ _), ht.encodable, ht.wal, ?_⟩
    rw [journal, Journal.restart]
    rcases new_repr hm with ⟨hreplays, hr⟩ | ⟨hreplays, hempty⟩
    · rw [hreplays]
      have hwal : d.wal = _ := ht.wal
      rw [hwal] at hr
      refine (fits_of_replays (fun op hop => ?_) hr).2
      obtain ⟨x, hx, rfl⟩ := List.mem_map.1 hop
      exact ht.encodable x hx
    · rw [hreplays]
      exact hempty
  | write henc hx => exact ht.write henc hx
  | updateConfig hm =>
    rw [Memtable.updateConfig] at hm
    obtain ⟨config, -, hm⟩ := bind_ok hm
    obtain rfl := Except.ok.inj hm
    exact ⟨ht.ordered.later (Nat.le_succ _), ht.encodable, ht.wal, ht.mem⟩
  | wait => exact ⟨ht.ordered.later (Nat.le_succ _), ht.encodable, ht.wal, ht.mem⟩

/-- **The table of a flush** holds the records that the journal counts as flushed by it. -/
theorem Tied.flushed_table {key : Bytes} {slot : Option TableEntry} (ht : Tied P h s)
    (hx : Prog.exec (memHandler P) (Mem.write P key slot) s = (.ok (), s'))
    (hf : flushes s key slot = true) (hfits : FlushFits P (written s.1 key slot).inMemoryRepr) :
    ∃ f rs new, s'.2.file? (flushPath P s.2) = some f ∧ KeySorted rs ∧
      Holds ⟨.ssTable, f.bytes⟩ rs ∧
      (journal P ((.write key slot, s) :: h)).flushed = (journal P h).flushed ++ new ∧
      ∀ r, r ∈ rs ↔ ∃ x ∈ new, r = Compaction.recordOf (x.1.key, x.1.slot) := by
  obtain ⟨m, d⟩ := s
  rcases exec_write_ok hx with ⟨hno, -⟩ | ⟨-, -, rfl⟩
  · exact absurd (hf.symm.trans hno) nofun
  have hpath : flushPath P (logged m d key slot) = flushPath P d := by
    rw [flushPath, clock_logged]
    rfl
  have htable := flushedDisk_table (P := P) (m := written m key slot) (d := logged m d key slot)
  rw [hpath] at htable
  refine ⟨_, _, held LogOp.key ((journal P h).mem ++ [(LogOp.mk key slot, h.length)]), htable,
    keySorted_records _, holds_flushBuffer hfits _, ?_, fun r => ?_⟩
  · rw [journal, hf]
    rfl
  · have hrepr := ht.written_repr key slot
    dsimp only at hrepr
    rw [records, List.mem_map, hrepr]
    constructor
    · rintro ⟨⟨k, slot'⟩, hmem, rfl⟩
      obtain ⟨x, hx, rfl, rfl⟩ :=
        (getElem?_held _ _ _).1 (Std.ExtTreeMap.mem_toList_iff_getElem?_eq_some.1 hmem)
      exact ⟨x, hx, rfl⟩
    · rintro ⟨x, hx, rfl⟩
      exact ⟨_, Std.ExtTreeMap.mem_toList_iff_getElem?_eq_some.2
        ((getElem?_held _ _ _).2 ⟨x, hx, rfl, rfl⟩), rfl⟩

/-- In every state of a run of sessions the journal is tied, so `Tied.flushed_table` holds of each of
its flushes. -/
theorem always_tied (hr : SessionRun P h s) : Always (Tied P) h s :=
  hr.always_of (C := fun _ _ => True) (fun hstart => hstart.tied) (fun ht hs _ => step_tied ht hs)
    fun _ _ => trivial

/-- A step is safe when its flush finds the log's keys in the memtable. -/
theorem step_safe (ht : Tied P h s) (hlost : (journal P h).NeverLost LogOp.key)
    (hs : SessionStep P s e s') (hc : LogInMemory s e) : Safe P ((e, s) :: h) s' := by
  cases hs with
  | start => exact ⟨nofun, hlost⟩
  | updateConfig => exact ⟨nofun, hlost⟩
  | wait => exact ⟨nofun, hlost⟩
  | @write _ _ key slot henc hx =>
    refine ⟨fun key' slot' s₀ h₀ heq hf => ?_, ?_⟩
    · cases heq
      refine ⟨?_, (ht.covers_iff hf).2 hc⟩
      rcases exec_write_ok hx with ⟨hno, -⟩ | ⟨-, -, rfl⟩
      · exact absurd (hf.symm.trans hno) nofun
      · rfl
    · refine Journal.neverLost_write hlost fun hf => ?_
      have hcov := (ht.covers_iff hf).2 hc
      rwa [journal] at hcov

/-- **Every flush is safe exactly when the memtable has every key of the log it empties.** -/
theorem always_safe_iff (hr : SessionRun P h s) :
    Always (Safe P) h s ↔ ∀ x ∈ h, LogInMemory x.2 x.1 := by
  refine hr.always_iff (I := fun h s => Tied P h s ∧ Safe P h s)
    (fun hstart => ⟨hstart.tied, nofun, nofun⟩)
    (fun hi hs hc => ⟨step_tied hi.1 hs, step_safe hi.1 hi.2.neverLost hs hc⟩) And.right ?_
  intro h s e s' hi hs hq
  cases hs with
  | start => trivial
  | updateConfig => trivial
  | wait => trivial
  | write => exact fun hf => (hi.1.covers_iff hf).1 (hq.truncates _ _ _ _ rfl hf).2 hf

/-! ## A session without the log -/

/-- The built-in configuration without the log. -/
def unloggedConfig : ConfigInfo := { defaultConfig with walEnabled := false }

/-- The memtable that a start without the log makes when the clock shows 0. -/
def unloggedMem : Memtable := ⟨∅, unloggedConfig, 600 * 10 ^ 9, 0⟩

/-- The put of a one-byte key. -/
def onePutOp (key : UInt8) : LogOp := ⟨[key], some ⟨[118], none⟩⟩

theorem encodable_onePutOp (key : UInt8) : (onePutOp key).Encodable := by
  refine ⟨Nat.one_lt_two_pow (by decide), fun e he => ?_⟩
  obtain rfl := Option.some.inj he
  exact ⟨⟨by decide, nofun⟩, by decide⟩

/-- The disk of the first session after its put. -/
def onePutDisk : Disk := logged idleMem (Disk.empty 0) [107] (some ⟨[118], none⟩)

theorem firstStart_idle : FirstStart .plain (idleMem, Disk.empty 0) := ⟨⟨.default, rfl⟩, rfl⟩

/-- The put of the first session, which stays in memory and in the log. -/
theorem step_onePut : SessionStep .plain (idleMem, Disk.empty 0)
    (.write [107] (some ⟨[118], none⟩)) (written idleMem [107] (some ⟨[118], none⟩), onePutDisk) :=
  .write (encodable_onePutOp 107) (exec_write_quiet (counterOk_plain _ _ _) (by decide))

/-- Two puts of one session, the second of which flushes: the log that it empties is that of the
first. -/
theorem logged_flush_safe : ∃ h s, SessionRun .plain h s ∧
    h.map Prod.fst = [.write [108] (some ⟨[118], none⟩), .wait,
      .write [107] (some ⟨[118], none⟩)] ∧
    Always (Safe .plain) h s := by
  have hwait : SessionStep .plain (written idleMem [107] (some ⟨[118], none⟩), onePutDisk) .wait
      (written idleMem [107] (some ⟨[118], none⟩),
        onePutDisk.waitUntil (600 * 10 ^ 9 + 1) (Nat.zero_le _)) := .wait _
  have hable : Flushable (written (written idleMem [107] (some ⟨[118], none⟩)) [108]
      (some ⟨[118], none⟩)) := ⟨by decide, by decide, rfl⟩
  have hflush : SessionStep .plain (written idleMem [107] (some ⟨[118], none⟩),
        onePutDisk.waitUntil (600 * 10 ^ 9 + 1) (Nat.zero_le _))
      (.write [108] (some ⟨[118], none⟩)) _ :=
    .write (encodable_onePutOp 108) (exec_write_flush (counterOk_plain _ _ _) (by decide) hable)
  have hrun : SessionRun .plain _ _ :=
    .step (.step (.step (.start firstStart_idle) step_onePut) hwait) hflush
  refine ⟨_, _, hrun, rfl, (always_safe_iff hrun).2 ?_⟩
  refine List.forall_mem_cons.2 ⟨?_, List.forall_mem_cons.2 ⟨trivial, List.forall_mem_singleton.2
    fun hf => absurd hf (by decide)⟩⟩
  -- the one key of the log is in the memtable
  intro _ ops henc hwal op hop
  have hlog : ∀ op ∈ [onePutOp 107], op.Encodable := fun op hop =>
    List.mem_singleton.1 hop ▸ encodable_onePutOp 107
  have hkeys := log_keys_inj henc hlog (hwal.symm.trans (by decide))
  have hkey : op.key ∈ [[107]] := by
    rw [show ([[107]] : List Bytes) = [onePutOp 107].map LogOp.key from rfl, ← hkeys]
    exact List.mem_map_of_mem hop
  rw [List.mem_singleton.1 hkey]
  exact .inr (by decide)

/-- **A session without the log loses what the one before has logged**: its first flush empties a log
whose record it has not read. -/
theorem unlogged_flush_unsafe : ∃ h s, SessionRun .plain h s ∧
    h.map Prod.fst = [.write [108] (some ⟨[118], none⟩), .wait,
      .start (.json (.ok unloggedConfig)), .write [107] (some ⟨[118], none⟩)] ∧
    ¬Always (Safe .plain) h s := by
  have hstart : SessionStep .plain (written idleMem [107] (some ⟨[118], none⟩), onePutDisk)
      (.start (.json (.ok unloggedConfig))) (unloggedMem, onePutDisk) := .start rfl
  have hwait : SessionStep .plain (unloggedMem, onePutDisk) .wait
      (unloggedMem, onePutDisk.waitUntil (600 * 10 ^ 9 + 1) (Nat.zero_le _)) := .wait _
  have hable : Flushable (written unloggedMem [108] (some ⟨[118], none⟩)) :=
    ⟨by simp [written], by decide, rfl⟩
  have hflush : SessionStep .plain
      (unloggedMem, onePutDisk.waitUntil (600 * 10 ^ 9 + 1) (Nat.zero_le _))
      (.write [108] (some ⟨[118], none⟩)) _ :=
    .write (encodable_onePutOp 108) (exec_write_flush (counterOk_plain _ _ _) (by decide) hable)
  have hrun : SessionRun .plain _ _ :=
    .step (.step (.step (.step (.start firstStart_idle) step_onePut) hstart) hwait) hflush
  have htied := step_tied (step_tied (step_tied firstStart_idle.tied step_onePut) hstart) hwait
  refine ⟨_, _, hrun, rfl, fun ha => ?_⟩
  have hf : flushes (unloggedMem, onePutDisk.waitUntil (600 * 10 ^ 9 + 1) (Nat.zero_le _)) [108]
      (some ⟨[118], none⟩) = true := by decide
  have hkeys := (htied.covers_iff hf).1 (ha.now.truncates _ _ _ _ rfl hf).2 hf [onePutOp 107]
    (fun op hop => List.mem_singleton.1 hop ▸ encodable_onePutOp 107) (by decide) _ (.head _)
  rcases hkeys with hkey | hmem
  · exact absurd hkey (by decide)
  · exact absurd hmem (by simp [unloggedMem])

end Db
