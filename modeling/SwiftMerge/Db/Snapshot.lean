import SwiftMerge.Db.Range
import SwiftMerge.Db.SplitGet

/-!
# What a reader has loaded

The level array of a running server is a snapshot: it has, for every key at once, what the
acknowledged writes had at the last flush before it was loaded. The memtable has the writes since
the last flush. So a get answers with the later ones first and what was flushed after the load
nowhere, in every state of a run (`get_answers`), and it is up to date when nothing was
(`get_current`).
-/

namespace Db

open Lib Lsm Mem Compaction

/-- The run up to its last flush. -/
def upToFlush : List (SystemEvent × System) → List (SystemEvent × System)
  | [] => []
  | (.write op, s) :: h => if s.flushes op then (.write op, s) :: h else upToFlush h
  | _ :: h => upToFlush h

/-- The run up to when the reader was last loaded. -/
def upToLoad : List (SystemEvent × System) → List (SystemEvent × System)
  | [] => []
  | (.reload, _) :: h => h
  | (.restart _, _) :: h => h
  | _ :: h => upToLoad h

/-- A reader is loaded from tables that it can tell apart. -/
def LoadsReadable (s : System) : SystemEvent → Prop
  | .reload => s.tables.Readable
  | .restart _ => s.tables.Readable
  | _ => True

/-- What a run has acknowledged up to some point. -/
def acknowledgedIn (h : List (SystemEvent × System)) : InMemoryRepr := acknowledged (h.map Prod.fst)

variable {P : Platform} {s s' : System} {h : List (SystemEvent × System)} {e : SystemEvent}

/-- The memtable has the writes since the last flush, the tables what was acknowledged at it, and the
reader what was acknowledged at the last one before its load. -/
structure SnapshotOk (P : Platform) (h : List (SystemEvent × System)) (s : System) : Prop where
  ok : SystemOk P h s
  mem : s.mem.inMemoryRepr = sinceFlush h
  tables : ∀ k : Bytes, (lastFlushed (storeEvents h) k).map Prod.fst =
    (acknowledgedIn (upToFlush h))[k]?.map tableValue
  reader : ∀ k, TablesAnswer s.levelArray k (acknowledgedIn (upToFlush (upToLoad h)))[k]?

theorem SnapshotOk.start (hs : SystemStart P s) : SnapshotOk P [] s := by
  have hi := SystemOk.start hs
  have hreplays : Replays s.tables.disk.wal s.mem.inMemoryRepr := hs.started.recoverable.1
  rw [hs.wal] at hreplays
  exact ⟨hi, hreplays.unique replays_nil, fun _ => rfl,
    fun _ => hi.tablesAnswer (emptyStore_readable hs.store) hs.loaded rfl⟩

/-- A step moves the tables to another point only by a flush. -/
theorem flushed_step {k : Bytes}
    (hflush : ∀ op, e = .write op → s.flushes op = true →
      (lastFlushed (storeEvents ((e, s) :: h)) k).map Prod.fst =
        (acknowledgedIn ((e, s) :: h))[k]?.map tableValue)
    (ht : (lastFlushed (storeEvents h) k).map Prod.fst =
      (acknowledgedIn (upToFlush h))[k]?.map tableValue) :
    (lastFlushed (storeEvents ((e, s) :: h)) k).map Prod.fst =
      (acknowledgedIn (upToFlush ((e, s) :: h)))[k]?.map tableValue := by
  cases e with
  | write op =>
    rw [upToFlush]
    by_cases hf : s.flushes op = true
    · rw [if_pos hf]
      exact hflush op rfl hf
    · rw [if_neg hf, lastFlushed_quiet fun op' he => ?_]
      · exact ht
      · cases he
        exact Bool.not_eq_true _ ▸ hf
  | updateConfig | compact | reload | restart | idle =>
    rw [lastFlushed_quiet fun op he => by cases he]
    exact ht

theorem SnapshotOk.tables_step (hi : SnapshotOk P h s) (k : Bytes) :
    (lastFlushed (storeEvents ((e, s) :: h)) k).map Prod.fst =
      (acknowledgedIn (upToFlush ((e, s) :: h)))[k]?.map tableValue := by
  refine flushed_step (fun op he hf => ?_) (hi.tables k)
  subst he
  exact hi.ok.tables_flushed hf k

/-- **Every step keeps the snapshot.** -/
theorem SnapshotOk.step (hi : SnapshotOk P h s) (hs : SystemStep P s e s')
    (hk : KeepsWrites P s e) (hl : LoadsReadable s e) : SnapshotOk P ((e, s) :: h) s' := by
  refine ⟨hi.ok.step hs hk, sinceFlush_step hi.ok.recoverable hs hi.mem, hi.tables_step, fun k => ?_⟩
  cases hs with
  | reload hx => exact hi.ok.tablesAnswer hl hx (hi.tables k)
  | restart _ _ hx => exact hi.ok.tablesAnswer hl hx (hi.tables k)
  | write | updateConfig | compact | idle => exact hi.reader k

theorem always_snapshotOk (hr : SystemRun P h s) (hk : ∀ x ∈ h, KeepsWrites P x.2 x.1)
    (hl : ∀ x ∈ h, LoadsReadable x.2 x.1) : Always (SnapshotOk P) h s :=
  hr.always_of (C := fun s e => KeepsWrites P s e ∧ LoadsReadable s e) .start
    (fun hi hs hc => hi.step hs hc.1 hc.2) fun x hx => ⟨hk x hx, hl x hx⟩

theorem SnapshotOk.answers (hi : SnapshotOk P h s) (k : Bytes) :
    Answers s.mem s.levelArray k
      ((sinceFlush h)[k]?.or (acknowledgedIn (upToFlush (upToLoad h)))[k]?) := by
  rw [← hi.mem]
  exact (hi.reader k).answers

/-- **What a get answers**, in every state of a run: the writes since the last flush, and behind them
the acknowledged writes of the last flush before the reader was loaded, of one point for all keys. -/
theorem get_answers (hr : SystemRun P h s) (hk : ∀ x ∈ h, KeepsWrites P x.2 x.1)
    (hl : ∀ x ∈ h, LoadsReadable x.2 x.1) (k : Bytes) :
    Answers s.mem s.levelArray k
      ((sinceFlush h)[k]?.or (acknowledgedIn (upToFlush (upToLoad h)))[k]?) :=
  (always_snapshotOk hr hk hl).now.answers k

/-! ## An up-to-date reader -/

/-- The writes since the last flush are over those up to it. -/
theorem getElem?_acknowledgedIn (k : Bytes) : ∀ h : List (SystemEvent × System),
    (acknowledgedIn h)[k]? = (sinceFlush h)[k]?.or (acknowledgedIn (upToFlush h))[k]?
  | [] => rfl
  | (.write op, s) :: h => by
    rw [sinceFlush, upToFlush]
    by_cases hf : s.flushes op = true
    · rw [if_pos hf, if_pos hf, Std.ExtTreeMap.getElem?_empty, Option.none_or]
    · rw [if_neg hf, if_neg hf]
      have hack : (acknowledgedIn ((.write op, s) :: h))[k]? = _ :=
        getElem?_acknowledged (h.map Prod.fst) op k
      rw [hack, Std.ExtTreeMap.getElem?_insert]
      by_cases hk : op.key = k
      · rw [if_pos hk, if_pos (Std.LawfulEqOrd.compare_eq_iff_eq.2 hk)]
        rfl
      · rw [if_neg hk, if_neg fun h => hk (Std.LawfulEqOrd.eq_of_compare h)]
        exact getElem?_acknowledgedIn k h
  | (.updateConfig _, _) :: h => getElem?_acknowledgedIn k h
  | (.compact _ _, _) :: h => getElem?_acknowledgedIn k h
  | (.reload, _) :: h => getElem?_acknowledgedIn k h
  | (.restart _, _) :: h => getElem?_acknowledgedIn k h
  | (.idle, _) :: h => getElem?_acknowledgedIn k h

/-- A get is up to date when nothing was flushed since the reader was loaded. -/
theorem get_current (hr : SystemRun P h s) (hk : ∀ x ∈ h, KeepsWrites P x.2 x.1)
    (hl : ∀ x ∈ h, LoadsReadable x.2 x.1) (hload : upToFlush (upToLoad h) = upToFlush h)
    (k : Bytes) : Answers s.mem s.levelArray k (acknowledgedIn h)[k]? := by
  rw [getElem?_acknowledgedIn, ← hload]
  exact (always_snapshotOk hr hk hl).now.answers k

/-! ## Later steps -/

/-- The server after its first flush and a reload of the reader. -/
def loadedHistory : List (SystemEvent × System) := (.reload, flushedSystem) :: firstFlush

/-- The key that was flushed is read from the tables. -/
theorem firstFlush_answers : ∃ levelArray, Answers flushedSystem.mem levelArray [107]
    ((sinceFlush loadedHistory)[([107] : Bytes)]?.or
      (acknowledgedIn (upToFlush (upToLoad loadedHistory)))[([107] : Bytes)]?) := by
  obtain ⟨levelArray, hl⟩ :=
    (always_systemOk firstFlush_run firstFlush_keeps).now.reads.exists_loaded flushedSystem_readable
  have hkeeps : ∀ x ∈ loadedHistory, KeepsWrites .plain x.2 x.1 :=
    List.forall_mem_cons.2 ⟨trivial, firstFlush_keeps⟩
  have hloads : ∀ x ∈ loadedHistory, LoadsReadable x.2 x.1 := by
    refine List.forall_mem_cons.2 ⟨flushedSystem_readable, fun x hx => ?_⟩
    rcases List.mem_pair.1 hx with rfl | rfl
    · trivial
    · trivial
  exact ⟨levelArray, get_answers (.step firstFlush_run (.reload hl)) hkeeps hloads [107]⟩

end Db
