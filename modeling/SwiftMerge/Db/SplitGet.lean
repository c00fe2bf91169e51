import SwiftMerge.Db.System

/-!
# A get between other requests

A get looks in the memtable under its lock, gives the lock back, and only then waits for the reader.
In between the server goes on: keys are written, the memtable is flushed, levels are compacted, the
reader is loaded again. So the two looks are at two states of a run, and what the tables have in the
second one may be newer than the memtable in the first.

`split_get_linearizable`: the answer is what the acknowledged writes have under the key at some
point between the two looks, if the reader was loaded from the tables at the first one. The tables
of every state in between are the acknowledged writes of some point before it (`Spanned`): a flush
moves that point up to itself, and nothing else moves it.
-/

namespace Db

open Lib Lsm Mem Compaction

variable {P : Platform} {s s' s₁ : System} {h h' : List (SystemEvent × System)} {e : SystemEvent}
  {k : Bytes}

/-- What a get may wait for: the server does not stop, and a reader is loaded from tables that it
can tell apart. -/
def SpansGet (s : System) : SystemEvent → Prop
  | .reload => s.tables.Readable
  | .restart _ => False
  | _ => True

/-- What the acknowledged writes have under the key at some point of `h'`, which goes on from `h`. -/
def HeldIn (h h' : List (SystemEvent × System)) (k : Bytes) (slot? : Option (Option TableEntry)) :
    Prop :=
  ∃ h₁, h₁ <:+ h' ∧ (acknowledged ((h₁ ++ h).map Prod.fst))[k]? = slot?

theorem HeldIn.cons {slot? : Option (Option TableEntry)} (hh : HeldIn h h' k slot?)
    (x : SystemEvent × System) : HeldIn h (x :: h') k slot? := by
  obtain ⟨h₁, hsuffix, hslot⟩ := hh
  exact ⟨h₁, hsuffix.trans (List.suffix_cons x h'), hslot⟩

/-- What holds from the first look of a get on that has not found its key in the memtable: the
tables and the reader have what was acknowledged at some point since. -/
structure Spanned (P : Platform) (h : List (SystemEvent × System)) (k : Bytes)
    (h' : List (SystemEvent × System)) (s : System) : Prop where
  ok : SystemOk P (h' ++ h) s
  tables : ∃ slot?, HeldIn h h' k slot? ∧
    (lastFlushed (storeEvents (h' ++ h)) k).map Prod.fst = slot?.map tableValue
  reader : ∃ slot?, HeldIn h h' k slot? ∧ TablesAnswer s.levelArray k slot?

/-- At the first look the reader has been loaded from the tables. -/
theorem Spanned.start (hi : SystemOk P h s) (hread : s.tables.Readable)
    (hl : Loaded s.tables.disk s.levelArray) (hmem : Mem.get s.mem k = none) :
    Spanned P h k [] s where
  ok := hi
  tables := ⟨_, ⟨[], List.nil_suffix, rfl⟩, hi.tables k hmem⟩
  reader := ⟨_, ⟨[], List.nil_suffix, rfl⟩, hi.tablesAnswer hread hl (hi.tables k hmem)⟩

theorem lastFlushed_quiet (hf : ∀ op, e = .write op → s.flushes op = false) :
    lastFlushed (storeEvents ((e, s) :: h)) = lastFlushed (storeEvents h) := by
  rw [storeEvents, List.map_cons]
  cases e with
  | write op =>
    have hevent : s.storeEvent (.write op) = .idle := by
      rw [System.storeEvent, hf op rfl]
      rfl
    rw [hevent]
    rfl
  | updateConfig | compact | reload | restart | idle => rfl

theorem Spanned.tables_step (hs : Spanned P h k h' s) : ∃ slot?, HeldIn h ((e, s) :: h') k slot? ∧
    (lastFlushed (storeEvents ((e, s) :: h' ++ h)) k).map Prod.fst = slot?.map tableValue := by
  by_cases hf : ∃ op, e = .write op ∧ s.flushes op = true
  · -- a flush moves everything acknowledged to the tables
    obtain ⟨op, rfl, hf⟩ := hf
    exact ⟨_, ⟨_, List.suffix_refl _, rfl⟩, hs.ok.tables_flushed hf k⟩
  · have hquiet : ∀ op, e = .write op → s.flushes op = false := by
      intro op he
      by_contra hflushes
      exact hf ⟨op, he, Bool.not_eq_false _ ▸ hflushes⟩
    obtain ⟨slot?, hheld, hlast⟩ := hs.tables
    refine ⟨slot?, hheld.cons _, ?_⟩
    rw [List.cons_append, lastFlushed_quiet hquiet]
    exact hlast

theorem Spanned.step (hs : Spanned P h k h' s) (hstep : SystemStep P s e s')
    (hk : KeepsWrites P s e) (hspan : SpansGet s e) : Spanned P h k ((e, s) :: h') s' := by
  refine ⟨hs.ok.step hstep hk, hs.tables_step, ?_⟩
  obtain ⟨slot?, hheld, hanswer⟩ := hs.reader
  cases hstep with
  | reload hl =>
    obtain ⟨slot?, hheld, hlast⟩ := hs.tables
    exact ⟨slot?, hheld.cons _, hs.ok.tablesAnswer hspan hl hlast⟩
  | restart => exact hspan.elim
  | write | updateConfig | compact | idle => exact ⟨slot?, hheld.cons _, hanswer⟩

theorem Spanned.run (hfirst : Spanned P h k [] s) (hr : Lib.Run (· = s) (SystemStep P) h' s')
    (hk : ∀ x ∈ h', KeepsWrites P x.2 x.1) (hspan : ∀ x ∈ h', SpansGet x.2 x.1) :
    Spanned P h k h' s' := by
  have hall : ∀ x ∈ h', KeepsWrites P x.2 x.1 ∧ SpansGet x.2 x.1 := fun x hx =>
    ⟨hk x hx, hspan x hx⟩
  refine (hr.always_of (I := Spanned P h k) (C := fun s e => KeepsWrites P s e ∧ SpansGet s e)
    (fun hs => ?_) (fun hi hs hc => hi.step hs hc.1 hc.2) hall).now
  rw [hs]
  exact hfirst

/-- **A get is linearizable** while the reader follows the tables: however the server goes on between
its look in the memtable and its look in the tables, its answer is what the acknowledged writes have
under the key at some point between the two. -/
theorem split_get_linearizable (hr : SystemRun P h s) (hk : ∀ x ∈ h, KeepsWrites P x.2 x.1)
    (hread : s.tables.Readable) (hl : Loaded s.tables.disk s.levelArray)
    (hr' : Lib.Run (· = s) (SystemStep P) h' s') (hk' : ∀ x ∈ h', KeepsWrites P x.2 x.1)
    (hspan : ∀ x ∈ h', SpansGet x.2 x.1) (k : Bytes) :
    ∃ slot?, HeldIn h h' k slot? ∧ Answers s.mem s'.levelArray k slot? := by
  have hi := (always_systemOk hr hk).now
  cases hmem : Mem.get s.mem k with
  | some slot =>
    refine ⟨some slot, ⟨[], List.nil_suffix, hi.mem k slot hmem⟩, ?_⟩
    rw [Answers, hmem]
  | none =>
    have hspanned := (Spanned.start hi hread hl hmem).run hr' hk' hspan
    obtain ⟨slot?, hheld, hanswer⟩ := hspanned.reader
    refine ⟨slot?, hheld, ?_⟩
    rw [Answers, hmem]
    exact hanswer

/-! ### A key that is written and flushed between the looks -/

/-- The get has not found the key in the memtable and finds it in the tables. -/
theorem first_write_spanned : ∃ h' slot?, ∃ s' : System, HeldIn [(.idle, idleSystem)] h' [107] slot? ∧
    h'.map Prod.fst = [.reload, .write firstWrite] ∧
    Answers lateSystem.mem s'.levelArray [107] slot? := by
  have hreads := (always_systemOk firstFlush_run firstFlush_keeps).now.reads
  obtain ⟨levelArray, hl⟩ := hreads.exists_loaded flushedSystem_readable
  have hflush : Lib.Run (· = lateSystem) (SystemStep .plain) [(.write firstWrite, lateSystem)]
      flushedSystem := by
    cases firstFlush_run with
    | step _ hs => exact .step (.start rfl) hs
  have hkeeps := firstFlush_keeps
  rw [firstFlush, List.forall_mem_cons] at hkeeps
  have hlate : lateSystem.tables.Readable := by
    have hnone : ∀ {p f}, ¬lateSystem.tables.Table p f := by
      intro p f ht
      cases (Disk.file?_empty 0).symm.trans ht.1
    exact ⟨fun p f ht => absurd ht hnone, fun p f ht => absurd ht hnone,
      fun p q f g ht => absurd ht hnone⟩
  have hempty : Loaded lateSystem.tables.disk lateSystem.levelArray := ⟨[], rfl, .nil⟩
  obtain ⟨slot?, hheld, hanswer⟩ := split_get_linearizable firstFlush_late hkeeps.2 hlate
    hempty (.step hflush (.reload hl))
    (List.forall_mem_cons.2 ⟨trivial, List.forall_mem_cons.2 ⟨hkeeps.1, nofun⟩⟩)
    (List.forall_mem_cons.2 ⟨flushedSystem_readable, List.forall_mem_cons.2 ⟨trivial, nofun⟩⟩) [107]
  exact ⟨_, slot?, _, hheld, rfl, hanswer⟩

end Db
