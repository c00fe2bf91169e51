import SwiftMerge.Memtable.Proof.Writes

/-!
# Memtables with the tables they have flushed

`trackedHandler` runs the memtable's code and keeps the maps it has flushed, newest first, each from
the moment on at which its table is written. Time passes between the calls of a program as `delay`
says, so a run may flush after any of its writes. The *view* of a state is its memtable over these
maps: a write changes the view at its key, whether or not it flushes (`write_view`).

Where no time passes the code runs as it does without them (`exec_tracked`), and the maps are those
that the files of `data/l1` are made of (`TablesOnDisk`, `TablesOnDisk.write`).
-/

namespace Mem

open Lib Lsm

/-- A store, the maps flushed so far, newest first, and the number of calls made. -/
structure Tracked where
  store : Store
  tables : List InMemoryRepr
  calls : Nat

/-- The store a while later. -/
def Store.pass (s : Store) (delay : Nat) : Store :=
  (s.1, s.2.waitUntil (s.2.clock + delay) (Nat.le_add_right _ _))

/-- The maps flushed so far, after a call: the bytes a memtable appends to a file are those of its
map's table. -/
def Tracked.tablesAfter {β : Type} (o : MemOp β) (s : Tracked) : List InMemoryRepr :=
  match o with
  | .disk (.append _ _) => s.store.1.inMemoryRepr :: s.tables
  | _ => s.tables

def trackedHandler (P : Platform) (delay : Nat → Nat) : Handler MemOp Tracked where
  step o s :=
    let r := (memHandler P).step o (s.store.pass (delay s.calls))
    (r.1, ⟨r.2, s.tablesAfter o, s.calls + 1⟩)
  during o s t := (memHandler P).during o (s.store.pass (delay s.calls)) t.store ∧
    t.tables = s.tables

/-- Where no time passes a program runs as it does on the store alone. -/
theorem exec_tracked {ε α : Type} (P : Platform) (p : Prog MemOp ε α) (s : Tracked) :
    Prog.exec (memHandler P) p s.store =
      ((Prog.exec (trackedHandler P fun _ => 0) p s).1,
        (Prog.exec (trackedHandler P fun _ => 0) p s).2.store) :=
  Prog.exec_erase Tracked.store (fun _ _ => rfl) p s

/-- What a key has in the memtable, or else in the newest table that has it. -/
def view (s : Tracked) (key : Bytes) : Option (Option TableEntry) :=
  (s.store.1.inMemoryRepr :: s.tables).findSome? (·[key]?)

section
variable {P : Platform} {delay : Nat → Nat} {s s' : Tracked}

/-! ## Calls that change neither the memtable nor a file -/

/-- The same memtable and the same files, later. -/
structure Unchanged (s s' : Tracked) : Prop where
  mem : s'.store.1 = s.store.1
  tables : s'.tables = s.tables
  files : s'.store.2.files = s.store.2.files
  clock : s.store.2.clock ≤ s'.store.2.clock

theorem Unchanged.refl (s : Tracked) : Unchanged s s := ⟨rfl, rfl, rfl, Nat.le_refl _⟩

theorem Unchanged.trans {a b c : Tracked} (h : Unchanged a b) (h' : Unchanged b c) :
    Unchanged a c :=
  ⟨h'.mem.trans h.mem, h'.tables.trans h.tables, h'.files.trans h.files, h.clock.trans h'.clock⟩

theorem Unchanged.view (h : Unchanged s s') : Mem.view s' = Mem.view s := by
  funext key
  rw [Mem.view, Mem.view, h.mem, h.tables]

theorem Unchanged.file? (h : Unchanged s s') (p : Path) :
    s'.store.2.file? p = s.store.2.file? p := by
  rw [Disk.file?, Disk.file?, h.files]

/-- The call changes neither the memtable nor a file. -/
def MemOp.Plain : {β : Type} → MemOp β → Prop
  | _, .get => True
  | _, .disk .now => True
  | _, .disk (.dirExists _) => True
  | _, .disk (.createDir _) => True
  | _, .disk (.sync _) => True
  | _, .disk (.walWrite _) => True
  | _, .disk .walClear => True
  | _, _ => False

/-- A plain call leaves the files and the clock of the disk. -/
theorem step_disk_plain {β : Type} {o : DiskOp β} (h : (MemOp.disk o).Plain) (d : Disk) :
    (Disk.step P o d).2.files = d.files ∧ (Disk.step P o d).2.clock = d.clock := by
  have heffect : (o.effect P d).files = d.files ∧ (o.effect P d).clock = d.clock := by
    cases o with
    | now | dirExists | createDir | sync | walWrite | walClear => exact ⟨rfl, rfl⟩
    | readDir | read | create | append | truncate | rename | remove | walRead => exact h.elim
  exact Disk.step_rule (R := fun d d' => d'.files = d.files ∧ d'.clock = d.clock) ⟨rfl, rfl⟩ heffect

theorem step_plain (P : Platform) (delay : Nat → Nat) {β : Type} {o : MemOp β} (h : o.Plain)
    (s : Tracked) : Unchanged s ((trackedHandler P delay).step o s).2 := by
  have hclock : s.store.2.clock ≤ s.store.2.clock + delay s.calls := Nat.le_add_right _ _
  cases o with
  | get => exact ⟨rfl, rfl, rfl, hclock⟩
  | set m => exact h.elim
  | disk o =>
    obtain ⟨hfiles, hsame⟩ := step_disk_plain (P := P) h (s.store.pass (delay s.calls)).2
    refine ⟨rfl, ?_, hfiles, hclock.trans hsame.ge⟩
    cases o with
    | append => exact h.elim
    | _ => rfl

theorem during_plain {β : Type} {o : MemOp β} (h : o.Plain) {s t : Tracked}
    (hd : (trackedHandler P delay).during o s t) : Unchanged s t := by
  have hclock : s.store.2.clock ≤ s.store.2.clock + delay s.calls := Nat.le_add_right _ _
  obtain ⟨hstore, htables⟩ := hd
  cases o with
  | get | set => exact hstore.elim
  | disk o =>
    obtain ⟨hmem, hdisk⟩ := hstore
    cases o with
    | append => exact h.elim
    | walWrite bs =>
      obtain ⟨n, ht⟩ := hdisk
      refine ⟨hmem, htables, ?_, ?_⟩
      · rw [ht]
        rfl
      · rw [ht]
        exact hclock
    | _ => exact hdisk.elim

theorem exec_plain {ε α : Type} {p : Prog MemOp ε α} (h : Prog.All MemOp.Plain p) {r : Except ε α}
    (hx : Prog.exec (trackedHandler P delay) p s = (r, s')) : Unchanged s s' := by
  have hframe := (h.frame Unchanged.refl Unchanged.trans
    (fun _ ho s => ⟨step_plain P delay ho s, fun _ => during_plain ho⟩) s).1
  rwa [hx] at hframe

theorem Unchanged.of_perform {α : Type} {o : MemOp α} {a : α}
    (hx : Prog.exec (trackedHandler P delay) (Prog.perform o : MemProg α) s = (.ok a, s'))
    (h : o.Plain) : Unchanged s s' := exec_plain (Prog.all_perform.2 h) hx

theorem plain_io {α : Type} {o : DiskOp (Except IoError α)} (h : (MemOp.disk o).Plain) :
    Prog.All MemOp.Plain (MemProg.io o) :=
  Prog.All.bind (Prog.all_perform.2 h) fun _ => Prog.all_ofExcept _

theorem Unchanged.of_io {α : Type} {o : DiskOp (Except IoError α)} {a : α}
    (hx : Prog.exec (trackedHandler P delay) (MemProg.io o) s = (.ok a, s'))
    (h : (MemOp.disk o).Plain) : Unchanged s s' := exec_plain (plain_io h) hx

theorem Unchanged.of_ensure {b : Bool} {e : Failure MemtableError} {u : Unit}
    (hx : Prog.exec (trackedHandler P delay) (Prog.ensure b e) s = (.ok u, s')) : Unchanged s s' :=
  exec_plain (Prog.all_ensure b e) hx

/-! ## Calls and their results -/

/-- The same files, later. -/
structure Later (d d' : Disk) : Prop where
  files : d'.files = d.files
  clock : d.clock ≤ d'.clock

theorem later_pass (s : Store) (delay : Nat) : Later s.2 (s.pass delay).2 :=
  ⟨rfl, Nat.le_add_right _ _⟩

theorem Later.file? {d d' : Disk} (h : Later d d') (p : Path) : d'.file? p = d.file? p := by
  rw [Disk.file?, Disk.file?, h.files]

theorem exec_tracked_perform {α : Type} {o : MemOp α} {a : α}
    (h : Prog.exec (trackedHandler P delay) (Prog.perform o : MemProg α) s = (.ok a, s')) :
    a = ((trackedHandler P delay).step o s).1 ∧ s' = ((trackedHandler P delay).step o s).2 := by
  rw [Prog.exec_perform, Prod.mk.injEq, Except.ok.injEq] at h
  exact ⟨h.1.symm, h.2.symm⟩

theorem exec_tracked_io {α : Type} {o : DiskOp (Except IoError α)} {a : α}
    (h : Prog.exec (trackedHandler P delay) (MemProg.io o) s = (.ok a, s')) :
    .ok a = ((trackedHandler P delay).step (.disk o) s).1 ∧
      s' = ((trackedHandler P delay).step (.disk o) s).2 := by
  rw [MemProg.io] at h
  obtain ⟨x, t, hx, h⟩ := Prog.exec_bind_eq_ok h
  rw [Prog.exec_ofExcept, Prod.mk.injEq] at h
  obtain ⟨hret, rfl⟩ := h
  obtain ⟨rfl, rfl⟩ := exec_tracked_perform hx
  refine ⟨?_, rfl⟩
  cases hx : ((trackedHandler P delay).step (.disk o) s).1 with
  | error e =>
    rw [hx] at hret
    cases hret
  | ok a' =>
    rw [hx] at hret
    rw [Except.ok.inj hret]

theorem exec_tracked_create {p : Path} {u : Unit}
    (h : Prog.exec (trackedHandler P delay) (MemProg.io (.create p)) s = (.ok u, s')) :
    s'.store.1 = s.store.1 ∧ s'.tables = s.tables ∧
      ∃ d, Later s.store.2 d ∧ s'.store.2 = d.create P p := by
  obtain ⟨hret, rfl⟩ := exec_tracked_io h
  refine ⟨rfl, rfl, _, later_pass s.store (delay s.calls), ?_⟩
  change _ = (Disk.step P (.create p) (s.store.pass (delay s.calls)).2).1 at hret
  show (Disk.step P (.create p) (s.store.pass (delay s.calls)).2).2 = _
  rw [Disk.step] at hret ⊢
  split
  · rfl
  · rename_i hc
    rw [if_neg hc] at hret
    cases hret

theorem exec_tracked_append {p : Path} {bs : Bytes} {u : Unit}
    (h : Prog.exec (trackedHandler P delay) (MemProg.io (.append p bs)) s = (.ok u, s')) :
    s'.store.1 = s.store.1 ∧ s'.tables = s.store.1.inMemoryRepr :: s.tables ∧
      ∃ d, Later s.store.2 d ∧ s'.store.2 = d.append p bs := by
  obtain ⟨hret, rfl⟩ := exec_tracked_io h
  refine ⟨rfl, rfl, _, later_pass s.store (delay s.calls), ?_⟩
  change _ = (Disk.step P (.append p bs) (s.store.pass (delay s.calls)).2).1 at hret
  show (Disk.step P (.append p bs) (s.store.pass (delay s.calls)).2).2 = _
  rw [Disk.step] at hret ⊢
  split
  · rfl
  · rename_i hnone
    rw [hnone] at hret
    cases hret

/-- A table was written in the file at `p`. -/
structure TableWritten (p : Path) (bs : Bytes) (s s' : Tracked) : Prop where
  mem : s'.store.1 = s.store.1
  tables : s'.tables = s.store.1.inMemoryRepr :: s.tables
  clock : s.store.2.clock ≤ s'.store.2.clock
  /-- a new file is stamped, and the clock goes on -/
  fresh : s.store.2.file? p = none → s.store.2.clock < s'.store.2.clock
  file : ∃ f, s'.store.2.file? p = some f ∧ f.bytes = bs
  others : ∀ q, q ≠ p → s'.store.2.file? q = s.store.2.file? q

theorem exec_tracked_table {p : Path} {bs : Bytes} {u u' : Unit} {s₁ : Tracked}
    (hcreate : Prog.exec (trackedHandler P delay) (MemProg.io (.create p)) s = (.ok u, s₁))
    (happend : Prog.exec (trackedHandler P delay) (MemProg.io (.append p bs)) s₁ = (.ok u', s')) :
    TableWritten p bs s s' := by
  obtain ⟨hmem₁, htables₁, d, hd, h₁⟩ := exec_tracked_create hcreate
  obtain ⟨hmem, htables, d', hd', h⟩ := exec_tracked_append happend
  have hclock : (d.create P p).clock ≤ s'.store.2.clock := by
    rw [h, Disk.clock_append, ← h₁]
    exact hd'.clock
  have hempty : d'.file? p = some ⟨d.createdAt p, []⟩ := by
    rw [hd'.file?, h₁]
    exact Disk.file?_create_self
  refine ⟨hmem.trans hmem₁, ?_, ?_, fun hfree => ?_, ⟨⟨d.createdAt p, bs⟩, ?_, rfl⟩, fun q hq => ?_⟩
  · rw [htables, hmem₁, htables₁]
  · exact (hd.clock.trans Disk.clock_le_create).trans hclock
  · rw [Disk.clock_create ((hd.file? p).trans hfree)] at hclock
    exact (hd.clock.trans_lt (P.lt_later d.clock)).trans_le hclock
  · rw [h]
    exact Disk.file?_append_self hempty
  · rw [h, Disk.file?_append hq, hd'.file?, h₁, Disk.file?_create hq, hd.file?]

/-! ## The flush -/

/-- What a flush does: the map becomes the newest table, in a file whose name is made at a time that
has come since, and a new map begins. -/
structure Flushed (P : Platform) (s s' : Tracked) : Prop where
  mem : s'.store.1.inMemoryRepr = ∅
  tables : s'.tables = s.store.1.inMemoryRepr :: s.tables
  clock : s.store.2.clock ≤ s'.store.2.clock
  file : ∃ t, s.store.2.clock ≤ t ∧
    (∀ q, q ≠ ⟨1, ssTableName (P.uuid t)⟩ → s'.store.2.file? q = s.store.2.file? q) ∧
    (∃ f, s'.store.2.file? ⟨1, ssTableName (P.uuid t)⟩ = some f ∧
      f.bytes = flushBuffer P s.store.1.inMemoryRepr s.store.1.config.bloomFalsePositiveRate) ∧
    (s.store.2.file? ⟨1, ssTableName (P.uuid t)⟩ = none → t < s'.store.2.clock)

theorem plain_createL1 : Prog.All MemOp.Plain createL1 :=
  .bind (Prog.all_perform.2 trivial) fun _ => (plain_io (o := .createDir 1) trivial).when

theorem exec_tracked_flush (h : Prog.exec (trackedHandler P delay) (flush P) s = (.ok (), s')) :
    Flushed P s s' := by
  unfold flush at h
  obtain ⟨m, s1, hget, h⟩ := Prog.exec_bind_eq_ok h
  obtain ⟨_, s2, hensure, h⟩ := Prog.exec_bind_eq_ok h
  obtain ⟨_, s3, hdir, h⟩ := Prog.exec_bind_eq_ok h
  obtain ⟨t, s4, hnow, h⟩ := Prog.exec_bind_eq_ok h
  obtain ⟨_, s5, hsize, h⟩ := Prog.exec_bind_eq_ok h
  obtain ⟨_, s6, hlocal, h⟩ := Prog.exec_bind_eq_ok h
  obtain ⟨_, s7, hcreate, h⟩ := Prog.exec_bind_eq_ok h
  obtain ⟨_, s8, happend, h⟩ := Prog.exec_bind_eq_ok h
  obtain ⟨_, s9, hsync, h⟩ := Prog.exec_bind_eq_ok h
  obtain ⟨_, s10, hclear, h⟩ := Prog.exec_bind_eq_ok h
  obtain ⟨now, s11, hnow', h⟩ := Prog.exec_bind_eq_ok h
  -- but for the table, nothing changes
  have h3 : Unchanged s s3 := ((Unchanged.of_perform hget trivial).trans (.of_ensure hensure)).trans
    (exec_plain plain_createL1 hdir)
  have h4 : Unchanged s s4 := h3.trans (.of_perform hnow trivial)
  have h46 : Unchanged s4 s6 := (Unchanged.of_ensure hsize).trans (.of_ensure hlocal)
  have h6 : Unchanged s s6 := h4.trans h46
  have h11 : Unchanged s8 s11 := ((Unchanged.of_io hsync trivial).trans (.of_io hclear trivial)).trans
    (.of_perform hnow' trivial)
  obtain ⟨hm, -⟩ := exec_tracked_perform hget
  obtain rfl : m = s.store.1 := hm
  obtain ⟨htime, hs4⟩ := exec_tracked_perform hnow
  have ht : s4.store.2.clock = t := by rw [htime, hs4]; rfl
  have h8 := exec_tracked_table hcreate happend
  obtain ⟨-, rfl⟩ := exec_tracked_perform h
  -- the last call sets the memtable
  have hlast := later_pass s11.store (delay s11.calls)
  have hfile : ∀ q, (s11.store.pass (delay s11.calls)).2.file? q = s8.store.2.file? q := fun q =>
    (hlast.file? q).trans (h11.file? q)
  have hclock : s8.store.2.clock ≤ (s11.store.pass (delay s11.calls)).2.clock :=
    h11.clock.trans hlast.clock
  have hst : s.store.2.clock ≤ t := ht ▸ h4.clock
  have hts : t ≤ s6.store.2.clock := ht ▸ h46.clock
  obtain ⟨f, hf, hbytes⟩ := h8.file
  refine ⟨rfl, ?_, ?_, t, hst, fun q hq => ?_, ⟨f, (hfile _).trans hf, hbytes⟩, fun hfree => ?_⟩
  · show s11.tables = _
    rw [h11.tables, h8.tables, h6.mem, h6.tables]
  · exact (hst.trans hts).trans (h8.clock.trans hclock)
  · exact (hfile q).trans ((h8.others q hq).trans (h6.file? q))
  · exact (hts.trans_lt (h8.fresh ((h6.file? _).trans hfree))).trans_le hclock

/-- A flush moves the map below an empty one: the view stays. -/
theorem Flushed.view (h : Flushed P s s') : Mem.view s' = Mem.view s := by
  funext key
  rw [Mem.view, Mem.view, h.mem, h.tables, List.findSome?_cons]
  simp

/-! ## The write -/

/-- What a write does before the flush that it may bring about: the map has the new slot, and the
files are as they were. -/
structure Inserted (key : Bytes) (slot : Option TableEntry) (s s' : Tracked) : Prop where
  mem : s'.store.1.inMemoryRepr = s.store.1.inMemoryRepr.insert key slot
  tables : s'.tables = s.tables
  files : Later s.store.2 s'.store.2

theorem Inserted.view {key : Bytes} {slot : Option TableEntry} (h : Inserted key slot s s') :
    Mem.view s' = Function.update (Mem.view s) key (some slot) := by
  funext k
  rw [Mem.view, h.mem, h.tables, List.findSome?_cons, Std.ExtTreeMap.getElem?_insert]
  by_cases hk : k = key
  · subst hk
    rw [if_pos Std.ReflCmp.compare_self, Function.update_self]
  · rw [if_neg fun he => hk (Std.LawfulEqOrd.eq_of_compare he).symm, Function.update_of_ne hk,
      Mem.view, List.findSome?_cons]

/-- **A write** updates the map, and then flushes or does nothing more. -/
theorem exec_tracked_write {key : Bytes} {slot : Option TableEntry}
    (h : Prog.exec (trackedHandler P delay) (write P key slot) s = (.ok (), s')) :
    ∃ t, Inserted key slot s t ∧ (Flushed P t s' ∨ Unchanged t s') := by
  unfold write at h
  obtain ⟨m, s1, hget, h⟩ := Prog.exec_bind_eq_ok h
  obtain ⟨_, s2, hlog, h⟩ := Prog.exec_bind_eq_ok h
  obtain ⟨size, s3, hsize, h⟩ := Prog.exec_bind_eq_ok h
  obtain ⟨_, s4, hset, h⟩ := Prog.exec_bind_eq_ok h
  obtain ⟨-, rfl⟩ := exec_updateSize hsize
  have hwal : Prog.All MemOp.Plain (Prog.when m.config.walEnabled (do
      let _ ← MemProg.io (.walWrite (toWalEntry key (.ofSlot slot))) : MemProg Unit)) :=
    (Prog.All.bind (plain_io (o := .walWrite (toWalEntry key (.ofSlot slot))) trivial)
      fun _ => Prog.all_pure _).when
  have h3 : Unchanged s s3 := (Unchanged.of_perform hget trivial).trans (exec_plain hwal hlog)
  obtain ⟨hm, -⟩ := exec_tracked_perform hget
  obtain rfl : m = s.store.1 := hm
  obtain ⟨-, rfl⟩ := exec_tracked_perform hset
  -- the flush when it is due
  unfold manageFlush at h
  obtain ⟨m', s5, hget', h⟩ := Prog.exec_bind_eq_ok h
  obtain ⟨now, s6, hnow, h⟩ := Prog.exec_bind_eq_ok h
  have hpass := later_pass s3.store (delay s3.calls)
  have h6 := (Unchanged.of_perform hget' trivial).trans (.of_perform hnow trivial)
  refine ⟨s6, ⟨by rw [h6.mem]; rfl, h6.tables.trans h3.tables, ?_, ?_⟩, ?_⟩
  · exact (h6.files.trans hpass.files).trans h3.files
  · exact (h3.clock.trans hpass.clock).trans h6.clock
  · cases hf : shouldFlush m' now with
    | false =>
      rw [hf] at h
      cases h
      exact .inr (.refl _)
    | true =>
      rw [hf] at h
      exact .inl (exec_tracked_flush h)

/-- **A write changes the view at its key and nowhere else**, whether or not it flushes. -/
theorem write_view {key : Bytes} {slot : Option TableEntry}
    (h : Prog.exec (trackedHandler P delay) (write P key slot) s = (.ok (), s')) :
    view s' = Function.update (view s) key (some slot) := by
  obtain ⟨t, hins, hflush | hsame⟩ := exec_tracked_write h
  · rw [hflush.view, hins.view]
  · rw [hsame.view, hins.view]

/-! ## The tables and the files -/

/-- The map is that of a file of `data/l1` whose name was made at `t`. -/
structure IsTable (P : Platform) (d : Disk) (t : Nat) (map : InMemoryRepr) : Prop where
  past : t < d.clock
  file : ∃ f rate, d.file? ⟨1, ssTableName (P.uuid t)⟩ = some f ∧ f.bytes = flushBuffer P map rate

/-- The maps flushed so far are those of files of `data/l1`, the newest name first, and no file has
a name of the time to come. -/
structure TablesOnDisk (P : Platform) (s : Tracked) : Prop where
  tables : ∃ times : List Nat, times.Pairwise (· > ·) ∧
    List.Forall₂ (IsTable P s.store.2) times s.tables
  fresh : ∀ t, s.store.2.clock ≤ t → s.store.2.file? ⟨1, ssTableName (P.uuid t)⟩ = none

theorem TablesOnDisk.later (h : TablesOnDisk P s) (htables : s'.tables = s.tables)
    (hd : Later s.store.2 s'.store.2) : TablesOnDisk P s' := by
  obtain ⟨⟨times, hpair, hall⟩, hfresh⟩ := h
  have hkept : ∀ t map, IsTable P s.store.2 t map → IsTable P s'.store.2 t map := by
    intro t map ht
    refine ⟨ht.past.trans_le hd.clock, ?_⟩
    rw [hd.file?]
    exact ht.file
  refine ⟨⟨times, hpair, ?_⟩, fun t ht => ?_⟩
  · rw [htables]
    exact hall.imp hkept
  · rw [hd.file?]
    exact hfresh t (hd.clock.trans ht)

/-- A flush writes one more table, under a name that is new. -/
theorem TablesOnDisk.flushed (h : TablesOnDisk P s) (hf : Flushed P s s') : TablesOnDisk P s' := by
  obtain ⟨⟨times, hpair, hall⟩, hfresh⟩ := h
  obtain ⟨t, hst, hother, ⟨f, hfile, hbytes⟩, hclock⟩ := hf.file
  have htime := hclock (hfresh t hst)
  have hne : ∀ u, u ≠ t → (⟨1, ssTableName (P.uuid u)⟩ : Path) ≠ ⟨1, ssTableName (P.uuid t)⟩ :=
    fun u hu he => hu (P.uuid_inj (ssTableName_inj (congrArg Path.name he)))
  have holder : ∀ u ∈ times, u < t := fun u hu => by
    obtain ⟨map, -, htable⟩ :=
      exists_of_mem_right (List.Forall₂.flip (R := flip (IsTable P s.store.2)) hall) hu
    exact htable.past.trans_le hst
  have hkept : ∀ u map, IsTable P s.store.2 u map → IsTable P s'.store.2 u map := by
    intro u map hu
    have hut : u ≠ t := (hu.past.trans_le hst).ne
    refine ⟨hu.past.trans_le hf.clock, ?_⟩
    rw [hother _ (hne u hut)]
    exact hu.file
  refine ⟨⟨t :: times, List.pairwise_cons.2 ⟨holder, hpair⟩, ?_⟩, fun u hu => ?_⟩
  · rw [hf.tables]
    exact .cons ⟨htime, f, _, hfile, hbytes⟩ (hall.imp hkept)
  · rw [hother _ (hne u (htime.trans_le hu).ne')]
    exact hfresh u (hf.clock.trans hu)

theorem TablesOnDisk.write {key : Bytes} {slot : Option TableEntry} (h : TablesOnDisk P s)
    (hx : Prog.exec (trackedHandler P delay) (write P key slot) s = (.ok (), s')) :
    TablesOnDisk P s' := by
  obtain ⟨t, hins, hflush | hsame⟩ := exec_tracked_write hx
  · exact (h.later hins.tables hins.files).flushed hflush
  · exact (h.later hins.tables hins.files).later hsame.tables ⟨hsame.files, hsame.clock⟩

end

end Mem
