import SwiftMerge.Db.Server
import SwiftMerge.Memtable.Proof.EntryCodec

/-!
# Which acknowledged writes a get sees

A flush empties the memtable, and the reader goes on with the level array it has until a compaction
finishes. So the first flush of a run hides what it has written, and a run shows every acknowledged
write in every state exactly when none of its writes flushes (`always_visible_iff`).

* `Quiet`: what holds before the first flush: no file on the disk, no table in the reader, and every
  write still in the memtable.
* `step_quiet`: a step that does not flush keeps it; `not_visible_flush`: a step that flushes hides
  the key it has just written.
-/

namespace Db

open Lib Lsm Mem Service

variable {P : Platform} {s s' : Server} {e : Event}

/-! ## Accepted writes -/

theorem exec_db {S : Type} {H : Handler MemOp S} {p : MemProg Unit} {st st' : S}
    (h : Prog.exec H (ServiceProg.db p) st = (.ok (), st')) : Prog.exec H p st = (.ok (), st') := by
  rw [ServiceProg.db, Prog.exec_bind_ok (Prog.exec_attempt H p st)] at h
  rcases hp : Prog.exec H p st with ⟨_ | _, st1⟩
  · rw [hp] at h
    cases h
  · rw [hp] at h
    cases h
    rfl

theorem exec_db_ok {p : MemProg Unit} {st st' : Store}
    (h : Prog.exec (memHandler P) p st = (.ok (), st')) :
    Prog.exec (memHandler P) (ServiceProg.db p) st = (.ok (), st') := by
  rw [ServiceProg.db, Prog.exec_bind_ok (Prog.exec_attempt (memHandler P) p st), h]
  rfl

theorem exec_put {req : PutRequest} {st st' : Store} (hv : validatePutRequest req = .ok ())
    (h : Prog.exec (memHandler P) (Mem.put P req.key (entryOf req)) st = (.ok (), st')) :
    Prog.exec (memHandler P) (Service.put P req) st = (.ok (), st') := by
  have hchecked : Prog.exec (memHandler P) (Prog.ofExcept (validatePutRequest req)) st =
      (.ok (), st) := by rw [Prog.exec_ofExcept, hv]
  rw [Service.put, Prog.exec_bind_ok hchecked, exec_db_ok h]

theorem step_write {w : Bytes × Option TableEntry} (h : Step P s e s') (he : e.write? = some w) :
    ∃ st, Prog.exec (memHandler P) (Mem.write P w.1 w.2) (s.mem, s.disk) = (.ok (), st) ∧
      s' = ⟨st.1, st.2, s.levelArray⟩ := by
  cases h with
  | put hx =>
    obtain rfl := Option.some.inj he
    rw [Service.put] at hx
    obtain ⟨_, st1, hv, hx⟩ := Prog.exec_bind_eq_ok hx
    rw [Prog.exec_ofExcept, Prod.mk.injEq] at hv
    obtain ⟨-, rfl⟩ := hv
    exact ⟨_, exec_db hx, rfl⟩
  | delete hx =>
    obtain rfl := Option.some.inj he
    exact ⟨_, exec_db hx, rfl⟩
  | get => cases he
  | reload => cases he
  | wait => cases he

/-! ## Empty readers -/

theorem read_empty {levelArray : List FileMap} (h : ∀ m ∈ levelArray, m = []) (k : Bytes) :
    ∃ levels, Lsm.read levelArray k = .ok (.missing 0 levels) := by
  have key : ∀ (la : List FileMap) (n : Nat), (∀ m ∈ la, m = []) →
      ∃ levels, readLevels k la 0 n = .ok (.missing 0 levels) := by
    intro la
    induction la with
    | nil => exact fun n _ => ⟨n, rfl⟩
    | cons m la ih =>
      intro n hm
      obtain rfl := hm m (.head _)
      obtain ⟨levels, hl⟩ := ih (n + 1) fun x hx => hm x (.tail _ hx)
      refine ⟨levels, ?_⟩
      rw [readLevels, show validTables [] k = .ok [] from rfl, ok_bind]
      dsimp only
      rw [List.mergeSort_nil]
      exact hl
  obtain ⟨levels, hl⟩ := key levelArray 0 h
  exact ⟨levels, by rw [Lsm.read, hl]; rfl⟩

/-- A disk without files loads as levels without tables. -/
theorem loaded_empty {d : Disk} {levelArray : List FileMap} (hd : d.files = ∅)
    (h : Loaded d levelArray) : ∀ m ∈ levelArray, m = [] := by
  obtain ⟨maps, hm, hp⟩ := h
  have hdir : ∀ level, d.dir level = [] := fun level => by
    rw [Disk.dir, hd]
    rfl
  have hmaps : ∀ m ∈ maps, m = [] := by
    intro m hmem
    obtain ⟨i, -, hi⟩ := exists_of_mem_right (mapM_ok hm) hmem
    rw [hdir] at hi
    exact (Except.ok.inj hi).symm
  intro m hmem
  obtain ⟨m', hm', hperm⟩ := exists_of_mem_right hp hmem
  rw [hmaps m' hm'] at hperm
  exact hperm.symm.eq_nil

/-! ## Before the first flush -/

/-- No file on the disk, no table in the reader, every write in the memtable. -/
structure Quiet (h : List (Event × Server)) (s : Server) : Prop where
  files : s.disk.files = ∅
  levelArray : ∀ m ∈ s.levelArray, m = []
  mem : ∀ k, s.mem.inMemoryRepr[k]? = lastWrite (h.map Prod.fst) k

theorem fresh_quiet (h : Fresh P s) : Quiet [] s := by
  obtain ⟨⟨content, hm⟩, ⟨clock, hd⟩, hl⟩ := h
  have hfiles : s.disk.files = ∅ := by
    rw [hd]
    rfl
  refine ⟨hfiles, loaded_empty hfiles hl, fun k => ?_⟩
  have hrepr : s.mem.inMemoryRepr = ∅ := by
    rw [hd, Memtable.new] at hm
    obtain ⟨config, -, hm⟩ := bind_ok hm
    split at hm
    · rw [← Except.ok.inj hm]
    · rw [← Except.ok.inj hm]
  rw [hrepr]
  simp [lastWrite]

theorem lastWrite_cons_write {events : List Event} {w : Bytes × Option TableEntry}
    (he : e.write? = some w) (k : Bytes) :
    lastWrite (e :: events) k = if w.1 = k then some w.2 else lastWrite events k := by
  rw [lastWrite, List.findSome?_cons, he]
  by_cases hk : w.1 = k
  · simp [hk]
  · simp [hk, lastWrite]

theorem lastWrite_cons_none {events : List Event} (he : e.write? = none) (k : Bytes) :
    lastWrite (e :: events) k = lastWrite events k := by
  rw [lastWrite, List.findSome?_cons, he]
  rfl

theorem getElem?_written (m : Memtable) (key : Bytes) (slot : Option TableEntry) (k : Bytes) :
    (written m key slot).inMemoryRepr[k]? = if key = k then some slot else m.inMemoryRepr[k]? := by
  rw [written]
  dsimp only
  rw [Std.ExtTreeMap.getElem?_insert]
  by_cases hk : key = k
  · rw [if_pos hk, if_pos (Std.LawfulEqOrd.compare_eq_iff_eq.2 hk)]
  · rw [if_neg hk, if_neg fun h => hk (Std.LawfulEqOrd.eq_of_compare h)]

/-- A step that does not flush keeps every write in the memtable. -/
theorem step_quiet {h : List (Event × Server)} (hq : Quiet h s) (hs : Step P s e s')
    (hf : ¬Flushes s e) : Quiet ((e, s) :: h) s' := by
  cases he : e.write? with
  | some w =>
    obtain ⟨st, hx, rfl⟩ := step_write hs he
    rcases exec_write_ok hx with ⟨-, rfl⟩ | ⟨hflush, -, -⟩
    · refine ⟨?_, hq.levelArray, fun k => ?_⟩
      · rw [← hq.files]
        unfold logged
        dsimp only
        split <;> rfl
      · rw [getElem?_written, List.map_cons, lastWrite_cons_write he, hq.mem]
    · exact absurd ⟨w, he, hflush⟩ hf
  | none =>
    have hmem : ∀ k, s.mem.inMemoryRepr[k]? = lastWrite (e :: h.map Prod.fst) k := fun k => by
      rw [lastWrite_cons_none he, hq.mem]
    cases hs with
    | put => cases he
    | delete => cases he
    | get => exact ⟨hq.files, hq.levelArray, hmem⟩
    | reload hl => exact ⟨hq.files, loaded_empty hq.files hl, hmem⟩
    | wait => exact ⟨hq.files, hq.levelArray, hmem⟩

theorem Quiet.visible {h : List (Event × Server)} (hq : Quiet h s) : Visible h s :=
  fun k slot hw => .inl (by rw [Mem.get, hq.mem, hw])

/-- A step that flushes hides the key it has written. -/
theorem not_visible_flush {h : List (Event × Server)} (hq : Quiet h s) (hs : Step P s e s')
    (hf : Flushes s e) : ¬Visible ((e, s) :: h) s' := by
  obtain ⟨w, he, hflush⟩ := hf
  obtain ⟨st, hx, rfl⟩ := step_write hs he
  intro hv
  have hlast : lastWrite (e :: h.map Prod.fst) w.1 = some w.2 := by
    rw [lastWrite_cons_write he, if_pos rfl]
  rcases exec_write_ok hx with ⟨hno, -⟩ | ⟨-, -, rfl⟩
  · rw [hflush] at hno
    cases hno
  · rcases hv _ _ hlast with hmem | ⟨-, tables, levels, hread⟩
    · simp [Mem.get, flushedMem] at hmem
    · obtain ⟨n, hmiss⟩ := read_empty hq.levelArray w.1
      dsimp only at hread
      rw [hmiss] at hread
      cases hread

/-- **Acknowledged writes stay visible exactly when nothing is flushed.** -/
theorem always_visible_iff {h : List (Event × Server)} (hr : Run P h s) :
    Always Visible h s ↔ ∀ x ∈ h, ¬Flushes x.2 x.1 := by
  refine hr.always_iff fresh_quiet step_quiet Quiet.visible ?_
  intro h s e s' hq hs hv hf
  exact not_visible_flush hq hs hf hv

/-! ## One put, in time and late -/

/-- The memtable of a server started with the built-in configuration when the clock shows 0. -/
def idleMem : Memtable := ⟨∅, defaultConfig, 600 * 10 ^ 9, 0⟩

/-- The put of a one-byte value under a one-byte key. -/
def onePut : PutRequest := ⟨[107], [118], ∅⟩

theorem idle_fresh : Fresh .plain ⟨idleMem, Disk.empty 0, []⟩ :=
  ⟨⟨.default, rfl⟩, ⟨0, rfl⟩, ⟨[], rfl, .nil⟩⟩

theorem put_visible : ∃ h s, Run .plain h s ∧ h.map Prod.fst = [.put onePut] ∧
    Always Visible h s := by
  have hquiet : shouldFlush (written idleMem [107] (some (entryOf onePut))) 0 = false := by decide
  obtain ⟨st, hput⟩ : ∃ st, Prog.exec (memHandler .plain) (Service.put .plain onePut)
      (idleMem, Disk.empty 0) = (.ok (), st) :=
    ⟨_, exec_put rfl (exec_write_quiet (counterOk_plain _ _ _) hquiet)⟩
  have hrun : Run .plain _ _ := .step (.start idle_fresh) (.put hput)
  refine ⟨_, _, hrun, rfl, (always_visible_iff hrun).2 fun x hx => ?_⟩
  obtain rfl := List.mem_singleton.1 hx
  intro ⟨w, hw, hf⟩
  obtain rfl := Option.some.inj hw
  exact Bool.false_ne_true (hquiet.symm.trans hf)

/-- **A put after the flush time is acknowledged and not found**: the server waits past the time of
its next flush and accepts a put, which flushes; no loaded table holds the record. -/
theorem late_put_not_visible : ∃ h s, Run .plain h s ∧
    h.map Prod.fst = [.put onePut, .wait] ∧ ¬Always Visible h s := by
  have hwait := Step.wait (P := .plain) (s := ⟨idleMem, Disk.empty 0, []⟩) (t := 600 * 10 ^ 9 + 1)
    (Nat.zero_le _)
  have hflush : shouldFlush (written idleMem [107] (some (entryOf onePut))) (600 * 10 ^ 9 + 1) =
      true := by
    decide
  have hable : Flushable (written idleMem [107] (some (entryOf onePut))) :=
    ⟨by simp [written], by decide, rfl⟩
  obtain ⟨st, hput⟩ : ∃ st, Prog.exec (memHandler .plain) (Service.put .plain onePut)
      (idleMem, (Disk.empty 0).waitUntil (600 * 10 ^ 9 + 1) (Nat.zero_le _)) = (.ok (), st) :=
    ⟨_, exec_put rfl (exec_write_flush
      (d := (Disk.empty 0).waitUntil (600 * 10 ^ 9 + 1) (Nat.zero_le _))
      (counterOk_plain _ _ _) hflush hable)⟩
  have hq := step_quiet (fresh_quiet idle_fresh) hwait fun hf => by
    obtain ⟨w, hw, -⟩ := hf
    cases hw
  exact ⟨_, _, .step (.step (.start idle_fresh) hwait) (.put hput), rfl,
    fun h => not_visible_flush hq (.put hput) ⟨_, rfl, hflush⟩ h.1⟩

end Db
