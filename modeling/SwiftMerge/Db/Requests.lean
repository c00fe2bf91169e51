import SwiftMerge.Db.System

/-!
# Requests as runs of the system

A request of the service is one write after another, or one step of another kind. One that it
accepts is a run of steps of the system and acknowledges its writes in order (`accepts_steps`). A
batch is a sequence whatever the calls below it answer (`batchWrite_eq`), so one that fails has done
the writes before the one that failed, and none behind it (`batch_fails_behind`). What a get answers
after a run tells the keys that are put from the others (`get_tells_puts`).
-/

namespace Db

open Lib Lsm Mem Compaction Service

variable {P : Platform} {s s' : System} {h : List (SystemEvent × System)} {e : SystemEvent}

/-! ## Accepted requests -/

theorem acknowledged_writes (ops : List LogOp) (events : List SystemEvent) :
    acknowledged ((ops.map SystemEvent.write).reverse ++ events) =
      LogOp.replay ops (acknowledged events) := by
  induction ops generalizing events with
  | nil => rfl
  | cons op ops ih =>
    rw [List.map_cons, List.reverse_cons, List.append_assoc, List.singleton_append, ih]
    rfl

theorem writesTo_run {ops : List LogOp} {st st' : Store} (hw : WritesTo P st ops st') :
    ∀ {s : System}, s.store = st → ∃ h s', Lib.Run (· = s) (SystemStep P) h s' ∧ s'.store = st' ∧
      s'.levelArray = s.levelArray ∧ h.map Prod.fst = (ops.map SystemEvent.write).reverse := by
  induction hw with
  | nil => exact fun {s} hs => ⟨[], s, .start rfl, hs, rfl, rfl⟩
  | @cons st st₁ st' op ops hx _ ih =>
    intro s hs
    obtain ⟨h, s', hr, hst, hla, hevents⟩ := ih
      (s := ⟨st₁.1, { s.tablesAfter P op with disk := st₁.2 }, s.levelArray⟩) rfl
    have hfirst : Lib.Run (· = s) (SystemStep P) [(.write op, s)] _ :=
      .step (.start rfl) (.write (hs ▸ hx))
    refine ⟨h ++ [(.write op, s)], s', hfirst.append hr, hst, hla, ?_⟩
    rw [List.map_append, hevents, List.map_cons (l := ops), List.reverse_cons]
    rfl

/-- **A request that the service accepts is a run of steps**, and what it acknowledges are its
writes, one after another. -/
theorem accepts_steps {r : Request} {st : Store} (hx : Accepts P s.store r st) :
    ∃ h' s', Lib.Run (· = s) (SystemStep P) h' s' ∧ s'.store = st ∧
      s'.levelArray = s.levelArray ∧ ∀ events, acknowledged (h'.map Prod.fst ++ events) =
        LogOp.replay r.writes (acknowledged events) := by
  have hwrites : WritesTo P s.store r.writes st → ∃ h' s', Lib.Run (· = s) (SystemStep P) h' s' ∧
      s'.store = st ∧ s'.levelArray = s.levelArray ∧ ∀ events,
        acknowledged (h'.map Prod.fst ++ events) = LogOp.replay r.writes (acknowledged events) := by
    intro hw
    obtain ⟨h', s', hr, hst, hla, hevents⟩ := writesTo_run hw rfl
    refine ⟨h', s', hr, hst, hla, fun events => ?_⟩
    rw [hevents, acknowledged_writes]
  generalize hstore : s.store = store at hx
  cases hx with
  | put hx =>
    rw [Service.put] at hx
    obtain ⟨_, s₁, hv, hx⟩ := Prog.exec_bind_eq_ok hx
    rw [Prog.exec_ofExcept, Prod.mk.injEq] at hv
    obtain ⟨-, rfl⟩ := hv
    exact hwrites (hstore ▸ .cons (exec_db hx) .nil)
  | delete hx => exact hwrites (hstore ▸ .cons (exec_db hx) .nil)
  | batchWrite hx => exact hwrites (hstore ▸ writesTo_batchWrite hx)
  | reloadConfig hm hw =>
    obtain ⟨rfl, rfl⟩ := Prod.mk.inj hstore
    exact ⟨_, _, .step (.start rfl) (.updateConfig hm hw), rfl, rfl, fun _ => rfl⟩
  | wait ht =>
    obtain ⟨rfl, rfl⟩ := Prod.mk.inj hstore
    have hd : Disk.Keeps (fun _ => False) s.tables.disk (s.tables.disk.waitUntil _ ht) :=
      ⟨fun _ => rfl, Nat.le_refl _, ht⟩
    exact ⟨_, _, .step (.start rfl) (.idle hd rfl), rfl, rfl, fun _ => rfl⟩

theorem firstWrite_steps : ∃ h' s' st, Accepts .plain idleSystem.store (.put onePut) st ∧
    Lib.Run (· = idleSystem) (SystemStep .plain) h' s' ∧ s'.store = st ∧
    s'.levelArray = idleSystem.levelArray ∧ ∀ events, acknowledged (h'.map Prod.fst ++ events) =
      LogOp.replay (Request.put onePut).writes (acknowledged events) := by
  have hquiet : shouldFlush (written idleMem [107] (some (entryOf onePut))) 0 = false := by decide
  have hput : Accepts .plain idleSystem.store (.put onePut) _ :=
    .put (exec_put rfl (exec_write_quiet (counterOk_plain _ _ _) hquiet))
  obtain ⟨h', s', hr⟩ := accepts_steps hput
  exact ⟨h', s', _, hput, hr⟩

/-! ## Answers -/

/-- The response to a get of a key whose last write is `slot?`: from the tables, the entry comes as
it is stored. -/
def clientResponse (inMemory : Bool) (filter : Option FilterParam) :
    Option (Option TableEntry) → GetResponse
  | some (some entry) =>
    if inMemory then memoryResponse (some entry) filter else ⟨some entry.serialize, ∅⟩
  | _ => ⟨none, ∅⟩

theorem clientResponse_isSome (inMemory : Bool) (filter : Option FilterParam)
    (slot? : Option (Option TableEntry)) :
    (clientResponse inMemory filter slot?).value.isSome ↔ ∃ entry, slot? = some (some entry) := by
  rcases slot? with _ | _ | entry
  · simp [clientResponse]
  · simp [clientResponse]
  · cases inMemory <;> simp [clientResponse, memoryResponse]

theorem Answers.response {m : Memtable} {levelArray : List FileMap} {k : Bytes}
    {slot? : Option (Option TableEntry)} (ha : Answers m levelArray k slot?)
    (filter : Option FilterParam) : Service.get m levelArray ⟨k, filter⟩ =
      .ok (clientResponse (Mem.get m k).isSome filter slot?) := by
  rw [Answers] at ha
  rw [Service.get]
  cases hmem : Mem.get m k with
  | some slot =>
    rw [hmem] at ha
    obtain rfl : slot? = some slot := ha
    cases slot <;> rfl
  | none =>
    rw [hmem] at ha
    dsimp only at ha ⊢
    rcases slot? with _ | _ | entry
    · obtain ⟨tables, levels, hx⟩ := ha
      rw [hx]
      rfl
    · obtain ⟨tables, levels, hx⟩ := ha
      rw [hx]
      rfl
    · obtain ⟨tables, levels, hx⟩ := ha
      have hlen := entry.length_serialize
      rw [hx, diskResponse, if_neg (show ¬(tableValue (some entry)).length = 1 from by
        change ¬entry.serialize.length = 1
        omega)]
      rfl

/-- **A get tells the keys that are put from the others**, after every run whose steps keep what is
held: it returns, with a value exactly when the last acknowledged write of its key is a put. -/
theorem get_tells_puts (hr : SystemRun P h s) (hk : ∀ x ∈ h, KeepsWrites P x.2 x.1)
    (hread : s.tables.Readable) {levelArray : List FileMap} (hl : Loaded s.tables.disk levelArray)
    (req : GetRequest) : ∃ response, Service.get s.mem levelArray req = .ok response ∧
      response = clientResponse (Mem.get s.mem req.key).isSome req.filter
        (acknowledged (h.map Prod.fst))[req.key]? ∧
      (response.value.isSome ↔
        ∃ entry, (acknowledged (h.map Prod.fst))[req.key]? = some (some entry)) := by
  have ha := (always_systemOk hr hk).now.answers hread hl req.key
  exact ⟨_, ha.response req.filter, rfl, clientResponse_isSome _ _ _⟩

/-- The first write, flushed, is read from the tables. -/
theorem firstFlush_tells : ∃ levelArray response,
    Service.get flushedSystem.mem levelArray ⟨[107], none⟩ = .ok response ∧
      response = clientResponse (Mem.get flushedSystem.mem [107]).isSome none
        (acknowledged (firstFlush.map Prod.fst))[([107] : Bytes)]? ∧
      (response.value.isSome ↔
        ∃ entry, (acknowledged (firstFlush.map Prod.fst))[([107] : Bytes)]? = some (some entry)) := by
  obtain ⟨levelArray, hl⟩ :=
    (always_systemOk firstFlush_run firstFlush_keeps).now.reads.exists_loaded flushedSystem_readable
  exact ⟨levelArray,
    get_tells_puts firstFlush_run firstFlush_keeps flushedSystem_readable hl ⟨[107], none⟩⟩

/-! ## Batches that fail -/

/-- The writes, until one fails. -/
def writeAll (P : Platform) : List LogOp → MemProg Unit
  | [] => pure ()
  | op :: ops => do
    Mem.write P op.key op.slot
    writeAll P ops

/-- A sequence fails with the status of its first error. -/
theorem db_bind {α : Type} (p : MemProg α) (f : α → MemProg Unit) :
    ServiceProg.db (p >>= f) = ServiceProg.db p >>= fun a => ServiceProg.db (f a) := by
  induction p with
  | ret a => rfl
  | fail e => rfl
  | step o k ih => exact congrArg (Prog.step o) (funext ih)

theorem db_writeAll (ops ops' : List LogOp) : ServiceProg.db (writeAll P (ops ++ ops')) =
    ServiceProg.db (writeAll P ops) >>= fun _ => ServiceProg.db (writeAll P ops') := by
  induction ops with
  | nil => rfl
  | cons op ops ih =>
    rw [List.cons_append, writeAll, writeAll, db_bind, db_bind, Prog.bind_assoc]
    exact congrArg _ (funext fun _ => ih)

theorem batchPuts_eq (puts : List PutRequest) : ∀ deleteKeys : List Bytes,
    batchPuts P puts deleteKeys = ServiceProg.db (writeAll P (puts.map putOp)) >>= fun _ =>
      pure (deleteKeys.filter fun key => key ∉ puts.map PutRequest.key) := by
  induction puts with
  | nil =>
    intro deleteKeys
    show Prog.ret deleteKeys = Prog.ret _
    simp
  | cons req puts ih =>
    intro deleteKeys
    have hrest : (deleteKeys.filter (· ≠ req.key)).filter (fun key => key ∉ puts.map PutRequest.key) =
        deleteKeys.filter fun key => key ∉ (req :: puts).map PutRequest.key := by
      rw [List.filter_filter]
      refine List.filter_congr fun key _ => ?_
      rw [Bool.eq_iff_iff, List.map_cons]
      simp [and_comm]
    rw [batchPuts, List.map_cons, writeAll, db_bind, Prog.bind_assoc, ← hrest]
    exact congrArg _ (funext fun _ => ih _)

theorem batchDeletes_eq (keys : List Bytes) : batchDeletes P keys =
    ServiceProg.db (writeAll P (keys.map fun key => ⟨key, none⟩)) := by
  induction keys with
  | nil => rfl
  | cons key keys ih =>
    rw [batchDeletes, List.map_cons, writeAll, db_bind]
    exact congrArg _ (funext fun _ => ih)

/-- **A batch is its writes**, one after another. -/
theorem batchWrite_eq (puts : List PutRequest) (deleteKeys : List Bytes) :
    Service.batchWrite P puts deleteKeys =
      ServiceProg.db (writeAll P (Request.batchWrite puts deleteKeys).writes) := by
  rw [Request.writes, db_writeAll, ← batchDeletes_eq, Service.batchWrite, batchPuts_eq,
    Prog.bind_assoc]
  rfl

section
variable {S : Type} {H : Handler MemOp S} {st st' : S}

/-- Writes that end with an error have run up to it. -/
theorem writeAll_fails {ops : List LogOp} {e : Failure MemtableError}
    (hx : Prog.exec H (writeAll P ops) st = (.error e, st')) : ∃ before op after st₁,
      ops = before ++ op :: after ∧ Prog.exec H (writeAll P before) st = (.ok (), st₁) ∧
      Prog.exec H (Mem.write P op.key op.slot) st₁ = (.error e, st') := by
  induction ops generalizing st with
  | nil => cases hx
  | cons op ops ih =>
    rw [writeAll, Prog.exec_bind] at hx
    rcases hwrite : Prog.exec H (Mem.write P op.key op.slot) st with ⟨_ | _, st₁⟩
    · rw [hwrite] at hx
      obtain ⟨he, hst⟩ := Prod.mk.inj hx
      rw [Except.error.inj he, hst] at hwrite
      exact ⟨[], op, ops, st, rfl, rfl, hwrite⟩
    · rw [hwrite] at hx
      obtain ⟨before, op', after, st₂, rfl, hbefore, hlast⟩ := ih hx
      refine ⟨op :: before, op', after, st₂, rfl, ?_, hlast⟩
      rw [writeAll, Prog.exec_bind_ok hwrite, hbefore]

/-- **A batch that fails** has done its writes up to the one that failed, in the order of the puts
and then of the deletes that they leave, and nothing behind it, whatever the calls answered. -/
theorem batch_fails_behind {puts : List PutRequest} {deleteKeys : List Bytes} {status : Status}
    (hx : Prog.exec H (Service.batchWrite P puts deleteKeys) st = (.error status, st')) :
    ∃ before op after e st₁, (Request.batchWrite puts deleteKeys).writes = before ++ op :: after ∧
      Prog.exec H (writeAll P before) st = (.ok (), st₁) ∧
      Prog.exec H (Mem.write P op.key op.slot) st₁ = (.error e, st') ∧ status = .internal e := by
  rw [batchWrite_eq, ServiceProg.db, Prog.exec_bind_ok (Prog.exec_attempt H _ st)] at hx
  rcases hall : Prog.exec H (writeAll P (Request.batchWrite puts deleteKeys).writes) st with
    ⟨e | _, st₂⟩
  · rw [hall] at hx
    obtain ⟨hstatus, rfl⟩ := Prod.mk.inj hx
    obtain ⟨before, op, after, st₁, hwrites, hbefore, hlast⟩ := writeAll_fails hall
    exact ⟨before, op, after, e, st₁, hwrites, hbefore, hlast, (Except.error.inj hstatus).symm⟩
  · rw [hall] at hx
    cases (Prod.mk.inj hx).1

end

/-- The disk is full when the second put of a batch gets to the log. -/
theorem second_put_fails : ∃ status st' before op after e st₁,
    Prog.exec (faultHandler .plain ⟨.other "No space left on device", 0⟩)
      (Service.batchWrite .plain [onePut, ⟨[108], [118], ∅⟩] [[109]])
      ((idleMem, Disk.empty 0), 1) = (.error status, st') ∧
    (Request.batchWrite [onePut, ⟨[108], [118], ∅⟩] [[109]]).writes = before ++ op :: after ∧
    Prog.exec (faultHandler .plain ⟨.other "No space left on device", 0⟩) (writeAll .plain before)
      ((idleMem, Disk.empty 0), 1) = (.ok (), st₁) ∧
    Prog.exec (faultHandler .plain ⟨.other "No space left on device", 0⟩)
      (Mem.write .plain op.key op.slot) st₁ = (.error e, st') ∧ status = .internal e := by
  obtain ⟨status, st', hx⟩ : ∃ status st',
      Prog.exec (faultHandler .plain ⟨.other "No space left on device", 0⟩)
        (Service.batchWrite .plain [onePut, ⟨[108], [118], ∅⟩] [[109]])
        ((idleMem, Disk.empty 0), 1) = (.error status, st') := ⟨_, _, rfl⟩
  obtain ⟨before, op, after, e, st₁, hfails⟩ := batch_fails_behind hx
  exact ⟨status, st', before, op, after, e, st₁, hx, hfails⟩

end Db
