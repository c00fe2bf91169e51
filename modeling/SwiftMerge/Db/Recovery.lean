import SwiftMerge.Db.Visibility
import SwiftMerge.Memtable.Proof.GrowingLog

/-!
# Which accepted writes a restart brings back

A put is checked before it is written; a delete is not, nor are the puts of a batch. So the service
acknowledges records that the replay does not take, one of which makes the whole log unreadable.
`always_recovers`: a server that logs its writes recovers in every state of a run in which every
record left in the log fits, which an empty key does not.

* `pending`: the writes of a request that are still in the log when it returns.
* `writesTo_batchWrite`: a batch as its writes, one after another.
-/

namespace Db

open Lib Lsm Mem Service

/-- The requests that write, the reload of the configuration and the passing of time. -/
inductive Request
  | put (req : PutRequest)
  | delete (key : Bytes)
  | batchWrite (puts : List PutRequest) (deleteKeys : List Bytes)
  | reloadConfig (content : ConfigSource)
  | wait

/-- The operation of a put. -/
def putOp (req : PutRequest) : LogOp := ⟨req.key, some (entryOf req)⟩

/-- The writes of a request, in order; a batch does not delete what it has put. -/
def Request.writes : Request → List LogOp
  | .put req => [putOp req]
  | .delete key => [⟨key, none⟩]
  | .batchWrite puts deleteKeys =>
    puts.map putOp ++
      (deleteKeys.filter fun key => key ∉ puts.map PutRequest.key).map fun key => ⟨key, none⟩
  | _ => []

/-- A request that the service accepts, by a server whose log stays enabled. -/
inductive Accepts (P : Platform) : Store → Request → Store → Prop
  | put {s s' : Store} {req : PutRequest} :
    Prog.exec (memHandler P) (Service.put P req) s = (.ok (), s') → Accepts P s (.put req) s'
  | delete {s s' : Store} {key : Bytes} :
    Prog.exec (memHandler P) (Service.delete P key) s = (.ok (), s') → Accepts P s (.delete key) s'
  | batchWrite {s s' : Store} {puts : List PutRequest} {deleteKeys : List Bytes} :
    Prog.exec (memHandler P) (Service.batchWrite P puts deleteKeys) s = (.ok (), s') →
    Accepts P s (.batchWrite puts deleteKeys) s'
  | reloadConfig {m m' : Memtable} {d : Disk} {content : ConfigSource} :
    m.updateConfig P d.clock content = .ok m' → m'.config.walEnabled = true →
    Accepts P (m, d) (.reloadConfig content) (m', d)
  | wait {m : Memtable} {d : Disk} {t : Nat} (h : d.clock ≤ t) :
    Accepts P (m, d) .wait (m, d.waitUntil t h)

/-- A server started with its log enabled, on whatever log was left. -/
def StartsLogged (P : Platform) (s : Store) : Prop :=
  (∃ content, Memtable.new P s.2 content = .ok s.1) ∧ s.1.config.walEnabled = true

/-- A restart with the log enabled succeeds and rebuilds the map. -/
def Recovers (P : Platform) (s : Store) : Prop :=
  ∀ content config, content.load P = .ok config → config.walEnabled = true →
    ∃ m, Memtable.new P s.2 content = .ok m ∧ m.inMemoryRepr = s.1.inMemoryRepr

/-- What is left in the log, of `acc` and then of the writes of a request: what no flush follows. -/
def pending (P : Platform) : Store → List LogOp → List LogOp → List LogOp
  | _, acc, [] => acc
  | (m, d), acc, op :: ops =>
    let m' := written m op.key op.slot
    let d' := logged m d op.key op.slot
    if shouldFlush m' d.clock then pending P (flushedMem P m' d', flushedDisk P m' d') [] ops
    else pending P (m', d') (acc ++ [op]) ops

/-- Every record that the request leaves in the log fits: its key is not empty, and its lengths fit
their 32-bit prefixes. -/
def LeavesFitting (P : Platform) (s : Store) (r : Request) : Prop :=
  ∀ op ∈ pending P s [] r.writes, op.Fits

variable {P : Platform} {s s' : Store}

/-! ## Requests as writes -/

/-- The operations run one after another, and all return. -/
inductive WritesTo (P : Platform) : Store → List LogOp → Store → Prop
  | nil {s : Store} : WritesTo P s [] s
  | cons {s s₁ s' : Store} {op : LogOp} {ops : List LogOp} :
    Prog.exec (memHandler P) (Mem.write P op.key op.slot) s = (.ok (), s₁) → WritesTo P s₁ ops s' →
    WritesTo P s (op :: ops) s'

theorem WritesTo.append {s₁ : Store} {ops ops' : List LogOp} (h : WritesTo P s ops s₁)
    (h' : WritesTo P s₁ ops' s') : WritesTo P s (ops ++ ops') s' := by
  induction h with
  | nil => exact h'
  | cons hx _ ih => exact .cons hx (ih h')

/-- The keys that the puts of a batch leave to delete. -/
theorem batchPuts_rest : ∀ (puts : List PutRequest) (deleteKeys : List Bytes),
    Prog.Yields (· = deleteKeys.filter fun key => key ∉ puts.map PutRequest.key)
      (batchPuts P puts deleteKeys)
  | [], deleteKeys => by
    show deleteKeys = _
    simp
  | req :: puts, deleteKeys => by
    have hstep : deleteKeys.filter (fun key => key ∉ (req :: puts).map PutRequest.key) =
        (deleteKeys.filter (· ≠ req.key)).filter fun key => key ∉ puts.map PutRequest.key := by
      rw [List.filter_filter]
      refine List.filter_congr fun key _ => ?_
      rw [Bool.eq_iff_iff, List.map_cons]
      simp [and_comm]
    rw [batchPuts, hstep]
    exact .after fun _ => batchPuts_rest puts _

theorem writesTo_batchPuts : ∀ {puts : List PutRequest} {deleteKeys rest : List Bytes} {s : Store},
    Prog.exec (memHandler P) (batchPuts P puts deleteKeys) s = (.ok rest, s') →
    WritesTo P s (puts.map putOp) s'
  | [], deleteKeys, rest, s, h => by
    cases h
    exact .nil
  | req :: puts, deleteKeys, rest, s, h => by
    rw [batchPuts] at h
    obtain ⟨_, s₁, hput, h⟩ := Prog.exec_bind_eq_ok h
    exact .cons (exec_db hput) (writesTo_batchPuts h)

theorem writesTo_batchDeletes : ∀ {keys : List Bytes} {s : Store},
    Prog.exec (memHandler P) (batchDeletes P keys) s = (.ok (), s') →
    WritesTo P s (keys.map fun key => ⟨key, none⟩) s'
  | [], s, h => by
    cases h
    exact .nil
  | key :: keys, s, h => by
    rw [batchDeletes] at h
    obtain ⟨_, s₁, hdelete, h⟩ := Prog.exec_bind_eq_ok h
    exact .cons (exec_db hdelete) (writesTo_batchDeletes h)

theorem writesTo_batchWrite {puts : List PutRequest} {deleteKeys : List Bytes}
    (h : Prog.exec (memHandler P) (Service.batchWrite P puts deleteKeys) s = (.ok (), s')) :
    WritesTo P s (Request.batchWrite puts deleteKeys).writes s' := by
  rw [Service.batchWrite] at h
  obtain ⟨rest, s₁, hputs, h⟩ := Prog.exec_bind_eq_ok h
  obtain rfl := (batchPuts_rest puts deleteKeys).exec hputs
  exact (writesTo_batchPuts hputs).append (writesTo_batchDeletes h)

/-! ## The log replays -/

/-- **The writes of a request** leave a log that replays, when the records left in it fit. -/
theorem replays_writes {ops : List LogOp} (h : WritesTo P s ops s')
    (hw : s.1.config.walEnabled = true) : ∀ {wal : Bytes} {repr : InMemoryRepr} {acc : List LogOp},
    Replays wal repr → s.2.wal = wal ++ LogOp.log acc → s.1.inMemoryRepr = LogOp.replay acc repr →
    (∀ op ∈ pending P s acc ops, op.Fits) →
    Replays s'.2.wal s'.1.inMemoryRepr ∧ s'.1.config.walEnabled = true := by
  induction h with
  | nil =>
    intro wal repr acc hbase hwal hrepr hfits
    rw [hwal, hrepr]
    exact ⟨hbase.append hfits, hw⟩
  | @cons s s₁ s' op ops hx _ ih =>
    intro wal repr acc hbase hwal hrepr hfits
    obtain ⟨m, d⟩ := s
    rw [pending] at hfits
    rcases exec_write_ok hx with ⟨hf, rfl⟩ | ⟨hf, -, rfl⟩
    · rw [hf] at hfits
      refine ih hw hbase ?_ ?_ hfits
      · have hlog : (logged m d op.key op.slot).wal = d.wal ++ op.record := by
          rw [logged, if_pos hw]
          rfl
        rw [hlog, hwal]
        simp [LogOp.log]
      · have hinsert : (written m op.key op.slot).inMemoryRepr =
            m.inMemoryRepr.insert op.key op.slot := rfl
        rw [hinsert, hrepr]
        simp [LogOp.replay]
    · rw [hf] at hfits
      exact ih hw replays_nil rfl rfl hfits

/-- The log replays to the map, and stays enabled. -/
def Recoverable (s : Store) : Prop :=
  Replays s.2.wal s.1.inMemoryRepr ∧ s.1.config.walEnabled = true

theorem Recoverable.recovers (h : Recoverable s) : Recovers P s := by
  intro content config hload hw
  obtain ⟨⟨size, hr⟩, -⟩ := h
  refine ⟨⟨s.1.inMemoryRepr, config, s.2.clock + config.ramMaxTime * 10 ^ 9, size⟩, ?_, rfl⟩
  rw [Memtable.new, hload]
  show (if config.walEnabled = true then _ else _) = _
  rw [if_pos hw, hr]
  rfl

theorem StartsLogged.recoverable (h : StartsLogged P s) : Recoverable s := by
  obtain ⟨⟨content, hm⟩, hw⟩ := h
  refine ⟨?_, hw⟩
  rw [Memtable.new] at hm
  obtain ⟨config, -, hm⟩ := bind_ok hm
  split at hm
  · obtain ⟨⟨repr, size⟩, hr, hm⟩ := bind_ok hm
    rw [← Except.ok.inj hm]
    exact ⟨size, hr⟩
  · rename_i hoff
    rw [← Except.ok.inj hm] at hw
    exact absurd hw hoff

/-- **A step** that leaves fitting records keeps the log recoverable. -/
theorem accepts_recoverable {r : Request} (hi : Recoverable s) (hs : Accepts P s r s')
    (hfits : LeavesFitting P s r) : Recoverable s' := by
  have hwrites : WritesTo P s r.writes s' → Recoverable s' := fun hw =>
    replays_writes hw hi.2 hi.1 (by simp [LogOp.log]) rfl hfits
  cases hs with
  | put hx =>
    rw [Service.put] at hx
    obtain ⟨_, s₁, hv, hx⟩ := Prog.exec_bind_eq_ok hx
    rw [Prog.exec_ofExcept, Prod.mk.injEq] at hv
    obtain ⟨-, rfl⟩ := hv
    exact hwrites (.cons (exec_db hx) .nil)
  | delete hx => exact hwrites (.cons (exec_db hx) .nil)
  | batchWrite hx => exact hwrites (writesTo_batchWrite hx)
  | reloadConfig hm hw =>
    rw [Memtable.updateConfig] at hm
    obtain ⟨config, -, hm⟩ := bind_ok hm
    obtain rfl := Except.ok.inj hm
    exact ⟨hi.1, hw⟩
  | wait => exact hi

/-- **A server recovers in every state of a run whose requests leave fitting records in the log.** -/
theorem always_recovers {h : List (Request × Store)} (hr : Lib.Run (StartsLogged P) (Accepts P) h s)
    (hc : ∀ x ∈ h, LeavesFitting P x.2 x.1) : Always (fun _ s => Recovers P s) h s :=
  (hr.always_of (I := fun _ s => Recoverable s) StartsLogged.recoverable accepts_recoverable hc).mono
    Recoverable.recovers

/-- A server started on an empty disk takes the delete of a key. -/
theorem idle_delete (key : Bytes) (hquiet : shouldFlush (written idleMem key none) 0 = false) :
    Lib.Run (StartsLogged .plain) (Accepts .plain) [(.delete key, (idleMem, Disk.empty 0))]
      (written idleMem key none, logged idleMem (Disk.empty 0) key none) := by
  have hwrite := exec_write_quiet (d := Disk.empty 0) (counterOk_plain idleMem key none) hquiet
  exact .step (.start ⟨⟨.default, rfl⟩, rfl⟩) (.delete (exec_db_ok hwrite))

theorem delete_recovers :
    Always (fun _ s => Recovers .plain s) [(Request.delete [107], (idleMem, Disk.empty 0))]
      (written idleMem [107] none, logged idleMem (Disk.empty 0) [107] none) := by
  refine always_recovers (idle_delete [107] (by decide)) fun x hx => ?_
  obtain rfl := List.mem_singleton.1 hx
  intro op hop
  have hpending : pending .plain (idleMem, Disk.empty 0) [] [⟨[107], none⟩] = [⟨[107], none⟩] := by
    rw [pending]
    exact if_neg (by decide)
  obtain rfl := List.mem_singleton.1 (hpending ▸ hop)
  exact ⟨by decide, by decide, nofun⟩

/-- **The delete of the empty key is accepted, and the log is not readable any more.** -/
theorem empty_key_unrecoverable : ∃ h s,
    Lib.Run (StartsLogged .plain) (Accepts .plain) h s ∧ h.map Prod.fst = [.delete []] ∧
      ¬Always (fun _ s => Recovers .plain s) h s := by
  refine ⟨_, _, idle_delete [] (by decide), rfl, fun ha => ?_⟩
  obtain ⟨m, hm, -⟩ := ha.now .default defaultConfig rfl rfl
  rw [Memtable.new] at hm
  obtain ⟨⟨repr, size⟩, hr, -⟩ := bind_ok (show (rebuildMemtable _ ∅ 0 >>= _) = _ from hm)
  have henc : ∀ op ∈ [LogOp.mk [] none], op.Encodable := fun op hop => by
    obtain rfl := List.mem_singleton.1 hop
    exact ⟨by decide, fun e he => absurd he (Option.not_mem_none e)⟩
  exact ((fits_of_replays henc ⟨size, hr⟩).1 _ (.head _)).key_ne rfl

end Db
