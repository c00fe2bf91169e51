import SwiftMerge.Db.Recovery
import SwiftMerge.Memtable.Tracked

/-!
# A batch is its puts and then the deletes they leave

`batchView` is the documented program on the view of a memtable over the tables flushed so far: the
puts in order, then a delete of every key that is to be deleted and that no put has. A batch that
returns has done this to the view (`batchWrite_view`), in whatever order the set of the keys to
delete is iterated and whichever of its writes flush, since every write changes the view at its own
key only (`Mem.write_view`) and the deletes all write the same.

* `putsView_last`, `putsView_of_not_mem`: the last put of a key wins, and a key of no put keeps what
  it has.
-/

namespace Db

open Lib Lsm Mem Service

/-- The puts of a batch on a view, in order. -/
def putsView (puts : List PutRequest) (v : Bytes → Option (Option TableEntry)) :
    Bytes → Option (Option TableEntry) :=
  puts.foldl (fun v req => Function.update v req.key (some (some (entryOf req)))) v

/-- A batch on a view: the puts, and a tombstone for each key that is deleted and not put. -/
def batchView (puts : List PutRequest) (deletes : List Bytes)
    (v : Bytes → Option (Option TableEntry)) (key : Bytes) : Option (Option TableEntry) :=
  if key ∈ puts.map PutRequest.key then putsView puts v key
  else if key ∈ deletes then some none
  else v key

section
variable {puts : List PutRequest} {v : Bytes → Option (Option TableEntry)} {key : Bytes}

theorem putsView_of_not_mem (h : key ∉ puts.map PutRequest.key) : putsView puts v key = v key := by
  induction puts generalizing v with
  | nil => rfl
  | cons req puts ih =>
    rw [List.map_cons, List.mem_cons, not_or] at h
    obtain ⟨hreq, hputs⟩ := h
    exact (ih hputs).trans (Function.update_of_ne hreq _ _)

theorem putsView_last {before after : List PutRequest} {req : PutRequest}
    (h : req.key ∉ after.map PutRequest.key) :
    putsView (before ++ req :: after) v req.key = some (some (entryOf req)) := by
  rw [putsView, List.foldl_append, List.foldl_cons]
  exact (putsView_of_not_mem h).trans (Function.update_self _ _ _)

theorem foldl_delete (keys : List Bytes) :
    keys.foldl (fun v key => Function.update v key (some none)) v key =
      if key ∈ keys then some none else v key := by
  induction keys generalizing v with
  | nil => simp
  | cons k keys ih =>
    rw [List.foldl_cons, ih]
    by_cases hk : key = k
    · subst hk
      simp
    · simp [hk]

/-- The puts, and then the deletes that they leave. -/
theorem batchView_eq {deletes deleteKeys : List Bytes} (hkeys : ∀ k, k ∈ deleteKeys ↔ k ∈ deletes) :
    (deleteKeys.filter fun key => key ∉ puts.map PutRequest.key).foldl
      (fun v key => Function.update v key (some none)) (putsView puts v) =
    batchView puts deletes v := by
  funext key
  have hmem : key ∈ deleteKeys.filter (fun key => key ∉ puts.map PutRequest.key) ↔
      key ∈ deletes ∧ key ∉ puts.map PutRequest.key := by
    rw [List.mem_filter, hkeys, decide_eq_true_iff]
  rw [foldl_delete, batchView]
  by_cases hput : key ∈ puts.map PutRequest.key
  · rw [if_pos hput, if_neg fun h => (hmem.1 h).2 hput]
  · rw [if_neg hput, putsView_of_not_mem hput]
    exact if_congr (hmem.trans (and_iff_left hput)) rfl rfl

end

section
variable {P : Platform} {delay : Nat → Nat} {s' : Tracked}

/-! ## The loops of a batch -/

theorem batchPuts_view : ∀ {puts : List PutRequest} {deleteKeys rest : List Bytes} {s : Tracked},
    Prog.exec (trackedHandler P delay) (batchPuts P puts deleteKeys) s = (.ok rest, s') →
    view s' = putsView puts (view s) ∧ (TablesOnDisk P s → TablesOnDisk P s')
  | [], deleteKeys, rest, s, h => by
    cases h
    exact ⟨rfl, id⟩
  | req :: puts, deleteKeys, rest, s, h => by
    rw [batchPuts] at h
    obtain ⟨_, t, hput, h⟩ := Prog.exec_bind_eq_ok h
    obtain ⟨hview, hdisk⟩ := batchPuts_view h
    have hput := exec_db hput
    refine ⟨?_, fun hs => hdisk (hs.write hput)⟩
    rw [hview, write_view hput]
    rfl

theorem batchDeletes_view : ∀ {keys : List Bytes} {s : Tracked},
    Prog.exec (trackedHandler P delay) (batchDeletes P keys) s = (.ok (), s') →
    view s' = keys.foldl (fun v key => Function.update v key (some none)) (view s) ∧
      (TablesOnDisk P s → TablesOnDisk P s')
  | [], s, h => by
    cases h
    exact ⟨rfl, id⟩
  | key :: keys, s, h => by
    rw [batchDeletes] at h
    obtain ⟨_, t, hdelete, h⟩ := Prog.exec_bind_eq_ok h
    obtain ⟨hview, hdisk⟩ := batchDeletes_view h
    have hdelete := exec_db hdelete
    refine ⟨?_, fun hs => hdisk (hs.write hdelete)⟩
    rw [hview, write_view hdelete]
    rfl

/-- **A batch that returns** has done the documented program to the view, whatever the order of the
keys to delete and whichever writes flushed, and the tables it flushed are on the disk. -/
theorem batchWrite_view {puts : List PutRequest} {deletes deleteKeys : List Bytes} {s : Tracked}
    (hkeys : ∀ k, k ∈ deleteKeys ↔ k ∈ deletes)
    (h : Prog.exec (trackedHandler P delay) (batchWrite P puts deleteKeys) s = (.ok (), s')) :
    view s' = batchView puts deletes (view s) ∧ (TablesOnDisk P s → TablesOnDisk P s') := by
  rw [batchWrite] at h
  obtain ⟨rest, t, hputs, h⟩ := Prog.exec_bind_eq_ok h
  obtain rfl := (batchPuts_rest puts deleteKeys).exec hputs
  obtain ⟨hput, hputDisk⟩ := batchPuts_view hputs
  obtain ⟨hdelete, hdeleteDisk⟩ := batchDeletes_view h
  refine ⟨?_, fun hs => hdeleteDisk (hputDisk hs)⟩
  rw [hdelete, hput, batchView_eq hkeys]

end

/-! ## A batch that flushes between its puts -/

/-- A memtable whose time to flush has come, and an empty disk. -/
def dueStore : Tracked := ⟨(⟨∅, defaultConfig, 0, 0⟩, Disk.empty 0), [], 0⟩

theorem dueStore_onDisk : TablesOnDisk .plain dueStore :=
  ⟨⟨[], .nil, .nil⟩, fun _ _ => Disk.file?_empty 0⟩

/-- The clock moves before the tenth call, by which the second write asks for the time. -/
def lateCall (n : Nat) : Nat := if n = 9 then 1 else 0

/-- A batch that puts a key twice and is to delete it and another one. -/
theorem flushing_batch_view : ∃ s', Prog.exec (trackedHandler .plain lateCall)
    (batchWrite .plain [onePut, ⟨[107], [119], ∅⟩] [[107], [108]]) dueStore = (.ok (), s') ∧
    s'.tables.length = 1 ∧ TablesOnDisk .plain s' ∧
    view s' [107] = some (some (entryOf ⟨[107], [119], ∅⟩)) ∧ view s' [108] = some none := by
  obtain ⟨s', hx, htables⟩ : ∃ s', Prog.exec (trackedHandler .plain lateCall)
      (batchWrite .plain [onePut, ⟨[107], [119], ∅⟩] [[107], [108]]) dueStore = (.ok (), s') ∧
      s'.tables.length = 1 := ⟨_, rfl, rfl⟩
  have hkeys : ∀ k, k ∈ ([[107], [108]] : List Bytes) ↔
      k ∈ ([[108], [107], [108]] : List Bytes) := fun k => by
    simp only [List.mem_cons, List.not_mem_nil]
    tauto
  obtain ⟨hview, hdisk⟩ := batchWrite_view hkeys hx
  refine ⟨s', hx, htables, hdisk dueStore_onDisk, ?_, ?_⟩
  · rw [hview]
    rfl
  · rw [hview]
    rfl

end Db
