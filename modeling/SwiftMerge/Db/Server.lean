import SwiftMerge.Service
import SwiftMerge.Memtable.Proof.Writes
import SwiftMerge.Lib.Run

/-!
# The server and its runs (`main.rs`)

A `Server` is the memtable, the disk and the level array the reader holds. Its steps are the
requests it accepts, the reload of the reader that a finished compaction asks for, and the passing
of time.
-/

namespace Db

open Lib Lsm Mem Service

structure Server where
  mem : Memtable
  disk : Disk
  levelArray : List FileMap

inductive Event
  | put (req : PutRequest)
  | delete (key : Bytes)
  | get (req : GetRequest)
  | reload
  | wait

/-- The write an event acknowledges: a key and its new slot. -/
def Event.write? : Event → Option (Bytes × Option TableEntry)
  | .put req => some (req.key, some (entryOf req))
  | .delete key => some (key, none)
  | _ => none

inductive Step (P : Platform) : Server → Event → Server → Prop
  | put {s : Server} {req : PutRequest} {st : Store} :
    Prog.exec (memHandler P) (Service.put P req) (s.mem, s.disk) = (.ok (), st) →
    Step P s (.put req) ⟨st.1, st.2, s.levelArray⟩
  | delete {s : Server} {key : Bytes} {st : Store} :
    Prog.exec (memHandler P) (Service.delete P key) (s.mem, s.disk) = (.ok (), st) →
    Step P s (.delete key) ⟨st.1, st.2, s.levelArray⟩
  | get {s : Server} {req : GetRequest} : Step P s (.get req) s
  | reload {s : Server} {levelArray : List FileMap} : Loaded s.disk levelArray →
    Step P s .reload { s with levelArray := levelArray }
  | wait {s : Server} {t : Nat} (h : s.disk.clock ≤ t) :
    Step P s .wait { s with disk := s.disk.waitUntil t h }

/-- A server just started on an empty disk. -/
structure Fresh (P : Platform) (s : Server) : Prop where
  mem : ∃ content, Memtable.new P s.disk content = .ok s.mem
  disk : ∃ clock, s.disk = Disk.empty clock
  loaded : Loaded s.disk s.levelArray

/-- A run of the server from a fresh start. -/
abbrev Run (P : Platform) : List (Event × Server) → Server → Prop := Lib.Run (Fresh P) (Step P)

/-- The last acknowledged write to `k`. -/
def lastWrite (events : List Event) (k : Bytes) : Option (Option TableEntry) :=
  events.findSome? fun e => e.write?.bind fun w => if w.1 = k then some w.2 else none

/-- The record of `k` that a get finds: in the memtable, or else in a loaded table. -/
def Finds (s : Server) (k : Bytes) (slot : Option TableEntry) : Prop :=
  Mem.get s.mem k = some slot ∨ (Mem.get s.mem k = none ∧ ∃ tables levels,
    Lsm.read s.levelArray k = .ok (.found (WalEntry.ofSlot slot).contents tables levels))

/-- Every acknowledged write is visible: a get of its key finds the last one. -/
def Visible (h : List (Event × Server)) (s : Server) : Prop :=
  ∀ k slot, lastWrite (h.map Prod.fst) k = some slot → Finds s k slot

/-- The event is a write that fills the memtable or finds its time come: it runs the flush. -/
def Flushes (s : Server) (e : Event) : Prop :=
  ∃ w, e.write? = some w ∧ shouldFlush (written s.mem w.1 w.2) s.disk.clock = true

end Db
