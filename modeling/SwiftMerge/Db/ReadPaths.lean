import SwiftMerge.Db.Server
import SwiftMerge.Memtable.Proof.EntryCodec
import SwiftMerge.Memtable.Proof.TableReads

/-!
# The two paths of a get

A get answers from the memtable's table entry or, when the memtable has been flushed, from the bytes
of the record that `search` returns. The disk path neither decodes these bytes nor applies the
filter, so the paths agree on tombstones only (`pathsAgree_iff`).
-/

namespace Db

open Lib Lsm Mem Service Compaction

variable {P : Platform} {m : Memtable} {req : GetRequest} {slot : Option TableEntry}

/-- The response to a get from the memtable is the one after the memtable's flush and a reload, in
every store where the reader finds the record. -/
def PathsAgree (P : Platform) (m : Memtable) (req : GetRequest) : Prop :=
  ∀ (slot : Option TableEntry) (d d' : Disk) (m' : Memtable) (levelArray levelArray' : List FileMap),
    m.inMemoryRepr[req.key]? = some slot →
    Prog.exec (memHandler P) (flush P) (m, d) = (.ok (), (m', d')) → Loaded d' levelArray' →
    (∃ tables levels, Lsm.read levelArray' req.key =
      .ok (.found (WalEntry.ofSlot slot).contents tables levels)) →
    Service.get m levelArray req = Service.get m' levelArray' req

/-! ## The responses -/

theorem get_memory (levelArray : List FileMap) (h : m.inMemoryRepr[req.key]? = some slot) :
    Service.get m levelArray req = .ok (memoryResponse slot req.filter) := by
  rw [Service.get, Mem.get, h]

/-- The response from the tables is the record's bytes, unless there is one byte only. -/
theorem get_disk {levelArray : List FileMap} {value : Bytes} {tables levels : Nat}
    (h : m.inMemoryRepr[req.key]? = none)
    (hread : Lsm.read levelArray req.key = .ok (.found value tables levels)) :
    Service.get m levelArray req =
      .ok (if value.length = 1 then ⟨none, ∅⟩ else ⟨some value, ∅⟩) := by
  rw [Service.get, Mem.get, h]
  dsimp only
  rw [hread, diskResponse]
  split <;> rfl

/-! ## A flush into an empty store -/

/-- The file a flush into an empty store makes. -/
def firstFile (P : Platform) (m : Memtable) : File :=
  ⟨0, flushBuffer P m.inMemoryRepr m.config.bloomFalsePositiveRate⟩

theorem onlyTable_flushed (P : Platform) (m : Memtable) :
    OnlyTable (flushedDisk P m (Disk.empty 0)) 1 (firstFile P m) := by
  have hself := file?_flushedDisk (P := P) (m := m) (d := Disk.empty 0) (Disk.file?_empty 0)
  have hother : ∀ {p f}, p ≠ flushPath P (Disk.empty 0) →
      (flushedDisk P m (Disk.empty 0)).file? p ≠ some f := by
    intro p f hne hf
    rw [flushedDisk_keeps.file hne, Disk.file?_empty] at hf
    cases hf
  refine ⟨by rw [levels_flushedDisk]; decide, ⟨ssTableName (P.uuid 0), isBin_ssTableName _,
    fun name f hb => ?_⟩, fun level hl name f hf => ?_⟩
  · by_cases hname : name = ssTableName (P.uuid 0)
    · rw [hname]
      refine ⟨fun hf => ⟨rfl, ?_⟩, fun hf => by rw [hf.2]; exact hself⟩
      exact Option.some.inj (hf.symm.trans hself)
    · refine iff_of_false (hother fun he => hname (congrArg Lsm.Path.name he)) fun hf => hname hf.1
  · refine absurd hf (hother fun he => ?_)
    have := congrArg Lsm.Path.level he
    change level = 1 at this
    omega

/-! ## Where the paths agree -/

/-- Only a tombstone reads alike: the bytes of a live record are not its value. -/
theorem not_pathsAgree {entry : TableEntry} (hslot : m.inMemoryRepr[req.key]? = some (some entry))
    (hf : Flushable m) (hfits : FlushFits P m.inMemoryRepr)
    (hsize : (flushBuffer P m.inMemoryRepr m.config.bloomFalsePositiveRate).length < 2 ^ 64)
    (hlast : (lastKey (records m.inMemoryRepr)).length ≤ 9996) : ¬PathsAgree P m req := by
  intro h
  have hne : m.inMemoryRepr ≠ ∅ := fun he => by
    rw [he] at hslot
    simp at hslot
  have hwf := wellFormed_flushBuffer hne hfits m.config.bloomFalsePositiveRate hsize
  let t : StoredTable := ⟨firstFile P m, _, _, hwf⟩
  have hloaded := OnlyTable.loaded (t := t) (onlyTable_flushed P m)
    (by rw [levels_flushedDisk]; rfl)
  have hrecord : recordOf (req.key, some entry) ∈ records m.inMemoryRepr :=
    List.mem_map_of_mem (Std.ExtTreeMap.mem_toList_iff_getElem?_eq_some.2 hslot)
  obtain ⟨tables, levels, hread⟩ := findsAll_of_short ⟨_, hwf⟩ hlast _ 1 (firstFile P m) _ rfl
    (onlyTable_flushed P m) hloaded _ hrecord
  have hagree := h (some entry) (Disk.empty 0) _ _ [] _ hslot (exec_flush hf) hloaded
    ⟨tables, levels, hread⟩
  have hlen := entry.length_serialize
  have hmissing : (flushedMem P m (Disk.empty 0)).inMemoryRepr[req.key]? = none :=
    Std.ExtTreeMap.getElem?_empty
  rw [get_memory [] hslot, get_disk hmissing hread, if_neg (by
    change ¬entry.serialize.length = 1
    omega), Except.ok.injEq] at hagree
  have hvalue : some entry.value = some entry.serialize := congrArg GetResponse.value hagree
  rw [← Option.some.inj hvalue] at hlen
  omega

/-- **The paths agree** on tombstones, and on nothing else. -/
theorem pathsAgree_iff (hslot : m.inMemoryRepr[req.key]? = some slot) (hf : Flushable m)
    (hfits : FlushFits P m.inMemoryRepr)
    (hsize : (flushBuffer P m.inMemoryRepr m.config.bloomFalsePositiveRate).length < 2 ^ 64)
    (hlast : (lastKey (records m.inMemoryRepr)).length ≤ 9996) :
    PathsAgree P m req ↔ slot = none := by
  constructor
  · intro h
    cases slot with
    | none => rfl
    | some entry => exact absurd h (not_pathsAgree hslot hf hfits hsize hlast)
  · rintro rfl slot d d' m' levelArray levelArray' hslot' hexec - ⟨tables, levels, hread⟩
    rw [hslot, Option.some.injEq] at hslot'
    subst hslot'
    rw [exec_flush hf, Prod.mk.injEq, Prod.mk.injEq] at hexec
    have hmissing : m'.inMemoryRepr[req.key]? = none := by
      rw [← hexec.2.1]
      exact Std.ExtTreeMap.getElem?_empty
    rw [get_memory levelArray hslot, get_disk hmissing hread]
    rfl

/-! ### Samples -/

/-- A memtable of the key `[107]`. -/
def oneSlotMem (slot : Option TableEntry) : Memtable where
  inMemoryRepr := (∅ : InMemoryRepr).insert [107] slot
  config := defaultConfig
  flushBy := 0
  currentSizeBytes := 1

theorem deleted_agrees : PathsAgree Platform.plain (oneSlotMem none) ⟨[107], none⟩ :=
  (pathsAgree_iff (show _ = some none by decide) (by constructor <;> decide)
    (by constructor <;> decide) (by rw [length_flushBuffer]; decide) (by decide)).2 rfl

/-- **A get of a value**: `[118]` from memory, the encoded entry `[1, 0, 0, 0, 118, 0]` from the
table. -/
theorem value_differs : ¬PathsAgree Platform.plain (oneSlotMem (some ⟨[118], none⟩)) ⟨[107], none⟩ :=
  not_pathsAgree (show _ = some (some ⟨[118], none⟩) by decide) (by constructor <;> decide)
    (by constructor <;> decide) (by rw [length_flushBuffer]; decide) (by decide)

end Db
