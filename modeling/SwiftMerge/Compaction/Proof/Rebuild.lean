import SwiftMerge.Compaction.Proof.Unit
import SwiftMerge.Lsm.Proof.SectionGrammar

/-!
# Rebuilding a data section in place

`build_from_data_section` with every slice and every conversion as the code takes it, and the file it
works on. No slice is out of bounds and no conversion of a key length fails, so it computes what
`buildFromDataSection` does (`buildChecked_eq`). It accepts exactly the well-formed sections, and
every error comes before the truncation of the file (`rebuildFile_accepts`).
-/

namespace Compaction

open Lib Lsm

def invalidData (msg : String) : Failure CompactionError :=
  .err (.compactionIoError (.invalidData msg))

/-- One turn of the pass over a data section, from `cursor` on. -/
def entryChecked (dataSection : Bytes) (cursor : Nat) :
    Except (Failure CompactionError) (Bytes × Nat) := do
  ensure (cursor + 4 ≤ dataSection.length)
    (invalidData "invalid key length prefix in data section")
  let keyLen := leNat (← slice dataSection cursor (cursor + 4))
  let cursor := cursor + 4
  ensure (cursor + keyLen ≤ dataSection.length)
    (invalidData "key length exceeds remaining data section bytes")
  let key ← slice dataSection cursor (cursor + keyLen)
  let cursor := cursor + keyLen
  ensure (cursor + 4 ≤ dataSection.length)
    (invalidData "invalid value length prefix in data section")
  let valueLen := leNat (← slice dataSection cursor (cursor + 4))
  let cursor := cursor + 4
  ensure (cursor + valueLen ≤ dataSection.length)
    (invalidData "value length exceeds remaining data section bytes")
  pure (key, cursor + valueLen)

/-- The turn is the one of the pass without checks. -/
theorem entryChecked_eq (dataSection : Bytes) (cursor : Nat) :
    entryChecked dataSection cursor = (sectionEntry dataSection cursor).mapError .err := by
  unfold entryChecked sectionEntry
  dsimp only
  by_cases c1 : cursor + 4 ≤ dataSection.length
  swap
  · rw [ensure_neg c1, ensure_neg c1]
    rfl
  rw [ensure_pos c1, ensure_pos c1, ok_bind, ok_bind, slice_of_le (Nat.le_add_right _ _) c1, ok_bind,
    Nat.add_sub_cancel_left]
  by_cases c2 : cursor + 4 + leNat ((dataSection.drop cursor).take 4) ≤ dataSection.length
  swap
  · rw [ensure_neg c2, ensure_neg c2]
    rfl
  rw [ensure_pos c2, ensure_pos c2, ok_bind, ok_bind, slice_of_le (Nat.le_add_right _ _) c2, ok_bind,
    Nat.add_sub_cancel_left]
  by_cases c3 : cursor + 4 + leNat ((dataSection.drop cursor).take 4) + 4 ≤ dataSection.length
  swap
  · rw [ensure_neg c3, ensure_neg c3]
    rfl
  rw [ensure_pos c3, ensure_pos c3, ok_bind, ok_bind, slice_of_le (Nat.le_add_right _ _) c3, ok_bind,
    Nat.add_sub_cancel_left]
  by_cases c4 : cursor + 4 + leNat ((dataSection.drop cursor).take 4) + 4 +
      leNat ((dataSection.drop (cursor + 4 + leNat ((dataSection.drop cursor).take 4))).take 4) ≤
        dataSection.length
  · rw [ensure_pos c4, ensure_pos c4]
    rfl
  · rw [ensure_neg c4, ensure_neg c4]
    rfl

theorem entryChecked_lt {dataSection key : Bytes} {cursor cursor' : Nat}
    (h : entryChecked dataSection cursor = .ok (key, cursor')) : cursor < cursor' := by
  rw [entryChecked_eq] at h
  cases he : sectionEntry dataSection cursor with
  | ok x =>
    rw [he] at h
    obtain rfl := Except.ok.inj h
    exact sectionEntry_lt he
  | error e =>
    rw [he] at h
    cases h

/-- The pass over a data section from `cursor` on. -/
def loopChecked (dataSection : Bytes) (blockStride cursor : Nat) (st : IndexState) :
    Except (Failure CompactionError) IndexState :=
  if _ : cursor < dataSection.length then
    match _ : entryChecked dataSection cursor with
    | .ok (key, cursor') =>
      loopChecked dataSection blockStride cursor' (st.add blockStride key cursor cursor')
    | .error e => .error e
  else .ok st
termination_by dataSection.length - cursor
decreasing_by
  have := entryChecked_lt ‹_›
  omega

/-- A turn of the pass, and the pass from where it ends. -/
theorem loopChecked_turn {dataSection : Bytes} {cursor : Nat} (h : cursor < dataSection.length)
    (blockStride : Nat) (st : IndexState) :
    loopChecked dataSection blockStride cursor st = entryChecked dataSection cursor >>= fun turn =>
      loopChecked dataSection blockStride turn.2 (st.add blockStride turn.1 cursor turn.2) := by
  rw [loopChecked, dif_pos h]
  split
  · rename_i hturn
    rw [hturn]
    rfl
  · rename_i hturn
    rw [hturn]
    rfl

/-- The bytes of a sparse index. -/
def sparseIndexBytes : List (Nat × Bytes) → Except (Failure CompactionError) Bytes
  | [] => pure []
  | (offset, key) :: sparseIndex => do
    ensure (key.length < 2 ^ 32) (invalidData "sparse index key length exceeds u32")
    let bytes ← sparseIndexBytes sparseIndex
    pure (field key ++ leBytes 8 offset ++ bytes)

/-- The table that replaces a data section. -/
def buildChecked (P : Platform) (dataSection : Bytes) (level : Nat) (bloomFalsePositiveRate : F64) :
    Except (Failure CompactionError) Bytes := do
  let blockStride := 64 * 1024 * max 1 level
  let st ← loopChecked dataSection blockStride 0 ⟨[], 0, [], []⟩
  let indexBytes ← sparseIndexBytes st.sparseIndex
  ensure (st.maxKey.length < 2 ^ 32) (invalidData "max key length exceeds u32")
  let footer := field st.maxKey
  let bloomBlock := BloomGenerator.generateFilterFromKeys P st.bloomKeys bloomFalsePositiveRate
  ensure (footer.length < 2 ^ 64) (invalidData "footer size exceeds u64")
  ensure (indexBytes.length < 2 ^ 32) (invalidData "sparse index size exceeds u32")
  pure (frame bloomBlock indexBytes dataSection footer)

theorem loopChecked_eq (dataSection : Bytes) (blockStride cursor : Nat) (st : IndexState) :
    loopChecked dataSection blockStride cursor st =
      (indexLoop dataSection blockStride cursor st).mapError .err := by
  fun_induction indexLoop dataSection blockStride cursor st with
  | case1 cursor st hlt key cursor' hentry ih =>
    have hchecked := entryChecked_eq dataSection cursor
    rw [hentry] at hchecked
    rw [loopChecked_turn hlt, hchecked]
    exact ih
  | case2 cursor st hlt e hentry =>
    have hchecked := entryChecked_eq dataSection cursor
    rw [hentry] at hchecked
    rw [loopChecked_turn hlt, hchecked]
    rfl
  | case3 cursor st hge =>
    rw [loopChecked, dif_neg hge]
    rfl

/-! ## The conversions of key lengths -/

/-- The keys that the pass has collected have four-byte lengths. -/
structure KeysFit (st : IndexState) : Prop where
  sparse : ∀ e ∈ st.sparseIndex, e.2.length < 2 ^ 32
  max : st.maxKey.length < 2 ^ 32

theorem KeysFit.add {st : IndexState} (h : KeysFit st) (blockStride : Nat) {key : Bytes}
    (hkey : key.length < 2 ^ 32) (cursor cursor' : Nat) :
    KeysFit (st.add blockStride key cursor cursor') := by
  refine ⟨fun e he => ?_, hkey⟩
  rw [IndexState.add] at he
  dsimp only at he
  split at he
  · rcases List.mem_append.1 he with he | he
    · exact h.sparse e he
    · rw [List.mem_singleton.1 he]
      exact hkey
  · exact h.sparse e he

theorem keysFit_indexLoop {dataSection : Bytes} {blockStride cursor : Nat} {st st' : IndexState}
    (hst : KeysFit st) (h : indexLoop dataSection blockStride cursor st = .ok st') : KeysFit st' := by
  fun_induction indexLoop dataSection blockStride cursor st with
  | case1 cursor st hlt key cursor' hentry ih =>
    obtain ⟨r, hr, rfl, -⟩ := sectionEntry_shape hentry
    exact ih (hst.add blockStride hr.1 cursor cursor') h
  | case2 cursor st hlt e hentry => cases h
  | case3 cursor st hge =>
    obtain rfl := Except.ok.inj h
    exact hst

theorem sparseIndexBytes_eq : ∀ {sparseIndex : List (Nat × Bytes)},
    (∀ e ∈ sparseIndex, e.2.length < 2 ^ 32) →
      sparseIndexBytes sparseIndex = .ok (encodeSparseIndex sparseIndex)
  | [], _ => rfl
  | (offset, key) :: sparseIndex, h => by
    rw [sparseIndexBytes, ensure_pos (h (offset, key) (.head _)), ok_bind,
      sparseIndexBytes_eq fun e he => h e (.tail _ he), ok_bind]
    rfl

section
variable (P : Platform) (dataSection : Bytes) (level : Nat) (bloomFalsePositiveRate : F64)

/-- **The code computes `buildFromDataSection`**: it never panics, and no conversion of a key length
fails. -/
theorem buildChecked_eq : buildChecked P dataSection level bloomFalsePositiveRate =
    (buildFromDataSection P dataSection level bloomFalsePositiveRate).mapError .err := by
  unfold buildChecked buildFromDataSection
  dsimp only
  rw [loopChecked_eq]
  cases hloop : indexLoop dataSection (64 * 1024 * max 1 level) 0 ⟨[], 0, [], []⟩ with
  | error e => rfl
  | ok st =>
    have hkeys : KeysFit st := keysFit_indexLoop ⟨fun _ h => absurd h List.not_mem_nil, by simp⟩ hloop
    have hfooter : (field st.maxKey).length < 2 ^ 64 := by
      have hmax := hkeys.max
      rw [length_field]
      omega
    rw [ok_bind]
    show (sparseIndexBytes st.sparseIndex >>= _) = _
    rw [sparseIndexBytes_eq hkeys.sparse, ok_bind, ensure_pos hkeys.max, ok_bind, ensure_pos hfooter,
      ok_bind]
    by_cases hsize : (encodeSparseIndex st.sparseIndex).length < 2 ^ 32
    · rw [ensure_pos hsize, ensure_pos hsize]
      rfl
    · rw [ensure_neg hsize, ensure_neg hsize]
      rfl

end

/-! ## The file -/

/-- A call of the rebuild, its error as the compaction's. -/
def rebuildIo {α : Type} (o : DiskOp (Except IoError α)) :
    Prog DiskOp (Failure CompactionError) α := do
  Prog.ofExcept ((← Prog.perform o).mapError fun e => .err (.compactionIoError e))

/-- `build_from_data_section` on the file at `p`. -/
def rebuildFile (P : Platform) (p : Path) (level : Nat) (bloomFalsePositiveRate : F64) :
    Prog DiskOp (Failure CompactionError) Unit := do
  let source ← rebuildIo (.read p)
  let output ← Prog.ofExcept (buildChecked P source.bytes level bloomFalsePositiveRate)
  rebuildIo (.truncate p)
  rebuildIo (.append p output)

section
variable {P : Platform} {d : Disk} {p : Path} {f : File} {level : Nat} {bloomFalsePositiveRate : F64}

theorem exec_rebuildIo {α : Type} {o : DiskOp (Except IoError α)} {d' : Disk} {a : α}
    (h : Disk.step P o d = (.ok a, d')) :
    Prog.exec (Disk.handler P) (rebuildIo o) d = (.ok a, d') := by
  rw [rebuildIo, Prog.exec_bind_ok (Prog.exec_perform _ o d), Prog.exec_ofExcept]
  show ((Disk.step P o d).1.mapError _, (Disk.step P o d).2) = _
  rw [h]
  rfl

/-- The rebuild replaces the file's bytes, or leaves the disk alone and returns the error of the
build. -/
theorem exec_rebuildFile (hf : d.file? p = some f) :
    Prog.exec (Disk.handler P) (rebuildFile P p level bloomFalsePositiveRate) d =
      match buildFromDataSection P f.bytes level bloomFalsePositiveRate with
      | .ok output => (.ok (), (d.setBytes p []).append p output)
      | .error e => (.error (.err e), d) := by
  rw [rebuildFile, Prog.exec_bind_ok (exec_rebuildIo (Disk.step_read hf)), buildChecked_eq]
  cases buildFromDataSection P f.bytes level bloomFalsePositiveRate with
  | error e => exact Prog.exec_bind_error (Prog.exec_ofExcept _ _ _)
  | ok output =>
    have htrunc : (d.setBytes p []).file? p = some ⟨f.created, []⟩ := Disk.file?_setBytes_self hf
    show Prog.exec (Disk.handler P) (Prog.ofExcept (.ok output) >>= _) d = _
    rw [Prog.exec_bind_ok (Prog.exec_ofExcept _ _ _),
      Prog.exec_bind_ok (exec_rebuildIo (Disk.step_truncate hf)),
      exec_rebuildIo (Disk.step_append htrunc output)]

/-- The sparse index of a section has a four-byte length. -/
def SparseIndexFits (level : Nat) (dataSection : Bytes) : Prop :=
  ∀ st, indexLoop dataSection (64 * 1024 * max 1 level) 0 ⟨[], 0, [], []⟩ = .ok st →
    (encodeSparseIndex st.sparseIndex).length < 2 ^ 32

theorem buildFromDataSection_returns (hfits : SparseIndexFits level f.bytes) :
    (∃ output, buildFromDataSection P f.bytes level bloomFalsePositiveRate = .ok output) ↔
      IsSection f.bytes := by
  rw [← @indexLoop_ok_iff f.bytes (64 * 1024 * max 1 level) ⟨[], 0, [], []⟩]
  unfold buildFromDataSection
  dsimp only
  cases hloop : indexLoop f.bytes (64 * 1024 * max 1 level) 0 ⟨[], 0, [], []⟩ with
  | error e => exact iff_of_false (fun ⟨_, h⟩ => by cases h) fun ⟨_, h⟩ => by cases h
  | ok st =>
    refine iff_of_true ?_ ⟨st, rfl⟩
    rw [ok_bind, ensure_pos (hfits st hloop)]
    exact ⟨_, rfl⟩

/-- **Rebuilding a data section** succeeds exactly on a concatenation of records, never panics, and
leaves the disk as it is when it fails. -/
theorem rebuildFile_accepts (hf : d.file? p = some f) (hfits : SparseIndexFits level f.bytes) :
    ((Prog.exec (Disk.handler P) (rebuildFile P p level bloomFalsePositiveRate) d).1 = .ok () ↔
      IsSection f.bytes) ∧
    (∀ msg, (Prog.exec (Disk.handler P) (rebuildFile P p level bloomFalsePositiveRate) d).1 ≠
      .error (.panic msg)) ∧
    ∀ e, (Prog.exec (Disk.handler P) (rebuildFile P p level bloomFalsePositiveRate) d).1 = .error e →
      (Prog.exec (Disk.handler P) (rebuildFile P p level bloomFalsePositiveRate) d).2 = d := by
  rw [exec_rebuildFile hf, ← @buildFromDataSection_returns P f level bloomFalsePositiveRate hfits]
  cases buildFromDataSection P f.bytes level bloomFalsePositiveRate with
  | ok output => exact ⟨iff_of_true rfl ⟨output, rfl⟩, nofun, fun _ h => by cases h⟩
  | error e => exact ⟨iff_of_false nofun nofun, nofun, fun _ _ => rfl⟩

end

theorem sparseIndexFits_section {level : Nat} {rs : List Record} (hrs : ∀ r ∈ rs, Fits r)
    (hfits : IndexFits level rs) : SparseIndexFits level (encodeSection rs) := by
  intro st hst
  have hloop := indexLoop_section (64 * 1024 * max 1 level) hrs [] ⟨[], 0, [], []⟩
  rw [List.nil_append, List.length_nil, hst] at hloop
  rw [Except.ok.inj hloop]
  exact hfits

/-- A put, a delete and a put. -/
def putsAndDelete : List Record :=
  [([107], [1, 0, 0, 0, 118, 0]), ([108], [255]), ([109], [1, 0, 0, 0, 120, 0])]

theorem putsAndDelete_rebuilt : (Prog.exec (Disk.handler .plain)
    (rebuildFile .plain ⟨1, "0_0.tmp"⟩ 1 ⟨0⟩)
    ((Disk.empty 0).write .plain ⟨1, "0_0.tmp"⟩ (encodeSection putsAndDelete))).1 = .ok () := by
  have hfits : ∀ r ∈ putsAndDelete, Fits r := by decide
  exact (rebuildFile_accepts Disk.file?_write_self
    (sparseIndexFits_section hfits (indexFits_of_size 1 (by decide)))).1.2 ⟨_, hfits, rfl⟩

end Compaction
