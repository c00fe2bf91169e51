import SwiftMerge.Lsm.SsTable
import SwiftMerge.Lsm.Proof.BloomProof

/-!
# Data sections and tables

A data section determines its records (`encodeSection_inj`). `Holds` says that a file's data section
is made of given records: an intermediate file is its records (`holds_raw`), and a table is made of
the records that it frames (`holds_frame`), among them the table that `buildFromDataSection` makes
of a data section (`holds_builtTable`).
-/

namespace Lsm

open Lib

/-! ## Records -/

/-- The parts of a record have a four-byte length. -/
def Fits (r : Record) : Prop := r.1.length < 2 ^ 32 ∧ r.2.length < 2 ^ 32

instance (r : Record) : Decidable (Fits r) :=
  inferInstanceAs (Decidable (r.1.length < 2 ^ 32 ∧ r.2.length < 2 ^ 32))

@[simp] theorem encodeSection_nil : encodeSection [] = [] := rfl

@[simp] theorem encodeSection_cons (r : Record) (rs : List Record) :
    encodeSection (r :: rs) = encodeRecord r ++ encodeSection rs := rfl

theorem length_encodeRecord (r : Record) :
    (encodeRecord r).length = 8 + r.1.length + r.2.length := by
  simp only [encodeRecord, List.length_append, length_field]
  omega

theorem readDataSectionEntry_encodeRecord {r : Record} (h : Fits r) (rest : Bytes) :
    readDataSectionEntry (encodeRecord r ++ rest) = .ok (r, rest) := by
  unfold readDataSectionEntry readPrefixedBytes
  rw [encodeRecord, List.append_assoc, readField_field h.1, ok_bind]
  dsimp only
  rw [readField_field h.2, ok_bind]
  rfl

theorem encodeSection_inj {rs us : List Record} (hr : ∀ r ∈ rs, Fits r) (hu : ∀ r ∈ us, Fits r)
    (h : encodeSection rs = encodeSection us) : rs = us := by
  induction rs generalizing us with
  | nil =>
    cases us with
    | nil => rfl
    | cons u us =>
      have := congrArg List.length h
      rw [encodeSection_cons, List.length_append, length_encodeRecord, encodeSection_nil,
        List.length_nil] at this
      omega
  | cons r rs ih =>
    cases us with
    | nil =>
      have := congrArg List.length h
      rw [encodeSection_cons, List.length_append, length_encodeRecord, encodeSection_nil,
        List.length_nil] at this
      omega
    | cons u us =>
      have hread := readDataSectionEntry_encodeRecord (hr r (.head _)) (encodeSection rs)
      rw [← encodeSection_cons, h, encodeSection_cons,
        readDataSectionEntry_encodeRecord (hu u (.head _)), Except.ok.injEq, Prod.mk.injEq] at hread
      obtain ⟨rfl, hrest⟩ := hread
      rw [ih (fun x hx => hr x (.tail _ hx)) (fun x hx => hu x (.tail _ hx)) hrest.symm]

/-- The records of a section, read one after another until its size is reached. -/
def readEntries (s : Section) : Except CompactionError (List Record × Section) :=
  if s.ptr < s.size then
    match _ : readDataSectionEntry s.file with
    | .ok (r, file) =>
      (readEntries ⟨file, s.ptr + (encodeRecord r).length, s.size⟩).map (Prod.map (r :: ·) id)
    | .error e => .error e
  else .ok ([], s)
termination_by s.file.length
decreasing_by
  obtain ⟨h, -⟩ := readDataSectionEntry_eq ‹readDataSectionEntry s.file = _›
  rw [h, List.length_append, length_encodeRecord]
  omega

/-- **Reading a section** record by record ends at its end. -/
theorem readEntries_section (tail : Bytes) : ∀ {rs : List Record}, (∀ r ∈ rs, Fits r) →
    ∀ (ptr size : Nat), ptr + (encodeSection rs).length = size →
      readEntries ⟨encodeSection rs ++ tail, ptr, size⟩ = .ok (rs, ⟨tail, size, size⟩)
  | [], _, ptr, size, hptr => by
    obtain rfl : ptr = size := hptr
    rw [readEntries, if_neg (Nat.lt_irrefl _)]
    rfl
  | r :: rs, h, ptr, size, hptr => by
    rw [encodeSection_cons, List.length_append] at hptr
    have hread := readDataSectionEntry_encodeRecord (h r (.head _)) (encodeSection rs ++ tail)
    have hpos := length_encodeRecord r
    have ih := readEntries_section tail (fun x hx => h x (.tail _ hx))
      (ptr + (encodeRecord r).length) size (by omega)
    rw [encodeSection_cons, List.append_assoc, readEntries, if_pos (by dsimp only; omega)]
    split
    · rename_i heq
      rw [hread, Except.ok.injEq, Prod.mk.injEq] at heq
      obtain ⟨rfl, rfl⟩ := heq
      rw [ih]
      rfl
    · rename_i heq
      rw [hread] at heq
      cases heq

/-! ## The pass over a data section -/

theorem sectionEntry_record {r : Record} (h : Fits r) (pre rest : Bytes) :
    sectionEntry (pre ++ (encodeRecord r ++ rest)) pre.length =
      .ok (r.1, pre.length + (encodeRecord r).length) := by
  obtain ⟨key, value⟩ := r
  obtain ⟨hk, hv⟩ := h
  have hkl : leNat (leBytes 4 key.length) = key.length := leNat_leBytes (by simpa using hk)
  have hvl : leNat (leBytes 4 value.length) = value.length := leNat_leBytes (by simpa using hv)
  have hlen : (pre ++ (encodeRecord (key, value) ++ rest)).length =
      pre.length + (8 + key.length + value.length) + rest.length := by
    simp only [List.length_append, length_encodeRecord]
    omega
  -- the section, from each part of the record on
  have h1 : pre ++ (encodeRecord (key, value) ++ rest) = pre ++ (leBytes 4 key.length ++
      (key ++ (leBytes 4 value.length ++ (value ++ rest)))) := by
    simp [encodeRecord, field]
  have h2 := next_part h1
  have h3 := next_part h2
  have hp1 : (((pre ++ (encodeRecord (key, value) ++ rest)).drop pre.length).take 4) =
      leBytes 4 key.length := part_at h1 rfl (by simp)
  have hp2 : (((pre ++ (encodeRecord (key, value) ++ rest)).drop (pre.length + 4)).take key.length) =
      key := part_at h2 (by simp) rfl
  have hp3 : (((pre ++ (encodeRecord (key, value) ++ rest)).drop
      (pre.length + 4 + key.length)).take 4) = leBytes 4 value.length :=
    part_at h3 (by simp +arith) (by simp)
  unfold sectionEntry
  simp only [hp1, hkl, hp2, hp3, hvl]
  rw [ensure_pos (by rw [hlen]; omega), ok_bind, ensure_pos (by rw [hlen]; omega), ok_bind,
    ensure_pos (by rw [hlen]; omega), ok_bind, ensure_pos (by rw [hlen]; omega), ok_bind, pure_ok,
    length_encodeRecord]
  simp only [Except.ok.injEq, Prod.mk.injEq, true_and]
  omega

/-- What the pass collects from the records of a section that stand at `cursor`. -/
def indexRecords (blockStride : Nat) : List Record → Nat → IndexState → IndexState
  | [], _, st => st
  | r :: rs, cursor, st =>
    let cursor' := cursor + (encodeRecord r).length
    indexRecords blockStride rs cursor' (st.add blockStride r.1 cursor cursor')

theorem indexLoop_section (blockStride : Nat) : ∀ {rs : List Record}, (∀ r ∈ rs, Fits r) →
    ∀ (pre : Bytes) (st : IndexState),
      indexLoop (pre ++ encodeSection rs) blockStride pre.length st =
        .ok (indexRecords blockStride rs pre.length st)
  | [], _, pre, st => by
    rw [indexLoop, dif_neg (by simp)]
    rfl
  | r :: rs, h, pre, st => by
    have hentry := sectionEntry_record (h r (.head _)) pre (encodeSection rs)
    have ih := indexLoop_section blockStride (fun x hx => h x (.tail _ hx))
      (pre ++ encodeRecord r) (st.add blockStride r.1 pre.length
        (pre.length + (encodeRecord r).length))
    rw [List.append_assoc, List.length_append] at ih
    rw [encodeSection_cons, indexLoop, dif_pos (by
      simp only [List.length_append, length_encodeRecord]
      omega)]
    split
    · rename_i key cursor' heq
      rw [hentry, Except.ok.injEq, Prod.mk.injEq] at heq
      obtain ⟨rfl, rfl⟩ := heq
      exact ih
    · rename_i heq
      rw [hentry] at heq
      cases heq

theorem indexRecords_maxKey (blockStride : Nat) : ∀ {rs : List Record}, (∀ r ∈ rs, Fits r) →
    ∀ (cursor : Nat) (st : IndexState), st.maxKey.length < 2 ^ 32 →
      (indexRecords blockStride rs cursor st).maxKey.length < 2 ^ 32
  | [], _, _, _, hst => hst
  | r :: _, h, _, _, _ =>
    indexRecords_maxKey blockStride (fun x hx => h x (.tail _ hx)) _ _ (h r (.head _)).1

/-! ## Tables -/

/-- A file whose data section is made of the records `rs`. -/
structure Holds (t : TableType) (rs : List Record) : Prop where
  fits : ∀ r ∈ rs, Fits r
  dataSection : ∃ tail, ∀ name, toDataSection name t =
    .ok (encodeSection rs ++ tail, (encodeSection rs).length)

theorem holds_raw {rs : List Record} (h : ∀ r ∈ rs, Fits r) :
    Holds ⟨.rawDataSection, encodeSection rs⟩ rs := ⟨h, [], fun _ => by simp [toDataSection]⟩

theorem Holds.raw_eq {bs : Bytes} {rs : List Record} (h : Holds ⟨.rawDataSection, bs⟩ rs) :
    bs = encodeSection rs := by
  obtain ⟨tail, ht⟩ := h.dataSection
  have ht := ht ""
  rw [toDataSection, Except.ok.injEq, Prod.mk.injEq] at ht
  obtain ⟨hbs, hlen⟩ := ht
  change bs = _ at hbs
  change bs.length = _ at hlen
  have htail : tail = [] := by
    rw [hbs, List.length_append] at hlen
    exact List.length_eq_zero_iff.1 (by omega)
  rw [hbs, htail, List.append_nil]

theorem Holds.unique {t : TableType} {rs us : List Record} (h : Holds t rs) (h' : Holds t us) :
    rs = us := by
  obtain ⟨tail, ht⟩ := h.dataSection
  obtain ⟨tail', hu⟩ := h'.dataSection
  have he := (ht "").symm.trans (hu "")
  rw [Except.ok.injEq, Prod.mk.injEq] at he
  exact encodeSection_inj h.fits h'.fits (List.append_inj_left he.1 he.2)

theorem readExact_at {bs p x rest : Bytes} {i n : Nat} (hb : bs = p ++ (x ++ rest))
    (hi : i = p.length) (hn : n = x.length) : readExact bs i n = .ok x := by
  unfold readExact
  rw [if_pos (by rw [hb, List.length_append, List.length_append]; omega), part_at hb hi hn]

section
variable {bloomBlock sparseIndexBytes dataSection footer : Bytes}

/-- **The data section of a table** is where its sizes put it. -/
theorem toDataSection_frame (name : String) (hb : bloomBlock.length = bloomFilterSize)
    (hs : sparseIndexBytes.length < 2 ^ 32) (hf : footer.length < 2 ^ 64) (hne : footer ≠ []) :
    toDataSection name ⟨.ssTable, frame bloomBlock sparseIndexBytes dataSection footer⟩ =
      .ok (dataSection ++ footer, dataSection.length) := by
  have hcrc : headerCrc.length = 64 := by decide
  have hfl : leNat (leBytes 8 footer.length) = footer.length := leNat_leBytes (by simpa using hf)
  have hsl : leNat (leBytes 4 sparseIndexBytes.length) = sparseIndexBytes.length :=
    leNat_leBytes (by simpa using hs)
  have hpos := List.length_pos_iff.2 hne
  -- the file, from each part on
  have h1 : frame bloomBlock sparseIndexBytes dataSection footer = [] ++ (headerCrc ++
      (leBytes 8 footer.length ++ (bloomBlock ++ (leBytes 4 sparseIndexBytes.length ++
        (sparseIndexBytes ++ (dataSection ++ footer)))))) := by
    simp [frame]
  have h2 := next_part h1
  have h3 := next_part h2
  have h4 := next_part h3
  have h5 := next_part h4
  have h6 := next_part h5
  have hlen : (frame bloomBlock sparseIndexBytes dataSection footer).length =
      64 + 8 + bloomFilterSize + 4 + sparseIndexBytes.length + dataSection.length +
        footer.length := by
    rw [h1]
    simp only [List.length_append, List.length_nil, length_leBytes, hcrc, hb]
    omega
  have hr1 : readExact (frame bloomBlock sparseIndexBytes dataSection footer) 0 headerCrcSize =
      .ok headerCrc := readExact_at h1 rfl hcrc.symm
  have hr2 : readExact (frame bloomBlock sparseIndexBytes dataSection footer) headerCrcSize
      footerSizeFieldLen = .ok (leBytes 8 footer.length) := readExact_at h2 rfl (by simp; rfl)
  have hr4 : readExact (frame bloomBlock sparseIndexBytes dataSection footer)
      (headerCrcSize + footerSizeFieldLen + bloomFilterSize) sparseIndexSizeFieldLen =
        .ok (leBytes 4 sparseIndexBytes.length) :=
    readExact_at h4 (by simp +arith [hcrc, hb, headerCrcSize, footerSizeFieldLen]) (by simp; rfl)
  have hd : (frame bloomBlock sparseIndexBytes dataSection footer).drop
      (headerCrcSize + footerSizeFieldLen + bloomFilterSize + sparseIndexSizeFieldLen +
        sparseIndexBytes.length) = dataSection ++ footer := by
    rw [h6]
    refine List.drop_left' ?_
    simp +arith [hcrc, hb, headerCrcSize, footerSizeFieldLen, sparseIndexSizeFieldLen]
  unfold toDataSection
  simp only [hr1, hr2, hr4, Except.mapError, ok_bind, hfl, hsl, hd, hlen]
  rw [ensure_pos trivial, ok_bind, ensure_pos (by omega), ok_bind, ensure_pos (by
    simp only [headerCrcSize, footerSizeFieldLen, sparseIndexSizeFieldLen]
    omega), ok_bind, pure_ok]
  simp only [headerCrcSize, footerSizeFieldLen, sparseIndexSizeFieldLen, Except.ok.injEq,
    Prod.mk.injEq, true_and]
  omega

/-- A table is made of the records that it frames. -/
theorem holds_frame {rs : List Record} (h : ∀ r ∈ rs, Fits r)
    (hb : bloomBlock.length = bloomFilterSize) (hs : sparseIndexBytes.length < 2 ^ 32)
    (hf : footer.length < 2 ^ 64) (hne : footer ≠ []) :
    Holds ⟨.ssTable, frame bloomBlock sparseIndexBytes (encodeSection rs) footer⟩ rs :=
  ⟨h, footer, fun name => toDataSection_frame name hb hs hf hne⟩

end

/-- The pass over the records of a table of a level. -/
def indexOf (level : Nat) (rs : List Record) : IndexState :=
  indexRecords (64 * 1024 * max 1 level) rs 0 ⟨[], 0, [], []⟩

/-- The sparse index of a table of a level has a four-byte length. -/
def IndexFits (level : Nat) (rs : List Record) : Prop :=
  (encodeSparseIndex (indexOf level rs).sparseIndex).length < 2 ^ 32

instance (level : Nat) (rs : List Record) : Decidable (IndexFits level rs) :=
  inferInstanceAs (Decidable ((encodeSparseIndex (indexOf level rs).sparseIndex).length < 2 ^ 32))

/-- The bytes a sparse index with all the keys would take. -/
def indexSize (rs : List Record) : Nat := (rs.map fun r => 12 + r.1.length).sum

theorem length_encodeSparseIndex_append (sparseIndex : List (Nat × Bytes)) (e : Nat × Bytes) :
    (encodeSparseIndex (sparseIndex ++ [e])).length =
      (encodeSparseIndex sparseIndex).length + (12 + e.2.length) := by
  simp +arith [encodeSparseIndex, length_field]

theorem length_indexRecords_le (blockStride : Nat) : ∀ (rs : List Record) (cursor : Nat)
    (st : IndexState), (encodeSparseIndex (indexRecords blockStride rs cursor st).sparseIndex).length ≤
      (encodeSparseIndex st.sparseIndex).length + indexSize rs
  | [], _, _ => Nat.le_add_right _ _
  | r :: rs, cursor, st => by
    have ih := length_indexRecords_le blockStride rs (cursor + (encodeRecord r).length)
      (st.add blockStride r.1 cursor (cursor + (encodeRecord r).length))
    have hadd : (encodeSparseIndex (st.add blockStride r.1 cursor
        (cursor + (encodeRecord r).length)).sparseIndex).length ≤
        (encodeSparseIndex st.sparseIndex).length + (12 + r.1.length) := by
      rw [IndexState.add]
      dsimp only
      split
      · rw [length_encodeSparseIndex_append]
      · omega
    have hsize : indexSize (r :: rs) = 12 + r.1.length + indexSize rs := by simp [indexSize]
    rw [indexRecords]
    omega

theorem indexFits_of_size {rs : List Record} (level : Nat) (h : indexSize rs < 2 ^ 32) :
    IndexFits level rs := by
  have hle := length_indexRecords_le (64 * 1024 * max 1 level) rs 0 ⟨[], 0, [], []⟩
  rw [show encodeSparseIndex [] = [] from rfl, List.length_nil, Nat.zero_add] at hle
  exact hle.trans_lt h

/-- The table a data section is rebuilt as. -/
def builtTable (P : Platform) (level : Nat) (bloomFalsePositiveRate : F64) (rs : List Record) :
    Bytes :=
  let st := indexOf level rs
  frame (BloomGenerator.generateFilterFromKeys P st.bloomKeys bloomFalsePositiveRate)
    (encodeSparseIndex st.sparseIndex) (encodeSection rs) (field st.maxKey)

variable {P : Platform} {level : Nat} {bloomFalsePositiveRate : F64} {rs : List Record}

/-- **Rebuilding a data section** succeeds when its sparse index fits, and only then. -/
theorem buildFromDataSection_ok_iff (h : ∀ r ∈ rs, Fits r) {bs : Bytes} :
    buildFromDataSection P (encodeSection rs) level bloomFalsePositiveRate = .ok bs ↔
      IndexFits level rs ∧ bs = builtTable P level bloomFalsePositiveRate rs := by
  have hloop := indexLoop_section (64 * 1024 * max 1 level) h [] ⟨[], 0, [], []⟩
  rw [List.nil_append, List.length_nil] at hloop
  unfold buildFromDataSection
  dsimp only
  rw [hloop, ok_bind]
  change (ensure (IndexFits level rs) _ >>= fun _ => _) = _ ↔ _
  by_cases hfits : IndexFits level rs
  · rw [ensure_pos hfits, ok_bind, pure_ok, Except.ok.injEq]
    exact ⟨fun he => ⟨hfits, he.symm⟩, fun he => he.2.symm⟩
  · rw [ensure_neg hfits, error_bind]
    exact iff_of_false (fun he => by cases he) fun he => hfits he.1

theorem holds_builtTable (h : ∀ r ∈ rs, Fits r) (hfits : IndexFits level rs) :
    Holds ⟨.ssTable, builtTable P level bloomFalsePositiveRate rs⟩ rs := by
  have hmax : (indexOf level rs).maxKey.length < 2 ^ 32 := indexRecords_maxKey _ h 0 _ (by simp)
  refine holds_frame h (BloomGenerator.length_build _ _) hfits ?_ (field_ne_nil _)
  rw [length_field]
  omega

end Lsm
