import SwiftMerge.Lsm.Reader
import SwiftMerge.Lsm.Proof.TableProof
import SwiftMerge.Lib.Blocks
import SwiftMerge.Lib.Overlay

/-!
# The sparse index and the last key, as written and as read

`marks` are all the entries a sparse index of records may have. A writer keeps those of the first
records of its blocks (`blockIndex_blocks`; `indexRecords_blocks` for a rebuilt data section), so some
of the marks with the first one among them (`Indexes`). `generateIndex`
decodes what the writer has written: the sparse index as it is, the last key only when the footer is
at most 10000 bytes long (`Framed.generateIndex`).
-/

namespace Lsm

open Lib TableReader

/-! ## The marks of records -/

/-- The key of each record with its offset, the first record standing at `cursor`. -/
def marks : Nat → List Record → List (Nat × Bytes)
  | _, [] => []
  | cursor, r :: rs => (cursor, r.1) :: marks (cursor + (encodeRecord r).length) rs

/-- The key of the last record; empty when there is none. -/
def lastKey (rs : List Record) : Bytes := (rs.getLast?.map Prod.fst).getD []

/-- A sparse index of records: some of their marks, the first one among them. -/
structure Indexes (sparseIndex : List (Nat × Bytes)) (rs : List Record) : Prop where
  sub : sparseIndex.Sublist (marks 0 rs)
  head : sparseIndex.head? = (marks 0 rs).head?

theorem map_snd_marks : ∀ (cursor : Nat) (rs : List Record),
    (marks cursor rs).map Prod.snd = rs.map Prod.fst
  | _, [] => rfl
  | cursor, r :: rs => by simp [marks, map_snd_marks]

/-! ## The marks of blocks -/

/-- The size of a record in a data section. -/
def encodedSize (r : Record) : Nat := (encodeRecord r).length

theorem encodedSize_pos (r : Record) : 0 < encodedSize r := by
  have := length_encodeRecord r
  rw [encodedSize]
  omega

theorem extent_encodedSize : ∀ rs : List Record, extent encodedSize rs = (encodeSection rs).length
  | [] => rfl
  | r :: rs => by
    rw [extent_cons, extent_encodedSize rs, encodeSection_cons, List.length_append, encodedSize]

/-- The mark of a record that stands at an offset. -/
def keyAt (e : Nat × Record) : Nat × Bytes := (e.1, e.2.1)

theorem marks_eq : ∀ (cursor : Nat) (rs : List Record),
    marks cursor rs = (positions encodedSize cursor rs).map keyAt
  | _, [] => rfl
  | cursor, r :: rs => by
    rw [marks, marks_eq _ rs]
    rfl

theorem mem_marks {e : Nat × Bytes} {cursor : Nat} {rs : List Record} (h : e ∈ marks cursor rs) :
    ∃ pre r post, rs = pre ++ r :: post ∧ e = (cursor + (encodeSection pre).length, r.1) := by
  rw [marks_eq] at h
  obtain ⟨e, he, rfl⟩ := List.mem_map.1 h
  obtain ⟨pre, post, hrs, hoffset⟩ := mem_positions he
  refine ⟨pre, e.2, post, hrs, ?_⟩
  rw [← extent_encodedSize, ← hoffset]
  rfl

theorem marks_offsets (cursor : Nat) (rs : List Record) :
    (marks cursor rs).Pairwise fun a b => a.1 < b.1 := by
  rw [marks_eq]
  exact List.pairwise_map.2 (positions_increasing cursor fun r _ => encodedSize_pos r)

theorem marks_keys {rs : List Record} (hs : KeySorted rs) (cursor : Nat) :
    (marks cursor rs).Pairwise fun a b => compare a.2 b.2 = .lt := by
  have hkeys : ((marks cursor rs).map Prod.snd).Pairwise fun a b => compare a b = .lt := by
    rw [map_snd_marks]
    exact List.pairwise_map.2 hs
  exact List.pairwise_map.1 hkeys

/-- The marks of the first records of blocks. -/
def blockMarks (bs : List (List Record)) : List (Nat × Bytes) := (starts encodedSize 0 bs).map keyAt

theorem indexes_blocks (cut : Nat → Record → Bool) (rs : List Record) :
    Indexes (blockMarks (blocks encodedSize cut rs)) rs := by
  constructor
  · have hsub := starts_sublist encodedSize 0 (blocks encodedSize cut rs)
    rw [flatten_blocks] at hsub
    rw [marks_eq]
    exact hsub.map keyAt
  · cases rs with
    | nil => rfl
    | cons r rs =>
      rw [blockMarks, blocks, starts_blocksFrom]
      rfl

/-- A sparse index that divides records into blocks for which `Q` holds. -/
structure BlockIndex (Q : List Record → Prop) (sparseIndex : List (Nat × Bytes))
    (rs : List Record) : Prop where
  first : ∀ r ∈ rs.head?, sparseIndex.head? = some (0, r.1)
  offsets : sparseIndex.Pairwise fun a b => a.1 < b.1
  keys : sparseIndex.Pairwise fun a b => compare a.2 b.2 = .lt
  /-- an entry has the offset and the key of a record -/
  record : ∀ e ∈ sparseIndex, ∃ pre r post, rs = pre ++ r :: post ∧
    e = ((encodeSection pre).length, r.1)
  /-- the entries are where the blocks start, the last of which runs to the end -/
  blocks : ∃ bs : List (List Record), bs.flatten = rs ∧ sparseIndex = blockMarks bs ∧
    ∀ b ∈ bs, b ≠ [] ∧ Q b

/-- **An index of cut blocks** has what is true of any block that was not cut further. -/
theorem blockIndex_blocks {cut : Nat → Record → Bool} {Q : List Record → Prop} {rs : List Record}
    (hs : KeySorted rs) (hQ : ∀ b, Uncut encodedSize cut b → Q b) :
    BlockIndex Q (blockMarks (Lib.blocks encodedSize cut rs)) rs := by
  have hindexes := indexes_blocks cut rs
  refine ⟨fun r hr => ?_, (marks_offsets 0 rs).sublist hindexes.sub,
    (marks_keys hs 0).sublist hindexes.sub, fun e he => ?_,
    Lib.blocks encodedSize cut rs, flatten_blocks _ _ rs, rfl, fun b hb => ?_⟩
  · obtain ⟨rest, rfl⟩ := List.head?_eq_some_iff.1 hr
    exact hindexes.head
  · obtain ⟨pre, r, post, hrs, rfl⟩ := mem_marks (hindexes.sub.subset he)
    exact ⟨pre, r, post, hrs, by rw [Nat.zero_add]⟩
  · have hb := uncut_blocks b hb
    exact ⟨hb.ne, hQ b hb⟩

/-! ## The last key -/

theorem lastKey_cons (r : Record) {rs : List Record} (h : rs ≠ []) :
    lastKey (r :: rs) = lastKey rs := by
  rw [lastKey, lastKey, List.getLast?_cons_of_ne_nil h]

/-- The passes over records start from an empty key. -/
theorem lastKey_of_start (rs : List Record) : (if rs = [] then [] else lastKey rs) = lastKey rs := by
  by_cases h : rs = []
  · rw [if_pos h, h]
    rfl
  · rw [if_neg h]

theorem lastKey_mem {rs : List Record} (h : rs ≠ []) : ∃ r ∈ rs, r.1 = lastKey rs := by
  refine ⟨rs.getLast h, List.getLast_mem h, ?_⟩
  rw [lastKey, List.getLast?_eq_some_getLast h]
  rfl

theorem le_lastKey {rs : List Record} (hs : KeySorted rs) : ∀ r ∈ rs,
    r.1 = lastKey rs ∨ compare r.1 (lastKey rs) = .lt := by
  induction rs with
  | nil => exact fun r hr => absurd hr List.not_mem_nil
  | cons a rs ih =>
    obtain ⟨ha, hrs⟩ := List.pairwise_cons.1 hs
    intro r hr
    by_cases hne : rs = []
    · subst hne
      rw [List.mem_singleton.1 hr]
      exact .inl rfl
    · rw [lastKey_cons a hne]
      cases hr with
      | head =>
        obtain ⟨z, hz, hlast⟩ := lastKey_mem hne
        rw [← hlast]
        exact .inr (ha z hz)
      | tail _ hr => exact ih hrs r hr

/-! ## The index a rebuilt data section gets -/

/-- A record starts a block when the one before has reached the stride. -/
def strideCut (blockStride filled : Nat) (_ : Record) : Bool := blockStride ≤ filled

theorem indexRecords_cuts (blockStride : Nat) : ∀ (rs : List Record) (cursor : Nat)
    (st : IndexState), st.sparseIndex ≠ [] →
      (indexRecords blockStride rs cursor st).sparseIndex = st.sparseIndex ++
        (cuts encodedSize (strideCut blockStride) st.bytesSinceSparseMark cursor rs).map keyAt
  | [], _, st, _ => (List.append_nil _).symm
  | r :: rs, cursor, st, hne => by
    have hsize : cursor + (encodeRecord r).length - cursor = encodedSize r :=
      Nat.add_sub_cancel_left _ _
    have hempty : st.sparseIndex.isEmpty = false := List.isEmpty_eq_false_iff.2 hne
    rw [indexRecords, cuts, strideCut]
    by_cases hmark : blockStride ≤ st.bytesSinceSparseMark
    · rw [indexRecords_cuts blockStride rs _ _ (by simp [IndexState.add, hmark])]
      simp [IndexState.add, hmark, hsize, encodedSize, keyAt]
    · rw [indexRecords_cuts blockStride rs _ _ (by simp [IndexState.add, hempty, hmark, hne])]
      simp [IndexState.add, hempty, hmark, hsize, encodedSize]

/-- **The index of a rebuilt data section** has the starts of blocks that reach the stride. -/
theorem indexRecords_blocks (blockStride : Nat) : ∀ rs : List Record,
    (indexRecords blockStride rs 0 ⟨[], 0, [], []⟩).sparseIndex =
      blockMarks (blocks encodedSize (strideCut blockStride) rs)
  | [] => rfl
  | r :: rs => by
    rw [indexRecords, indexRecords_cuts _ _ _ _ (by simp [IndexState.add]), blockMarks, blocks,
      starts_blocksFrom]
    simp [IndexState.add, encodedSize, keyAt]

/-- A block without its last record has not reached the stride. -/
theorem stride_of_uncut {blockStride : Nat} (h0 : 0 < blockStride) {b : List Record}
    (h : Uncut encodedSize (strideCut blockStride) b) :
    (encodeSection b.dropLast).length < blockStride := by
  obtain ⟨pre, r, rfl, hpre⟩ := h.last
  rw [List.dropLast_concat, ← extent_encodedSize]
  rcases hpre with rfl | hcut
  · exact h0
  · simpa [strideCut] using hcut

theorem indexes_indexOf (level : Nat) (rs : List Record) :
    Indexes (indexOf level rs).sparseIndex rs := by
  rw [indexOf, indexRecords_blocks]
  exact indexes_blocks _ rs

theorem indexRecords_keys (blockStride : Nat) : ∀ (rs : List Record) (cursor : Nat)
    (st : IndexState),
      (indexRecords blockStride rs cursor st).bloomKeys = st.bloomKeys ++ rs.map Prod.fst ∧
      (indexRecords blockStride rs cursor st).maxKey = if rs = [] then st.maxKey else lastKey rs
  | [], _, st => ⟨(List.append_nil _).symm, rfl⟩
  | r :: rs, cursor, st => by
    obtain ⟨hbloom, hmax⟩ := indexRecords_keys blockStride rs (cursor + (encodeRecord r).length)
      (st.add blockStride r.1 cursor (cursor + (encodeRecord r).length))
    rw [indexRecords, hbloom, hmax, if_neg (List.cons_ne_nil _ _)]
    constructor
    · simp [IndexState.add]
    · by_cases hne : rs = []
      · rw [if_pos hne, hne]
        rfl
      · rw [if_neg hne, lastKey_cons r hne]

theorem indexOf_keys (level : Nat) (rs : List Record) :
    (indexOf level rs).bloomKeys = rs.map Prod.fst ∧ (indexOf level rs).maxKey = lastKey rs := by
  obtain ⟨hbloom, hmax⟩ := indexRecords_keys (64 * 1024 * max 1 level) rs 0 ⟨[], 0, [], []⟩
  exact ⟨hbloom, hmax.trans (lastKey_of_start rs)⟩

/-! ## Decoding the sparse index -/

theorem encodeSparseIndex_cons (e : Nat × Bytes) (sparseIndex : List (Nat × Bytes)) :
    encodeSparseIndex (e :: sparseIndex) =
      field e.2 ++ leBytes 8 e.1 ++ encodeSparseIndex sparseIndex := rfl

theorem sparseEntry_field {offset : Nat} {key : Bytes} (hk : key.length < 2 ^ 32)
    (ho : offset < 2 ^ 64) (pre rest : Bytes) :
    sparseEntry (pre ++ (field key ++ leBytes 8 offset ++ rest)) pre.length =
      .ok ((offset, key), pre.length + (12 + key.length)) := by
  have hkl : leNat (leBytes 4 key.length) = key.length := leNat_leBytes (by simpa using hk)
  have hol : leNat (leBytes 8 offset) = offset := leNat_leBytes (by simpa using ho)
  have hlen : (pre ++ (field key ++ leBytes 8 offset ++ rest)).length =
      pre.length + (12 + key.length) + rest.length := by
    simp only [List.length_append, length_field, length_leBytes]
    omega
  -- the buffer, from each part of the entry on
  have h1 : pre ++ (field key ++ leBytes 8 offset ++ rest) =
      pre ++ (leBytes 4 key.length ++ (key ++ (leBytes 8 offset ++ rest))) := by
    simp [field]
  have h2 := next_part h1
  have h3 := next_part h2
  have hp1 : ((pre ++ (field key ++ leBytes 8 offset ++ rest)).drop pre.length).take 4 =
      leBytes 4 key.length := part_at h1 rfl (by simp)
  have hp2 : ((pre ++ (field key ++ leBytes 8 offset ++ rest)).drop (pre.length + 4)).take
      key.length = key := part_at h2 (by simp) rfl
  have hp3 : ((pre ++ (field key ++ leBytes 8 offset ++ rest)).drop
      (pre.length + 4 + key.length)).take 8 = leBytes 8 offset :=
    part_at h3 (by simp +arith) (by simp)
  unfold sparseEntry
  simp only [hp1, hkl, hp2, hp3, hol]
  rw [ensure_pos (by rw [hlen]; omega), ok_bind, ensure_pos (by rw [hlen]; omega), ok_bind,
    ensure_pos (by rw [hlen]; omega), ok_bind, pure_ok]
  simp only [Except.ok.injEq, Prod.mk.injEq, true_and]
  omega

theorem sparseLoop_encode : ∀ {sparseIndex : List (Nat × Bytes)},
    (∀ e ∈ sparseIndex, e.2.length < 2 ^ 32 ∧ e.1 < 2 ^ 64) → ∀ pre : Bytes,
      sparseLoop (pre ++ encodeSparseIndex sparseIndex) pre.length = .ok sparseIndex
  | [], _, pre => by
    rw [sparseLoop, dif_neg (by simp [encodeSparseIndex])]
  | e :: sparseIndex, h, pre => by
    obtain ⟨hk, ho⟩ := h e (.head _)
    have hentry := sparseEntry_field hk ho pre (encodeSparseIndex sparseIndex)
    have ih := sparseLoop_encode (fun x hx => h x (.tail _ hx)) (pre ++ (field e.2 ++ leBytes 8 e.1))
    have hpre : (pre ++ (field e.2 ++ leBytes 8 e.1)).length = pre.length + (12 + e.2.length) := by
      simp only [List.length_append, length_field, length_leBytes]
      omega
    rw [List.append_assoc, hpre] at ih
    rw [encodeSparseIndex_cons, sparseLoop, dif_pos (by
      simp only [List.length_append, length_field, length_leBytes]
      omega)]
    split
    · rename_i e' pos' heq
      rw [hentry, Except.ok.injEq, Prod.mk.injEq] at heq
      obtain ⟨rfl, rfl⟩ := heq
      rw [ih]
      rfl
    · rename_i heq
      rw [hentry] at heq
      cases heq

/-! ## Reading the parts of a table -/

section
variable {bloomBlock : Bytes} (sparseIndexBytes dataSection footer : Bytes)

theorem frame_eq (bloomBlock : Bytes) : frame bloomBlock sparseIndexBytes dataSection footer =
    [] ++ (headerCrc ++ (leBytes 8 footer.length ++ (bloomBlock ++
      (leBytes 4 sparseIndexBytes.length ++ (sparseIndexBytes ++ (dataSection ++ footer)))))) := by
  simp [frame]

theorem length_headerCrc : headerCrc.length = 64 := by decide

theorem length_frame (hb : bloomBlock.length = bloomFilterSize) :
    (frame bloomBlock sparseIndexBytes dataSection footer).length =
      sparseIndexOffset + 4 + sparseIndexBytes.length + dataSection.length + footer.length := by
  rw [frame_eq]
  simp only [List.length_append, List.length_nil, length_leBytes, length_headerCrc, hb,
    sparseIndexOffset, bloomFilterOffset, headerSize, footerSizeFieldSize]
  omega

theorem readHeader_frame (bloomBlock : Bytes) :
    readHeader (frame bloomBlock sparseIndexBytes dataSection footer) = .ok headerCrc :=
  readExact_at (frame_eq _ _ _ _) rfl length_headerCrc.symm

theorem getBloomFilter_frame (hb : bloomBlock.length = bloomFilterSize) :
    getBloomFilter (frame bloomBlock sparseIndexBytes dataSection footer) = .ok bloomBlock := by
  refine readExact_at (next_part (next_part (frame_eq _ _ _ _))) ?_ hb.symm
  simp [length_headerCrc, bloomFilterOffset, headerSize, footerSizeFieldSize]

theorem readFooterSize_frame (bloomBlock : Bytes) (hf : footer.length < 2 ^ 64) :
    (readExact (frame bloomBlock sparseIndexBytes dataSection footer) headerSize 8).map leNat =
      .ok footer.length := by
  have h2 := next_part (frame_eq sparseIndexBytes dataSection footer bloomBlock)
  rw [readExact_at h2 (show headerSize = _ from length_headerCrc.symm) (length_leBytes _ _).symm,
    Except.map, leNat_leBytes (by simpa using hf)]

/-- The size of the sparse index, and the sparse index. -/
theorem readSparseIndex_frame (hb : bloomBlock.length = bloomFilterSize)
    (hs : sparseIndexBytes.length < 2 ^ 32) :
    (readExact (frame bloomBlock sparseIndexBytes dataSection footer) sparseIndexOffset 4).map leNat =
      .ok sparseIndexBytes.length ∧
    readExact (frame bloomBlock sparseIndexBytes dataSection footer) (sparseIndexOffset + 4)
      sparseIndexBytes.length = .ok sparseIndexBytes := by
  have h4 := next_part (next_part (next_part
    (frame_eq sparseIndexBytes dataSection footer bloomBlock)))
  have hpos : sparseIndexOffset =
      ((([] : Bytes) ++ headerCrc ++ leBytes 8 footer.length) ++ bloomBlock).length := by
    simp +arith [length_headerCrc, hb, sparseIndexOffset, bloomFilterOffset, headerSize,
      footerSizeFieldSize]
  constructor
  · rw [readExact_at h4 hpos (length_leBytes _ _).symm, Except.map,
      leNat_leBytes (by simpa using hs)]
  · refine readExact_at (next_part h4) ?_ rfl
    rw [List.length_append, ← hpos, length_leBytes]

theorem drop_frame (hb : bloomBlock.length = bloomFilterSize) {pre post : Bytes}
    (hd : dataSection = pre ++ post) :
    (frame bloomBlock sparseIndexBytes dataSection footer).drop
      (sparseIndexOffset + 4 + sparseIndexBytes.length + pre.length) = post ++ footer := by
  have h6 := next_part (next_part (next_part (next_part (next_part
    (frame_eq sparseIndexBytes dataSection footer bloomBlock)))))
  rw [h6, hd, List.append_assoc pre, ← List.append_assoc _ pre]
  refine List.drop_left' ?_
  simp +arith [length_headerCrc, hb, sparseIndexOffset, bloomFilterOffset, headerSize,
    footerSizeFieldSize]

end

/-- The last key of a table as `readFooter` decodes it. -/
def footerKey (key : Bytes) : Bytes := if key.length ≤ 9996 then key else []

theorem readFooter_frame {bloomBlock sparseIndexBytes dataSection key : Bytes}
    (hb : bloomBlock.length = bloomFilterSize) (hk : key.length < 2 ^ 32) :
    readFooter (frame bloomBlock sparseIndexBytes dataSection (field key)) = .ok (footerKey key) := by
  have hlen := length_frame sparseIndexBytes dataSection (field key) hb
  have hsize := readFooterSize_frame sparseIndexBytes dataSection (field key) bloomBlock
    (by rw [length_field]; omega)
  -- the file, from its footer on
  have hfoot : frame bloomBlock sparseIndexBytes dataSection (field key) =
      (headerCrc ++ leBytes 8 (field key).length ++ bloomBlock ++ leBytes 4 sparseIndexBytes.length ++
        sparseIndexBytes ++ dataSection) ++ (leBytes 4 key.length ++ (key ++ [])) := by
    simp [frame, field]
  have hpre : (headerCrc ++ leBytes 8 (field key).length ++ bloomBlock ++
      leBytes 4 sparseIndexBytes.length ++ sparseIndexBytes ++ dataSection).length =
      (frame bloomBlock sparseIndexBytes dataSection (field key)).length - (4 + key.length) := by
    have := congrArg List.length hfoot
    simp only [List.length_append, length_leBytes, List.length_nil] at this ⊢
    omega
  unfold readFooter
  cases hr : readExact (frame bloomBlock sparseIndexBytes dataSection (field key)) headerSize 8 with
  | error e =>
    rw [hr] at hsize
    cases hsize
  | ok sizeBytes =>
    rw [hr, Except.map, Except.ok.injEq, length_field] at hsize
    rw [ok_bind, hsize, footerKey]
    by_cases hle : key.length ≤ 9996
    · rw [if_neg (by omega), if_pos hle, ensure_pos (by rw [hlen, length_field]; omega), ok_bind]
      dsimp only
      rw [readExact_at hfoot hpre.symm (length_leBytes _ _).symm, ok_bind,
        leNat_leBytes (by simpa using hk)]
      refine readExact_at (next_part hfoot) ?_ rfl
      rw [List.length_append, hpre, length_leBytes]
    · rw [if_pos (by omega), if_neg hle]
      rfl

/-- What is read of a file with such parts when it is loaded. -/
theorem generateIndex_frame {bloomBlock : Bytes} (sparseIndex : List (Nat × Bytes))
    (dataSection key : Bytes) (hb : bloomBlock.length = bloomFilterSize)
    (hs : (encodeSparseIndex sparseIndex).length < 2 ^ 32)
    (hentries : ∀ e ∈ sparseIndex, e.2.length < 2 ^ 32 ∧ e.1 < 2 ^ 64) (hk : key.length < 2 ^ 32)
    (created : Nat) : generateIndex ⟨created, frame bloomBlock (encodeSparseIndex sparseIndex)
      dataSection (field key)⟩ =
        .ok ⟨frame bloomBlock (encodeSparseIndex sparseIndex) dataSection (field key),
          sparseIndexOffset + 4 + (encodeSparseIndex sparseIndex).length,
          ⟨File.createdSecs ⟨created, []⟩, sparseIndex, footerKey key⟩⟩ := by
  obtain ⟨hsize, hindex⟩ := readSparseIndex_frame (encodeSparseIndex sparseIndex) dataSection
    (field key) hb hs
  have hloop := sparseLoop_encode hentries []
  rw [List.nil_append, List.length_nil] at hloop
  have hfooter : readFooter (frame bloomBlock (encodeSparseIndex sparseIndex) dataSection
      (field key)) = .ok (footerKey key) := readFooter_frame hb hk
  unfold generateIndex
  dsimp only
  cases hr : readExact (frame bloomBlock (encodeSparseIndex sparseIndex) dataSection (field key))
      sparseIndexOffset 4 with
  | error e =>
    rw [hr] at hsize
    cases hsize
  | ok sizeBytes =>
    rw [hr, Except.map, Except.ok.injEq] at hsize
    rw [ok_bind, hsize, hindex, ok_bind, hloop, ok_bind, hfooter]
    rfl

/-! ## Tables as their writers make them -/

/-- A table with its sparse index and its records, the records in any order. -/
structure Framed (bytes : Bytes) (sparseIndex : List (Nat × Bytes)) (rs : List Record) : Prop where
  layout : ∃ bloomBlock, bloomBlock.length = bloomFilterSize ∧
    bytes = frame bloomBlock (encodeSparseIndex sparseIndex) (encodeSection rs) (field (lastKey rs))
  nonempty : rs ≠ []
  fits : ∀ r ∈ rs, Fits r
  indexes : Indexes sparseIndex rs
  indexSize : (encodeSparseIndex sparseIndex).length < 2 ^ 32
  /-- the length of a buffer is a `usize` -/
  size : bytes.length < 2 ^ 64

/-- The reader of a table. -/
def readerOf (file : File) (sparseIndex : List (Nat × Bytes)) (rs : List Record) : TableReader :=
  ⟨file.bytes, sparseIndexOffset + 4 + (encodeSparseIndex sparseIndex).length,
    ⟨file.createdSecs, sparseIndex, footerKey (lastKey rs)⟩⟩

section
variable {bytes : Bytes} {sparseIndex : List (Nat × Bytes)} {rs : List Record}

namespace Framed

theorem lastKey_fits (h : Framed bytes sparseIndex rs) : (lastKey rs).length < 2 ^ 32 := by
  obtain ⟨r, hr, hlast⟩ := lastKey_mem h.nonempty
  rw [← hlast]
  exact (h.fits r hr).1

/-- An entry of the sparse index points at a record. -/
theorem entry (h : Framed bytes sparseIndex rs) {e : Nat × Bytes} (he : e ∈ sparseIndex) :
    ∃ pre r post, rs = pre ++ r :: post ∧ e = ((encodeSection pre).length, r.1) := by
  obtain ⟨pre, r, post, hrs, heq⟩ := mem_marks (h.indexes.sub.subset he)
  rw [Nat.zero_add] at heq
  exact ⟨pre, r, post, hrs, heq⟩

theorem entry_fits (h : Framed bytes sparseIndex rs) {e : Nat × Bytes} (he : e ∈ sparseIndex) :
    e.2.length < 2 ^ 32 ∧ e.1 < 2 ^ 64 := by
  obtain ⟨pre, r, post, hrs, rfl⟩ := h.entry he
  refine ⟨(h.fits r (by rw [hrs]; simp)).1, ?_⟩
  have hsize := h.size
  obtain ⟨bloomBlock, hb, hbytes⟩ := h.layout
  have hsection : (encodeSection rs).length =
      (encodeSection pre).length + (encodeSection (r :: post)).length := by
    rw [hrs, encodeSection, List.flatMap_append, List.length_append]
    rfl
  rw [hbytes, length_frame _ _ _ hb] at hsize
  dsimp only
  omega

/-- **Loading a table** gives its reader. -/
theorem generateIndex (h : Framed bytes sparseIndex rs) (created : Nat) :
    TableReader.generateIndex ⟨created, bytes⟩ = .ok (readerOf ⟨created, bytes⟩ sparseIndex rs) := by
  obtain ⟨bloomBlock, hb, rfl⟩ := h.layout
  exact generateIndex_frame _ _ _ hb h.indexSize (fun e he => h.entry_fits he) h.lastKey_fits created

/-- The table from a record on that an entry of its sparse index points at. -/
theorem drop_entry (h : Framed bytes sparseIndex rs) (created : Nat) {pre post : List Record}
    (hrs : rs = pre ++ post) :
    bytes.drop ((readerOf ⟨created, bytes⟩ sparseIndex rs).dataSectionOffset +
      (encodeSection pre).length) = encodeSection post ++ field (lastKey rs) := by
  obtain ⟨bloomBlock, hb, hbytes⟩ := h.layout
  have hsection : encodeSection rs = encodeSection pre ++ encodeSection post := by
    rw [hrs, encodeSection, List.flatMap_append]
    rfl
  have hdrop := drop_frame (encodeSparseIndex sparseIndex) _ (field (lastKey rs)) hb hsection
  rwa [← hbytes] at hdrop

end Framed

/-- A table with its sparse index and its records. -/
structure WellFormed (bytes : Bytes) (sparseIndex : List (Nat × Bytes)) (rs : List Record) :
    Prop where
  layout : ∃ bloomBlock, bloomBlock.length = bloomFilterSize ∧
    (∀ r ∈ rs, BloomGenerator.probablyExist bloomBlock r.1 = true) ∧
    bytes = frame bloomBlock (encodeSparseIndex sparseIndex) (encodeSection rs) (field (lastKey rs))
  nonempty : rs ≠ []
  fits : ∀ r ∈ rs, Fits r
  sorted : KeySorted rs
  indexes : Indexes sparseIndex rs
  indexSize : (encodeSparseIndex sparseIndex).length < 2 ^ 32
  /-- the length of a buffer is a `usize` -/
  size : bytes.length < 2 ^ 64

namespace WellFormed

theorem framed (h : WellFormed bytes sparseIndex rs) : Framed bytes sparseIndex rs := by
  obtain ⟨bloomBlock, hb, -, hbytes⟩ := h.layout
  exact ⟨⟨bloomBlock, hb, hbytes⟩, h.nonempty, h.fits, h.indexes, h.indexSize, h.size⟩

theorem generateIndex (h : WellFormed bytes sparseIndex rs) (created : Nat) :
    TableReader.generateIndex ⟨created, bytes⟩ = .ok (readerOf ⟨created, bytes⟩ sparseIndex rs) :=
  h.framed.generateIndex created

theorem readHeader (h : WellFormed bytes sparseIndex rs) :
    TableReader.readHeader bytes = .ok headerCrc := by
  obtain ⟨bloomBlock, -, -, hbytes⟩ := h.layout
  rw [hbytes, readHeader_frame]

theorem getBloomFilter (h : WellFormed bytes sparseIndex rs) : ∃ filter,
    TableReader.getBloomFilter bytes = .ok filter ∧
      ∀ r ∈ rs, BloomGenerator.probablyExist filter r.1 = true := by
  obtain ⟨bloomBlock, hb, hexist, hbytes⟩ := h.layout
  exact ⟨bloomBlock, by rw [hbytes, getBloomFilter_frame _ _ _ hb], hexist⟩

theorem holds (h : WellFormed bytes sparseIndex rs) : Holds ⟨.ssTable, bytes⟩ rs := by
  obtain ⟨bloomBlock, hb, -, hbytes⟩ := h.layout
  have hlast := h.framed.lastKey_fits
  rw [hbytes]
  refine holds_frame h.fits hb h.indexSize ?_ (field_ne_nil _)
  rw [length_field]
  omega

end WellFormed

end

section
variable {P : Platform} {level : Nat} {bloomFalsePositiveRate : F64} {rs : List Record}

theorem framed_builtTable (hne : rs ≠ []) (h : ∀ r ∈ rs, Fits r) (hfits : IndexFits level rs)
    (hsize : (builtTable P level bloomFalsePositiveRate rs).length < 2 ^ 64) :
    Framed (builtTable P level bloomFalsePositiveRate rs) (indexOf level rs).sparseIndex rs where
  layout := by
    refine ⟨BloomGenerator.generateFilterFromKeys P (indexOf level rs).bloomKeys
      bloomFalsePositiveRate, BloomGenerator.length_build _ _, ?_⟩
    rw [builtTable, (indexOf_keys level rs).2]
  nonempty := hne
  fits := h
  indexes := indexes_indexOf level rs
  indexSize := hfits
  size := hsize

/-- A rebuilt data section is a well-formed table. -/
theorem wellFormed_builtTable (hne : rs ≠ []) (h : ∀ r ∈ rs, Fits r) (hs : KeySorted rs)
    (hfits : IndexFits level rs)
    (hsize : (builtTable P level bloomFalsePositiveRate rs).length < 2 ^ 64) :
    WellFormed (builtTable P level bloomFalsePositiveRate rs) (indexOf level rs).sparseIndex rs where
  layout := by
    obtain ⟨hbloom, hmax⟩ := indexOf_keys level rs
    refine ⟨BloomGenerator.generateFilterFromKeys P (indexOf level rs).bloomKeys
      bloomFalsePositiveRate, BloomGenerator.length_build _ _, fun r hr => ?_, ?_⟩
    · refine BloomGenerator.probablyExist_build _ ?_
      rw [hbloom]
      exact List.mem_map_of_mem hr
    · rw [builtTable, hmax]
  nonempty := hne
  fits := h
  sorted := hs
  indexes := indexes_indexOf level rs
  indexSize := hfits
  size := hsize

end

end Lsm
