import SwiftMerge.Lsm.Proof.TableProof

/-!
# The grammar of a data section

A data section is a concatenation of records. The pass that builds a table from it takes in exactly
the well-formed ones (`indexLoop_ok_iff`). The reads of a merge know the section by its size only,
and look at it between records: what they take for the section is a concatenation of records as well
(`readEntries_ok_iff`), whose last one may end behind it.
-/

namespace Lsm

open Lib

/-- The bytes are records, one after another. -/
def IsSection (bs : Bytes) : Prop := ∃ rs, (∀ r ∈ rs, Fits r) ∧ bs = encodeSection rs

theorem fits_cons {r : Record} {rs : List Record} (hr : Fits r) (hrs : ∀ x ∈ rs, Fits x) :
    ∀ x ∈ r :: rs, Fits x := by
  intro x hx
  cases hx with
  | head => exact hr
  | tail _ hx => exact hrs x hx

theorem encodeSection_append (rs us : List Record) :
    encodeSection (rs ++ us) = encodeSection rs ++ encodeSection us := List.flatMap_append

/-! ## The pass over a section -/

section
variable {dataSection : Bytes} {cursor cursor' : Nat}

/-- A turn of the pass that returns stood on a record. -/
theorem sectionEntry_shape {key : Bytes} (h : sectionEntry dataSection cursor = .ok (key, cursor')) :
    ∃ r, Fits r ∧ key = r.1 ∧ cursor' = cursor + (encodeRecord r).length ∧
      dataSection.drop cursor = encodeRecord r ++ dataSection.drop cursor' := by
  unfold sectionEntry at h
  obtain ⟨_, hc1, h⟩ := bind_ok h
  obtain ⟨_, hc2, h⟩ := bind_ok h
  obtain ⟨_, hc3, h⟩ := bind_ok h
  obtain ⟨_, hc4, h⟩ := bind_ok h
  have c1 := ensure_ok hc1
  have c2 := ensure_ok hc2
  have c3 := ensure_ok hc3
  have c4 := ensure_ok hc4
  obtain ⟨k, hkn, hk, hkey⟩ := exists_field c1 c2
  rw [← hkn] at c3 c4 h
  obtain ⟨v, hvn, hv, hvalue⟩ := exists_field c3 c4
  rw [← hvn] at h
  obtain ⟨rfl, rfl⟩ := Prod.mk.inj (Except.ok.inj h)
  have hcursor : cursor + 4 + k.length + 4 + v.length =
      cursor + (encodeRecord (k, v)).length := by
    rw [length_encodeRecord]
    dsimp only
    omega
  have hfront : (dataSection.drop (cursor + 4)).take k.length = k := by
    rw [← List.drop_drop, hkey, field, List.append_assoc, List.drop_left' (length_leBytes _ _),
      List.take_left]
  refine ⟨(k, v), ⟨hk, hv⟩, hfront, hcursor, ?_⟩
  rw [hkey, hvalue, encodeRecord, List.append_assoc]

theorem indexLoop_ok {blockStride : Nat} {st st' : IndexState} (hcursor : cursor ≤ dataSection.length)
    (h : indexLoop dataSection blockStride cursor st = .ok st') :
    IsSection (dataSection.drop cursor) := by
  fun_induction indexLoop dataSection blockStride cursor st with
  | case1 cursor st hlt key cursor' hentry ih =>
    obtain ⟨r, hr, -, rfl, hdrop⟩ := sectionEntry_shape hentry
    have hlen := congrArg List.length hdrop
    rw [List.length_append, List.length_drop, List.length_drop] at hlen
    obtain ⟨rs, hrs, hrest⟩ := ih (by omega) h
    exact ⟨r :: rs, fits_cons hr hrs, by rw [hdrop, hrest, encodeSection_cons]⟩
  | case2 cursor st hlt e hentry => cases h
  | case3 cursor st hge =>
    exact ⟨[], nofun, List.drop_of_length_le (Nat.le_of_not_lt hge)⟩

/-- **The pass takes in exactly the well-formed sections.** -/
theorem indexLoop_ok_iff {blockStride : Nat} {st : IndexState} :
    (∃ st', indexLoop dataSection blockStride 0 st = .ok st') ↔ IsSection dataSection := by
  constructor
  · rintro ⟨st', h⟩
    exact indexLoop_ok (Nat.zero_le _) h
  · rintro ⟨rs, hrs, rfl⟩
    exact ⟨_, indexLoop_section blockStride hrs [] st⟩

end

/-! ## Reading a section -/

/-- What reads that return have read: records off the front of the file, each of them begun within
the section. -/
structure Taken (rs : List Record) (s s' : Section) : Prop where
  fits : ∀ r ∈ rs, Fits r
  file : s.file = encodeSection rs ++ s'.file
  ptr : s'.ptr = s.ptr + (encodeSection rs).length
  size : s'.size = s.size
  ended : s.size ≤ s'.ptr
  begun : ∀ pre r, rs = pre ++ [r] → s.ptr + (encodeSection pre).length < s.size

theorem Taken.cons {s s' : Section} {r : Record} {rs : List Record} {file : Bytes}
    (hlt : s.ptr < s.size)
    (hread : readDataSectionEntry s.file = .ok (r, file))
    (h : Taken rs ⟨file, s.ptr + (encodeRecord r).length, s.size⟩ s') : Taken (r :: rs) s s' := by
  obtain ⟨hfile, hr⟩ := readDataSectionEntry_eq hread
  have hrest : file = encodeSection rs ++ s'.file := h.file
  have hptr := h.ptr
  dsimp only at hptr
  refine ⟨fits_cons hr h.fits, ?_, ?_, h.size, h.ended, fun pre x he => ?_⟩
  · rw [hfile, hrest, encodeSection_cons, List.append_assoc]
  · rw [encodeSection_cons, List.length_append]
    omega
  · cases pre with
    | nil => exact hlt
    | cons y pre =>
      obtain ⟨rfl, hrs⟩ := List.cons.inj he
      have hbegun := h.begun pre x hrs
      dsimp only at hbegun
      rw [encodeSection_cons, List.length_append]
      omega

theorem Taken.uncons {s s' : Section} {r : Record} {rs : List Record} (h : Taken (r :: rs) s s') :
    s.ptr < s.size ∧ readDataSectionEntry s.file = .ok (r, encodeSection rs ++ s'.file) ∧
      Taken rs ⟨encodeSection rs ++ s'.file, s.ptr + (encodeRecord r).length, s.size⟩ s' := by
  have hptr := h.ptr
  rw [encodeSection_cons, List.length_append] at hptr
  refine ⟨?_, ?_, fun x hx => h.fits x (.tail _ hx), rfl, ?_, h.size, h.ended, fun pre x he => ?_⟩
  · obtain ⟨pre, x, he⟩ := (List.eq_nil_or_concat' (r :: rs)).resolve_left (List.cons_ne_nil r rs)
    have hbegun := h.begun pre x he
    omega
  · rw [h.file, encodeSection_cons, List.append_assoc,
      readDataSectionEntry_encodeRecord (h.fits r (.head _))]
  · dsimp only
    omega
  · have hbegun := h.begun (r :: pre) x (congrArg (r :: ·) he)
    rw [encodeSection_cons, List.length_append] at hbegun
    dsimp only
    omega

/-- **The reads of a section** return exactly when they find records up to its end, and then the
records they have found. -/
theorem readEntries_ok_iff {s s' : Section} {rs : List Record} :
    readEntries s = .ok (rs, s') ↔ Taken rs s s' := by
  constructor
  · intro h
    fun_induction readEntries s generalizing rs s' with
    | case1 s hlt r file hread ih =>
      obtain ⟨⟨us, s''⟩, hus, hret⟩ := map_ok h
      obtain ⟨rfl, rfl⟩ := Prod.mk.inj hret
      exact .cons hlt hread (ih hus)
    | case2 s hlt e hread => cases h
    | case3 s hge =>
      obtain ⟨rfl, rfl⟩ := Prod.mk.inj (Except.ok.inj h)
      exact ⟨nofun, rfl, rfl, rfl, Nat.le_of_not_lt hge, fun pre r he => by simp at he⟩
  · intro h
    induction rs generalizing s with
    | nil =>
      obtain ⟨file, ptr, size⟩ := s
      obtain ⟨file', ptr', size'⟩ := s'
      obtain ⟨-, hfile, hptr, hsize, hended, -⟩ := h
      obtain rfl : file = file' := hfile
      obtain rfl : ptr' = ptr := hptr
      obtain rfl : size' = size := hsize
      rw [readEntries, if_neg (Nat.not_lt.2 hended)]
    | cons r rs ih =>
      obtain ⟨hlt, hread, htail⟩ := h.uncons
      rw [readEntries, if_pos hlt]
      split
      · rename_i heq
        rw [hread, Except.ok.injEq, Prod.mk.injEq] at heq
        obtain ⟨rfl, rfl⟩ := heq
        rw [ih htail]
        rfl
      · rename_i heq
        cases hread.symm.trans heq

/-- A record begins within the first `size` bytes of a file and ends behind them. -/
def Straddles (file : Bytes) (size : Nat) : Prop :=
  ∃ rs r rest, (∀ x ∈ rs, Fits x) ∧ Fits r ∧ file = encodeSection rs ++ (encodeRecord r ++ rest) ∧
    (encodeSection rs).length < size ∧
    size < (encodeSection rs).length + (encodeRecord r).length

/-- The reads end at the end of the section, unless a record ends behind it. -/
theorem Taken.tiles {file : Bytes} {size : Nat} {rs : List Record} {s' : Section}
    (h : Taken rs ⟨file, 0, size⟩ s') (hstraddle : ¬Straddles file size) :
    file.take size = encodeSection rs ∧ s'.file = file.drop size := by
  have hfile : file = encodeSection rs ++ s'.file := h.file
  have hsize : (encodeSection rs).length = size := by
    have hptr := h.ptr
    have hended := h.ended
    dsimp only at hptr hended
    rcases List.eq_nil_or_concat' rs with rfl | ⟨pre, r, rfl⟩
    · rw [encodeSection_nil, List.length_nil] at hptr ⊢
      omega
    · have hbegun := h.begun pre r rfl
      dsimp only at hbegun
      by_contra hne
      rw [encodeSection_append, List.length_append, encodeSection_cons, encodeSection_nil,
        List.append_nil] at hne hptr
      refine hstraddle ⟨pre, r, s'.file, fun x hx => h.fits x ?_, h.fits r ?_, ?_, ?_, ?_⟩
      · exact List.mem_append_left _ hx
      · exact List.mem_append_right _ (.head _)
      · rw [hfile, encodeSection_append, encodeSection_cons, encodeSection_nil, List.append_nil,
          List.append_assoc]
      · omega
      · omega
  rw [hfile, ← hsize, List.take_left, List.drop_left]
  exact ⟨rfl, rfl⟩

theorem taken_section {rs : List Record} (h : ∀ r ∈ rs, Fits r) (rest : Bytes) :
    Taken rs ⟨encodeSection rs ++ rest, 0, (encodeSection rs).length⟩
      ⟨rest, (encodeSection rs).length, (encodeSection rs).length⟩ :=
  readEntries_ok_iff.1 (readEntries_section rest h 0 _ (Nat.zero_add _))

/-- A record that ends behind the section is read as a record of the section. -/
theorem taken_straddle {file : Bytes} {size : Nat} (h : Straddles file size) :
    ∃ rs s', Taken rs ⟨file, 0, size⟩ s' ∧ size < (encodeSection rs).length := by
  obtain ⟨rs, r, rest, hrs, hr, rfl, hlo, hhi⟩ := h
  have hlen : (encodeSection (rs ++ [r])).length =
      (encodeSection rs).length + (encodeRecord r).length := by
    rw [encodeSection_append, List.length_append, encodeSection_cons, encodeSection_nil,
      List.append_nil]
  refine ⟨rs ++ [r], ⟨rest, (encodeSection (rs ++ [r])).length, size⟩,
    ⟨fun x hx => ?_, ?_, (Nat.zero_add _).symm, rfl, by dsimp only; omega, fun pre x he => ?_⟩,
    by omega⟩
  · rcases List.mem_append.1 hx with hx | hx
    · exact hrs x hx
    · rw [List.mem_singleton.1 hx]
      exact hr
  · rw [encodeSection_append, encodeSection_cons, encodeSection_nil, List.append_nil,
      List.append_assoc]
  · obtain ⟨rfl, -⟩ := List.append_inj' he rfl
    dsimp only
    omega

end Lsm
