import SwiftMerge.Lsm.Proof.ReaderProof

/-!
# How far a search reads

`scanReads` lists what the `read_exact` calls of the scan ask for. A scan that meets a record whose
key is not below the sought one reads no byte behind that record (`scan_records`); one that does not
goes on into what follows the data section (`scan_below`). Behind a data section stands the footer,
a field with nothing behind it, and there the scan fails (`scan_footer`, `scan_past`).
-/

namespace Lsm

open Lib TableReader

variable {key : Bytes} {rs : List Record} {sparseIndex : List (Nat × Bytes)}

namespace TableReader

/-- How many bytes the `read_exact` calls of the scan ask for, one after another. -/
def scanReads (file key : Bytes) : List Nat :=
  if file.length < 4 then [4]
  else
    match _ : readField file with
    | none => [4, leNat (file.take 4)]
    | some (entryKey, file') =>
      match _ : readField file' with
      | none =>
        4 :: entryKey.length :: if file'.length < 4 then [4] else [4, leNat (file'.take 4)]
      | some (value, file'') =>
        4 :: entryKey.length :: 4 :: value.length ::
          match compare entryKey key with
          | .lt => scanReads file'' key
          | _ => []
termination_by file.length
decreasing_by
  have h1 := readField_length ‹readField file = _›
  have h2 := readField_length ‹readField file' = _›
  omega

/-- Where in the data section the search for a key starts; `none` when it does not read at all. -/
def blockOffset (sparseIndex : List (Nat × Bytes)) (key : Bytes) : Option Nat :=
  match binarySearchBy sparseIndex.length fun i => compare (sparseIndex[i]?.elim [] Prod.snd) key with
  | .ok idx => some (sparseIndex[idx]?.elim 0 Prod.fst)
  | .error 0 => none
  | .error (idx + 1) => some (sparseIndex[idx]?.elim 0 Prod.fst)

/-- The end of what a search reads of the file. -/
def searchEnd (t : TableReader) (key : Bytes) : Nat :=
  match blockOffset t.metadata.sparseIndex key with
  | none => 0
  | some offset =>
    let filePosition := t.dataSectionOffset + offset
    filePosition + (scanReads (t.f.drop filePosition) key).sum

theorem search_eq (t : TableReader) (key : Bytes) : t.search key =
    match blockOffset t.metadata.sparseIndex key with
    | none => .ok none
    | some offset => scan (t.f.drop (t.dataSectionOffset + offset)) key := by
  unfold search blockOffset
  dsimp only
  cases binarySearchBy t.metadata.sparseIndex.length fun i =>
      compare (t.metadata.sparseIndex[i]?.elim [] Prod.snd) key with
  | ok idx => rfl
  | error idx =>
    cases idx with
    | zero => rfl
    | succ idx => rfl

end TableReader

/-! ## The scan over records in any order -/

theorem scanReads_record {r : Record} (h : Fits r) (rest key : Bytes) :
    scanReads (encodeRecord r ++ rest) key = 4 :: r.1.length :: 4 :: r.2.length ::
      match compare r.1 key with
      | .lt => scanReads rest key
      | _ => [] := by
  obtain ⟨hkey, hvalue⟩ := readField_record h rest
  rw [scanReads, if_neg (by rw [List.length_append, length_encodeRecord]; omega)]
  split
  · rename_i hnone
    rw [hkey] at hnone
    cases hnone
  · rename_i hsome
    rw [hkey, Option.some.injEq, Prod.mk.injEq] at hsome
    obtain ⟨rfl, rfl⟩ := hsome
    split
    · rename_i hnone
      rw [hvalue] at hnone
      cases hnone
    · rename_i hsome
      rw [hvalue, Option.some.injEq, Prod.mk.injEq] at hsome
      obtain ⟨rfl, rfl⟩ := hsome
      rfl

theorem scan_below (rest key : Bytes) : ∀ {below : List Record}, (∀ r ∈ below, Fits r) →
    (∀ r ∈ below, compare r.1 key = .lt) →
      scan (encodeSection below ++ rest) key = scan rest key ∧
      (scanReads (encodeSection below ++ rest) key).sum =
        (encodeSection below).length + (scanReads rest key).sum
  | [], _, _ => by simp
  | r :: below, hf, hlt => by
    obtain ⟨ih, ihr⟩ := scan_below rest key (fun x hx => hf x (.tail _ hx))
      fun x hx => hlt x (.tail _ hx)
    have hr := hlt r (.head _)
    rw [encodeSection_cons, List.append_assoc, scan_record (hf r (.head _)),
      scanReads_record (hf r (.head _)), hr]
    refine ⟨ih, ?_⟩
    dsimp only
    rw [List.sum_cons, List.sum_cons, List.sum_cons, List.sum_cons, ihr, List.length_append,
      length_encodeRecord]
    omega

/-- The records of a scan up to the first whose key is not below the sought one. -/
theorem exists_below (key : Bytes) : ∀ rs : List Record, (∀ r ∈ rs, compare r.1 key = .lt) ∨
    ∃ below r post, rs = below ++ r :: post ∧ (∀ x ∈ below, compare x.1 key = .lt) ∧
      compare r.1 key ≠ .lt
  | [] => .inl fun _ h => absurd h List.not_mem_nil
  | r :: rs => by
    by_cases hr : compare r.1 key = .lt
    · rcases exists_below key rs with hall | ⟨below, r', post, hrs, hlt, hne⟩
      · exact .inl fun x hx => by
          cases hx with
          | head => exact hr
          | tail _ hx => exact hall x hx
      · refine .inr ⟨r :: below, r', post, by rw [hrs, List.cons_append], fun x hx => ?_, hne⟩
        cases hx with
        | head => exact hr
        | tail _ hx => exact hlt x hx
    · exact .inr ⟨[], r, rs, rfl, fun _ h => absurd h List.not_mem_nil, hr⟩

/-- **The scan stops** at the first record whose key is not below the sought one. -/
theorem scan_records (rest : Bytes) {below post : List Record} {r : Record}
    (hf : ∀ x ∈ below ++ r :: post, Fits x) (hlt : ∀ x ∈ below, compare x.1 key = .lt)
    (hr : compare r.1 key ≠ .lt) :
    scan (encodeSection (below ++ r :: post) ++ rest) key =
      .ok (if compare r.1 key = .eq then some r.2 else none) ∧
    (scanReads (encodeSection (below ++ r :: post) ++ rest) key).sum ≤
      (encodeSection (below ++ r :: post)).length := by
  have hsection : encodeSection (below ++ r :: post) =
      encodeSection below ++ (encodeRecord r ++ encodeSection post) := List.flatMap_append
  have hfr : Fits r := hf r (List.mem_append_right _ (.head _))
  obtain ⟨hscan, hreads⟩ := scan_below (encodeRecord r ++ (encodeSection post ++ rest)) key
    (fun x hx => hf x (List.mem_append_left _ hx)) hlt
  rw [hsection, List.append_assoc, List.append_assoc, hscan, hreads, scan_record hfr,
    scanReads_record hfr, List.length_append, List.length_append, length_encodeRecord]
  cases hc : compare r.1 key with
  | lt => exact absurd hc hr
  | eq =>
    refine ⟨rfl, ?_⟩
    simp only [List.sum_cons, List.sum_nil]
    omega
  | gt =>
    refine ⟨rfl, ?_⟩
    simp only [List.sum_cons, List.sum_nil]
    omega

/-- **The scan of the footer** takes its key for a record's and fails on the value. -/
theorem scan_footer {last : Bytes} (h : last.length < 2 ^ 32) :
    scan (field last) key = .error (.unexpectedEof "early eof") := by
  have hkey : readField (field last) = some (last, []) := by
    have h := readField_field h []
    rwa [List.append_nil] at h
  rw [scan, if_neg (by rw [length_field]; omega)]
  split
  · rename_i hnone
    cases hkey.symm.trans hnone
  · rename_i hsome
    rw [hkey, Option.some.injEq, Prod.mk.injEq] at hsome
    obtain ⟨rfl, rfl⟩ := hsome
    split
    · rfl
    · rename_i hsome
      cases hsome

/-! ## The search in a table -/

theorem blockOffset_record {bytes : Bytes} (h : Framed bytes sparseIndex rs) {offset : Nat}
    (hb : blockOffset sparseIndex key = some offset) :
    ∃ pre r post, rs = pre ++ r :: post ∧ (encodeSection pre).length = offset := by
  have hrange := binarySearchBy_range sparseIndex.length fun i =>
    compare (sparseIndex[i]?.elim [] Prod.snd) key
  have hentry : ∀ {idx : Nat}, idx < sparseIndex.length →
      some (sparseIndex[idx]?.elim 0 Prod.fst) = some offset →
        ∃ pre r post, rs = pre ++ r :: post ∧ (encodeSection pre).length = offset := by
    intro idx hlt he
    obtain ⟨pre, r, post, hrs, hentry⟩ := h.entry (List.getElem_mem hlt)
    rw [List.getElem?_eq_getElem hlt, hentry, Option.some.injEq] at he
    exact ⟨pre, r, post, hrs, he⟩
  unfold blockOffset at hb
  split at hb <;> rename_i hs <;> rw [hs] at hrange
  · exact hentry hrange hb
  · cases hb
  · exact hentry hrange hb

/-- The search for a key has no block to look in, or meets a record above the key before one that
has it. -/
def StopsEarly (sparseIndex : List (Nat × Bytes)) (rs : List Record) (key : Bytes) : Prop :=
  ∀ offset, blockOffset sparseIndex key = some offset →
    ∃ pre below r post, rs = pre ++ (below ++ r :: post) ∧ (encodeSection pre).length = offset ∧
      (∀ x ∈ below, compare x.1 key = .lt) ∧ compare r.1 key = .gt

namespace Framed

variable {bytes : Bytes}

/-- The scan from a place in the data section on, when some record there is not below the key. -/
theorem scan_block (h : Framed bytes sparseIndex rs) (created : Nat)
    {pre below post : List Record} {r : Record} (hrs : rs = pre ++ (below ++ r :: post))
    (hlt : ∀ x ∈ below, compare x.1 key = .lt) (hr : compare r.1 key ≠ .lt) :
    let filePosition := (readerOf ⟨created, bytes⟩ sparseIndex rs).dataSectionOffset +
      (encodeSection pre).length
    scan (bytes.drop filePosition) key =
      .ok (if compare r.1 key = .eq then some r.2 else none) ∧
    filePosition + (scanReads (bytes.drop filePosition) key).sum ≤
      (readerOf ⟨created, bytes⟩ sparseIndex rs).dataSectionOffset + (encodeSection rs).length := by
  have hfits : ∀ x ∈ below ++ r :: post, Fits x := fun x hx =>
    h.fits x (hrs ▸ List.mem_append_right _ hx)
  have hlen : (encodeSection rs).length =
      (encodeSection pre).length + (encodeSection (below ++ r :: post)).length := by
    rw [hrs, encodeSection, List.flatMap_append, List.length_append]
    rfl
  obtain ⟨hscan, hreads⟩ := scan_records (field (lastKey rs)) hfits hlt hr
  dsimp only
  rw [h.drop_entry created hrs]
  exact ⟨hscan, by omega⟩

/-- The scan over records that are all below the key goes on into the footer. -/
theorem scan_past (h : Framed bytes sparseIndex rs) (created : Nat) {pre post : List Record}
    {r : Record} (hrs : rs = pre ++ r :: post) (hlt : ∀ x ∈ r :: post, compare x.1 key = .lt) :
    scan (bytes.drop ((readerOf ⟨created, bytes⟩ sparseIndex rs).dataSectionOffset +
      (encodeSection pre).length)) key = .error (.unexpectedEof "early eof") := by
  have hfits : ∀ x ∈ r :: post, Fits x := fun x hx =>
    h.fits x (hrs ▸ List.mem_append_right _ hx)
  rw [h.drop_entry created hrs, (scan_below _ key hfits hlt).1, scan_footer h.lastKey_fits]

/-- **A search below the last key** reads no byte behind the data section. -/
theorem searchEnd_le (h : Framed bytes sparseIndex rs) (created : Nat)
    (hlast : compare key (lastKey rs) ≠ .gt) :
    (readerOf ⟨created, bytes⟩ sparseIndex rs).searchEnd key ≤
      (readerOf ⟨created, bytes⟩ sparseIndex rs).dataSectionOffset + (encodeSection rs).length := by
  unfold searchEnd
  split
  · exact Nat.zero_le _
  · rename_i offset hb
    obtain ⟨pre, r, post, hrs, rfl⟩ := blockOffset_record h hb
    -- the last record is not below the key
    rcases exists_below key (r :: post) with hall | ⟨below, r', post', heq, hlt, hne⟩
    · obtain ⟨a, ha, hal⟩ := lastKey_mem (List.cons_ne_nil r post)
      rw [hrs, lastKey_append pre (List.cons_ne_nil r post), ← hal] at hlast
      exact absurd (Std.OrientedCmp.gt_of_lt (hall a ha)) hlast
    · rw [heq] at hrs
      exact (h.scan_block created hrs hlt hne).2

/-- **A search above the last key** of a table in key order fails. -/
theorem search_above (h : Framed bytes sparseIndex rs) (hs : KeySorted rs) (created : Nat)
    (hk : compare key (lastKey rs) = .gt) :
    (readerOf ⟨created, bytes⟩ sparseIndex rs).search key = .error (.unexpectedEof "early eof") := by
  have hbelow : ∀ r ∈ rs, compare r.1 key = .lt := by
    intro r hr
    have hlast : compare (lastKey rs) key = .lt := Std.OrientedCmp.lt_of_gt hk
    rcases le_lastKey hs r hr with he | hlt
    · rw [he, hlast]
    · exact Std.TransCmp.lt_trans hlt hlast
  rw [search_eq]
  change (match blockOffset sparseIndex key with
    | none => _
    | some offset => _) = _
  cases hb : blockOffset sparseIndex key with
  | none =>
    -- the first key is below the sought one
    unfold blockOffset at hb
    split at hb <;> rename_i hsearch
    · cases hb
    · obtain ⟨r, rs', hrs, hgt⟩ := h.first_above hs hsearch
      have hlt := hbelow r (hrs ▸ .head _)
      cases hlt.symm.trans hgt
    · cases hb
  | some offset =>
    obtain ⟨pre, r, post, hrs, rfl⟩ := blockOffset_record h hb
    exact h.scan_past created hrs fun x hx => hbelow x (hrs ▸ List.mem_append_right _ hx)

/-- **A clean miss**: the search ends within the data section without an answer exactly when it
meets a record above the key first. -/
theorem cleanMiss_iff (h : Framed bytes sparseIndex rs) (created : Nat) (key : Bytes) :
    (readerOf ⟨created, bytes⟩ sparseIndex rs).search key = .ok none ∧
        (readerOf ⟨created, bytes⟩ sparseIndex rs).searchEnd key ≤
          (readerOf ⟨created, bytes⟩ sparseIndex rs).dataSectionOffset + (encodeSection rs).length ↔
      StopsEarly sparseIndex rs key := by
  rw [search_eq, searchEnd, StopsEarly]
  change (match blockOffset sparseIndex key with
    | none => _
    | some offset => _) = _ ∧ (match blockOffset sparseIndex key with
    | none => _
    | some offset => _) ≤ _ ↔ _
  cases hb : blockOffset sparseIndex key with
  | none => exact iff_of_true ⟨rfl, Nat.zero_le _⟩ nofun
  | some offset =>
    dsimp only
    constructor
    · rintro ⟨hscan, -⟩ _ he
      obtain rfl := Option.some.inj he
      obtain ⟨pre, r, post, hrs, rfl⟩ := blockOffset_record h hb
      rcases exists_below key (r :: post) with hall | ⟨below, r', post', heq, hlt, hne⟩
      · -- the scan goes on into the footer
        cases (h.scan_past created hrs hall).symm.trans hscan
      · rw [heq] at hrs
        refine ⟨pre, below, r', post', hrs, rfl, hlt, ?_⟩
        have hblock := (h.scan_block created hrs hlt hne).1.symm.trans hscan
        cases hc : compare r'.1 key with
        | lt => exact absurd hc hne
        | eq => rw [hc] at hblock; cases hblock
        | gt => rfl
    · intro hstops
      obtain ⟨pre, below, r, post, hrs, rfl, hlt, hgt⟩ := hstops offset rfl
      have hblock := h.scan_block created hrs hlt (by rw [hgt]; decide)
      rw [hgt] at hblock
      exact hblock

end Framed

end Lsm
