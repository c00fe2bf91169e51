import SwiftMerge.Compaction.Proof.Cycle
import SwiftMerge.Lsm.Proof.IndexProof

/-!
# The outputs of a compaction are tables a reader can load

The table that a unit promotes is the one `buildFromDataSection` makes of its merge, byte for byte
(`errorFree_built`), with filter, sparse index and footer; so it is well formed when the merge is not
empty (`errorFree_wellFormed`).
-/

namespace Compaction

open Lib Lsm

variable {P : Platform} {dir id : Nat} {d d' : Disk} {bloomFalsePositiveRate : F64}
  {units : List (List String)} {run : String → List Record}

theorem length_builtTable (level : Nat) (rs : List Record) :
    (builtTable P level bloomFalsePositiveRate rs).length = TableReader.sparseIndexOffset + 4 +
      (encodeSparseIndex (indexOf level rs).sparseIndex).length + (encodeSection rs).length +
      (field (indexOf level rs).maxKey).length :=
  length_frame _ _ _ (BloomGenerator.length_build _ _)

theorem builtTable_lt {level : Nat} {rs : List Record}
    (h : (encodeSparseIndex (indexOf level rs).sparseIndex).length + (encodeSection rs).length +
      (field (indexOf level rs).maxKey).length < 2 ^ 31) :
    (builtTable P level bloomFalsePositiveRate rs).length < 2 ^ 64 := by
  have hoffset : TableReader.sparseIndexOffset < 2 ^ 31 := by decide
  rw [length_builtTable]
  omega

/-- The file at `p` is the table that the records are rebuilt as. -/
structure Rebuilt (P : Platform) (level : Nat) (bloomFalsePositiveRate : F64) (rs : List Record)
    (d : Disk) (p : Path) : Prop where
  fits : IndexFits level rs
  file : ∃ f, d.file? p = some f ∧ f.bytes = builtTable P level bloomFalsePositiveRate rs

theorem Rebuilt.congr {level : Nat} {rs : List Record} {p q : Path}
    (h : Rebuilt P level bloomFalsePositiveRate rs d p) (he : d'.file? q = d.file? p) :
    Rebuilt P level bloomFalsePositiveRate rs d' q := by
  obtain ⟨f, hf, hb⟩ := h.file
  exact ⟨h.fits, f, he.trans hf, hb⟩

theorem compact_built {outputLevel : Nat} {files : List String} {runs : List (List Record)}
    {out : String} (hlen : 2 ≤ files.length) (hdir : 1 ≤ dir ∧ dir ≤ d.levels)
    (hruns : List.Forall₂ (FileHolds d dir) files runs) (hnd : files.Nodup)
    (hb : ∀ f ∈ files, isBin f = true) (h : Prog.exec (Disk.handler P)
      (compact P id dir outputLevel bloomFalsePositiveRate files) d = (.ok out, d')) :
    Rebuilt P outputLevel bloomFalsePositiveRate (merged runs) d' (outputPath dir id files) := by
  obtain ⟨d1, hx1, ⟨f, hf, hbytes, -⟩, -⟩ := exec_unitRounds (P := P) hlen hdir hruns hnd hb
  rw [exec_compact_built (not_isEmpty hlen) hx1 hf, hbytes] at h
  cases hbuild : buildFromDataSection P (encodeSection (merged runs)) outputLevel
      bloomFalsePositiveRate with
  | error e =>
    rw [hbuild] at h
    cases h
  | ok table =>
    obtain ⟨hfits, rfl⟩ := (buildFromDataSection_ok_iff (forall₂_fits hruns)).1 hbuild
    rw [hbuild] at h
    obtain ⟨_, d2, hremove, h⟩ := Prog.exec_bind_eq_ok h
    rw [Prog.exec_pure, Prod.mk.injEq] at h
    obtain ⟨-, rfl⟩ := h
    have htrunc : (d1.setBytes (outputPath dir id files) []).file? (outputPath dir id files) =
        some ⟨f.created, []⟩ := Disk.file?_setBytes_self hf
    have hk := keeps_of_exec (removeConsumed_within
      (S := fun p => ∃ n ∈ consumedBy id 0 files, p = ⟨dir, n⟩) fun n hn => ⟨n, hn, rfl⟩) hremove
    refine ⟨hfits, ⟨f.created, _⟩, ?_, rfl⟩
    rw [hk.file]
    · exact Disk.file?_append_self htrunc
    · -- the output is not one of the consumed files
      rintro ⟨n, hn, he⟩
      have hnot := roundsOutput_notMem id 0 files hlen fun f hm => .inl (hb f hm)
      rw [← outputName_eq] at hnot
      rw [← show outputName id files = n from congrArg Path.name he] at hn
      exact hnot hn

theorem compactUnits_built : ∀ {id : Nat} {units : List (List String)} {d d' : Disk}
    {outs : List String}, UnitsReady dir id units run d →
    Prog.exec (Disk.handler P) (compactUnits P dir bloomFalsePositiveRate id units) d =
      (.ok outs, d') → outs.length = units.length → ∀ j u, units[j]? = some u →
    Rebuilt P (dir + 1) bloomFalsePositiveRate (merged (u.map run)) d' (outputPath dir (id + j) u)
  | _, [], _, _, _, _, _, _, _, _, hj => by simp at hj
  | id, u :: units, d, d', outs, hready, h, hlen, j, v, hj => by
    have hulen := hready.len u (.head _)
    rw [compactUnits, Prog.exec_bind_ok (Prog.exec_attempt _ _ _)] at h
    obtain ⟨rest, d2, hrest, h⟩ := Prog.exec_bind_eq_ok h
    rcases hx : Prog.exec (Disk.handler P) (compact P id dir (dir + 1) bloomFalsePositiveRate u) d
      with ⟨_ | out, d1⟩
    · -- a unit that failed would have left fewer outputs
      have hyields : Prog.Yields (fun outs => outs.Sublist (unitOutputs (id + 1) units))
          (compactUnits P dir bloomFalsePositiveRate (id + 1) units) :=
        compactUnits_yields fun v hv => hready.len v (.tail _ hv)
      have hsub := (hyields.exec hrest).length_le
      rw [length_unitOutputs] at hsub
      rw [hx, Prog.exec_pure, Prod.mk.injEq] at h
      rw [← Except.ok.inj h.1, List.length_cons] at hlen
      omega
    · rw [hx] at hrest
      rw [hx, Prog.exec_pure, Prod.mk.injEq] at h
      obtain ⟨h1, rfl⟩ := h
      obtain rfl := Except.ok.inj h1
      have hk1 := keeps_of_exec (compact_within hulen fun p hp => hp) hx
      have hready1 := hready.after hk1
      cases j with
      | succ j =>
        rw [show id + (j + 1) = id + 1 + j by omega]
        exact compactUnits_built hready1 hrest (by simpa using hlen) j v hj
      | zero =>
        obtain rfl := Option.some.inj hj
        have hk2 := keeps_of_exec (compactUnits_within hready1.len
          (S := fun p => ∃ j v, units[j]? = some v ∧ UnitPath dir (id + 1 + j) v p)
          fun j v hv p hp => ⟨j, v, hv, hp⟩) hrest
        have hbuilt := compact_built hulen hready.dir_ok (hready.unit (.head _))
          (hready.unit_nodup (.head _)) (hready.bin u (.head _)) hx
        -- the later units leave the output of the first alone
        refine hbuilt.congr (hk2.file ?_)
        rintro ⟨i, v, hv, hp⟩
        exact hready.apart.paths hv ⟨rfl, .inr (.inr rfl)⟩ hp

/-- **The outputs of an error-free compaction**, byte for byte. -/
theorem errorFree_built {c : Cycle} (h : ErrorFree P dir c d d')
    (hready : UnitsReady dir 0 c.units run d) {j : Nat} {u : List String}
    (hj : c.units[j]? = some u) :
    Rebuilt P (dir + 1) c.bloomFalsePositiveRate (merged (u.map run)) d' (promotedPath dir j u) := by
  obtain ⟨outs, d1, d2, d3, hunits, hk12, hpromote, hk3⟩ := sizeTier_ok h.returns
  obtain ⟨outs', d1', hunits', hlen⟩ := h.units
  obtain ⟨hout, hd⟩ := Prod.mk.inj (hunits.symm.trans hunits')
  rw [← Except.ok.inj hout] at hlen
  obtain ⟨rfl, -⟩ := compactUnits_done hready hunits hlen
  have hbuilt := compactUnits_built hready hunits hlen j u hj
  rw [Nat.zero_add] at hbuilt
  have hmem : outputName j u ∈ unitOutputs 0 c.units :=
    mem_unitOutputs.2 ⟨j, u, hj, by rw [Nat.zero_add]⟩
  obtain ⟨f, hf, hdst, -⟩ := exec_promote (unitOutputs_nodup 0 _) hpromote _ hmem
  refine hbuilt.congr ?_
  rw [hk3.file fun he => promoted_ne_levelFilter j u (congrArg Path.name he), hdst, ← hf,
    hk12.file fun h => h]

/-- **An output is well formed** when its merge is not empty. -/
theorem errorFree_wellFormed {c : Cycle} (h : ErrorFree P dir c d d')
    (hready : UnitsReady dir 0 c.units run d) {j : Nat} {u : List String}
    (hj : c.units[j]? = some u) (hne : merged (u.map run) ≠ []) {f : File}
    (hf : d'.file? (promotedPath dir j u) = some f) (hsize : f.bytes.length < 2 ^ 64) :
    ∃ sparseIndex, WellFormed f.bytes sparseIndex (merged (u.map run)) := by
  obtain ⟨hfits, g, hg, hb⟩ := errorFree_built h hready hj
  obtain rfl := Option.some.inj (hg.symm.trans hf)
  have hu := List.mem_of_getElem? hj
  have hruns := hready.unit hu
  have hsorted : ∀ r ∈ u.map run, KeySorted r := fun r hr => by
    obtain ⟨t, ht, rfl⟩ := List.mem_map.1 hr
    exact (hready.holds u hu t ht).sorted
  rw [hb] at hsize ⊢
  exact ⟨_, wellFormed_builtTable hne (forall₂_fits hruns) (keySorted_merged hsorted) hfits hsize⟩

end Compaction
