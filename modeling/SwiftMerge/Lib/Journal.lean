import Mathlib.Data.List.Basic
import Mathlib.Order.Nat

/-!
# A log that is emptied when a memory is flushed

Writes of keyed operations, each with the instant it was made at, go to a log, when logging is on,
and to a memory; a restart replays the log into the memory or starts it empty; a flush saves what
the memory holds, of each key the last write, and empties both. A `Journal` is the record of all
this. What a flush takes from the log is saved, or superseded by what is, exactly when every key of
the log is in the memory too (`Journal.Ordered.flush_covers_iff`).

* `Journal.Ordered`: the invariant, that the order of the instants is the order of events and that
  the memory has no write of a key older than one in the log.
* `Journal.Ordered.restart`, `Journal.Ordered.write`: it is kept.
* `Journal.Ordered.neverLost_write`: no logged write gets lost by a flush that covers the log.
-/

namespace Lib

/-- What the log holds, what went into the memory since it was last empty, what has been saved, and
what has ever been logged. -/
structure Journal (ω : Type) where
  log : List (ω × Nat)
  mem : List (ω × Nat)
  flushed : List (ω × Nat)
  logged : List (ω × Nat)

variable {ω κ : Type} (key : ω → κ)

/-- A write of the same key, made no earlier, is in the list. -/
def Covered (l : List (ω × Nat)) (x : ω × Nat) : Prop := ∃ y ∈ l, key y.1 = key x.1 ∧ x.2 ≤ y.2

variable {key}

theorem Covered.mono {l l' : List (ω × Nat)} {x : ω × Nat} (h : Covered key l x)
    (hl : ∀ y ∈ l, y ∈ l') : Covered key l' x := by
  obtain ⟨y, hy, hk, hle⟩ := h
  exact ⟨y, hl y hy, hk, hle⟩

theorem covered_of_mem {l : List (ω × Nat)} {x : ω × Nat} (h : x ∈ l) : Covered key l x :=
  ⟨x, h, rfl, Nat.le_refl _⟩

theorem Covered.trans {l : List (ω × Nat)} {x y : ω × Nat} (h : Covered key l y)
    (hk : key y.1 = key x.1) (hle : x.2 ≤ y.2) : Covered key l x := by
  obtain ⟨z, hz, hkz, hlez⟩ := h
  exact ⟨z, hz, hkz.trans hk, hle.trans hlez⟩

variable (key) [DecidableEq κ]

/-- Of each key the last write. -/
def held : List (ω × Nat) → List (ω × Nat)
  | [] => []
  | x :: l => if ∃ y ∈ l, key y.1 = key x.1 then held l else x :: held l

variable {key}

theorem mem_of_mem_held {x : ω × Nat} : ∀ {l : List (ω × Nat)}, x ∈ held key l → x ∈ l
  | [], h => h
  | _ :: _, h => by
    rw [held] at h
    split at h
    · exact .tail _ (mem_of_mem_held h)
    · cases h with
      | head => exact .head _
      | tail _ h => exact .tail _ (mem_of_mem_held h)

theorem covered_held : ∀ {l : List (ω × Nat)} {x : ω × Nat}, l.Pairwise (fun a b => a.2 < b.2) →
    x ∈ l → Covered key (held key l) x
  | y :: l, x, hsorted, hx => by
    obtain ⟨hlt, hsorted⟩ := List.pairwise_cons.1 hsorted
    rw [held]
    split
    · rename_i hlater
      cases hx with
      | head =>
        obtain ⟨z, hz, hk⟩ := hlater
        exact (covered_held hsorted hz).trans hk (hlt z hz).le
      | tail _ hx => exact covered_held hsorted hx
    · cases hx with
      | head => exact covered_of_mem (.head _)
      | tail _ hx => exact (covered_held hsorted hx).mono fun z hz => .tail _ hz

namespace Journal

def empty : Journal ω := ⟨[], [], [], []⟩

/-- A restart, which replays the log or does not. -/
def restart (J : Journal ω) (replays : Bool) : Journal ω :=
  { J with mem := if replays then J.log else [] }

/-- The log when a write has been appended, if it is. -/
def appended (J : Journal ω) (logs : Bool) (x : ω × Nat) : List (ω × Nat) :=
  if logs then J.log ++ [x] else J.log

variable (key) in
/-- A write, which may run a flush. -/
def write (J : Journal ω) (logs flushes : Bool) (x : ω × Nat) : Journal ω where
  log := if flushes then [] else J.appended logs x
  mem := if flushes then [] else J.mem ++ [x]
  flushed := if flushes then J.flushed ++ held key (J.mem ++ [x]) else J.flushed
  logged := if logs then J.logged ++ [x] else J.logged

/-- Later events have later instants, and the memory has no write older than one of the log that it
misses. -/
structure Ordered (J : Journal ω) (now : Nat) : Prop where
  log_lt : ∀ x ∈ J.log, x.2 < now
  mem_lt : ∀ x ∈ J.mem, x.2 < now
  flushed_lt : ∀ x ∈ J.flushed, x.2 < now
  flushed_log : ∀ x ∈ J.flushed, ∀ y ∈ J.log, x.2 < y.2
  log_sorted : J.log.Pairwise fun a b => a.2 < b.2
  mem_sorted : J.mem.Pairwise fun a b => a.2 < b.2
  older : ∀ x ∈ J.log, x ∈ J.mem ∨ ∀ y ∈ J.mem, x.2 < y.2

theorem ordered_empty : Ordered (empty : Journal ω) 0 where
  log_lt := nofun
  mem_lt := nofun
  flushed_lt := nofun
  flushed_log := nofun
  log_sorted := .nil
  mem_sorted := .nil
  older := nofun

namespace Ordered

variable {J : Journal ω} {now : Nat} {w : ω} {logs : Bool}

theorem later {now' : Nat} (h : J.Ordered now) (hle : now ≤ now') : J.Ordered now' :=
  { h with
    log_lt := fun x hx => (h.log_lt x hx).trans_le hle
    mem_lt := fun x hx => (h.mem_lt x hx).trans_le hle
    flushed_lt := fun x hx => (h.flushed_lt x hx).trans_le hle }

theorem restart (h : J.Ordered now) (replays : Bool) : (J.restart replays).Ordered now := by
  cases replays with
  | true =>
    exact { h with
      mem_lt := h.log_lt
      mem_sorted := h.log_sorted
      older := fun x hx => .inl hx }
  | false =>
    exact { h with
      mem_lt := nofun
      mem_sorted := .nil
      older := fun x _ => .inr nofun }

theorem mem_appended {x y : ω × Nat} (h : y ∈ J.appended logs x) :
    y ∈ J.log ∨ (logs = true ∧ y = x) := by
  unfold appended at h
  cases logs with
  | true => simpa using h
  | false => exact .inl h

theorem sorted_append {l : List (ω × Nat)} (h : l.Pairwise fun a b => a.2 < b.2)
    (hlt : ∀ x ∈ l, x.2 < now) (w : ω) : (l ++ [(w, now)]).Pairwise fun a b => a.2 < b.2 := by
  refine List.pairwise_append.2 ⟨h, List.pairwise_singleton _ _, fun x hx y hy => ?_⟩
  obtain rfl := List.mem_singleton.1 hy
  exact hlt x hx

theorem write (h : J.Ordered now) (logs flushes : Bool) (w : ω) :
    (J.write key logs flushes (w, now)).Ordered (now + 1) := by
  have hmem : ∀ x ∈ J.mem ++ [(w, now)], x.2 < now + 1 := fun x hx => by
    rcases List.mem_append.1 hx with hx | hx
    · exact (h.mem_lt x hx).trans (Nat.lt_succ_self _)
    · obtain rfl := List.mem_singleton.1 hx
      exact Nat.lt_succ_self _
  cases flushes with
  | true =>
    exact
      { log_lt := nofun
        mem_lt := nofun
        flushed_lt := fun x hx => by
          rcases List.mem_append.1 hx with hx | hx
          · exact (h.flushed_lt x hx).trans (Nat.lt_succ_self _)
          · exact hmem x (mem_of_mem_held hx)
        flushed_log := nofun
        log_sorted := .nil
        mem_sorted := .nil
        older := nofun }
  | false =>
    exact
      { log_lt := fun x hx => by
          rcases mem_appended hx with hx | ⟨-, rfl⟩
          · exact (h.log_lt x hx).trans (Nat.lt_succ_self _)
          · exact Nat.lt_succ_self _
        mem_lt := hmem
        flushed_lt := fun x hx => (h.flushed_lt x hx).trans (Nat.lt_succ_self _)
        flushed_log := fun x hx y hy => by
          rcases mem_appended hy with hy | ⟨-, rfl⟩
          · exact h.flushed_log x hx y hy
          · exact h.flushed_lt x hx
        log_sorted := by
          cases logs with
          | true => exact sorted_append h.log_sorted h.log_lt w
          | false => exact h.log_sorted
        mem_sorted := sorted_append h.mem_sorted h.mem_lt w
        older := fun x hx => by
          rcases mem_appended hx with hx | ⟨-, rfl⟩
          · rcases h.older x hx with hin | hold
            · exact .inl (List.mem_append_left _ hin)
            · refine .inr fun y hy => ?_
              rcases List.mem_append.1 hy with hy | hy
              · exact hold y hy
              · obtain rfl := List.mem_singleton.1 hy
                exact h.log_lt x hx
          · exact .inl (List.mem_append_right _ (.head _)) }

variable (key) in
/-- **A flush saves or supersedes all of the log exactly when** the memory has every key of it. -/
theorem flush_covers_iff (h : J.Ordered now) (logs : Bool) (w : ω) :
    (∀ x ∈ J.appended logs (w, now), Covered key (J.write key logs true (w, now)).flushed x) ↔
      ∀ x ∈ J.log, key x.1 = key w ∨ ∃ y ∈ J.mem, key y.1 = key x.1 := by
  have hsorted := sorted_append h.mem_sorted h.mem_lt w
  have hflushed : (J.write key logs true (w, now)).flushed =
      J.flushed ++ held key (J.mem ++ [(w, now)]) := rfl
  rw [hflushed]
  constructor
  · intro hcov x hx
    have hx' : x ∈ J.appended logs (w, now) := by
      unfold appended
      cases logs with
      | true => exact List.mem_append_left _ hx
      | false => exact hx
    obtain ⟨y, hy, hk, hle⟩ := hcov x hx'
    rcases List.mem_append.1 hy with hy | hy
    · exact absurd (h.flushed_log y hy x hx) (Nat.not_lt.2 hle)
    · rcases List.mem_append.1 (mem_of_mem_held hy) with hy | hy
      · exact .inr ⟨y, hy, hk⟩
      · obtain rfl := List.mem_singleton.1 hy
        exact .inl hk.symm
  · intro hkeys x hx
    have hin : ∃ y ∈ J.mem ++ [(w, now)], key y.1 = key x.1 ∧ x.2 ≤ y.2 := by
      rcases mem_appended hx with hx | ⟨-, rfl⟩
      · rcases h.older x hx with hmem | hold
        · exact ⟨x, List.mem_append_left _ hmem, rfl, Nat.le_refl _⟩
        · rcases hkeys x hx with hk | ⟨y, hy, hk⟩
          · exact ⟨(w, now), List.mem_append_right _ (.head _), hk.symm, (h.log_lt x hx).le⟩
          · exact ⟨y, List.mem_append_left _ hy, hk, (hold y hy).le⟩
      · exact ⟨(w, now), List.mem_append_right _ (.head _), rfl, Nat.le_refl _⟩
    obtain ⟨y, hy, hk, hle⟩ := hin
    exact ((covered_held hsorted hy).trans hk hle).mono fun z hz => List.mem_append_right _ hz

end Ordered

/-- Every write that was logged is in the log or saved, or superseded by one that is. -/
def NeverLost (key : ω → κ) (J : Journal ω) : Prop :=
  ∀ x ∈ J.logged, Covered key (J.log ++ J.flushed) x

theorem neverLost_write {J : Journal ω} {now : Nat} {w : ω} {logs flushes : Bool}
    (h : NeverLost key J) (hcov : flushes = true → ∀ x ∈ J.appended logs (w, now),
      Covered key (J.write key logs flushes (w, now)).flushed x) :
    NeverLost key (J.write key logs flushes (w, now)) := by
  -- a logged write is covered by the log as it was appended to, or by what was saved before
  have hold : ∀ x ∈ (J.write key logs flushes (w, now)).logged,
      Covered key (J.appended logs (w, now) ++ J.flushed) x := by
    intro x hx
    cases logs with
    | true =>
      rcases List.mem_append.1 hx with hx | hx
      · refine (h x hx).mono fun y hy => ?_
        rcases List.mem_append.1 hy with hy | hy
        · exact List.mem_append_left _ (List.mem_append_left _ hy)
        · exact List.mem_append_right _ hy
      · exact covered_of_mem (List.mem_append_left _ (List.mem_append_right _ hx))
    | false => exact h x hx
  intro x hx
  cases flushes with
  | false => exact hold x hx
  | true =>
    obtain ⟨y, hy, hk, hle⟩ := hold x hx
    rcases List.mem_append.1 hy with hy | hy
    · exact ((hcov rfl y hy).trans hk hle).mono fun z hz => List.mem_append_right _ hz
    · exact ⟨y, List.mem_append_right _ (List.mem_append_left _ hy), hk, hle⟩

end Journal

end Lib
