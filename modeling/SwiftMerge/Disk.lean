import Mathlib.Data.List.AList
import SwiftMerge.Lib.Failure
import SwiftMerge.Lib.Program

/-!
# The disk: the log file and the level directories

A `Disk` is what the server's processes share: the log file `Wal.tmp`, the directories
`data/l1` .. `data/l{levels}` and their files. Directories are made in order (`flush` makes `l1`,
`monitor` and a compaction of `l{n}` make the one after `l{n}`), so there is no gap in them. A file
has the instant it was created at, which a rename and a truncation keep, and instants never repeat;
both are fields of the state.

`DiskOp` are the calls the code makes, `Disk.handler` their meaning when none of them fails for a
reason outside the state. A call leaves the disk as it is or has its `effect` on it; a write may be
seen half-done (`during`): any prefix of its bytes.
-/

namespace Lsm

open Lib

/-- A 64-bit floating-point number, by its bits. -/
structure F64 where
  bits : UInt64
  deriving DecidableEq

namespace F64

/-- The bits below the sign. -/
def magnitude (x : F64) : Nat := x.bits.toNat % 2 ^ 63

/-- Not a number: a magnitude above that of infinity. -/
def isNaN (x : F64) : Bool := decide (0x7FF0000000000000 < x.magnitude)

/-- The place of a number in the order, the same for both zeros. -/
def rank (x : F64) : Int := if x.bits.toNat < 2 ^ 63 then x.magnitude else -x.magnitude

/-- `<`, which is false of what is not a number. -/
instance : LT F64 := ⟨fun x y => (x.isNaN = false ∧ y.isNaN = false) ∧ x.rank < y.rank⟩

instance (x y : F64) : Decidable (x < y) :=
  inferInstanceAs (Decidable ((x.isNaN = false ∧ y.isNaN = false) ∧ x.rank < y.rank))

end F64

/-- What the program gets from its environment. -/
structure Platform where
  /-- `page_size::get()` -/
  pageSize : Nat
  /-- `optimal_k`, whose floating-point result is any 32-bit number -/
  optimalK : Nat → Nat → F64 → UInt32
  /-- `Uuid::new_v4()` at an instant: never the same twice -/
  uuid : Nat → String
  uuid_inj : Function.Injective uuid
  /-- the next instant the clock shows -/
  later : Nat → Nat
  lt_later : ∀ t, t < later t
  /-- `available_parallelism()` -/
  availableParallelism : Nat
  /-- whether unsigned overflow panics (a debug build) or wraps around -/
  overflowChecks : Bool

/-- A plain environment: pages of 4 KiB, seven probes, a clock that counts by one. -/
def Platform.plain : Platform where
  pageSize := 4096
  optimalK _ _ _ := 7
  uuid n := String.ofList (List.replicate n '0')
  uuid_inj m n h := by
    have := congrArg (fun s => s.toList.length) h
    simpa using this
  later t := t + 1
  lt_later := Nat.lt_succ_self
  availableParallelism := 8
  overflowChecks := false

/-- A file of a level directory: `data/l{level}/{name}`. -/
structure Path where
  level : Nat
  name : String
  deriving DecidableEq

structure File where
  /-- in nanoseconds since the epoch -/
  created : Nat
  bytes : Bytes
  deriving DecidableEq

/-- `created().duration_since(UNIX_EPOCH).as_secs()` -/
def File.createdSecs (f : File) : Nat := f.created / 10 ^ 9

/-- The files of the level directories. -/
abbrev Files := AList fun _ : Path => File

/-- Every file was created before `clock`, and no two files at the same instant. -/
structure Files.Stamped (files : Files) (clock : Nat) : Prop where
  created_lt : ∀ {p f}, files.lookup p = some f → f.created < clock
  created_inj : ∀ {p q f g}, files.lookup p = some f → files.lookup q = some g →
    f.created = g.created → p = q

namespace Files.Stamped

variable {files : Files} {clock : Nat}

theorem mono (h : files.Stamped clock) {clock' : Nat} (hc : clock ≤ clock') :
    files.Stamped clock' where
  created_lt hp := (h.created_lt hp).trans_le hc
  created_inj := h.created_inj

theorem erase (h : files.Stamped clock) (p : Path) : Stamped (files.erase p) clock := by
  have hsub : ∀ {q g}, (files.erase p).lookup q = some g → files.lookup q = some g := by
    intro q g hq
    by_cases hqp : q = p
    · rw [hqp, AList.lookup_erase] at hq
      cases hq
    · rwa [AList.lookup_erase_ne hqp] at hq
  exact ⟨fun hq => h.created_lt (hsub hq), fun hq hr => h.created_inj (hsub hq) (hsub hr)⟩

theorem insert (h : files.Stamped clock) {p : Path} {f : File} (hf : f.created < clock)
    (hne : ∀ {q g}, q ≠ p → files.lookup q = some g → g.created ≠ f.created) :
    Stamped (files.insert p f) clock where
  created_lt {q g} hq := by
    by_cases hqp : q = p
    · rw [hqp, AList.lookup_insert] at hq
      obtain rfl := Option.some.inj hq
      exact hf
    · rw [AList.lookup_insert_ne hqp] at hq
      exact h.created_lt hq
  created_inj {q r g g'} hq hr he := by
    by_cases hqp : q = p
    · by_cases hrp : r = p
      · rw [hqp, hrp]
      · rw [hqp, AList.lookup_insert] at hq
        rw [AList.lookup_insert_ne hrp] at hr
        obtain rfl := Option.some.inj hq
        exact absurd he.symm (hne hrp hr)
    · rw [AList.lookup_insert_ne hqp] at hq
      by_cases hrp : r = p
      · rw [hrp, AList.lookup_insert] at hr
        obtain rfl := Option.some.inj hr
        exact absurd he (hne hqp hq)
      · rw [AList.lookup_insert_ne hrp] at hr
        exact h.created_inj hq hr he

end Files.Stamped

structure Disk where
  wal : Bytes
  levels : Nat
  files : Files
  clock : Nat
  stamped : files.Stamped clock

namespace Disk

/-- A disk with an empty log and no directory yet. -/
def empty (clock : Nat) : Disk where
  wal := []
  levels := 0
  files := ∅
  clock := clock
  stamped := ⟨by simp, by simp⟩

/-- The file at a path. -/
def file? (d : Disk) (p : Path) : Option File := d.files.lookup p

/-- The entries of a level directory, in the order `read_dir` lists them. -/
def dir (d : Disk) (level : Nat) : List (String × File) :=
  d.files.entries.filterMap fun e => if e.1.level = level then some (e.1.name, e.2) else none

/-- The disk with the bytes of the file at `p` replaced. -/
def setBytes (d : Disk) (p : Path) (bs : Bytes) : Disk :=
  match h : d.files.lookup p with
  | none => d
  | some f =>
    { d with
      files := d.files.insert p ⟨f.created, bs⟩
      stamped := d.stamped.insert (show f.created < d.clock from d.stamped.created_lt h)
        fun {_ g} hq hl he =>
          hq (d.stamped.created_inj hl h (show g.created = f.created from he)) }

/-- `File::create`: a file that exists is truncated and keeps its creation time; a new one is
created now, and the clock moves on. -/
def create (P : Platform) (d : Disk) (p : Path) : Disk :=
  match d.files.lookup p with
  | some _ => d.setBytes p []
  | none =>
    { d with
      files := d.files.insert p ⟨d.clock, []⟩
      clock := P.later d.clock
      stamped := (d.stamped.mono (P.lt_later _).le).insert (P.lt_later _) fun _ hl =>
        (d.stamped.created_lt hl).ne }

def remove (d : Disk) (p : Path) : Disk :=
  { d with files := d.files.erase p, stamped := d.stamped.erase p }

/-- `rename`: the file replaces the one at `dst`. -/
def rename (d : Disk) (src dst : Path) : Disk :=
  match h : d.files.lookup src with
  | none => d
  | some f =>
    { d with
      files := (d.files.erase src).insert dst f
      stamped := (d.stamped.erase src).insert (d.stamped.created_lt h) fun {q g} _ hl he => by
        by_cases hq : q = src
        · rw [hq, AList.lookup_erase] at hl
          cases hl
        · rw [AList.lookup_erase_ne hq] at hl
          exact hq (d.stamped.created_inj hl h he) }

/-- The disk when the clock shows `t`. -/
def waitUntil (d : Disk) (t : Nat) (h : d.clock ≤ t) : Disk :=
  { d with clock := t, stamped := d.stamped.mono h }

end Disk

/-- The calls to the file system and the clock. -/
inductive DiskOp : Type → Type
  | now : DiskOp Nat
  | dirExists (level : Nat) : DiskOp Bool
  | createDir (level : Nat) : DiskOp (Except IoError Unit)
  | readDir (level : Nat) : DiskOp (Except IoError (List (String × File)))
  /-- opens a file and reads its metadata and contents -/
  | read (p : Path) : DiskOp (Except IoError File)
  | create (p : Path) : DiskOp (Except IoError Unit)
  /-- `write_all` at the end of an open file -/
  | append (p : Path) (bs : Bytes) : DiskOp (Except IoError Unit)
  /-- `sync_all` on an open file -/
  | sync (p : Path) : DiskOp (Except IoError Unit)
  /-- `set_len(0)` -/
  | truncate (p : Path) : DiskOp (Except IoError Unit)
  | rename (src dst : Path) : DiskOp (Except IoError Unit)
  | remove (p : Path) : DiskOp (Except IoError Unit)
  /-- `write` at the end of the log: the number of bytes written -/
  | walWrite (bs : Bytes) : DiskOp (Except IoError Nat)
  | walRead : DiskOp (Except IoError Bytes)
  /-- `set_len(0)` on the log -/
  | walClear : DiskOp (Except IoError Unit)

namespace Disk

/-- The bytes of a file with `bs` written at its end. -/
def append (d : Disk) (p : Path) (bs : Bytes) : Disk :=
  match d.file? p with
  | none => d
  | some f => d.setBytes p (f.bytes ++ bs)

def noSuchFile : IoError := .notFound "No such file or directory"

def step (P : Platform) : {β : Type} → DiskOp β → Disk → β × Disk
  | _, .now, d => (d.clock, d)
  | _, .dirExists level, d => (decide (1 ≤ level ∧ level ≤ d.levels), d)
  | _, .createDir level, d =>
    if level ≤ d.levels + 1 then (.ok (), { d with levels := max d.levels level })
    else (.error noSuchFile, d)
  | _, .readDir level, d =>
    if 1 ≤ level ∧ level ≤ d.levels then (.ok (d.dir level), d) else (.error noSuchFile, d)
  | _, .read p, d =>
    match d.file? p with
    | some f => (.ok f, d)
    | none => (.error noSuchFile, d)
  | _, .create p, d =>
    if 1 ≤ p.level ∧ p.level ≤ d.levels then (.ok (), d.create P p) else (.error noSuchFile, d)
  | _, .append p bs, d =>
    match d.file? p with
    | some _ => (.ok (), d.append p bs)
    | none => (.error noSuchFile, d)
  | _, .sync p, d =>
    match d.file? p with
    | some _ => (.ok (), d)
    | none => (.error noSuchFile, d)
  | _, .truncate p, d =>
    match d.file? p with
    | some _ => (.ok (), d.setBytes p [])
    | none => (.error noSuchFile, d)
  | _, .rename src dst, d =>
    match d.file? src with
    | some _ =>
      if 1 ≤ dst.level ∧ dst.level ≤ d.levels then (.ok (), d.rename src dst)
      else (.error noSuchFile, d)
    | none => (.error noSuchFile, d)
  | _, .remove p, d =>
    match d.file? p with
    | some _ => (.ok (), d.remove p)
    | none => (.error noSuchFile, d)
  | _, .walWrite bs, d => (.ok bs.length, { d with wal := d.wal ++ bs })
  | _, .walRead, d => (.ok d.wal, d)
  | _, .walClear, d => (.ok (), { d with wal := [] })

/-- The disk with a file made at `p` and `bs` written to it. -/
def write (P : Platform) (d : Disk) (p : Path) (bs : Bytes) : Disk := (d.create P p).append p bs

/-- What may be seen while an operation is under way: any prefix of the bytes it writes. -/
def during : {β : Type} → DiskOp β → Disk → Disk → Prop
  | _, .append p bs, d, t => ∃ n, t = d.append p (bs.take n)
  | _, .walWrite bs, d, t => ∃ n, t = { d with wal := d.wal ++ bs.take n }
  | _, _, _, _ => False

/-- The calls when none of them fails for a reason outside the disk's state. -/
def handler (P : Platform) : Handler DiskOp Disk := ⟨step P, during⟩

end Disk

/-! ## Calls that succeed -/

namespace Disk

variable {P : Platform} {d : Disk} {p src dst : Path} {f : File}

theorem step_read (h : d.file? p = some f) : step P (.read p) d = (.ok f, d) := by
  rw [step, h]

theorem step_create (h : 1 ≤ p.level ∧ p.level ≤ d.levels) :
    step P (.create p) d = (.ok (), d.create P p) := if_pos h

theorem step_createDir {level : Nat} (h : level ≤ d.levels + 1) :
    step P (.createDir level) d = (.ok (), { d with levels := max d.levels level }) := if_pos h

theorem step_append (h : d.file? p = some f) (bs : Bytes) :
    step P (.append p bs) d = (.ok (), d.append p bs) := by
  rw [step, h]

theorem step_sync (h : d.file? p = some f) : step P (.sync p) d = (.ok (), d) := by
  rw [step, h]

theorem step_truncate (h : d.file? p = some f) :
    step P (.truncate p) d = (.ok (), d.setBytes p []) := by
  rw [step, h]

theorem step_rename (h : d.file? src = some f) (hd : 1 ≤ dst.level ∧ dst.level ≤ d.levels) :
    step P (.rename src dst) d = (.ok (), d.rename src dst) := by
  rw [step, h]
  exact if_pos hd

end Disk

/-! ## Files after a call -/

namespace Disk

variable {P : Platform} {d : Disk} {p q src dst : Path} {f : File} {bs : Bytes}

@[simp] theorem file?_empty (clock : Nat) : (empty clock).file? p = none := by simp [empty, file?]

/-- The creation instant `create` leaves a file at `p` with. -/
def createdAt (d : Disk) (p : Path) : Nat :=
  match d.file? p with
  | some f => f.created
  | none => d.clock

theorem setBytes_eq (h : d.file? p = some f) : (d.setBytes p bs).files =
    d.files.insert p ⟨f.created, bs⟩ := by
  unfold setBytes
  split
  · rename_i h'
    rw [file?, h'] at h
    cases h
  · rename_i g h'
    rw [file?, h', Option.some.injEq] at h
    subst h
    rfl

theorem file?_setBytes_self (h : d.file? p = some f) :
    (d.setBytes p bs).file? p = some ⟨f.created, bs⟩ := by
  rw [file?, setBytes_eq h, AList.lookup_insert]

theorem file?_setBytes (h : q ≠ p) : (d.setBytes p bs).file? q = d.file? q := by
  unfold setBytes
  split
  · rfl
  · exact AList.lookup_insert_ne h

@[simp] theorem wal_setBytes : (d.setBytes p bs).wal = d.wal := by
  unfold setBytes
  split <;> rfl

@[simp] theorem levels_setBytes : (d.setBytes p bs).levels = d.levels := by
  unfold setBytes
  split <;> rfl

@[simp] theorem clock_setBytes : (d.setBytes p bs).clock = d.clock := by
  unfold setBytes
  split <;> rfl

theorem file?_create_self : (d.create P p).file? p = some ⟨d.createdAt p, []⟩ := by
  unfold create createdAt file?
  split
  · rename_i f h
    exact file?_setBytes_self h
  · exact AList.lookup_insert _

theorem file?_create (h : q ≠ p) : (d.create P p).file? q = d.file? q := by
  unfold create
  split
  · exact file?_setBytes h
  · exact AList.lookup_insert_ne h

@[simp] theorem wal_create : (d.create P p).wal = d.wal := by
  unfold create
  split
  · exact wal_setBytes
  · rfl

@[simp] theorem levels_create : (d.create P p).levels = d.levels := by
  unfold create
  split
  · exact levels_setBytes
  · rfl

theorem clock_le_create : d.clock ≤ (d.create P p).clock := by
  unfold create
  split
  · rw [clock_setBytes]
  · exact (P.lt_later _).le

theorem clock_create (h : d.file? p = none) : (d.create P p).clock = P.later d.clock := by
  unfold create
  split
  · rename_i h'
    rw [file?, h'] at h
    cases h
  · rfl

theorem file?_append_self (h : d.file? p = some f) :
    (d.append p bs).file? p = some ⟨f.created, f.bytes ++ bs⟩ := by
  rw [append, h]
  exact file?_setBytes_self h

theorem file?_append (h : q ≠ p) : (d.append p bs).file? q = d.file? q := by
  unfold append
  split
  · rfl
  · exact file?_setBytes h

@[simp] theorem wal_append : (d.append p bs).wal = d.wal := by
  unfold append
  split
  · rfl
  · exact wal_setBytes

@[simp] theorem levels_append : (d.append p bs).levels = d.levels := by
  unfold append
  split
  · rfl
  · exact levels_setBytes

@[simp] theorem clock_append : (d.append p bs).clock = d.clock := by
  unfold append
  split
  · rfl
  · exact clock_setBytes

theorem file?_write_self : (d.write P p bs).file? p = some ⟨d.createdAt p, bs⟩ :=
  file?_append_self file?_create_self

theorem file?_write (h : q ≠ p) : (d.write P p bs).file? q = d.file? q :=
  (file?_append h).trans (file?_create h)

@[simp] theorem levels_write : (d.write P p bs).levels = d.levels := by
  rw [write, levels_append, levels_create]

@[simp] theorem file?_remove_self : (d.remove p).file? p = none := AList.lookup_erase _ _

theorem file?_remove (h : q ≠ p) : (d.remove p).file? q = d.file? q := AList.lookup_erase_ne h

theorem rename_eq (h : d.file? src = some f) :
    (d.rename src dst).files = (d.files.erase src).insert dst f := by
  unfold rename
  split
  · rename_i h'
    rw [file?, h'] at h
    cases h
  · rename_i g h'
    rw [file?, h', Option.some.injEq] at h
    subst h
    rfl

theorem file?_rename_dst (h : d.file? src = some f) : (d.rename src dst).file? dst = some f := by
  rw [file?, rename_eq h, AList.lookup_insert]

theorem file?_rename_src (h : d.file? src = some f) (hne : src ≠ dst) :
    (d.rename src dst).file? src = none := by
  rw [file?, rename_eq h, AList.lookup_insert_ne hne, AList.lookup_erase]

theorem file?_rename (hs : q ≠ src) (hd : q ≠ dst) : (d.rename src dst).file? q = d.file? q := by
  unfold rename
  split
  · rfl
  · rw [file?]
    dsimp only
    rw [AList.lookup_insert_ne hd, AList.lookup_erase_ne hs]
    rfl

@[simp] theorem wal_rename : (d.rename src dst).wal = d.wal := by
  unfold rename
  split <;> rfl

@[simp] theorem levels_rename : (d.rename src dst).levels = d.levels := by
  unfold rename
  split <;> rfl

@[simp] theorem clock_rename : (d.rename src dst).clock = d.clock := by
  unfold rename
  split <;> rfl

theorem mem_dir {level : Nat} {name : String} :
    (name, f) ∈ d.dir level ↔ d.file? ⟨level, name⟩ = some f := by
  have hl : d.file? ⟨level, name⟩ = some f ↔ ⟨⟨level, name⟩, f⟩ ∈ d.files.entries :=
    AList.mem_lookup_iff
  rw [hl, dir, List.mem_filterMap]
  constructor
  · rintro ⟨⟨⟨l, n⟩, g⟩, he, heq⟩
    dsimp only at heq
    split at heq
    · rename_i hlev
      simp only [Option.some.injEq, Prod.mk.injEq] at heq
      obtain ⟨rfl, rfl⟩ := heq
      rwa [← hlev]
    · cases heq
  · exact fun h => ⟨_, h, if_pos rfl⟩

end Disk

/-! ## What a call does -/

/-- What the operation does to the disk when it succeeds. -/
def DiskOp.effect (P : Platform) : {β : Type} → DiskOp β → Disk → Disk
  | _, .createDir level, d => { d with levels := max d.levels level }
  | _, .create p, d => d.create P p
  | _, .append p bs, d => d.append p bs
  | _, .truncate p, d => d.setBytes p []
  | _, .rename src dst, d => d.rename src dst
  | _, .remove p, d => d.remove p
  | _, .walWrite bs, d => { d with wal := d.wal ++ bs }
  | _, .walClear, d => { d with wal := [] }
  | _, _, d => d

namespace Disk

variable {P : Platform} {d : Disk} {p src dst : Path} {f : File} {bs : Bytes}

theorem step_effect {β : Type} (o : DiskOp β) (d : Disk) :
    (step P o d).2 = d ∨ (step P o d).2 = o.effect P d := by
  cases o with
  | now | dirExists | walRead => exact .inl rfl
  | walWrite | walClear => exact .inr rfl
  | createDir | readDir | read | create | append | sync | truncate | remove =>
    rw [step]
    split
    · exact .inr rfl
    · exact .inl rfl
  | rename src dst =>
    rw [step]
    split
    · split
      · exact .inr rfl
      · exact .inl rfl
    · exact .inl rfl

/-- What relates a disk to itself and to what a call makes of it holds across the call. -/
theorem step_rule {R : Disk → Disk → Prop} {β : Type} {o : DiskOp β} (hrefl : R d d)
    (heffect : R d (o.effect P d)) : R d (step P o d).2 := by
  rcases step_effect (P := P) o d with h | h
  · rwa [h]
  · rwa [h]

/-! ## Frames -/

/-- Files outside `S` are as they were, no directory is gone and the clock has not gone back. -/
structure Keeps (S : Path → Prop) (d d' : Disk) : Prop where
  file : ∀ {p}, ¬S p → d'.file? p = d.file? p
  levels : d.levels ≤ d'.levels
  clock : d.clock ≤ d'.clock

variable {S : Path → Prop}

theorem Keeps.refl (d : Disk) : Keeps S d d := ⟨fun _ => rfl, Nat.le_refl _, Nat.le_refl _⟩

theorem Keeps.trans {a b c : Disk} (h : Keeps S a b) (h' : Keeps S b c) : Keeps S a c :=
  ⟨fun hp => (h'.file hp).trans (h.file hp), h.levels.trans h'.levels, h.clock.trans h'.clock⟩

theorem Keeps.mono {S' : Path → Prop} {d' : Disk} (h : Keeps S d d') (hs : ∀ p, S p → S' p) :
    Keeps S' d d' :=
  ⟨fun hp => h.file fun hq => hp (hs _ hq), h.levels, h.clock⟩

theorem keeps_setBytes (h : S p) (bs : Bytes) : Keeps S d (d.setBytes p bs) :=
  ⟨fun hq => file?_setBytes fun he => hq (he ▸ h), by simp, by simp⟩

theorem keeps_create (h : S p) : Keeps S d (d.create P p) :=
  ⟨fun hq => file?_create fun he => hq (he ▸ h), by simp, clock_le_create⟩

theorem keeps_append (h : S p) (bs : Bytes) : Keeps S d (d.append p bs) :=
  ⟨fun hq => file?_append fun he => hq (he ▸ h), by simp, by simp⟩

theorem keeps_remove (h : S p) : Keeps S d (d.remove p) :=
  ⟨fun hq => file?_remove fun he => hq (he ▸ h), Nat.le_refl _, Nat.le_refl _⟩

theorem keeps_rename (hs : S src) (hd : S dst) : Keeps S d (d.rename src dst) :=
  ⟨fun hq => file?_rename (fun he => hq (he ▸ hs)) fun he => hq (he ▸ hd), by simp, by simp⟩

end Disk

/-- The operation changes files of `S` only, and not the log. -/
def DiskOp.Within (S : Path → Prop) : {β : Type} → DiskOp β → Prop
  | _, .create p => S p
  | _, .append p _ => S p
  | _, .truncate p => S p
  | _, .rename src dst => S src ∧ S dst
  | _, .remove p => S p
  | _, .walWrite _ => False
  | _, .walClear => False
  | _, _ => True

namespace Disk

variable {P : Platform} {d : Disk} {S : Path → Prop}

theorem effect_keeps {β : Type} {o : DiskOp β} (h : o.Within S) : Keeps S d (o.effect P d) := by
  cases o with
  | createDir level => exact ⟨fun _ => rfl, Nat.le_max_left _ _, Nat.le_refl _⟩
  | create p => exact keeps_create h
  | append p bs => exact keeps_append h bs
  | truncate p => exact keeps_setBytes h []
  | rename src dst => exact keeps_rename h.1 h.2
  | remove p => exact keeps_remove h
  | walWrite | walClear => exact h.elim
  | now | dirExists | readDir | read | sync | walRead => exact .refl _

theorem step_keeps {β : Type} {o : DiskOp β} (h : o.Within S) :
    Keeps S d (step P o d).2 ∧ ∀ t, during o d t → Keeps S d t := by
  refine ⟨step_rule (.refl d) (effect_keeps h), fun t ht => ?_⟩
  cases o with
  | append p bs =>
    obtain ⟨n, rfl⟩ := ht
    exact keeps_append h _
  | walWrite bs => exact h.elim
  | _ => exact ht.elim

/-- **A program that changes files of `S` only** leaves the others alone, in its final state and in
every state that may be seen. -/
theorem exec_keeps {ε α : Type} {p : Prog DiskOp ε α} (h : Prog.All (DiskOp.Within S) p) :
    Keeps S d (Prog.exec (handler P) p d).2 ∧ ∀ t, Prog.visits (handler P) p d t → Keeps S d t :=
  h.frame Keeps.refl Keeps.trans (fun _ ho _ => step_keeps ho) d

/-- The log is as it was. -/
def SameLog (d d' : Disk) : Prop := d'.wal = d.wal

theorem effect_sameLog {β : Type} {o : DiskOp β} (h : o.Within S) : SameLog d (o.effect P d) := by
  cases o with
  | create p => exact wal_create
  | append p bs => exact wal_append
  | truncate p => exact wal_setBytes
  | rename src dst => exact wal_rename
  | walWrite | walClear => exact h.elim
  | createDir | remove => rfl
  | now | dirExists | readDir | read | sync | walRead => rfl

theorem step_sameLog {β : Type} {o : DiskOp β} (h : o.Within S) :
    SameLog d (step P o d).2 ∧ ∀ t, during o d t → SameLog d t := by
  refine ⟨step_rule rfl (effect_sameLog h), fun t ht => ?_⟩
  cases o with
  | append p bs =>
    obtain ⟨n, rfl⟩ := ht
    exact wal_append
  | walWrite bs => exact h.elim
  | _ => exact ht.elim

theorem exec_sameLog {ε α : Type} {p : Prog DiskOp ε α} (h : Prog.All (DiskOp.Within S) p) :
    SameLog d (Prog.exec (handler P) p d).2 :=
  (h.frame (R := SameLog) (fun _ => rfl) (fun h h' => h'.trans h) (fun _ ho _ => step_sameLog ho)
    d).1

end Disk

/-! ## Files are in directories -/

namespace Disk

variable {P : Platform} {d d' : Disk}

/-- Every file is in a directory that exists. -/
def InDirs (d : Disk) : Prop := ∀ p f, d.file? p = some f → p.level ≤ d.levels

theorem InDirs.of_same (h : d.InDirs) (hf : ∀ p f, d'.file? p = some f → ∃ g, d.file? p = some g)
    (hl : d.levels ≤ d'.levels) : d'.InDirs := by
  intro p f hp
  obtain ⟨g, hg⟩ := hf p f hp
  exact (h p g hg).trans hl

/-- A file is at `p` before its bytes are set, and so are the others. -/
theorem file?_of_setBytes {p q : Path} {f : File} {bs : Bytes}
    (h : (d.setBytes p bs).file? q = some f) : ∃ g, d.file? q = some g := by
  by_cases hq : q = p
  · subst hq
    cases hd : d.file? q with
    | some g => exact ⟨g, rfl⟩
    | none =>
      unfold setBytes at h
      split at h
      · exact ⟨f, hd.symm.trans h⟩
      · rename_i g hg
        rw [file?, hg] at hd
        cases hd
  · exact ⟨f, (file?_setBytes hq).symm.trans h⟩

theorem InDirs.setBytes (h : d.InDirs) (p : Path) (bs : Bytes) : (d.setBytes p bs).InDirs :=
  h.of_same (fun _ _ hf => file?_of_setBytes hf) (by simp)

theorem InDirs.append (h : d.InDirs) (p : Path) (bs : Bytes) : (d.append p bs).InDirs := by
  unfold Disk.append
  split
  · exact h
  · exact h.setBytes p _

/-- **Every call keeps the files in their directories.** -/
theorem step_inDirs {β : Type} (o : DiskOp β) (h : d.InDirs) :
    (step P o d).2.InDirs ∧ ∀ t, during o d t → t.InDirs := by
  constructor
  · cases o with
    | now | dirExists | walRead => exact h
    | walWrite | walClear => exact h
    | readDir | read | sync =>
      rw [step]
      split <;> exact h
    | createDir level =>
      rw [step]
      split
      · exact h.of_same (fun _ f hf => ⟨f, hf⟩) (Nat.le_max_left _ _)
      · exact h
    | append p bs =>
      rw [step]
      split
      · exact h.append p bs
      · exact h
    | truncate p =>
      rw [step]
      split
      · exact h.setBytes p []
      · exact h
    | remove p =>
      rw [step]
      split
      · refine h.of_same (fun q f hf => ⟨f, ?_⟩) (Nat.le_refl _)
        by_cases hq : q = p
        · rw [hq, file?_remove_self] at hf
          cases hf
        · exact (file?_remove hq).symm.trans hf
      · exact h
    | create p =>
      rw [step]
      split
      · rename_i hp
        intro q f hf
        rw [levels_create]
        by_cases hq : q = p
        · exact hq ▸ hp.2
        · exact h q f ((file?_create hq).symm.trans hf)
      · exact h
    | rename src dst =>
      rw [step]
      split
      · split
        · rename_i f hsrc hdst
          intro q g hg
          rw [levels_rename]
          by_cases hq : q = dst
          · exact hq ▸ hdst.2
          · by_cases hs : q = src
            · exact hs ▸ h src f hsrc
            · exact h q g ((file?_rename hs hq).symm.trans hg)
        · exact h
      · exact h
  · intro t ht
    cases o with
    | append p bs =>
      obtain ⟨n, rfl⟩ := ht
      exact h.append p _
    | walWrite bs =>
      obtain ⟨n, rfl⟩ := ht
      exact h
    | _ => exact ht.elim

theorem exec_inDirs {ε α : Type} (p : Prog DiskOp ε α) (h : d.InDirs) :
    (Prog.exec (handler P) p d).2.InDirs := by
  have hall : Prog.All (fun _ => True) p := Prog.all_true p
  exact (hall.frame (R := fun d d' : Disk => d.InDirs → d'.InDirs) (fun _ h => h)
    (fun h h' => h' ∘ h) (fun o _ _ => ⟨fun h => (step_inDirs o h).1,
      fun t ht h => (step_inDirs (P := P) o h).2 t ht⟩) d).1 h

end Disk

end Lsm
