import Tach.Vnodes

/-!
`sys_read`, `sys_write` and `sys_lseek` of syscall.c on a regular file. They see the file through
`vnode->size`, `vfs_read` and `vfs_write`; the files are those of tmpfs.c, whose bytes are in a block of
the kernel heap, and those of fat32.c. Data goes through a buffer of 256 bytes, in as many rounds as
it takes. An answer of the environment to a round says what `krealloc` returned, and whether the bytes
could be copied.
-/

namespace Tach.FileCalls

open Sectors (Errno)

/-- A kind of regular file; `α` are the answers of the environment. -/
structure Backing (φ α : Type*) where
  size : φ → ℕ
  read : α → φ → ℕ → ℕ → Except Errno (List UInt8) × φ
  write : α → φ → ℕ → List UInt8 → Except Errno ℕ × φ

/-- `sizeof(temporary)`. -/
def chunkMax : ℕ := 256

section Writing

variable {φ α : Type*} (B : Backing φ α)

/-- Where a call stands after a round: it returned, or `total` bytes are stored and these are left. -/
inductive Progress
  | returned (result : Except Errno ℕ)
  | goes (total : ℕ) (rest : List UInt8)

structure Round (φ : Type*) where
  file : φ
  offset : ℕ
  progress : Progress

/-- A round of the loop of `sys_write`, with `none` for bytes that cannot be copied. -/
def writeRound (answer : Option α) (f : φ) (offset total : ℕ) (rest : List UInt8) : Round φ :=
  if rest = [] then ⟨f, offset, .returned (.ok total)⟩
  else
    match answer with
    | none => ⟨f, offset, .returned (.error .efault)⟩
    | some a =>
      let chunk := rest.take chunkMax
      match B.write a f offset chunk with
      | (.error e, f) => ⟨f, offset, .returned (if total ≠ 0 then .ok total else .error e)⟩
      | (.ok 0, f) => ⟨f, offset, .returned (.ok total)⟩
      | (.ok (n + 1), f) =>
        ⟨f, offset + (n + 1), if n + 1 < chunk.length then .returned (.ok (total + (n + 1)))
          else .goes (total + (n + 1)) (rest.drop (n + 1))⟩

/-- The loop of `sys_write`, with the offset that it leaves. -/
def writeLoop (answers : ℕ → Option α) : ℕ → φ → ℕ → ℕ → List UInt8 → φ × ℕ × Except Errno ℕ
  | 0, f, offset, total, _ => (f, offset, .ok total)
  | k + 1, f, offset, total, rest =>
    let r := writeRound B (answers k) f offset total rest
    match r.progress with
    | .returned result => (r.file, r.offset, result)
    | .goes total rest => writeLoop answers k r.file r.offset total rest

/-- Where `sys_write` starts: `O_APPEND` moves the offset to the end of the file. -/
def writeStart (f : φ) (append : Bool) (offset : ℕ) : ℕ := if append then B.size f else offset

/-- `sys_write` behind its checks; there are no more rounds than bytes, and one to see the end. -/
def sysWrite (answers : ℕ → Option α) (f : φ) (append : Bool) (offset : ℕ) (data : List UInt8) :
    φ × ℕ × Except Errno ℕ :=
  writeLoop B answers (data.length + 1) f (writeStart B f append offset) 0 data

/-- The loop of `sys_read`: `got` was copied to the caller, `rest` bytes are left to read. -/
def readLoop (answers : ℕ → α × Bool) :
    ℕ → φ → ℕ → List UInt8 → ℕ → φ × ℕ × Except Errno (List UInt8)
  | 0, f, offset, got, _ => (f, offset, .ok got)
  | k + 1, f, offset, got, rest =>
    if rest = 0 then (f, offset, .ok got)
    else
      let chunk := min rest chunkMax
      match B.read (answers k).1 f offset chunk with
      | (.error e, f) => (f, offset, if got ≠ [] then .ok got else .error e)
      | (.ok [], f) => (f, offset, .ok got)
      | (.ok (x :: l), f) =>
        if (answers k).2 then
          let got := got ++ x :: l
          let offset := offset + (x :: l).length
          if (x :: l).length < chunk then (f, offset, .ok got)
          else readLoop answers k f offset got (rest - (x :: l).length)
        else (f, offset, .error .efault)

/-- `sys_read` behind its checks. -/
def sysRead (answers : ℕ → α × Bool) (f : φ) (offset count : ℕ) :
    φ × ℕ × Except Errno (List UInt8) :=
  readLoop B answers (count + 1) f offset [] count

/-- The switch of `sys_lseek`. -/
def lseekBase (f : φ) (offset : ℕ) (whence : Int) : Except Errno ℕ :=
  if whence = 0 then .ok 0
  else if whence = 1 then .ok offset
  else if whence = 2 then .ok (B.size f)
  else .error .einval

/-- `sys_lseek` behind its checks: the new offset. -/
def sysLseek (f : φ) (offset : ℕ) (delta whence : Int) : Except Errno ℕ :=
  match lseekBase B f offset whence with
  | .error e => .error e
  | .ok base =>
    if 0 < delta ∧ 2 ^ 63 - 1 - delta < (base : Int) then .error .eoverflow
    else if (base : Int) + delta < 0 then .error .einval
    else .ok ((base : Int) + delta).toNat

end Writing

/-- `struct tmpfs_file` of a file that is in use: the bytes at `data` and `vnode.size`. -/
structure TmpFile where
  data : ℕ → UInt8
  capacity : ℕ
  size : ℕ

/-- `TMPFS_MAX_FILE_SIZE`. -/
def tmpfsMax : ℕ := 1024 * 1024

def tmpfsMinCapacity : ℕ := 64

namespace TmpFile

variable (f : TmpFile)

def bytes : List UInt8 := (List.range f.size).map f.data

/-- Room for the bytes up to `stop`; `grown` is the memory behind the old block after `krealloc`. -/
def reserve (stop : ℕ) (grown : Option (ℕ → UInt8)) : Option TmpFile :=
  if f.capacity < stop then
    grown.map fun memory =>
      { f with
        data := fun i => if i < f.capacity then f.data i else memory i
        capacity := min (max (max (f.capacity * 2) stop) tmpfsMinCapacity) tmpfsMax }
  else some f

/-- `memset` for a hole and `memcpy`. -/
def store (offset : ℕ) (chunk : List UInt8) : TmpFile :=
  { f with
    data := fun i =>
      if offset ≤ i ∧ i < offset + chunk.length then chunk.getD (i - offset) 0
      else if f.size ≤ i ∧ i < offset then 0
      else f.data i
    size := max f.size (offset + chunk.length) }

def fileRead (offset count : ℕ) : List UInt8 :=
  if offset < f.size then (f.bytes.drop offset).take count else []

def fileWrite (grown : Option (ℕ → UInt8)) (offset : ℕ) (chunk : List UInt8) :
    Except Errno ℕ × TmpFile :=
  if chunk = [] then (.ok 0, f)
  else if tmpfsMax ≤ offset then (.error .efbig, f)
  else
    let count := min chunk.length (tmpfsMax - offset)
    match f.reserve (offset + count) grown with
    | none => (.error .enomem, f)
    | some f => (.ok count, f.store offset (chunk.take count))

end TmpFile

/-- Files of tmpfs; the answers are those of `krealloc`. -/
def tmpfs : Backing TmpFile (Option (ℕ → UInt8)) where
  size := TmpFile.size
  read _ f offset count := (.ok (f.fileRead offset count), f)
  write grown f offset chunk := f.fileWrite grown offset chunk

def fat32 {σ : Type} (V : FatData.Volume σ) (id : ℕ) : Backing (FatData.Fs σ) Unit where
  size s := ((Vnodes.findVnode id s.vol).map FatData.Vnode.size).getD 0
  read _ s offset count :=
    let r := Vnodes.fvRead V id offset count s
    (r.result, r.state)
  write _ s offset chunk :=
    let r := Vnodes.fvWrite V id offset (fun i => chunk.getD i 0) chunk.length s
    (r.result, r.state)

section Seeking

variable {φ α : Type*} (B : Backing φ α) (w : ℕ) (f : φ) (offset : ℕ) (arg whence : ℕ)

/-- The conversion of a value to a signed type of `w` bits. -/
def toSigned (value : Int) : Int := value.bmod (2 ^ w)

/-- The errors of `sys_lseek` behind its checks: `EINVAL` and `EOVERFLOW`. -/
def lseekErrno : Errno → ℕ
  | .eoverflow => 104
  | _ => 22

/-- `sysLseek` of the words in the registers, on a target whose `long` has `w` bits. -/
def lseekTarget : Except Errno ℕ := sysLseek B f offset (toSigned w arg) (toSigned 32 whence)

/-- The `long` that `sys_lseek` returns and the offset that it leaves. -/
def lseekReturn : Except Errno ℕ → Int × ℕ
  | .ok target => (toSigned w target, target)
  | .error e => (-(lseekErrno e), offset)

/-- What the caller may conclude from the value returned. -/
def Reports (r : Int × ℕ) : Prop := (r.1 < 0 → r.2 = offset) ∧ (0 ≤ r.1 → r.1 = r.2)

variable {B w f offset arg whence}

theorem lseekBase_lt {base bound : ℕ} {whence : Int} (ho : offset < bound) (hs : B.size f < bound)
    (h : lseekBase B f offset whence = .ok base) : base < bound := by
  unfold lseekBase at h
  split_ifs at h <;> cases h <;> omega

/-- The sum is checked against the limit of `int64_t`. -/
theorem sysLseek_lt {target : ℕ} {delta whence : Int} (ho : offset < 2 ^ 63) (hs : B.size f < 2 ^ 63)
    (h : sysLseek B f offset delta whence = .ok target) : target < 2 ^ 63 := by
  unfold sysLseek at h
  cases hb : lseekBase B f offset whence with
  | error e => simp [hb] at h
  | ok base =>
    have hlt := lseekBase_lt ho hs hb
    simp only [hb] at h
    split_ifs at h with h₁ h₂
    obtain rfl : _ = target := Except.ok.inj h
    omega

theorem toSigned_eq_iff (hw : w = 32 ∨ w = 64) (target : ℕ) :
    toSigned w target = target ↔ target < 2 ^ (w - 1) := by
  obtain rfl | rfl := hw <;> simp only [toSigned, Int.bmod, Nat.reducePow, Nat.reduceSub] <;> omega

end Seeking

end Tach.FileCalls
