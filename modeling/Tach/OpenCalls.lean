import Tach.Histories
import Tach.VnodeThreads
import Tach.Vnodes

/-!
The system calls that open and close files, each run to its end: vfs.c and tmpfs.c with the vnodes
of fat32.c, over the descriptor tables of fd.c. tmpfs and FAT32 count for each file how many
descriptors refer to it, in the hooks `open`, `dup` and `release`; the other vnodes have no such
hooks and are all one here.

A path is taken after `mount_find` and the comparisons of `vfs_open_err` have told which of the file
systems it belongs to; one that could not be fetched leads nowhere. What a FAT32 volume answers, and
whether memory is found, is open. The bytes of files are left out.
-/

namespace Tach.OpenCalls

open FatData (Info)
open Sectors (Errno)
open Vnodes (wantsCreate wantsTrunc wantsWrite)
open VnodeThreads (sameEntry)

/-- `struct tmpfs_file` in use. -/
structure TmpFile where
  name : List UInt8
  opens : ℕ
  deriving DecidableEq

/-- `struct fat32_vnode`, named by its address. -/
structure FatVnode where
  id : ℕ
  info : Info
  opens : ℕ
  deriving DecidableEq

section Types

variable (ι ν : Type*) (n m : ℕ)

/-- A vnode without the hooks, a file of tmpfs, or a vnode of a FAT32 volume. -/
inductive Vnode
  | plain
  | tmp (i : Fin m)
  | fat (vol : ν) (id : ℕ)
  deriving DecidableEq

abbrev Table := Fin n → Option (Vnode ν m)

/-- The processes that run have a table of descriptors. -/
structure State where
  files : Fin m → Option TmpFile
  openList : ν → List FatVnode
  tables : ι → Option (Table ν n m)

/-- What `fat32_lookup` finds; only the root is not an entry of a directory. -/
abbrev Located := { info : Info // info.dirCluster = 0 → info.isDir = true }

/-- What the volume and the heap answer to `fat32_vnode_open`: the entry, which may just have been
created, the address of the new vnode, and whether the file could be truncated. -/
structure FatAnswer where
  found : Except Errno Located
  readonly : Bool
  kzalloc : Option ℕ
  truncated : Except Errno Unit

/-- Where a path leads to, for `vfs_open_err`. -/
inductive Target
  | plain (found : Except Errno Unit)
  | tmp (name : List UInt8)
  | fat (vol : ν) (answer : FatAnswer)

/-- Where a path leads to, for `vfs_unlink`. -/
inductive Victim
  | plain
  | tmp (name : List UInt8)
  | fat (vol : ν) (readonly : Bool) (found : Except Errno Located) (deleted : Except Errno Unit)

/-- How `process_fork` ends after the child was set up: there is no table for the copy, something
fails after the copy, or nothing does. -/
inductive ForkEnd
  | noTable
  | undone
  | born

inductive Call
  | open (target : Target ν) (flags : ℕ)
  | close (fd : ℕ)
  | dup (old : ℕ)
  | dup2 (old new : ℕ)
  | stat (target : Target ν)
  | chdir (target : Target ν) (isDir : Bool)
  | unlink (victim : Victim ν)
  | fork (child : ι) (outcome : ForkEnd)
  | execve
  | exit

end Types

variable {ι ν : Type*} {n m : ℕ}

section Hooks

variable [DecidableEq ν]

namespace State

/-- The count that the hooks of a vnode keep. -/
def opens (s : State ι ν n m) : Vnode ν m → ℕ
  | .plain => 0
  | .tmp i => ((s.files i).map TmpFile.opens).getD 0
  | .fat vol id => (((s.openList vol).find? fun fv => fv.id = id).map FatVnode.opens).getD 0

def setFile (s : State ι ν n m) (i : Fin m) (file : Option TmpFile) : State ι ν n m :=
  { s with files := Function.update s.files i file }

def setList (s : State ι ν n m) (vol : ν) (l : List FatVnode) : State ι ν n m :=
  { s with openList := Function.update s.openList vol l }

end State

/-- `fv->opens++`. -/
def bump (id : ℕ) (l : List FatVnode) : List FatVnode :=
  l.map fun fv => if fv.id = id then { fv with opens := fv.opens + 1 } else fv

/-- `fv_release`: the last descriptor frees the vnode. -/
def unbump (id : ℕ) (l : List FatVnode) : List FatVnode :=
  match l.find? fun fv => fv.id = id with
  | none => l
  | some fv =>
    if fv.opens = 1 then l.filter fun fv => fv.id ≠ id
    else l.map fun fv => if fv.id = id then { fv with opens := fv.opens - 1 } else fv

/-- `file_dup` and `fv_dup`. -/
def retain (s : State ι ν n m) : Vnode ν m → State ι ν n m
  | .plain => s
  | .tmp i => s.setFile i ((s.files i).map fun f => { f with opens := f.opens + 1 })
  | .fat vol id => s.setList vol (bump id (s.openList vol))

/-- `file_release` and `fv_release`. -/
def release (s : State ι ν n m) : Vnode ν m → State ι ν n m
  | .plain => s
  | .tmp i => s.setFile i ((s.files i).map fun f => { f with opens := f.opens - 1 })
  | .fat vol id => s.setList vol (unbump id (s.openList vol))

/-- `TMPFS_NAME_MAX`. -/
def tmpNameMax : ℕ := 48

def checkName (name : List UInt8) : Except Errno Unit :=
  if name.length = 0 then .error .eisdir
  else if tmpNameMax < name.length then .error .enametoolong
  else if 0x2f ∈ name then .error .enotdir
  else .ok ()

def findFile (s : State ι ν n m) (name : List UInt8) : Option (Fin m) :=
  (List.finRange m).find? fun i => (s.files i).any fun f => f.name = name

/-- `tmpfs_lookup` of a path below `/tmp/`. -/
def tmpfsLookup (s : State ι ν n m) (name : List UInt8) (flags : ℕ) :
    State ι ν n m × Except Errno (Fin m) :=
  match checkName name with
  | .error e => (s, .error e)
  | .ok () =>
    match findFile s name with
    | some i => (s, .ok i)
    | none =>
      if wantsCreate flags then
        match (List.finRange m).find? fun i => (s.files i).isNone with
        | some i => (s.setFile i (some ⟨name, 0⟩), .ok i)
        | none => (s, .error .enospc)
      else (s, .error .enoent)

def openFind (l : List FatVnode) (info : Info) : Option FatVnode :=
  l.find? fun fv => sameEntry fv.info info

/-- The checks of `fat32_vnode_open` on the entry. -/
def openCheck (flags : ℕ) (readonly : Bool) (info : Info) : Except Errno Unit :=
  if wantsWrite flags then
    if info.isDir then .error .eisdir
    else if readonly then .error .erofs
    else if info.isRo then .error .eacces
    else .ok ()
  else .ok ()

/-- The section of `fat32_vnode_open` that shares a vnode or puts the new one on the list. -/
def share (s : State ι ν n m) (vol : ν) (info : Info) (new : ℕ) : State ι ν n m × FatVnode :=
  match openFind (s.openList vol) info with
  | some fv => (s.setList vol (bump fv.id (s.openList vol)), fv)
  | none => (s.setList vol (⟨new, info, 1⟩ :: s.openList vol), ⟨new, info, 1⟩)

def fat32VnodeOpen (s : State ι ν n m) (vol : ν) (flags : ℕ) (answer : FatAnswer) :
    State ι ν n m × Except Errno (Vnode ν m) :=
  match answer.found with
  | .error e => (s, .error e)
  | .ok info =>
    match openCheck flags answer.readonly info, answer.kzalloc with
    | .error e, _ => (s, .error e)
    | .ok (), none => (s, .error .enomem)
    | .ok (), some new =>
      let r := share s vol info new
      if wantsTrunc flags ∧ r.2.info.isDir = false then
        match answer.truncated with
        | .error e => (release r.1 (.fat vol r.2.id), .error e)
        | .ok () => (r.1, .ok (.fat vol r.2.id))
      else (r.1, .ok (.fat vol r.2.id))

def vfsOpenErr (s : State ι ν n m) (flags : ℕ) :
    Target ν → State ι ν n m × Except Errno (Vnode ν m)
  | .plain (.error e) => (s, .error e)
  | .plain (.ok ()) => (s, .ok .plain)
  | .tmp name =>
    match tmpfsLookup s name flags with
    | (s, .error e) => (s, .error e)
    | (s, .ok i) =>
      -- `file_open`
      (s.setFile i ((s.files i).map fun f => { f with opens := f.opens + 1 }), .ok (.tmp i))
  | .fat vol answer => fat32VnodeOpen s vol flags answer

/-- `tmpfs_unlink` of a path below `/tmp/`. -/
def tmpfsUnlink (s : State ι ν n m) (name : List UInt8) : State ι ν n m × Except Errno Unit :=
  match checkName name with
  | .error e => (s, .error e)
  | .ok () =>
    match findFile s name with
    | none => (s, .error .enoent)
    | some i => if s.opens (.tmp i) ≠ 0 then (s, .error .ebusy) else (s.setFile i none, .ok ())

/-- Errors of the volume are passed on by `vfs_unlink`; `-EBUSY` is a finding of its own. -/
inductive Refusal
  | busy
  | other (e : Errno)
  deriving DecidableEq

def fat32Unlink (s : State ι ν n m) (vol : ν) (readonly : Bool) (found : Except Errno Located)
    (deleted : Except Errno Unit) : Except Refusal Unit :=
  if readonly then .error (.other .erofs)
  else
    match found with
    | .error e => .error (.other e)
    | .ok info =>
      if info.1.isDir then .error (.other .eisdir)
      else if info.1.isRo then .error (.other .eacces)
      else if info.1.dirCluster = 0 then .error .busy
      else if (openFind (s.openList vol) info).isSome then .error .busy
      else deleted.mapError .other

def vfsUnlink (s : State ι ν n m) : Victim ν → State ι ν n m × Except Refusal Unit
  | .plain => (s, .error (.other .erofs))
  | .tmp name =>
    match tmpfsUnlink s name with
    | (s, .error .ebusy) => (s, .error .busy)
    | (s, r) => (s, r.mapError .other)
  | .fat vol readonly found deleted => (s, fat32Unlink s vol readonly found deleted)

end Hooks

section Descriptors

variable [DecidableEq ι] [DecidableEq ν]

def fdGet (t : Table ν n m) (fd : ℕ) : Option (Fin n × Vnode ν m) :=
  if h : fd < n then (t ⟨fd, h⟩).map fun x => (⟨fd, h⟩, x) else none

def firstFree (t : Table ν n m) : Option (Fin n) := (List.finRange n).find? fun fd => (t fd).isNone

/-- A store into a slot of the table of process `i`. -/
def State.setSlot (s : State ι ν n m) (i : ι) (fd : Fin n) (x : Option (Vnode ν m)) :
    State ι ν n m :=
  { s with tables := Function.update s.tables i ((s.tables i).map fun t => Function.update t fd x) }

def State.slot (s : State ι ν n m) (i : ι) (fd : Fin n) : Option (Vnode ν m) :=
  (s.tables i).bind fun t => t fd

def fdPut (s : State ι ν n m) (i : ι) (fd : Fin n) : State ι ν n m :=
  match s.slot i fd with
  | none => s
  | some x => release (s.setSlot i fd none) x

/-- The end of `fd_dup`, and a round of `fd_table_clone`: a slot of `j` becomes a copy. -/
def fdCopy (s : State ι ν n m) (i j : ι) (old new : Fin n) : State ι ν n m :=
  match s.slot i old with
  | none => s
  | some x => retain (s.setSlot j new (some x)) x

/-- `fd_table_clone`, into the new table of `j`. -/
def fdTableClone (s : State ι ν n m) (i j : ι) : State ι ν n m :=
  (List.finRange n).foldl (fun s fd => fdCopy s i j fd fd)
    { s with tables := Function.update s.tables j (some fun _ => none) }

def fdTableDestroy (s : State ι ν n m) (i : ι) : State ι ν n m :=
  let s := (List.finRange n).foldl (fun s fd => fdPut s i fd) s
  { s with tables := Function.update s.tables i none }

/-- `sys_open`; without a slot it calls `vfs_close`, which calls no hook that counts. -/
def sysOpen (s : State ι ν n m) (i : ι) (t : Table ν n m) (target : Target ν) (flags : ℕ) :
    State ι ν n m × Except Refusal Unit :=
  match vfsOpenErr s flags target with
  | (s, .error e) => (s, .error (.other e))
  | (s, .ok x) =>
    match firstFree t with
    | none => (s, .error (.other .emfile))
    | some fd => (s.setSlot i fd (some x), .ok ())

/-- `vfs_stat` and `sys_chdir`, which open the file for a moment. -/
def lookAt (s : State ι ν n m) (target : Target ν) : State ι ν n m × Except Refusal Unit :=
  match vfsOpenErr s 0 target with
  | (s, .error e) => (s, .error (.other e))
  | (s, .ok x) => (release s x, .ok ())

def sysDup (s : State ι ν n m) (i : ι) (t : Table ν n m) (old : ℕ) :
    State ι ν n m × Except Refusal Unit :=
  match fdGet t old, firstFree t with
  | none, _ => (s, .error (.other .ebadf))
  | some _, none => (s, .error (.other .emfile))
  | some (old, _), some new => (fdCopy s i i old new, .ok ())

def sysDup2 (s : State ι ν n m) (i : ι) (t : Table ν n m) (old new : ℕ) :
    State ι ν n m × Except Refusal Unit :=
  match fdGet t old with
  | none => (s, .error (.other .ebadf))
  | some (old, _) =>
    if h : new < n then
      if old = ⟨new, h⟩ then (s, .ok ()) else (fdCopy (fdPut s i ⟨new, h⟩) i i old ⟨new, h⟩, .ok ())
    else (s, .error (.other .ebadf))

def sysClose (s : State ι ν n m) (i : ι) (t : Table ν n m) (fd : ℕ) :
    State ι ν n m × Except Refusal Unit :=
  match fdGet t fd with
  | none => (s, .error (.other .ebadf))
  | some (fd, _) => (fdPut s i fd, .ok ())

/-- The part of `process_fork` on descriptors. -/
def forkTable (s : State ι ν n m) (i j : ι) : ForkEnd → State ι ν n m × Except Refusal Unit
  | .noTable => (s, .error (.other .enomem))
  | .undone => (fdTableDestroy (fdTableClone s i j) j, .error (.other .enomem))
  | .born => (fdTableClone s i j, .ok ())

/-- A vnode that is allocated is not one of those that are open. -/
def Target.fresh (s : State ι ν n m) : Target ν → Bool
  | .fat vol answer => answer.kzalloc.all fun id => (s.openList vol).all fun fv => fv.id ≠ id
  | _ => true

/-- The call of process `i`, with what it returns. -/
def exec (s : State ι ν n m) (i : ι) (t : Table ν n m) :
    Call ι ν → Option (State ι ν n m × Except Refusal Unit)
  | .open target flags => if target.fresh s then some (sysOpen s i t target flags) else none
  | .close fd => some (sysClose s i t fd)
  | .dup old => some (sysDup s i t old)
  | .dup2 old new => some (sysDup2 s i t old new)
  | .stat target => if target.fresh s then some (lookAt s target) else none
  | .chdir target isDir =>
    if target.fresh s then
      some ((lookAt s target).1, (lookAt s target).2.bind fun _ =>
        if isDir then .ok () else .error (.other .enotdir))
    else none
  | .unlink victim => some (vfsUnlink s victim)
  | .fork child outcome =>
    if (s.tables child).isNone then some (forkTable s i child outcome) else none
  | .execve => some (s, .ok ())
  | .exit => some (fdTableDestroy s i, .ok ())

def next (s : State ι ν n m) (a : ι × Call ι ν) :
    Option (State ι ν n m × List (Except Refusal Unit)) :=
  (s.tables a.1).bind fun t => (exec s a.1 t a.2).map fun r => (r.1, [r.2])

end Descriptors

end Tach.OpenCalls
