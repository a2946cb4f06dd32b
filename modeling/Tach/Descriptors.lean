import Tach.Sectors

/-!
The tables of file descriptors of fd.c. A vnode is named by a number; `refs` is its reference
count and `opens` the count that the `dup` and `release` hooks of pipes, tmpfs and FAT32 keep,
one for each descriptor. `lastCloses` counts the calls of `release` that gave up the last one,
where the pipe or the vnode goes away.
-/

namespace Tach.Descriptors

open Actions
open Sectors (Errno)

/-- `FD_TABLE_POOL_SIZE`. -/
def tablePoolSize : ℕ := 32

theorem tablePoolSize_pos : 0 < tablePoolSize := by decide

/-- `FD_TABLE_SIZE`. -/
def tableSize : ℕ := 256

structure FdEntry where
  vnode : ℕ
  flags : ℕ
  offset : ℤ

abbrev FdTable := Fin tableSize → Option FdEntry

abbrev TableIndex := Fin tablePoolSize

structure Files where
  tables : TableIndex → Option FdTable
  refs : ℕ → ℕ
  opens : ℕ → ℕ
  lastCloses : ℕ → ℕ
  /-- The vnode has the two hooks. -/
  hooked : ℕ → Bool

namespace Files

/-- `fd_notify_dup`. -/
def notifyDup (s : Files) (v : ℕ) : Files :=
  if s.hooked v then { s with opens := Function.update s.opens v (s.opens v + 1) } else s

/-- `fd_notify_release`. -/
def notifyRelease (s : Files) (v : ℕ) : Files :=
  if s.hooked v then
    { s with
      opens := Function.update s.opens v (s.opens v - 1)
      lastCloses :=
        if s.opens v = 1 then Function.update s.lastCloses v (s.lastCloses v + 1)
        else s.lastCloses }
  else s

def dup (s : Files) (v : ℕ) : Files :=
  { s with refs := Function.update s.refs v (s.refs v + 1) }.notifyDup v

def drop (s : Files) (v : ℕ) : Files :=
  { s with refs := Function.update s.refs v (s.refs v - 1) }.notifyRelease v

def setTable (s : Files) (t : TableIndex) (table : Option FdTable) : Files :=
  { s with tables := Function.update s.tables t table }

end Files

abbrev Fd (α : Type) := Act Files Errno α

def fdTableCreate : Fd TableIndex := do
  match ← Act.read fun s => (List.finRange tablePoolSize).find? fun t => (s.tables t).isNone with
  | none => Act.fail .enomem
  | some t => do
    Act.modify fun s => s.setTable t (some fun _ => none)
    pure t

def vnodes (table : FdTable) : List ℕ :=
  (List.finRange tableSize).filterMap fun fd => (table fd).map FdEntry.vnode

/-- `fd_table_clone` of a table that is not `NULL`. -/
def fdTableClone (source : TableIndex) : Fd TableIndex := do
  let clone ← fdTableCreate
  match ← Act.read fun s => s.tables source with
  | none => pure clone
  | some table => do
    Act.modify fun s => (vnodes table).foldl Files.dup (s.setTable clone (some table))
    pure clone

def fdTableDestroy (t : TableIndex) : Fd Unit := do
  match ← Act.read fun s => s.tables t with
  | none => pure ()
  | some table => Act.modify fun s => ((vnodes table).foldl Files.drop s).setTable t none

/-- `fd_alloc`, which does not call the hooks. -/
def fdAlloc (t : TableIndex) (vnode flags : ℕ) : Fd Unit := do
  match ← Act.read fun s => s.tables t with
  | none => Act.fail .einval
  | some table =>
    match (List.finRange tableSize).find? fun fd => (table fd).isNone with
    | none => Act.fail .emfile
    | some fd =>
      Act.modify fun s =>
        { s.setTable t (some (Function.update table fd (some ⟨vnode, flags, 0⟩))) with
          refs := Function.update s.refs vnode (s.refs vnode + 1) }

end Tach.Descriptors
