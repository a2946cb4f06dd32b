import Tach.KeyedLists
import Tach.Paging

/-!
Address spaces, as vmm.c keeps them: a context is a root of page tables together with a table
that lists the pages mapped in it, the frame and the flags of each. Virtual addresses of pages
are page numbers and physical ones are frame numbers; `VMM_PRESENT` is in all flags.

A slot of `g_slots` that is not used is `none`: the source clears it, so the context in it has
no page table. A function that returns `NULL` fails here with `enomem`.
-/

namespace Tach.Vmm

open Actions Frames KeyedLists Paging
open Sectors (Errno)

/-- The page tables of an architecture and the constants that depend on the width of a
pointer. -/
structure Arch extends PageTables where
  bits : ℕ
  /-- The page of `VMM_DYNAMIC_BASE`. -/
  dynamicBase : ℕ
  /-- `ELF_DYN_BASE`. -/
  elfDynBase : ℕ
  /-- The value of `machine` in an ELF header. -/
  elfMachine : ℕ
  userStart : ℕ
  userEnd : ℕ

namespace Arch

variable (A : Arch)

/-- The page `n` pages above another, with the wrap-around of addresses. -/
def above (page n : ℕ) : ℕ := (page + n) % 2 ^ (A.bits - 12)

/-- `is_valid_user_range`. -/
def validUserRange (address size : ℕ) : Bool :=
  address ≠ 0 ∧ ¬(0 < size ∧ 2 ^ A.bits ≤ address + size) ∧
    A.userStart ≤ address ∧ address < A.userEnd ∧
    (0 < size → A.userStart ≤ address + size - 1 ∧ address + size - 1 < A.userEnd)

end Arch

def maxContexts : ℕ := 32

instance : NeZero maxContexts := ⟨by decide⟩

def maxMappings : ℕ := 512

def maxCpus : ℕ := 256

theorem maxCpus_pos : 0 < maxCpus := by decide

abbrev Context := Fin maxContexts

/-- `struct vmm_mapping`. -/
structure Mapping where
  virt : ℕ
  phys : ℕ
  flags : Flags
  owned : Bool
  deriving DecidableEq

/-- A slot in use: the fields of its context and its mappings. -/
structure Space where
  root : ℕ
  nextFree : ℕ
  mappings : List Mapping

namespace Space

def find (sp : Space) (v : ℕ) : Option Mapping := KeyedLists.find Mapping.virt sp.mappings v

def onMappings (f : List Mapping → List Mapping) (sp : Space) : Space :=
  { sp with mappings := f sp.mappings }

/-- A change of the mapping that `find_mapping` returns. -/
def change (v : ℕ) (f : Mapping → Mapping) : Space → Space :=
  onMappings fun l => update Mapping.virt l v f

/-- The end of `vmm_map`: a new mapping is not owned. -/
def record (v p : ℕ) (fl : Flags) (sp : Space) : Space :=
  match sp.find v with
  | some _ => sp.change v fun m => { m with phys := p, flags := fl }
  | none => sp.onMappings fun l => l ++ [⟨v, p, fl, false⟩]

end Space

/-- `active` is `g_current_context`, where `none` is the context of the kernel. -/
structure Spaces where
  mach : Machine
  kernelRoot : ℕ
  slots : Context → Option Space
  active : Fin maxCpus → Option Context

namespace Spaces

def root (s : Spaces) (c : Context) : ℕ := ((s.slots c).map Space.root).getD 0

/-- `find_mapping`. -/
def find (s : Spaces) (c : Context) (v : ℕ) : Option Mapping := (s.slots c).bind fun sp => sp.find v

def full (s : Spaces) (c : Context) : Bool :=
  match s.slots c with
  | none => false
  | some sp => decide (maxMappings ≤ sp.mappings.length)

def setSlot (s : Spaces) (c : Context) (slot : Option Space) : Spaces :=
  { s with slots := Function.update s.slots c slot }

def onSpace (c : Context) (f : Space → Space) (s : Spaces) : Spaces := s.setSlot c ((s.slots c).map f)

def onMach (f : Machine → Machine) (s : Spaces) : Spaces := { s with mach := f s.mach }

/-- `vmm_resolve`. -/
def resolve (s : Spaces) (c : Context) (address : ℕ) : ℕ :=
  match s.find c (address / pageSize) with
  | none => 0
  | some m => m.phys * pageSize + address % pageSize

/-- `vmm_get_flags`. -/
def getFlags (s : Spaces) (c : Context) (address : ℕ) : Flags :=
  match s.find c (address / pageSize) with
  | none => ⟨false, false, false, false, false⟩
  | some m => m.flags

end Spaces

abbrev Vm (α : Type) := Act Spaces Errno α

def onTables (f : Machine → Result) : Vm Unit := fun s =>
  ⟨(f s.mach).1, { s with mach := (f s.mach).2 }, false⟩

/-- `pmm_alloc_frame`. -/
def allocFrame : Vm ℕ := fun s =>
  match s.mach.pmm.allocFrame with
  | none => ⟨.error .enomem, s, false⟩
  | some (f, p) => ⟨.ok f, s.onMach fun m => { m with pmm := p }, false⟩

/-- A copy of `page` over the frame `f`. -/
def fillFrame (f : ℕ) (page : ℕ → ℕ) : Vm Unit :=
  Act.modify (Spaces.onMach fun m => m.setFrame f page)

/-- `pmm_free_frame`. -/
def freeFrame (f : ℕ) : Vm Unit := Act.modify (Spaces.onMach fun m => m.freeFrame f)

/-- `pmm_retain_frame`. -/
def retainFrame (f : ℕ) : Vm Unit := fun s =>
  match s.mach.pmm.retainFrame f with
  | none => ⟨.error .enomem, s, false⟩
  | some p => ⟨.ok (), s.onMach fun m => { m with pmm := p }, false⟩

section Source

variable (A : Arch)

def vmmMap (c : Context) (v p : ℕ) (fl : Flags) : Vm Unit := do
  let root ← Act.read fun s => s.root c
  if root = 0 ∨ v = 0 then Act.fail .einval
  else
    if ← Act.read fun s => (s.find c v).isNone && s.full c then Act.fail .enospc
    else
      onTables fun m => A.map m root v p fl
      Act.modify (Spaces.onSpace c (Space.record v p fl))

/-- `vmm_map_allocated`; the value is `physical_out`. -/
def vmmMapAllocated (c : Context) (v : ℕ) (fl : Flags) : Vm ℕ := do
  let physical ← allocFrame
  fillFrame physical fun _ => 0
  match ← Act.attempt (vmmMap A c v physical fl) with
  | .error e => do
    freeFrame physical
    Act.fail e
  | .ok () => do
    Act.modify (Spaces.onSpace c (Space.change v fun m => { m with owned := true }))
    pure physical

/-- `vmm_unmap`: the entry of the page goes first. -/
def vmmUnmap (c : Context) (v : ℕ) : Vm Unit := do
  if v = 0 then Act.fail .einval
  else
    let root ← Act.read fun s => s.root c
    onTables fun m => A.unmap m root v
    match ← Act.read fun s => s.find c v with
    | none => pure ()
    | some m => do
      if m.owned then freeFrame m.phys else pure ()
      Act.modify (Spaces.onSpace c (Space.onMappings fun l => remove Mapping.virt l v))

/-- `arch_paging_create_root`. -/
def createRoot : Vm ℕ := fun s =>
  match A.createRoot s.kernelRoot s.mach with
  | (none, m) => ⟨.error .enomem, { s with mach := m }, false⟩
  | (some root, m) => ⟨.ok root, { s with mach := m }, false⟩

/-- `vmm_create_context`: the first slot that is not used. -/
def createContext : Vm Context := do
  match ← Act.read fun s => (List.finRange maxContexts).find? fun c => (s.slots c).isNone with
  | none => Act.fail .enomem
  | some c => do
    let root ← createRoot A
    Act.modify fun s => s.setSlot c (some ⟨root, A.dynamicBase, []⟩)
    pure c

/-- A round of the first loop of `vmm_destroy_context`. -/
def dropMapping (root : ℕ) (m : Mapping) : Vm Unit := do
  let _ ← Act.attempt (onTables fun mach => A.unmap mach root m.virt)
  if m.owned then freeFrame m.phys else pure ()

/-- `vmm_destroy_context`, which leaves a context alone that some CPU has loaded. -/
def destroyContext (c : Context) : Vm Unit := do
  match ← Act.read fun s => s.slots c with
  | none => pure ()
  | some sp =>
    if ← Act.read fun s => decide (∃ cpu, s.active cpu = some c) then pure ()
    else
      Act.each (dropMapping A sp.root) sp.mappings
      Act.modify fun s => s.onMach fun m => A.destroyRoot s.kernelRoot m sp.root
      Act.modify fun s => s.setSlot c none

/-- The flags with which both spaces keep a page that a clone shares. -/
def sharedFlags (m : Mapping) : Flags :=
  if m.owned ∧ (m.flags.writable ∨ m.flags.cow) then
    { m.flags with writable := false, cow := true }
  else m.flags

def mappingAt (c : Context) (i : ℕ) : Vm (Option Mapping) :=
  Act.read fun s => (s.slots c).bind fun sp => sp.mappings[i]?

/-- The source keeps a page that a clone is to share. -/
def protectMapping (source : Context) (i : ℕ) (m : Mapping) : Vm Unit := do
  let root ← Act.read fun s => s.root source
  if m.owned ∧ (m.flags.writable ∨ m.flags.cow) then
    onTables fun mach => A.map mach root m.virt m.phys (sharedFlags m)
    Act.modify (Spaces.onSpace source (Space.onMappings fun l =>
      l.modify i fun m => { m with flags := sharedFlags m }))
  else pure ()

def adoptMapping (clone : Context) (m : Mapping) : Vm Unit := do
  if m.owned then retainFrame m.phys else pure ()
  match ← Act.attempt (vmmMap A clone m.virt m.phys (sharedFlags m)) with
  | .error e => do
    if m.owned then freeFrame m.phys else pure ()
    Act.fail e
  | .ok () =>
    Act.modify (Spaces.onSpace clone (Space.change m.virt fun n => { n with owned := m.owned }))

/-- A round of the loop of `vmm_clone_context`, for mapping `i` of the source. -/
def shareMapping (source clone : Context) (i : ℕ) : Vm Unit := do
  match ← mappingAt source i with
  | none => pure ()
  | some m => do
    protectMapping A source i m
    adoptMapping A clone m

/-- A round of the rollback: the flags of mapping `i` of the source as they were. -/
def restoreMapping (source : Context) (i : ℕ) (flags : Flags) : Vm Unit := do
  match ← mappingAt source i with
  | none => pure ()
  | some m =>
    if m.flags = flags then pure ()
    else
      let root ← Act.read fun s => s.root source
      let _ ← Act.attempt (onTables fun mach => A.map mach root m.virt m.phys flags)
      Act.modify (Spaces.onSpace source (Space.onMappings fun l =>
        l.modify i fun m => { m with flags := flags }))

/-- `vmm_clone_context`. -/
def cloneContext (source : Context) : Vm Context := do
  let clone ← createContext A
  match ← Act.read fun s => s.slots source with
  | none => pure clone
  | some sp =>
    match ← Act.attempt (Act.each (shareMapping A source clone)
        (List.range sp.mappings.length)) with
    | .ok () => do
      let next ← Act.read fun s => ((s.slots source).map Space.nextFree).getD 0
      Act.modify (Spaces.onSpace clone fun sp => { sp with nextFree := next })
      pure clone
    | .error _ => do
      Act.each (fun mi => restoreMapping A source mi.2 mi.1.flags) sp.mappings.zipIdx
      destroyContext A clone
      Act.fail .enomem

def breakCow (c : Context) (v : ℕ) : Vm Unit := do
  match ← Act.read fun s => s.find c v with
  | none => Act.fail .eacces
  | some m =>
    if m.flags.cow = false ∨ m.owned = false then Act.fail .eacces
    else
      let writable := { m.flags with writable := true, cow := false }
      let root ← Act.read fun s => s.root c
      if (← Act.read fun s => s.mach.pmm.frameRefcount m.phys) = 1 then
        onTables fun mach => A.map mach root v m.phys writable
        Act.modify (Spaces.onSpace c (Space.change v fun m => { m with flags := writable }))
      else
        let replacement ← allocFrame
        let page ← Act.read fun s => s.mach.ram m.phys
        fillFrame replacement page
        match ← Act.attempt (onTables fun mach => A.map mach root v replacement writable) with
        | .error e => do
          freeFrame replacement
          Act.fail e
        | .ok () => do
          Act.modify (Spaces.onSpace c (Space.change v fun m =>
            { m with phys := replacement, flags := writable }))
          freeFrame m.phys

/-- The search of `vmm_alloc_page`, from page `v` on, past at most `n` pages. -/
def searchPage (s : Spaces) (c : Context) : ℕ → ℕ → ℕ
  | 0, v => v
  | n + 1, v => if s.resolve c (v * pageSize) ≠ 0 then searchPage s c n (A.above v 1) else v

/-- The page that `vmm_alloc_page` finds: each page it passes is mapped, so there are no more of
them than mappings. -/
def freshPage (s : Spaces) (c : Context) : ℕ :=
  match s.slots c with
  | none => 0
  | some sp => searchPage A s c sp.mappings.length sp.nextFree

def vmmAllocPage (c : Context) (fl : Flags) : Vm ℕ := do
  let v ← Act.read fun s => freshPage A s c
  match ← Act.attempt (vmmMapAllocated A c v fl) with
  | .error _ => Act.fail .enomem
  | .ok _ => do
    Act.modify (Spaces.onSpace c fun sp => { sp with nextFree := A.above v 1 })
    pure v

end Source

end Tach.Vmm
