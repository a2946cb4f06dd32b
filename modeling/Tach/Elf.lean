import Tach.UserMemory

/-!
The executable loader of elf_loader.c: the header and the program headers are read from the bytes
of the image, each page of a loadable segment is mapped once and the bytes of the file are copied
in chunks that end with a page. After an error the pages mapped so far are unmapped again.
-/

namespace Tach.Processes

open Actions ByteBlock Frames Paging Vmm
open Sectors (Errno)

abbrev Image := List UInt8

namespace Image

variable (image : Image)

def field (offset size : ℕ) : ℕ := littleEndian (fun i => image.getD i 0) offset size

end Image

/-- `ELF_MAX_PROGRAM_HEADERS`. -/
def maxProgramHeaders : ℕ := 128

/-- `ELF_MAX_LOADED_PAGES`. -/
def maxLoadedPages : ℕ := 512

/-- `struct parsed_elf`, without the class. -/
structure Header where
  type : ℕ
  machine : ℕ
  entry : ℕ
  phoff : ℕ
  phentsize : ℕ
  phnum : ℕ

/-- `struct parsed_segment`. -/
structure Segment where
  type : ℕ
  flags : ℕ
  offset : ℕ
  vaddr : ℕ
  filesz : ℕ
  memsz : ℕ

namespace Segment

/-- `ELF_PT_LOAD`. -/
def load (g : Segment) : Bool := g.type = 1

def data (g : Segment) (image : Image) : List ℕ :=
  ((image.drop g.offset).take g.filesz).map UInt8.toNat

def pageFlags (g : Segment) : Flags := ⟨g.flags.testBit 1, true, false, g.flags.testBit 0, false⟩

end Segment

def rangeFits (offset length size : ℕ) : Bool := offset ≤ size ∧ length ≤ size - offset

section Parse

variable (A : Arch) (image : Image)

/-- The header of an image of the class of the target, and the checks made for its class. -/
def classHeader : Header × Bool :=
  if A.bits = 64 then
    (⟨image.field 16 2, image.field 18 2, image.field 24 8, image.field 32 8, image.field 54 2,
      image.field 56 2⟩,
      64 ≤ image.length ∧ image.field 20 4 = 1 ∧ 64 ≤ image.field 52 2 ∧ 56 ≤ image.field 54 2)
  else
    (⟨image.field 16 2, image.field 18 2, image.field 24 4, image.field 28 4, image.field 42 2,
      image.field 44 2⟩,
      52 ≤ image.length ∧ image.field 20 4 = 1 ∧ 52 ≤ image.field 40 2 ∧ 32 ≤ image.field 42 2)

/-- `parse_header`. An image of the other class fails with the same error. -/
def parseHeader : Except Errno Header :=
  if image.length < 16 ∨ image.field 0 4 ≠ 0x464c457f ∨ image.field 5 1 ≠ 1 ∨
      image.field 6 1 ≠ 1 then .error .enoexec
  else if image.field 4 1 ≠ (if A.bits = 64 then 2 else 1) then .error .enoexec
  else
    let h := (classHeader A image).1
    if (classHeader A image).2 = false then .error .enoexec
    else if (h.type ≠ 2 ∧ h.type ≠ 3) ∨ h.machine ≠ A.elfMachine ∨ h.phnum = 0 ∨
        maxProgramHeaders < h.phnum ∨
        rangeFits h.phoff (h.phentsize * h.phnum) image.length = false then .error .enoexec
    else .ok h

def segmentAt (o : ℕ) : Segment :=
  if A.bits = 64 then
    ⟨image.field o 4, image.field (o + 4) 4, image.field (o + 8) 8, image.field (o + 16) 8,
      image.field (o + 32) 8, image.field (o + 40) 8⟩
  else
    ⟨image.field o 4, image.field (o + 24) 4, image.field (o + 4) 4, image.field (o + 8) 4,
      image.field (o + 16) 4, image.field (o + 20) 4⟩

def parseSegment (h : Header) (index : ℕ) : Except Errno Segment :=
  let offset := (h.phoff + index * h.phentsize) % 2 ^ 64
  if rangeFits offset h.phentsize image.length = false then .error .enoexec
  else
    let g := segmentAt A image offset
    if g.load ∧ (g.memsz < g.filesz ∨ rangeFits g.offset g.filesz image.length = false ∨
        2 ^ 64 ≤ g.vaddr + g.memsz) then .error .enoexec
    else .ok g

end Parse

section Load

variable (A : Arch) (image : Image)

/-- The pages mapped so far, the last one first, and the error with which `elf_load` goes to its
rollback. -/
abbrev Loaded := List ℕ × Option Errno

/-- The pages of a segment, from `page` on. -/
def loadPages (c : Context) (fl : Flags) : ℕ → ℕ → List ℕ → Vm Loaded
  | 0, _, loaded => pure (loaded, none)
  | n + 1, page, loaded => do
    if (← Act.read fun s => s.resolve c (page * pageSize)) ≠ 0 then
      loadPages c fl n (page + 1) loaded
    else if maxLoadedPages ≤ loaded.length then pure (loaded, some .e2big)
    else
      match ← Act.attempt (vmmMapAllocated A c page fl) with
      | .error e => pure (loaded, some e)
      | .ok _ => loadPages c fl n (page + 1) (page :: loaded)

def loadBytes (c : Context) (address : ℕ) : List ℕ → Vm (Option Errno)
  | [] => pure none
  | b :: rest => do
    let size := chunkSize address (b :: rest).length
    let physical ← Act.read fun s => s.resolve c address
    if physical = 0 then pure (some .efault)
    else
      writeBytes physical ((b :: rest).take size)
      loadBytes c (address + size) ((b :: rest).drop size)
termination_by bytes => bytes.length
decreasing_by
  have hpos : 0 < chunkSize address (b :: rest).length := chunkSize_pos address (by simp)
  simp only [List.length_drop, List.length_cons] at hpos ⊢
  omega

/-- The address of a segment with the bias, `segment_start`. -/
def segmentStart (bias : ℕ) (g : Segment) : ℕ := (g.vaddr + bias) % 2 ^ A.bits

/-- The page behind a segment, `page_end`. -/
def segmentPageEnd (bias : ℕ) (g : Segment) : ℕ :=
  (segmentStart A bias g + g.memsz + (pageSize - 1)) % 2 ^ A.bits / pageSize

/-- A round of the loop of `elf_load` for a loadable segment. -/
def loadSegment (c : Context) (bias : ℕ) (g : Segment) (loaded : List ℕ) : Vm Loaded := do
  let start := segmentStart A bias g
  if start < bias then pure (loaded, some .eoverflow)
  else if 2 ^ A.bits ≤ start + g.memsz then pure (loaded, some .eoverflow)
  else
    let r ← loadPages A c g.pageFlags (segmentPageEnd A bias g - start / pageSize)
      (start / pageSize) loaded
    match r.2 with
    | some e => pure (r.1, some e)
    | none => do
      let e ← loadBytes c start (g.data image)
      pure (r.1, e)

/-- The loop of `elf_load` over the results of `parse_segment`; the flag is `loadable`. -/
def loadSegments (c : Context) (bias : ℕ) :
    List (Except Errno Segment) → Bool → List ℕ → Vm Loaded
  | [], loadable, loaded => pure (loaded, if loadable then none else some .enoexec)
  | .error e :: _, _, loaded => pure (loaded, some e)
  | .ok g :: rest, loadable, loaded =>
    if g.load = false ∨ g.memsz = 0 then loadSegments c bias rest loadable loaded
    else do
      let r ← loadSegment A image c bias g loaded
      match r.2 with
      | some e => pure (r.1, some e)
      | none => loadSegments c bias rest true r.1

/-- The rollback of `elf_load`. -/
def unloadPages (c : Context) (loaded : List ℕ) : Vm Unit :=
  Act.each (fun page => do
    let _ ← Act.attempt (vmmUnmap A c page)
    pure ()) loaded

/-- `ELF_TYPE_DYN` images are moved. -/
def loadBias (h : Header) : ℕ := if h.type = 3 then A.elfDynBase else 0

/-- `elf_load`; the value is the entry point. -/
def elfLoad (c : Context) : Vm ℕ := do
  match parseHeader A image with
  | .error e => Act.fail e
  | .ok h =>
    let bias := loadBias A h
    let entry := (h.entry + bias) % 2 ^ A.bits
    let r ← loadSegments A image c bias ((List.range h.phnum).map (parseSegment A image h)) false []
    match if r.2 = none ∧ entry < bias then some .eoverflow else r.2 with
    | some e => do
      unloadPages A c r.1
      Act.fail e
    | none => pure entry

end Load

end Tach.Processes
