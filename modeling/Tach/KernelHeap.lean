import Tach.BlockLists
import Tach.Histories

/-!
The kernel heap of kheap.c in a memory of bytes, for words of 4 and of 8 bytes. A block is a header
of `sizeof(struct heap_block)` bytes, rounded up, and the bytes behind it; the blocks are linked
through their headers, those of the page allocator before those of the arena. Sizes wrap around
where a request enters them; addresses are numbers, and 0 is `NULL`.

What `pmm_alloc_pages` answers is open.
-/

namespace Tach.KernelHeap

open ByteBlock (littleEndian)
open Records
open BlockLists (without)

inductive Arch
  | bits32
  | bits64
  deriving DecidableEq

def Arch.word : Arch → ℕ
  | .bits32 => 4
  | .bits64 => 8

/-- One more than `SIZE_MAX`. -/
def Arch.limit (A : Arch) : ℕ := 256 ^ A.word

/-- `KHEAP_MAGIC`. -/
def heapMagic : ℕ := 0x74616368

/-- `KHEAP_FROM_PMM`. -/
def fromPmm : ℕ := 1

def pageSize : ℕ := 4096

/-- `struct heap_block`. -/
@[ext] structure Header where
  magic : ℕ
  flags : ℕ
  size : ℕ
  pages : ℕ
  free : Bool
  previous : ℕ
  next : ℕ
  deriving DecidableEq

def Header.isPmm (h : Header) : Bool := h.flags % 2 = 1

structure Header.Fits (w : ℕ) (h : Header) : Prop where
  magic : h.magic < 256 ^ 4
  flags : h.flags < 256 ^ 4
  size : h.size < 256 ^ w
  pages : h.pages < 256 ^ w
  previous : h.previous < 256 ^ w
  next : h.next < 256 ^ w

/-- `struct heap_block` at its offsets. -/
def loadHeader (w : ℕ) (b : Bytes) : Header where
  magic := littleEndian b 0 4
  flags := littleEndian b 4 4
  size := littleEndian b 8 w
  pages := littleEndian b (8 + w) w
  free := b (8 + 2 * w) ≠ 0
  previous := littleEndian b (8 + 3 * w) w
  next := littleEndian b (8 + 4 * w) w

/-- The bytes behind `free` are padding. -/
def storeHeader (w : ℕ) (h : Header) (b : Bytes) : Bytes := fun i =>
  if i < 4 then byte h.magic i
  else if i < 8 then byte h.flags (i - 4)
  else if i < 8 + w then byte h.size (i - 8)
  else if i < 8 + 2 * w then byte h.pages (i - (8 + w))
  else if i = 8 + 2 * w then if h.free then 1 else 0
  else if i < 8 + 3 * w then b i
  else if i < 8 + 4 * w then byte h.previous (i - (8 + 3 * w))
  else byte h.next (i - (8 + 4 * w))

/-- How a header lies in memory, for words of `w` bytes. -/
def headerCodec (w : ℕ) (hw : 0 < w) : Codec Header where
  size := 8 + 5 * w
  fits := Header.Fits w
  load := loadHeader w
  store := storeHeader w
  load_congr := by
    intro b b' h
    have hfree := h (8 + 2 * w) (by omega)
    simp only [loadHeader, Header.mk.injEq, hfree, true_and]
    refine ⟨?_, ?_, ?_, ?_, ?_, ?_⟩ <;>
      exact littleEndian_congr fun i hi => h _ (by omega)
  load_store := by
    intro h hfits b
    have hfree : storeHeader w h b (8 + 2 * w) = if h.free then 1 else 0 := by
      simp only [storeHeader]
      rw [if_neg (by omega), if_neg (by omega), if_neg (by omega), if_neg (by omega), if_pos trivial]
    ext
    · exact littleEndian_byte hfits.magic fun i hi => by simp [storeHeader, hi]
    · exact littleEndian_byte hfits.flags fun i hi => by
        simp only [storeHeader]
        rw [if_neg (by omega), if_pos (by omega), Nat.add_sub_cancel_left]
    · exact littleEndian_byte hfits.size fun i hi => by
        simp only [storeHeader]
        rw [if_neg (by omega), if_neg (by omega), if_pos (by omega), Nat.add_sub_cancel_left]
    · exact littleEndian_byte hfits.pages fun i hi => by
        simp only [storeHeader]
        rw [if_neg (by omega), if_neg (by omega), if_neg (by omega), if_pos (by omega),
          Nat.add_sub_cancel_left]
    · simp only [loadHeader, hfree]
      cases h.free <;> rfl
    · exact littleEndian_byte hfits.previous fun i hi => by
        simp only [storeHeader]
        rw [if_neg (by omega), if_neg (by omega), if_neg (by omega), if_neg (by omega),
          if_neg (by omega), if_neg (by omega), if_pos (by omega), Nat.add_sub_cancel_left]
    · exact littleEndian_byte hfits.next fun i hi => by
        simp only [storeHeader]
        rw [if_neg (by omega), if_neg (by omega), if_neg (by omega), if_neg (by omega),
          if_neg (by omega), if_neg (by omega), if_neg (by omega), Nat.add_sub_cancel_left]

theorem Arch.word_pos (A : Arch) : 0 < A.word := by cases A <;> decide

section Code

variable (A : Arch)

abbrev Arch.codec : Codec Header := headerCodec A.word A.word_pos

/-- `align_up` to `KHEAP_ALIGN`. -/
def alignUp (v : ℕ) : ℕ := (v + 15) % A.limit / 16 * 16

def headerSize : ℕ := alignUp A (8 + 5 * A.word)

/-- The memory, `g_blocks` and `g_heap_ready`. -/
structure Heap where
  mem : Bytes
  blocks : ℕ
  ready : Bool

namespace Heap

variable (s : Heap)

def header (a : ℕ) : Header := A.codec.read s.mem a

def setHeader (a : ℕ) (h : Header) : Heap := { s with mem := A.codec.write s.mem a h }

def modify (a : ℕ) (f : Header → Header) : Heap := s.setHeader A a (f (s.header A a))

/-- `memset` with zeros. -/
def clear (a n : ℕ) : Heap := { s with mem := put s.mem a n fun _ => 0 }

/-- `memcpy`. -/
def copy (dst src n : ℕ) : Heap := { s with mem := put s.mem dst n fun i => s.mem (src + i) }

end Heap

/-- `append_block`, which puts a block before the others. -/
def appendBlock (s : Heap) (block : ℕ) : Heap :=
  let s := s.modify A block fun h => { h with previous := 0, next := s.blocks }
  let s := if s.blocks ≠ 0 then s.modify A s.blocks fun h => { h with previous := block } else s
  { s with blocks := block }

def removeBlock (s : Heap) (block : ℕ) : Heap :=
  let h := s.header A block
  let s := if h.previous ≠ 0 then s.modify A h.previous fun p => { p with next := h.next }
    else { s with blocks := h.next }
  let h := s.header A block
  if h.next ≠ 0 then s.modify A h.next fun n => { n with previous := h.previous } else s

def kheapInit (mem : Bytes) (start size : ℕ) : Heap :=
  let s : Heap := ⟨mem, 0, true⟩
  if start = 0 ∨ size ≤ headerSize A + 16 then s
  else
    let base := alignUp A start
    let skipped := (base + A.limit - start) % A.limit
    if size ≤ skipped ∨ size - skipped ≤ headerSize A then s
    else
      let s := s.clear base (8 + 5 * A.word)
      let s := s.modify A base fun h =>
        { h with magic := heapMagic, size := size - skipped - headerSize A, free := true }
      appendBlock A s base

/-- The stores into the header of a remainder: its size, and the blocks before and after it. -/
def Header.remainder (size previous next : ℕ) (h : Header) : Header :=
  { h with magic := heapMagic, size := size, free := true, previous := previous, next := next }

/-- The stores into the header of a run of pages. -/
def Header.paged (pages : ℕ) (h : Header) : Header :=
  { h with
    magic := heapMagic
    flags := fromPmm
    size := (pages * pageSize - headerSize A) % A.limit
    pages := pages }

def splitArenaBlock (s : Heap) (block wanted : ℕ) : Heap :=
  let h := s.header A block
  if h.isPmm ∨ h.size < (wanted + headerSize A + 16) % A.limit then s
  else
    let remainder := block + headerSize A + wanted
    let s := s.clear remainder (8 + 5 * A.word)
    let s := s.modify A remainder (.remainder (h.size - wanted - headerSize A) block h.next)
    let s := if h.next ≠ 0 then s.modify A h.next fun n => { n with previous := remainder } else s
    s.modify A block fun h => { h with next := remainder, size := wanted }

/-- The loop of `kmalloc`: the first free block that is large enough, from `p` on, or `NULL`. -/
def firstFit (s : Heap) (size : ℕ) : ℕ → ℕ → ℕ
  | 0, _ => 0
  | fuel + 1, p =>
    if p = 0 then 0
    else
      let h := s.header A p
      if !h.free ∨ h.size < size then firstFit s size fuel h.next else p

/-- The pages for a request of `size` bytes, rounded up. -/
def pagesFor (size : ℕ) : ℕ :=
  ((headerSize A + size) % A.limit + pageSize - 1) % A.limit / pageSize

/-- What a call leaves and returns, and the pages it took at the answer of `pmm_alloc_pages`. -/
structure Allocated where
  heap : Heap
  pointer : ℕ
  taken : Option ℕ

/-- The end of `kmalloc` with a block that was found. -/
def takeBlock (s : Heap) (block size : ℕ) : Allocated :=
  let s := splitArenaBlock A s block size
  ⟨s.modify A block fun h => { h with free := false }, block + headerSize A, none⟩

/-- The end of `kmalloc` with pages of the page allocator. -/
def takePages (s : Heap) (pages : ℕ) : Option ℕ → Allocated
  | none => ⟨s, 0, none⟩
  | some block =>
    let s := s.clear block (headerSize A)
    let s := s.modify A block (.paged A pages)
    ⟨appendBlock A s block, block + headerSize A, some pages⟩

/-- `kmalloc`; no list of blocks is longer than there are addresses. -/
def kmalloc (s : Heap) (size : ℕ) (answer : Option ℕ) : Allocated :=
  if size = 0 then ⟨s, 0, none⟩
  else
    let s := if s.ready then s else kheapInit A s.mem 0 0
    let size := alignUp A size
    let block := firstFit A s size A.limit s.blocks
    if block ≠ 0 then takeBlock A s block size else takePages A s (pagesFor A size) answer

def kzalloc (s : Heap) (size : ℕ) (answer : Option ℕ) : Allocated :=
  let r := kmalloc A s size answer
  if r.pointer ≠ 0 then { r with heap := r.heap.clear r.pointer size } else r

/-- The block at `x` takes in the one behind it, which has the header `h`. -/
def absorb (s : Heap) (x : ℕ) (h : Header) : Heap :=
  let s := s.modify A x fun p => { p with size := p.size + (headerSize A + h.size), next := h.next }
  if h.next ≠ 0 then s.modify A h.next fun n => { n with previous := x } else s

/-- The first half of `merge_arena_neighbors`. -/
def mergeNext (s : Heap) (block : ℕ) : Heap :=
  let h := s.header A block
  let n := s.header A h.next
  if h.next ≠ 0 ∧ n.free ∧ !n.isPmm ∧ block + headerSize A + h.size = h.next then
    absorb A s block n
  else s

/-- The second half of `merge_arena_neighbors`. -/
def mergePrevious (s : Heap) (block : ℕ) : Heap :=
  let h := s.header A block
  let p := s.header A h.previous
  if h.previous ≠ 0 ∧ p.free ∧ !p.isPmm ∧ h.previous + headerSize A + p.size = block then
    absorb A s h.previous h
  else s

def mergeArenaNeighbors (s : Heap) (block : ℕ) : Heap := mergePrevious A (mergeNext A s block) block

/-- `kfree`, with the run that it gives back to the page allocator. -/
def kfree (s : Heap) (pointer : ℕ) : Heap × Option (ℕ × ℕ) :=
  if pointer = 0 then (s, none)
  else
    let block := pointer - headerSize A
    let h := s.header A block
    if h.magic ≠ heapMagic then (s, none)
    else if h.free then (s, none)
    else if h.isPmm then
      ((removeBlock A s block).modify A block fun h => { h with magic := 0 }, some (block, h.pages))
    else
      let s := s.modify A block fun h => { h with free := true }
      (mergeArenaNeighbors A s block, none)

/-- What `krealloc` leaves and returns, and what it took and gave back. -/
structure Reallocated where
  heap : Heap
  pointer : ℕ
  taken : Option ℕ
  given : Option (ℕ × ℕ)

def krealloc (s : Heap) (pointer newSize : ℕ) (answer : Option ℕ) : Reallocated :=
  if pointer = 0 then
    let r := kmalloc A s newSize answer
    ⟨r.heap, r.pointer, r.taken, none⟩
  else if newSize = 0 then
    let r := kfree A s pointer
    ⟨r.1, 0, none, r.2⟩
  else
    let block := pointer - headerSize A
    let h := s.header A block
    if h.magic ≠ heapMagic then ⟨s, 0, none, none⟩
    else if newSize ≤ h.size then ⟨s, pointer, none, none⟩
    else
      let r := kmalloc A s newSize answer
      if r.pointer = 0 then ⟨r.heap, 0, r.taken, none⟩
      else
        let s := r.heap.copy r.pointer pointer (r.heap.header A block).size
        let f := kfree A s pointer
        ⟨f.1, r.pointer, r.taken, f.2⟩

end Code

section Users

variable (A : Arch)

/-- The heap, the blocks that are in use with the sizes asked for, and the page runs that were taken
from the page allocator. -/
structure System where
  heap : Heap
  live : List (ℕ × ℕ)
  runs : List (ℕ × ℕ)

/-- A call of the heap, with the answer of the page allocator, or a store of the owner into the block
at `pointer`. -/
inductive Action
  | malloc (size : ℕ) (answer : Option ℕ)
  | zalloc (size : ℕ) (answer : Option ℕ)
  | realloc (pointer size : ℕ) (answer : Option ℕ)
  | free (pointer : ℕ)
  | store (pointer i : ℕ) (value : UInt8)

/-- The pointer is `NULL` or a block in use. -/
def System.Owns (s : System) (pointer : ℕ) : Prop := pointer = 0 ∨ pointer ∈ s.live.map Prod.fst

/-- The page allocator answers with `NULL` or with pages that are not in use. -/
def Fresh (arena : ℕ × ℕ) (runs : List (ℕ × ℕ)) (pages : ℕ) (answer : Option ℕ) : Prop :=
  ∀ a ∈ answer, a ≠ 0 ∧ a + pages * pageSize ≤ A.limit ∧
    Separate arena.1 arena.2 a (pages * pageSize) ∧
    ∀ r ∈ runs, Separate r.1 (r.2 * pageSize) a (pages * pageSize)

/-- A request of at most `SIZE_MAX / 2` bytes, with a fresh answer. -/
def Modest (arena : ℕ × ℕ) (s : System) (size : ℕ) (answer : Option ℕ) : Prop :=
  size ≤ (A.limit - 1) / 2 ∧ Fresh A arena s.runs (pagesFor A (alignUp A size)) answer

/-- What the users of the heap and the page allocator keep to. -/
def Proper (arena : ℕ × ℕ) (s : System) : Action → Prop
  | .malloc size answer => Modest A arena s size answer
  | .zalloc size answer => Modest A arena s size answer
  | .realloc pointer size answer => s.Owns pointer ∧ Modest A arena s size answer
  | .free pointer => s.Owns pointer
  | .store pointer i _ => ∃ r ∈ s.live, r.1 = pointer ∧ i < r.2

/-- The runs after a call took one at `block`. -/
def take (runs : List (ℕ × ℕ)) (block : ℕ) : Option ℕ → List (ℕ × ℕ)
  | none => runs
  | some pages => (block, pages) :: runs

def give (runs : List (ℕ × ℕ)) : Option (ℕ × ℕ) → List (ℕ × ℕ)
  | none => runs
  | some r => runs.erase r

/-- The system after `kmalloc` or `kzalloc`. -/
def System.allocate (s : System) (size : ℕ) (r : Allocated) : System where
  heap := r.heap
  live := if r.pointer ≠ 0 then (r.pointer, size) :: s.live else s.live
  runs := take s.runs (r.pointer - headerSize A) r.taken

/-- The system after `krealloc`. -/
def System.reallocate (s : System) (pointer size : ℕ) (r : Reallocated) : System where
  heap := r.heap
  live := if r.pointer ≠ 0 then (r.pointer, size) :: without s.live pointer
    else if size = 0 then without s.live pointer else s.live
  runs := give (take s.runs (r.pointer - headerSize A) r.taken) r.given

def step (s : System) : Action → System × List ℕ
  | .malloc size answer =>
    let r := kmalloc A s.heap size answer
    (s.allocate A size r, [r.pointer])
  | .zalloc size answer =>
    let r := kzalloc A s.heap size answer
    (s.allocate A size r, [r.pointer])
  | .realloc pointer size answer =>
    let r := krealloc A s.heap pointer size answer
    (s.reallocate A pointer size r, [r.pointer])
  | .free pointer =>
    let r := kfree A s.heap pointer
    (⟨r.1, without s.live pointer, give s.runs r.2⟩, [])
  | .store pointer i value =>
    ({ s with heap := { s.heap with mem := Function.update s.heap.mem (pointer + i) value } }, [])

/-- The arena of `kheap_init`, empty if there is none. -/
def arenaOf : Option (ℕ × ℕ) → ℕ × ℕ
  | none => (0, 0)
  | some g => if g.1 = 0 then (0, 0) else g

/-- Before the first call: `kheap_init` was given an arena, or was not called. -/
def boot (mem : Bytes) : Option (ℕ × ℕ) → System
  | none => ⟨⟨mem, 0, false⟩, [], []⟩
  | some arena => ⟨kheapInit A mem arena.1 arena.2, [], []⟩

abbrev Run (arena : ℕ × ℕ) :=
  Histories.Run (fun s a => some (step A s a) : Histories.Machine System Action ℕ) (Proper A arena)

end Users

end Tach.KernelHeap
