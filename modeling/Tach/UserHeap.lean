import Tach.KernelHeap

/-!
The heap of user programs: `malloc`, `free`, `realloc` and `calloc` of libc.c over `brk`, in a memory
of bytes. The blocks are linked through their headers, in the order of their addresses and without
gaps, from `heap_head` to `heap_end`.

`brk` answers 0 with the break, and otherwise grants or refuses what it is asked for; nothing else
moves the break.
-/

namespace Tach.UserHeap

open ByteBlock (littleEndian)
open Records
open BlockLists (without)
open KernelHeap (Arch)

/-- `struct block`. -/
@[ext] structure Header where
  size : ℕ
  next : ℕ
  free : Bool
  deriving DecidableEq

structure Header.Fits (w : ℕ) (h : Header) : Prop where
  size : h.size < 256 ^ w
  next : h.next < 256 ^ w

/-- `struct block` at its offsets. -/
def loadHeader (w : ℕ) (b : Bytes) : Header where
  size := littleEndian b 0 w
  next := littleEndian b w w
  free := littleEndian b (2 * w) 4 ≠ 0

def storeHeader (w : ℕ) (h : Header) (_ : Bytes) : Bytes := fun i =>
  if i < w then byte h.size i
  else if i < 2 * w then byte h.next (i - w)
  else byte (if h.free then 1 else 0) (i - 2 * w)

/-- How a header lies in memory, for words of `w` bytes. -/
def headerCodec (w : ℕ) : Codec Header where
  size := 2 * w + 4
  fits := Header.Fits w
  load := loadHeader w
  store := storeHeader w
  load_congr := by
    intro b b' h
    simp only [loadHeader, Header.mk.injEq]
    refine ⟨littleEndian_congr fun i hi => h _ (by omega),
      littleEndian_congr fun i hi => h _ (by omega), ?_⟩
    rw [littleEndian_congr fun i hi => h (2 * w + i) (by omega)]
  load_store := by
    intro h hfits b
    ext
    · exact littleEndian_byte hfits.size fun i hi => by
        simp only [storeHeader]
        rw [if_pos (by omega), Nat.zero_add]
    · exact littleEndian_byte hfits.next fun i hi => by
        simp only [storeHeader]
        rw [if_neg (by omega), if_pos (by omega), Nat.add_sub_cancel_left]
    · have hfree : littleEndian (storeHeader w h b) (2 * w) 4 = if h.free then 1 else 0 := by
        refine littleEndian_byte (by split_ifs <;> decide) fun i hi => ?_
        simp only [storeHeader]
        rw [if_neg (by omega), if_neg (by omega), Nat.add_sub_cancel_left]
      simp only [loadHeader, hfree]
      cases h.free <;> rfl

section Code

variable (A : Arch)

abbrev codec : Codec Header := headerCodec A.word

/-- `BLOCK_HEADER`: the header is aligned to 16 bytes. -/
def blockHeader : ℕ := 4 * A.word

/-- `(size + 15u) & ~(size_t)15u`. -/
def roundUp (v : ℕ) : ℕ := (v + 15) % A.limit / 16 * 16

/-- The memory, `heap_head`, `heap_tail`, `heap_end` and `heap_ready`, and the break. -/
structure Heap where
  mem : Bytes
  head : ℕ
  tail : ℕ
  stop : ℕ
  ready : Bool
  brk : ℕ

namespace Heap

variable (s : Heap)

def header (a : ℕ) : Header := (codec A).read s.mem a

def modify (a : ℕ) (f : Header → Header) : Heap :=
  { s with mem := (codec A).write s.mem a (f (s.header A a)) }

/-- `memset` with zeros. -/
def clear (a n : ℕ) : Heap := { s with mem := put s.mem a n fun _ => 0 }

/-- `memcpy`. -/
def copy (dst src n : ℕ) : Heap := { s with mem := put s.mem dst n fun i => s.mem (src + i) }

end Heap

/-- `heap_init`, with the answer of `brk` if it is asked to align the break. -/
def heapInit (s : Heap) (grant : Bool) : Option Heap :=
  let base := s.brk
  if base = 0 ∨ A.limit - 4096 < base then none
  else
    let aligned := roundUp A base
    if aligned ≠ base ∧ !grant then none
    else some { s with brk := aligned, stop := aligned, ready := true }

def blockSplit (s : Heap) (block size : ℕ) : Heap :=
  let h := s.header A block
  if h.size < (size + blockHeader A + 16) % A.limit then s
  else
    let rest := block + blockHeader A + size
    let s := s.modify A rest fun _ => ⟨h.size - size - blockHeader A, h.next, true⟩
    let s := s.modify A block fun h => { h with next := rest, size := size }
    { s with tail := if s.tail = block then rest else s.tail }

/-- The loop of `malloc`: the first free block that is large enough, from `p` on, or `NULL`. -/
def firstFit (s : Heap) (size : ℕ) : ℕ → ℕ → ℕ
  | 0, _ => 0
  | fuel + 1, p =>
    if p = 0 then 0
    else
      let h := s.header A p
      if h.free ∧ size ≤ h.size then p else firstFit s size fuel h.next

/-- The end of `malloc` with a block that was found. -/
def takeBlock (s : Heap) (block size : ℕ) : Heap :=
  (blockSplit A s block size).modify A block fun h => { h with free := false }

/-- The end of `malloc` with a new block, up to `requested`. -/
def growHeap (s : Heap) (size requested : ℕ) : Heap :=
  let block := s.stop
  let s := s.modify A block fun _ => ⟨size, 0, false⟩
  let s := if s.tail ≠ 0 then s.modify A s.tail fun h => { h with next := block }
    else { s with head := block }
  { s with tail := block, stop := requested, brk := requested }

/-- The answers of `brk` to one call: when the break is aligned, and when the heap grows. -/
structure Answers where
  align : Bool
  grow : Bool
  deriving DecidableEq

/-- `malloc` of a size that is rounded up, in a heap that is ready. -/
def mallocReady (s : Heap) (size : ℕ) (grant : Bool) : Heap × ℕ :=
  let block := firstFit A s size A.limit s.head
  if block ≠ 0 then (takeBlock A s block size, block + blockHeader A)
  else
    let total := (blockHeader A + size) % A.limit
    let requested := (s.stop + total) % A.limit
    if requested < s.stop ∨ !grant then (s, 0)
    else (growHeap A s size requested, s.stop + blockHeader A)

def malloc (s : Heap) (size : ℕ) (answers : Answers) : Heap × ℕ :=
  if size = 0 ∨ (A.limit - 1) / 2 < size then (s, 0)
  else
    let size := roundUp A size
    if s.ready then mallocReady A s size answers.grow
    else
      match heapInit A s answers.align with
      | none => (s, 0)
      | some s => mallocReady A s size answers.grow

/-- The block at `cursor` takes in the one behind it. -/
def absorb (s : Heap) (cursor absorbed : ℕ) : Heap :=
  let n := s.header A absorbed
  let s := s.modify A cursor fun h =>
    { h with size := h.size + (blockHeader A + n.size), next := n.next }
  { s with tail := if s.tail = absorbed then cursor else s.tail }

/-- The loop of `free`, from `cursor` on. -/
def coalesce : ℕ → Heap → ℕ → Heap
  | 0, s, _ => s
  | fuel + 1, s, cursor =>
    let h := s.header A cursor
    if cursor = 0 ∨ h.next = 0 then s
    else if h.free ∧ (s.header A h.next).free then coalesce fuel (absorb A s cursor h.next) cursor
    else coalesce fuel s h.next

/-- `free`; no list of blocks is longer than there are addresses. -/
def free (s : Heap) (pointer : ℕ) : Heap :=
  if pointer = 0 then s
  else
    let block := pointer - blockHeader A
    if block < s.head ∨ s.stop ≤ pointer ∨ (s.header A block).free then s
    else
      let s := s.modify A block fun h => { h with free := true }
      coalesce A A.limit s s.head

def realloc (s : Heap) (pointer size : ℕ) (answers : Answers) : Heap × ℕ :=
  if pointer = 0 then malloc A s size answers
  else if size = 0 then (free A s pointer, 0)
  else if (A.limit - 1) / 2 < size then (s, 0)
  else
    let block := pointer - blockHeader A
    if roundUp A size ≤ (s.header A block).size then (s, pointer)
    else
      let r := malloc A s size answers
      if r.2 = 0 then (r.1, 0)
      else
        let s := r.1.copy r.2 pointer (r.1.header A block).size
        (free A s pointer, r.2)

def calloc (s : Heap) (count size : ℕ) (answers : Answers) : Heap × ℕ :=
  if count ≠ 0 ∧ (A.limit - 1) / count < size then (s, 0)
  else
    let total := count * size % A.limit
    let r := malloc A s total answers
    if r.2 ≠ 0 then (r.1.clear r.2 total, r.2) else r

end Code

section Users

variable (A : Arch)

/-- The heap and the blocks that are in use, with the sizes asked for. -/
structure System where
  heap : Heap
  live : List (ℕ × ℕ)

/-- A call, with the answers of `brk`, or a store into the block at `pointer`. -/
inductive Action
  | malloc (size : ℕ) (answers : Answers)
  | calloc (count size : ℕ) (answers : Answers)
  | realloc (pointer size : ℕ) (answers : Answers)
  | free (pointer : ℕ)
  | store (pointer i : ℕ) (value : UInt8)

/-- The pointer is `NULL` or a block in use. -/
def System.Owns (s : System) (pointer : ℕ) : Prop := pointer = 0 ∨ pointer ∈ s.live.map Prod.fst

/-- The arguments are words, only blocks in use are freed, and only they are stored into. -/
def Proper (s : System) : Action → Prop
  | .malloc size _ => size < A.limit
  | .calloc count size _ => count < A.limit ∧ size < A.limit
  | .realloc pointer size _ => s.Owns pointer ∧ size < A.limit
  | .free pointer => s.Owns pointer
  | .store pointer i _ => ∃ r ∈ s.live, r.1 = pointer ∧ i < r.2

/-- The system after a call that returned a new block or `NULL`. -/
def System.allocate (s : System) (size : ℕ) (r : Heap × ℕ) : System where
  heap := r.1
  live := if r.2 ≠ 0 then (r.2, size) :: s.live else s.live

/-- The system after `realloc`. -/
def System.reallocate (s : System) (pointer size : ℕ) (r : Heap × ℕ) : System where
  heap := r.1
  live := if r.2 ≠ 0 then (r.2, size) :: without s.live pointer
    else if size = 0 then without s.live pointer else s.live

def step (s : System) : Action → System × List ℕ
  | .malloc size answers =>
    let r := malloc A s.heap size answers
    (s.allocate size r, [r.2])
  | .calloc count size answers =>
    let r := calloc A s.heap count size answers
    (s.allocate (count * size) r, [r.2])
  | .realloc pointer size answers =>
    let r := realloc A s.heap pointer size answers
    (s.reallocate pointer size r, [r.2])
  | .free pointer => (⟨free A s.heap pointer, without s.live pointer⟩, [])
  | .store pointer i value =>
    ({ s with heap := { s.heap with mem := Function.update s.heap.mem (pointer + i) value } }, [])

/-- A program that has not called `malloc` yet. -/
def start (mem : Bytes) (brk : ℕ) : System := ⟨⟨mem, 0, 0, 0, false, brk⟩, []⟩

abbrev Run :=
  Histories.Run (fun s a => some (step A s a) : Histories.Machine System Action ℕ) (Proper A)

end Users

end Tach.UserHeap
