import Tach.Interleaving
import Tach.KernelHeap

/-!
The object caches of slab.c among threads. The objects of a page that are not in use form its free
list, linked through their first words; a thread owns the objects it was given and may store into
them. A locked section is one step, and so is the creation of a page, which `slab_alloc` does without
the lock: until its thread takes the lock again, others can use the new page up.
-/

namespace Tach.Slabs

open List Interleaving Records
open KernelHeap (Arch)

section Code

variable (A : Arch)

def slabAlign (v : ℕ) : ℕ := (v + (A.word - 1)) % A.limit / A.word * A.word

/-- The loop of `slab_divide` from bit `n - 1` down, with the quotient and the remainder. The bits of
the quotient are set from the highest on. -/
def divideLoop (dividend divisor : ℕ) : ℕ → ℕ × ℕ → ℕ × ℕ
  | 0, x => x
  | bit + 1, (quotient, remainder) =>
    let remainder := (2 * remainder + dividend / 2 ^ bit % 2) % A.limit
    divideLoop dividend divisor bit
      (if divisor ≤ remainder then (quotient + 2 ^ bit, remainder - divisor)
      else (quotient, remainder))

def slabDivide (dividend divisor : ℕ) : ℕ × ℕ :=
  if divisor = 0 then (0, 0) else divideLoop A dividend divisor (8 * A.word) (0, 0)

/-- `sizeof(struct slab_page)`, rounded up. -/
def pageHeader : ℕ := slabAlign A (5 * A.word)

/-- The sizes of `struct slab_cache`. -/
structure Cache where
  objectSize : ℕ
  perSlab : ℕ
  deriving DecidableEq

def slabCacheCreate (size : ℕ) : Option Cache :=
  if size = 0 then none
  else
    let objectSize := slabAlign A (if size < A.word then A.word else size)
    let perSlab := (slabDivide A (4096 - pageHeader A) objectSize).1
    some ⟨objectSize, if perSlab = 0 then 1 else perSlab⟩

/-- `struct slab_page`. -/
structure Page where
  addr : ℕ
  freeList : ℕ
  inUse : ℕ
  capacity : ℕ
  deriving DecidableEq

/-- The memory, and the rest of `struct slab_cache`. -/
structure Slab where
  mem : Bytes
  pages : List Page
  allocations : ℕ

abbrev wordCodec : Codec ℕ := numberCodec A.word

/-- The loop of `slab_page_create`: the memory and the free list after `n` rounds. -/
def linkObjects (C : Cache) (first : ℕ) (mem : Bytes) : ℕ → Bytes × ℕ
  | 0 => (mem, 0)
  | n + 1 =>
    let r := linkObjects C first mem n
    let object := first + n * C.objectSize
    ((wordCodec A).write r.1 object r.2, object)

/-- What `slab_page_create` asks `kmalloc` for. -/
def pageBytes (C : Cache) : ℕ := (pageHeader A + C.perSlab * C.objectSize) % A.limit

/-- `slab_page_create` with the answer of `kmalloc`. -/
def slabPageCreate (C : Cache) (s : Slab) (page : ℕ) : Slab :=
  let mem := put s.mem page (pageHeader A) fun _ => 0
  let r := linkObjects A C (page + pageHeader A) mem C.perSlab
  { s with mem := r.1, pages := ⟨page, r.2, 0, C.perSlab⟩ :: s.pages }

def setPage (page : ℕ) (f : Page → Page) (pages : List Page) : List Page :=
  pages.map fun p => if p.addr = page then f p else p

/-- The end of the locked section of `slab_alloc`. -/
def takeObject (s : Slab) (p : Page) : Slab :=
  { s with
    pages := setPage p.addr (fun q =>
      { q with freeList := (wordCodec A).read s.mem p.freeList, inUse := q.inUse + 1 }) s.pages
    allocations := s.allocations + 1 }

/-- The test of `slab_free`. -/
def Page.holds (C : Cache) (p : Page) (object : ℕ) : Bool :=
  let first := p.addr + pageHeader A
  decide (first ≤ object ∧ object < first + p.capacity * C.objectSize ∧
    (slabDivide A (object - first) C.objectSize).2 = 0)

def slabFree (C : Cache) (s : Slab) (object : ℕ) : Slab :=
  match s.pages.find? fun p => p.holds A C object with
  | none => s
  | some p =>
    { mem := (wordCodec A).write s.mem object p.freeList
      pages := setPage p.addr (fun q => { q with freeList := object, inUse := q.inUse - 1 }) s.pages
      allocations := s.allocations - 1 }

/-- Where a thread is in `slab_alloc`. -/
inductive Point
  | out
  /-- No page had a free object, and the lock was dropped. -/
  | creating
  /-- The page at this address was created and linked. -/
  | retaking (page : ℕ)
  /-- The object was taken, and the lock was dropped. -/
  | clearing (object : ℕ)
  deriving DecidableEq

structure Thread where
  point : Point
  objects : List ℕ
  deriving DecidableEq

/-- A thread that has taken an object and has to clear it. -/
def Thread.given (t : Thread) (object : ℕ) : Thread := ⟨.clearing object, object :: t.objects⟩

/-- What a thread does: a call, a step of `slab_alloc` with the answer of `kmalloc`, or a store into an
object of its own. -/
inductive Choice
  | alloc
  | create (answer : Option ℕ)
  | go
  | free (object : ℕ)
  | store (object i : ℕ) (value : UInt8)
  deriving DecidableEq

def program (C : Cache) : Program Choice Slab Thread
  | .alloc, s, t =>
    if t.point = .out then
      match s.pages.find? fun p => p.freeList ≠ 0 with
      | some p => some (takeObject A s p, t.given p.freeList)
      | none => some (s, { t with point := .creating })
    else none
  | .create answer, s, t =>
    if t.point = .creating then
      match answer with
      | none => some (s, { t with point := .out })
      | some page => some (slabPageCreate A C s page, { t with point := .retaking page })
    else none
  | .go, s, t =>
    match t.point with
    | .retaking page =>
      (s.pages.find? fun p => p.addr = page).map fun p => (takeObject A s p, t.given p.freeList)
    | .clearing object =>
      some ({ s with mem := put s.mem object C.objectSize fun _ => 0 }, { t with point := .out })
    | _ => none
  | .free object, s, t =>
    if t.point = .out ∧ object ∈ t.objects then
      some (slabFree A C s object, { t with objects := t.objects.erase object })
    else none
  | .store object i value, s, t =>
    if object ∈ t.objects ∧ i < C.objectSize then
      some ({ s with mem := put s.mem (object + i) 1 fun _ => value }, t)
    else none

def fresh (ι : Type*) (mem : Bytes) : World ι Slab Thread := ⟨⟨mem, [], 0⟩, fun _ => ⟨.out, []⟩⟩

/-- `kmalloc` answers with memory that is not in use. -/
def Fresh {ι : Type*} (C : Cache) (w : World ι Slab Thread) (_ : ι) (a : Choice) : Prop :=
  ∀ page, a = .create (some page) → page ≠ 0 ∧ page + pageBytes A C ≤ A.limit ∧
    ∀ p ∈ w.shared.pages, Separate p.addr (pageBytes A C) page (pageBytes A C)

/-- An object of a page whose creator has still to take one is left to it. -/
def Spared {ι : Type*} (w : World ι Slab Thread) (_ : ι) (a : Choice) : Prop :=
  a = .alloc → ∀ p, (w.shared.pages.find? fun p => p.freeList ≠ 0) = some p →
    (∃ j, (w.thread j).point = .retaking p.addr) → (wordCodec A).read w.shared.mem p.freeList ≠ 0

end Code

section Division

variable {A : Arch} {dividend divisor : ℕ}

/-- The invariant of the division: the quotient and the remainder of the bits so far. -/
theorem divideLoop_eq (hdividend : dividend < A.limit) (hdivisor : 0 < divisor) (n : ℕ) :
    divideLoop A dividend divisor n
      (dividend / 2 ^ n / divisor * 2 ^ n, dividend / 2 ^ n % divisor) =
      (dividend / divisor, dividend % divisor) := by
  induction n with
  | zero => simp [divideLoop]
  | succ n ih =>
    obtain ⟨top, htop⟩ : ∃ top, top = dividend / 2 ^ (n + 1) := ⟨_, rfl⟩
    obtain ⟨bit, hbit⟩ : ∃ bit, bit = dividend / 2 ^ n % 2 := ⟨_, rfl⟩
    have hsplit : dividend / 2 ^ n = 2 * top + bit := by
      rw [htop, hbit, Nat.pow_succ, ← Nat.div_div_eq_div_mul]
      omega
    have hrem := Nat.mod_lt top hdivisor
    have hsmall : 2 * (top % divisor) + bit < A.limit := by
      have hle := Nat.mod_le top divisor
      have hle' := Nat.div_le_self dividend (2 ^ n)
      omega
    have htopeq := Nat.div_add_mod top divisor
    rw [divideLoop]
    simp only [← htop, ← hbit, Nat.mod_eq_of_lt hsmall]
    rw [← ih, hsplit]
    congr 1
    -- the next bit of the quotient
    by_cases hfit : divisor ≤ 2 * (top % divisor) + bit
    · obtain ⟨hquot, hrest⟩ : (2 * top + bit) / divisor = 2 * (top / divisor) + 1 ∧
          (2 * top + bit) % divisor = 2 * (top % divisor) + bit - divisor := by
        refine (Nat.div_mod_unique hdivisor).mpr ⟨?_, by omega⟩
        rw [Nat.mul_add, Nat.mul_one, Nat.mul_left_comm]
        omega
      rw [if_pos hfit, hquot, hrest, Nat.pow_succ]
      congr 1
      ring
    · obtain ⟨hquot, hrest⟩ : (2 * top + bit) / divisor = 2 * (top / divisor) ∧
          (2 * top + bit) % divisor = 2 * (top % divisor) + bit := by
        refine (Nat.div_mod_unique hdivisor).mpr ⟨?_, by omega⟩
        rw [Nat.mul_left_comm]
        omega
      rw [if_neg hfit, hquot, hrest, Nat.pow_succ]
      congr 1
      ring

theorem slabDivide_eq (hdividend : dividend < A.limit) (hdivisor : 0 < divisor) :
    slabDivide A dividend divisor = (dividend / divisor, dividend % divisor) := by
  have hzero : dividend / 2 ^ (8 * A.word) = 0 := by
    refine Nat.div_eq_of_lt ?_
    rwa [show 2 ^ (8 * A.word) = A.limit by rw [Nat.pow_mul]; rfl]
  have hloop := divideLoop_eq hdividend hdivisor (8 * A.word)
  rw [hzero, Nat.zero_div, Nat.zero_mul, Nat.zero_mod] at hloop
  rw [slabDivide, if_neg (by omega), hloop]

end Division

section Geometry

variable {A : Arch} {C : Cache} {pages : List Page} {p q : Page} {x y : ℕ}

/-- What the sizes of a cache have to keep to. -/
structure Sized (A : Arch) (C : Cache) : Prop where
  word : A.word ≤ C.objectSize
  some : 0 < C.perSlab
  fits : pageHeader A + C.perSlab * C.objectSize < A.limit

theorem slabCacheCreate_sized {size : ℕ} (h : slabCacheCreate A size = some C)
    (hsize : 5 * A.word + (size + A.word - 1) / A.word * A.word < A.limit) : Sized A C := by
  have hlimit : 4294967296 ≤ A.limit := by cases A <;> decide
  have hheader : pageHeader A = 5 * A.word := by cases A <;> decide
  have hword : A.word = 4 ∨ A.word = 8 := by cases A <;> simp [Arch.word]
  have hzero : size ≠ 0 := by
    rintro rfl
    cases h
  rw [slabCacheCreate, if_neg hzero] at h
  obtain ⟨object, hobject⟩ : ∃ object, object = slabAlign A (if size < A.word then A.word else size) :=
    ⟨_, rfl⟩
  have halign : A.word ≤ object ∧ 5 * A.word + object < A.limit := by
    rw [hobject, slabAlign, Nat.mod_eq_of_lt] <;>
      rcases hword with hw | hw <;> rw [hw] at hsize ⊢ <;> split_ifs <;> omega
  simp only [← hobject, slabDivide_eq (show 4096 - pageHeader A < A.limit by omega)
    (show 0 < object by omega)] at h
  cases h
  by_cases hfew : (4096 - pageHeader A) / object = 0
  · rw [if_pos hfew]
    exact ⟨halign.1, Nat.one_pos, by rw [hheader, Nat.one_mul]; exact halign.2⟩
  · rw [if_neg hfew]
    refine ⟨halign.1, Nat.pos_of_ne_zero hfew, ?_⟩
    have := Nat.div_mul_le_self (4096 - pageHeader A) object
    dsimp only
    omega

def Page.objects (A : Arch) (C : Cache) (p : Page) : List ℕ :=
  (List.range p.capacity).map fun k => p.addr + pageHeader A + k * C.objectSize

def pageSpan (A : Arch) (C : Cache) : ℕ := pageHeader A + C.perSlab * C.objectSize

/-- Pages that lie in memory and do not overlap. -/
structure Apart (A : Arch) (C : Cache) (pages : List Page) : Prop where
  within : ∀ p ∈ pages, p.addr ≠ 0 ∧ p.addr + pageSpan A C ≤ A.limit
  capacity : ∀ p ∈ pages, p.capacity = C.perSlab
  apart : pages.Pairwise fun p q => Separate p.addr (pageSpan A C) q.addr (pageSpan A C)

theorem Sized.pageBytes (h : Sized A C) : pageBytes A C = pageSpan A C := Nat.mod_eq_of_lt h.fits

theorem Sized.pos (h : Sized A C) : 0 < C.objectSize := lt_of_lt_of_le A.word_pos h.word

theorem mem_objects : x ∈ p.objects A C ↔
    ∃ k < p.capacity, x = p.addr + pageHeader A + k * C.objectSize := by
  simp only [Page.objects, mem_map, mem_range]
  exact exists_congr fun k => and_congr_right fun _ => eq_comm

/-- The test of `slab_free` finds the page of an object. -/
theorem holds_iff (hC : Sized A C) (hx : x < A.limit) :
    p.holds A C x = true ↔ x ∈ p.objects A C := by
  have hpos := hC.pos
  simp only [Page.holds, decide_eq_true_eq, slabDivide_eq (show x - (p.addr + pageHeader A)
    < A.limit by omega) hpos, mem_objects]
  constructor
  · rintro ⟨hlo, hhi, hrem⟩
    have hdiv := Nat.div_add_mod (x - (p.addr + pageHeader A)) C.objectSize
    rw [hrem, Nat.add_zero, Nat.mul_comm] at hdiv
    refine ⟨(x - (p.addr + pageHeader A)) / C.objectSize, ?_, by omega⟩
    refine Nat.lt_of_mul_lt_mul_right (a := C.objectSize) ?_
    omega
  · rintro ⟨k, hk, rfl⟩
    have hlt := (Nat.mul_lt_mul_right hpos).mpr hk
    refine ⟨by omega, by omega, ?_⟩
    rw [Nat.add_sub_cancel_left, Nat.mul_mod_left]

namespace Apart

variable (h : Apart A C pages)
include h

/-- An object lies in its page, behind the header. -/
theorem object (hp : p ∈ pages) (hx : x ∈ p.objects A C) :
    p.addr + pageHeader A ≤ x ∧ x + C.objectSize ≤ p.addr + pageSpan A C := by
  obtain ⟨k, hk, rfl⟩ := mem_objects.mp hx
  rw [h.capacity p hp] at hk
  have hend : k * C.objectSize + C.objectSize ≤ C.perSlab * C.objectSize := by
    rw [← Nat.succ_mul]
    exact Nat.mul_le_mul_right _ hk
  rw [pageSpan]
  omega

theorem separate (hp : p ∈ pages) (hq : q ∈ pages) (hne : p ≠ q) :
    Separate p.addr (pageSpan A C) q.addr (pageSpan A C) := by
  have : Std.Symm fun p q : Page => Separate p.addr (pageSpan A C) q.addr (pageSpan A C) :=
    ⟨fun _ _ h => h.symm⟩
  exact h.apart.forall hp hq hne

theorem eq_of_addr (hC : Sized A C) (hp : p ∈ pages) (hq : q ∈ pages)
    (haddr : p.addr = q.addr) : p = q := by
  by_contra hne
  have hsep := h.separate hp hq hne
  have hpos : 0 < pageSpan A C :=
    Nat.add_pos_right _ (Nat.mul_pos hC.some hC.pos)
  rcases hsep with hsep | hsep <;> omega

/-- An object is of one page only. -/
theorem eq_of_object (hC : Sized A C) (hp : p ∈ pages) (hq : q ∈ pages)
    (hx : x ∈ p.objects A C) (hx' : x ∈ q.objects A C) : p = q := by
  by_contra hne
  have hpos := hC.pos
  obtain ⟨hlo, hhi⟩ := h.object hp hx
  obtain ⟨hlo', hhi'⟩ := h.object hq hx'
  rcases h.separate hp hq hne with hsep | hsep <;> omega

/-- Objects do not overlap. -/
theorem objects (hp : p ∈ pages) (hq : q ∈ pages) (hx : x ∈ p.objects A C)
    (hy : y ∈ q.objects A C) (hne : x ≠ y) : Separate x C.objectSize y C.objectSize := by
  by_cases hpq : p = q
  · subst hpq
    obtain ⟨k, -, rfl⟩ := mem_objects.mp hx
    obtain ⟨l, -, rfl⟩ := mem_objects.mp hy
    rcases Nat.lt_or_gt_of_ne (show k ≠ l from fun heq => hne (by rw [heq])) with hlt | hlt
    · have := Nat.mul_le_mul_right C.objectSize (Nat.succ_le_of_lt hlt)
      rw [Nat.succ_mul] at this
      exact .inl (by omega)
    · have := Nat.mul_le_mul_right C.objectSize (Nat.succ_le_of_lt hlt)
      rw [Nat.succ_mul] at this
      exact .inr (by omega)
  · obtain ⟨hlo, hhi⟩ := h.object hp hx
    obtain ⟨hlo', hhi'⟩ := h.object hq hy
    rcases h.separate hp hq hpq with hsep | hsep
    · exact .inl (by omega)
    · exact .inr (by omega)

theorem object_lt (hC : Sized A C) (hp : p ∈ pages) (hx : x ∈ p.objects A C) :
    x ≠ 0 ∧ x < A.limit := by
  have hpos := hC.pos
  obtain ⟨hlo, hhi⟩ := h.object hp hx
  obtain ⟨hzero, hend⟩ := h.within p hp
  omega

/-- Changes that leave the pages where they are. -/
theorem setPage {a : ℕ} {f : Page → Page} (haddr : ∀ p, (f p).addr = p.addr)
    (hcapacity : ∀ p, (f p).capacity = p.capacity) : Apart A C (setPage a f pages) := by
  have hsame (p : Page) : (if p.addr = a then f p else p).addr = p.addr ∧
      (if p.addr = a then f p else p).capacity = p.capacity := by
    split_ifs
    · exact ⟨haddr p, hcapacity p⟩
    · exact ⟨rfl, rfl⟩
  refine ⟨fun p hp => ?_, fun p hp => ?_, pairwise_map.mpr (h.apart.imp fun hsep => ?_)⟩
  · obtain ⟨q, hq, rfl⟩ := mem_map.mp hp
    rw [(hsame q).1]
    exact h.within q hq
  · obtain ⟨q, hq, rfl⟩ := mem_map.mp hp
    rw [(hsame q).2]
    exact h.capacity q hq
  · rwa [(hsame _).1, (hsame _).1]

end Apart

end Geometry

section FreeLists

variable {A : Arch} {C : Cache} {mem mem' : Bytes} {a x : ℕ} {l : List ℕ}

/-- The free list from `a` on, linked through the first words of its objects. -/
def FreeChain (A : Arch) (mem : Bytes) : ℕ → List ℕ → Prop
  | a, [] => a = 0
  | a, x :: l => a = x ∧ x ≠ 0 ∧ FreeChain A mem ((wordCodec A).read mem x) l

theorem FreeChain.congr (h : FreeChain A mem a l)
    (hread : ∀ x ∈ l, (wordCodec A).read mem' x = (wordCodec A).read mem x) :
    FreeChain A mem' a l := by
  induction l generalizing a with
  | nil => exact h
  | cons x l ih =>
    obtain ⟨hx, hzero, hrest⟩ := h
    refine ⟨hx, hzero, ?_⟩
    rw [hread x mem_cons_self]
    exact ih hrest fun y hy => hread y (mem_cons_of_mem _ hy)

theorem FreeChain.head_mem (h : FreeChain A mem a l) (ha : a ≠ 0) :
    ∃ l', l = a :: l' ∧ FreeChain A mem ((wordCodec A).read mem a) l' := by
  cases l with
  | nil => exact absurd h ha
  | cons x l =>
    obtain ⟨rfl, -, hrest⟩ := h
    exact ⟨l, rfl, hrest⟩

/-- The loop of `slab_page_create` links the objects, the last one first, and stores into them only. -/
theorem linkObjects_chain {first : ℕ} (mem : Bytes) (hC : Sized A C) (hfirst : first ≠ 0) {n : ℕ}
    (hend : first + n * C.objectSize ≤ A.limit) :
    FreeChain A (linkObjects A C first mem n).1 (linkObjects A C first mem n).2
        ((List.range n).map fun k => first + k * C.objectSize).reverse ∧
      ∀ x, x < first ∨ first + n * C.objectSize ≤ x → (linkObjects A C first mem n).1 x = mem x := by
  have hpos := hC.pos
  have hword := hC.word
  induction n with
  | zero => exact ⟨rfl, fun _ _ => rfl⟩
  | succ n ih =>
    rw [Nat.succ_mul] at hend ⊢
    obtain ⟨hchain, hframe⟩ := ih (by omega)
    rw [range_succ, map_append, reverse_append]
    refine ⟨⟨rfl, Nat.ne_of_gt (Nat.add_pos_left (Nat.pos_of_ne_zero hfirst) _), ?_⟩,
      fun x hx => ?_⟩
    · have hhead : (linkObjects A C first mem n).2 < 256 ^ A.word := by
        cases n with
        | zero => exact Nat.pow_pos (by decide)
        | succ n =>
          rw [Nat.succ_mul] at hend
          show first + n * C.objectSize < A.limit
          omega
      rw [linkObjects, (wordCodec A).read_write_self hhead]
      refine hchain.congr fun y hy => (wordCodec A).read_write (.inr ?_)
      obtain ⟨k, hk, rfl⟩ := mem_map.mp (mem_reverse.mp hy)
      have := Nat.mul_le_mul_right C.objectSize (Nat.succ_le_of_lt (mem_range.mp hk))
      rw [Nat.succ_mul] at this
      show first + k * C.objectSize + A.word ≤ first + n * C.objectSize
      omega
    · rw [← hframe x (by omega)]
      exact put_outside (by show x < _ ∨ _ + A.word ≤ x; omega)

end FreeLists

end Tach.Slabs
