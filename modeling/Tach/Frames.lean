import Mathlib

/-!
The frame allocator of pmm.c and the memory it manages. A frame is named by its number, the
physical address divided by 4096; the source hands out addresses and uses 0, frame 0, for a
failed allocation. `Machine` adds the contents of the frames, which the kernel reads and writes
through their physical addresses. `ram f i` is entry `i` of frame `f` where it is a page table,
and byte `i` where it is not; a frame is cleared or copied as a whole before it changes its role.
-/

namespace Tach.Frames

open Function Finset

def pageSize : ℕ := 4096

/-- `PMM_MAX_PHYS_ADDR`. -/
def maxPhysAddr : ℕ := 0x100000000

def maxFrames : ℕ := 0x100000

/-- `PMM_REF_SATURATED`. -/
def refSaturated : ℕ := 0xff

structure Pmm where
  used : ℕ → Bool
  refs : ℕ → ℕ
  limit : ℕ
  searchStart : ℕ
  freePages : ℕ
  totalPages : ℕ

namespace Pmm

/-- `frame_set_used`. -/
def setUsed (p : Pmm) (f : ℕ) : Pmm :=
  { p with
    used := update p.used f true
    freePages := if p.used f then p.freePages else p.freePages - 1
    refs := if p.refs f = 0 then update p.refs f 1 else p.refs }

/-- `frame_set_free`. -/
def setFree (p : Pmm) (f : ℕ) : Pmm :=
  { p with
    used := update p.used f false
    freePages := if p.used f then p.freePages + 1 else p.freePages
    refs := update p.refs f 0 }

/-- The first free frame among the `n` frames from `f` on. -/
def firstFree (p : Pmm) : ℕ → ℕ → Option ℕ
  | 0, _ => none
  | n + 1, f => if p.used f = false then some f else p.firstFree n (f + 1)

def take (p : Pmm) (f : ℕ) : Pmm :=
  { p.setUsed f with refs := update (p.setUsed f).refs f 1, searchStart := f + 1 }

/-- `pmm_alloc_frame`: from the last allocation on, then from frame 1. -/
def allocFrame (p : Pmm) : Option (ℕ × Pmm) :=
  match p.firstFree (p.limit - p.searchStart) p.searchStart with
  | some f => some (f, p.take f)
  | none =>
    match p.firstFree (p.searchStart - 1) 1 with
    | some f => some (f, p.take f)
    | none => none

/-- `pmm_retain_frame`. -/
def retainFrame (p : Pmm) (f : ℕ) : Option Pmm :=
  if f = 0 ∨ p.limit ≤ f then none
  else if p.used f ∧ p.refs f ≠ 0 ∧ p.refs f ≠ refSaturated then
    some { p with refs := update p.refs f (p.refs f + 1) }
  else none

/-- `pmm_free_frame`. -/
def freeFrame (p : Pmm) (f : ℕ) : Pmm :=
  if f = 0 ∨ p.limit ≤ f then p
  else if p.used f ∧ p.refs f ≠ 0 then
    if p.refs f = 1 then
      { p.setFree f with searchStart := if f < p.searchStart then f else p.searchStart }
    else { p with refs := update p.refs f (p.refs f - 1) }
  else p

/-- `pmm_frame_refcount`. -/
def frameRefcount (p : Pmm) (f : ℕ) : ℕ := if f = 0 ∨ p.limit ≤ f then 0 else p.refs f

/-- The loop of `pmm_alloc_aligned_pages`: the first frame of the first run of `count` free
frames that starts on the alignment, a power of two. -/
def findRun (p : Pmm) (count alignment : ℕ) : ℕ → ℕ → ℕ → ℕ → Option ℕ
  | 0, _, _, _ => none
  | n + 1, f, run, first =>
    if run = 0 ∧ f &&& (alignment - 1) ≠ 0 then p.findRun count alignment n (f + 1) run first
    else if p.used f = false then
      if run + 1 = count then some (if run = 0 then f else first)
      else p.findRun count alignment n (f + 1) (run + 1) (if run = 0 then f else first)
    else p.findRun count alignment n (f + 1) 0 first

/-- The frames from `first` on are handed out. -/
def takeRun (p : Pmm) (first : ℕ) : ℕ → Pmm
  | 0 => p
  | n + 1 => (p.takeRun first n).take (first + n)

/-- `pmm_alloc_aligned_pages`. -/
def allocAlignedPages (p : Pmm) (count alignment : ℕ) : Option (ℕ × Pmm) :=
  if count = 0 ∨ alignment = 0 then none
  else
    match p.findRun count alignment (p.limit - 1) 1 0 0 with
    | some first => some (first, p.takeRun first count)
    | none => none

def allocPages (p : Pmm) (count : ℕ) : Option (ℕ × Pmm) := p.allocAlignedPages count 1

/-- `pmm_free_pages`. -/
def freePagesFrom (p : Pmm) (first count : ℕ) : Pmm :=
  (List.range count).foldl (fun q i => q.freeFrame (first + i)) p

end Pmm

/-- A region of the memory map; `usable` is `type == MEM_REGION_USABLE`. -/
structure Region where
  base : ℕ
  size : ℕ
  usable : Bool
  deriving DecidableEq

/-- The end of a region, with the wrap-around of `uint64_t` and the bound of the allocator. -/
def regionEnd (base size : ℕ) : ℕ :=
  if (base + size) % 2 ^ 64 < base ∨ maxPhysAddr < (base + size) % 2 ^ 64 then maxPhysAddr
  else (base + size) % 2 ^ 64

def markRange (set : Pmm → ℕ → Pmm) (p : Pmm) (first last : ℕ) : Pmm :=
  (List.range' first (last - first)).foldl set p

/-- `region_first_frame`, with the wrap-around of `uint64_t`. -/
def firstFrame (start : ℕ) : ℕ := (start + pageSize - 1) % 2 ^ 64 / pageSize

/-- `pmm_mark_region_free`: the frames that lie in the region. -/
def markRegionFree (p : Pmm) (start size : ℕ) : Pmm :=
  markRange Pmm.setFree p (firstFrame start) (min (regionEnd start size / pageSize) p.limit)

/-- `pmm_mark_region_used`: the frames that meet the region. -/
def markRegionUsed (p : Pmm) (start size : ℕ) : Pmm :=
  markRange Pmm.setUsed p (start / pageSize)
    (min ((regionEnd start size + pageSize - 1) / pageSize) p.limit)

/-- `pmm_init` for pointers of `bits` bits and a kernel image at `kernelStart`: the arguments
of the marking calls are cut to the width of a pointer. -/
def pmmInit (bits kernelStart kernelEnd : ℕ) (map : List Region) : Pmm :=
  let limit := map.foldl (fun l r => max l (regionEnd r.base r.size / pageSize)) 0
  let cut := fun n => n % 2 ^ bits
  let p₀ : Pmm := ⟨fun _ => true, fun _ => 0, min limit maxFrames, 1, 0, 0⟩
  let p₁ := (map.filter fun r => r.usable).foldl
    (fun p r => markRegionFree p (cut r.base) (cut r.size)) p₀
  let p₂ := (map.filter fun r => !r.usable).foldl
    (fun p r => markRegionUsed p (cut r.base) (cut r.size)) p₁
  let p₃ := markRegionUsed (markRegionUsed p₂ 0 pageSize) 0x8000 pageSize
  let p₄ := markRegionUsed p₃ kernelStart (kernelEnd - kernelStart)
  { p₄ with totalPages := p₄.freePages }

/-- The allocator and the words of all frames. -/
structure Machine where
  pmm : Pmm
  ram : ℕ → ℕ → ℕ

namespace Machine

def setWord (m : Machine) (f i x : ℕ) : Machine :=
  { m with ram := update m.ram f (update (m.ram f) i x) }

def setFrame (m : Machine) (f : ℕ) (page : ℕ → ℕ) : Machine :=
  { m with ram := update m.ram f page }

/-- `allocate_table`, and the zeroed frame of `vmm_map_allocated`. -/
def allocZeroed (m : Machine) : Option (ℕ × Machine) :=
  match m.pmm.allocFrame with
  | none => none
  | some (f, p) => some (f, { m with pmm := p }.setFrame f fun _ => 0)

def freeFrame (m : Machine) (f : ℕ) : Machine := { m with pmm := m.pmm.freeFrame f }

@[simp] theorem setWord_ram_self (m : Machine) (f i x : ℕ) : (m.setWord f i x).ram f i = x := by
  simp only [setWord, update_self]

@[simp] theorem freeFrame_ram (m : Machine) (f : ℕ) : (m.freeFrame f).ram = m.ram := rfl

@[simp] theorem freeFrame_pmm (m : Machine) (f : ℕ) : (m.freeFrame f).pmm = m.pmm.freeFrame f := rfl

end Machine

section Specs

variable {p p' : Pmm} {f g n : ℕ}

/-- The allocator counts its free frames, which lie below the last frame it can manage. -/
structure Pmm.Counted (p : Pmm) : Prop where
  bound : ∀ f, p.used f = false → f < maxFrames
  count : p.freePages = ((Finset.range maxFrames).filter fun f => p.used f = false).card

/-- One frame is marked, and the number of free frames follows. -/
theorem Pmm.Counted.set {b : Bool} (h : p.Counted) (hf : b = false → f < maxFrames)
    (hused : p'.used = update p.used f b)
    (hfree : p'.freePages = p.freePages + (!b).toNat - (!p.used f).toNat) : p'.Counted := by
  have hbound : ∀ g, p'.used g = false → g < maxFrames := by
    intro g hg
    by_cases hgf : g = f
    · rw [hused, hgf, update_self] at hg
      exact hgf ▸ hf hg
    · rw [hused, update_of_ne hgf] at hg
      exact h.bound g hg
  have hcard (q : Pmm) (hq : q.used f = false → f < maxFrames) :
      ((range maxFrames).filter fun g => q.used g = false).card = (!q.used f).toNat +
        (((range maxFrames).filter fun g => q.used g = false).erase f).card := by
    cases hqf : q.used f with
    | false =>
      rw [← card_erase_add_one (a := f) (by simp [hqf, hq hqf]), Nat.add_comm]
      rfl
    | true =>
      rw [erase_eq_of_notMem (by simp [hqf])]
      exact (Nat.zero_add _).symm
  have hothers : ((range maxFrames).filter fun g => p'.used g = false).erase f =
      ((range maxFrames).filter fun g => p.used g = false).erase f := by
    ext g
    by_cases hgf : g = f <;> simp [hused, hgf]
  have hold := hcard p (h.bound f)
  refine ⟨hbound, ?_⟩
  rw [hcard p' (hbound f), hothers, hfree, h.count, hold, hused, update_self]
  omega

theorem Pmm.Counted.setFree (h : p.Counted) (hf : f < maxFrames) : (p.setFree f).Counted :=
  h.set (fun _ => hf) rfl (by cases hused : p.used f <;> simp [Pmm.setFree, hused])

theorem Pmm.Counted.setUsed (h : p.Counted) (f : ℕ) : (p.setUsed f).Counted :=
  h.set (b := true) nofun rfl (by cases hused : p.used f <;> simp [Pmm.setUsed, hused])

/-- Free frames are counted, have no references and lie between frame 1 and the limit. -/
structure Pmm.Sound (p : Pmm) : Prop where
  free : ∀ f, p.used f = false → p.refs f = 0 ∧ 1 ≤ f ∧ f < p.limit
  start : 1 ≤ p.searchStart
  limit : p.limit ≤ maxFrames
  counted : p.Counted

/-- A frame is handed out: it was free, and it is the only one to change. -/
structure Takes (p : Pmm) (f : ℕ) (p' : Pmm) : Prop where
  free : p.used f = false
  used : p'.used = update p.used f true
  refs : p'.refs = update p.refs f 1
  limit : p'.limit = p.limit
  start : p'.searchStart = f + 1
  counted : p.Counted → p'.Counted
  few : p.freePages ≤ p'.freePages + 1

open Pmm

theorem firstFree_spec (h : p.firstFree n g = some f) : p.used f = false ∧ g ≤ f ∧ f < g + n := by
  induction n generalizing g with
  | zero => cases h
  | succ n ih =>
    simp only [firstFree] at h
    split at h
    · rename_i hused
      cases h
      exact ⟨hused, by omega, by omega⟩
    · obtain ⟨hused, hle, hlt⟩ := ih h
      exact ⟨hused, by omega, by omega⟩

theorem firstFree_none (h : p.firstFree n g = none) (hle : g ≤ f) (hlt : f < g + n) :
    p.used f = true := by
  induction n generalizing g with
  | zero => omega
  | succ n ih =>
    simp only [firstFree] at h
    split_ifs at h with hused
    by_cases hf : f = g
    · rw [hf]
      exact Bool.of_not_eq_false hused
    · exact ih h (by omega) (by omega)

theorem takes_take (h : p.used f = false) : Takes p f (p.take f) := by
  refine ⟨h, rfl, ?_, rfl, rfl, fun hc => ⟨(hc.setUsed f).bound, (hc.setUsed f).count⟩, ?_⟩
  swap
  · simp only [take, Pmm.setUsed, h, Bool.false_eq_true, if_false]
    omega
  funext g
  simp only [take, Pmm.setUsed]
  by_cases hg : g = f
  · simp [hg]
  · simp only [update_of_ne hg]
    split
    · rw [update_of_ne hg]
    · rfl

theorem allocFrame_takes (h : p.allocFrame = some (f, p')) : Takes p f p' := by
  unfold allocFrame at h
  split at h
  · rename_i g hg
    cases h
    exact takes_take (firstFree_spec hg).1
  · split at h
    · rename_i g hg
      cases h
      exact takes_take (firstFree_spec hg).1
    · cases h

/-- An allocation fails only when no frame is free. -/
theorem allocFrame_none (hs : p.Sound) (h : p.allocFrame = none) : p.used f = true := by
  unfold allocFrame at h
  split at h
  · cases h
  · rename_i hhigh
    split at h
    · cases h
    · rename_i hlow
      by_contra hfree
      obtain ⟨-, hpos, hlt⟩ := hs.free f (Bool.of_not_eq_true hfree)
      by_cases hf : p.searchStart ≤ f
      · exact hfree (firstFree_none hhigh hf (by omega))
      · exact hfree (firstFree_none hlow hpos (by omega))

theorem freePages_of_none (hs : p.Sound) (h : p.allocFrame = none) : p.freePages = 0 := by
  rw [hs.counted.count, card_eq_zero, filter_eq_empty_iff]
  intro f _
  rw [allocFrame_none hs h]
  nofun

theorem Takes.sound (h : Takes p f p') (hs : p.Sound) : p'.Sound := by
  refine ⟨fun g hg => ?_, by rw [h.start]; omega, by rw [h.limit]; exact hs.limit,
    h.counted hs.counted⟩
  rw [h.used] at hg
  by_cases hgf : g = f
  · simp [hgf] at hg
  · rw [update_of_ne hgf] at hg
    rw [h.refs, update_of_ne hgf, h.limit]
    exact hs.free g hg

/-- One reference less; the frame is free when there was only one. -/
theorem freeFrame_spec (hf : f ≠ 0) (hlimit : f < p.limit) (hused : p.used f = true)
    (hrefs : p.refs f ≠ 0) : (p.freeFrame f).refs = update p.refs f (p.refs f - 1) ∧
      (p.freeFrame f).used = update p.used f (p.refs f ≠ 1) ∧ (p.freeFrame f).limit = p.limit := by
  have hcond : ¬(f = 0 ∨ p.limit ≤ f) := by omega
  unfold freeFrame
  rw [if_neg hcond, if_pos ⟨hused, hrefs⟩]
  split
  · rename_i hone
    exact ⟨by simp [Pmm.setFree, hone], by simp [Pmm.setFree, hone], rfl⟩
  · rename_i hone
    refine ⟨rfl, ?_, rfl⟩
    simp only [hone, ne_eq, not_false_eq_true, decide_true]
    rw [← hused, update_eq_self]

theorem freeFrame_limit (p : Pmm) (f : ℕ) : (p.freeFrame f).limit = p.limit := by
  unfold freeFrame
  split_ifs <;> rfl

theorem freeFrame_freePages (p : Pmm) (f : ℕ) :
    p.freePages ≤ (p.freeFrame f).freePages ∧ (p.freeFrame f).freePages ≤ p.freePages + 1 := by
  unfold freeFrame
  split
  · exact ⟨le_rfl, Nat.le_succ _⟩
  · split
    · split
      · simp only [Pmm.setFree]
        split
        · exact ⟨Nat.le_succ _, le_rfl⟩
        · exact ⟨le_rfl, Nat.le_succ _⟩
      · exact ⟨le_rfl, Nat.le_succ _⟩
    · exact ⟨le_rfl, Nat.le_succ _⟩

theorem freeFrame_other (p : Pmm) (hg : g ≠ f) :
    (p.freeFrame f).refs g = p.refs g ∧ (p.freeFrame f).used g = p.used g := by
  unfold freeFrame
  split
  · exact ⟨rfl, rfl⟩
  · split
    · split
      · simp [Pmm.setFree, hg]
      · simp [hg]
    · exact ⟨rfl, rfl⟩

theorem freeFrame_sound (hs : p.Sound) (f : ℕ) : (p.freeFrame f).Sound := by
  unfold freeFrame
  split
  · exact hs
  · rename_i hrange
    split
    · rename_i hused
      split
      · have hcount := hs.counted.setFree (f := f) (by have := hs.limit; omega)
        refine ⟨fun g hg => ?_, ?_, hs.limit, hcount.bound, hcount.count⟩
        · by_cases hgf : g = f
          · simp only [Pmm.setFree, hgf, update_self]
            exact ⟨trivial, by omega, by omega⟩
          · simp only [Pmm.setFree, update_of_ne hgf] at hg ⊢
            exact hs.free g hg
        · have := hs.start
          simp only
          split
          · omega
          · exact this
      · refine ⟨fun g hg => ?_, hs.start, hs.limit, hs.counted.bound, hs.counted.count⟩
        by_cases hgf : g = f
        · rw [hgf] at hg
          rw [hused.1] at hg
          cases hg
        · simp only [update_of_ne hgf]
          exact hs.free g hg
    · exact hs

end Specs

end Tach.Frames
