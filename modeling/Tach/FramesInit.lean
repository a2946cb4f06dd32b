import Tach.Frames

/-!
The picture of memory with which the frame allocator starts. `pmm_init` clears the frames of the
usable regions and marks, after that, the frames of all other regions and of what the kernel
keeps for itself; so a frame is free when some usable region was counted as holding it and no
other one as meeting it. What a region was counted as is exact up to the conversions of its base
and size to the word of the target, and to the rounding of its base.
-/

namespace Tach.Frames

open Function List

section Marks

variable {p : Pmm} {set : Pmm → ℕ → Pmm}

theorem markRange_used {b : Bool}
    (hset : ∀ p g, (set p g).used = update p.used g b) (p : Pmm) (first last f : ℕ) :
    (markRange set p first last).used f = if first ≤ f ∧ f < last then b else p.used f := by
  have hfold : ∀ (l : List ℕ) (p : Pmm),
      (l.foldl set p).used f = if f ∈ l then b else p.used f := by
    intro l
    induction l with
    | nil => simp
    | cons g l ih =>
      intro p
      rw [foldl_cons, ih, hset]
      by_cases hg : f = g
      · simp [hg]
      · simp [hg]
  have hmem : f ∈ List.range' first (last - first) ↔ first ≤ f ∧ f < last := by
    rw [mem_range'_1]
    omega
  rw [markRange, hfold]
  simp only [hmem]

/-- The allocator before its first call. -/
structure Pmm.Marked (p : Pmm) : Prop where
  counted : p.Counted
  refs : ∀ f, p.refs f ≤ 1 ∧ (p.used f = false → p.refs f = 0)
  start : p.searchStart = 1

theorem Pmm.Marked.setFree (h : p.Marked) {f : ℕ} (hf : f < maxFrames) : (p.setFree f).Marked := by
  refine ⟨h.counted.setFree hf, fun g => ?_, h.start⟩
  by_cases hg : g = f
  · simp [hg, Pmm.setFree]
  · simpa [hg, Pmm.setFree] using h.refs g

theorem Pmm.Marked.setUsed (h : p.Marked) (f : ℕ) : (p.setUsed f).Marked := by
  refine ⟨h.counted.setUsed f, fun g => ?_, h.start⟩
  have hrefs := h.refs g
  by_cases hg : g = f
  · rw [hg] at hrefs ⊢
    by_cases hzero : p.refs f = 0
    · simp [Pmm.setUsed, hzero]
    · simp [Pmm.setUsed, hzero, hrefs.1]
  · simp only [Pmm.setUsed, update_of_ne hg]
    split
    · rwa [update_of_ne hg]
    · exact hrefs

structure MarkKeeps (p q : Pmm) : Prop where
  limit : q.limit = p.limit
  marked : p.limit ≤ maxFrames → p.Marked → q.Marked

theorem MarkKeeps.trans {q r : Pmm} (h : MarkKeeps p q) (h' : MarkKeeps q r) : MarkKeeps p r :=
  ⟨h'.limit.trans h.limit, fun hl hc => h'.marked (h.limit ▸ hl) (h.marked hl hc)⟩

theorem markRange_keeps (hlimit : ∀ p g, (set p g).limit = p.limit)
    (hset : ∀ p g, p.Marked → g < maxFrames → (set p g).Marked) {first last : ℕ}
    (hlast : last ≤ p.limit) : MarkKeeps p (markRange set p first last) := by
  have hfold : ∀ (l : List ℕ) (p : Pmm), (∀ g ∈ l, g < maxFrames) → p.Marked →
      (l.foldl set p).Marked := by
    intro l
    induction l with
    | nil => exact fun _ _ hp => hp
    | cons g l ih =>
      intro p hl hp
      exact ih (set p g) (fun h hh => hl h (mem_cons_of_mem g hh))
        (hset p g hp (hl g mem_cons_self))
  refine ⟨?_, fun hl hc => hfold _ _ (fun g hg => ?_) hc⟩
  · have hfoldLimit : ∀ (l : List ℕ) (p : Pmm), (l.foldl set p).limit = p.limit := by
      intro l
      induction l with
      | nil => exact fun _ => rfl
      | cons g l ih => exact fun p => (ih (set p g)).trans (hlimit p g)
    exact hfoldLimit _ p
  · have hrange := mem_range'_1.mp hg
    omega

end Marks

section Regions

variable {p : Pmm} {f : ℕ}

/-- The frames that `pmm_mark_region_free` clears for a region, below the limit. -/
def CountedFree (bits : ℕ) (r : Region) (f : ℕ) : Prop :=
  firstFrame (r.base % 2 ^ bits) ≤ f ∧
    f < regionEnd (r.base % 2 ^ bits) (r.size % 2 ^ bits) / pageSize

/-- The frames that `pmm_mark_region_used` marks for a region, below the limit. -/
def CountedUsed (bits : ℕ) (r : Region) (f : ℕ) : Prop :=
  r.base % 2 ^ bits / pageSize ≤ f ∧
    f < (regionEnd (r.base % 2 ^ bits) (r.size % 2 ^ bits) + pageSize - 1) / pageSize

theorem markRegionFree_keeps (p : Pmm) (start size : ℕ) :
    MarkKeeps p (markRegionFree p start size) := by
  have hlimit : ∀ (p : Pmm) (g : ℕ), (p.setFree g).limit = p.limit := fun _ _ => rfl
  exact markRange_keeps hlimit (fun _ _ h hg => h.setFree hg) (Nat.min_le_right _ _)

theorem markRegionUsed_keeps (p : Pmm) (start size : ℕ) :
    MarkKeeps p (markRegionUsed p start size) := by
  have hlimit : ∀ (p : Pmm) (g : ℕ), (p.setUsed g).limit = p.limit := fun _ _ => rfl
  exact markRange_keeps hlimit (fun _ g h _ => h.setUsed g) (Nat.min_le_right _ _)

theorem markRegionFree_used (p : Pmm) (start size f : ℕ) :
    (markRegionFree p start size).used f = false ↔ p.used f = false ∨
      (firstFrame start ≤ f ∧ f < regionEnd start size / pageSize) ∧ f < p.limit := by
  rw [markRegionFree, markRange_used fun _ _ => rfl]
  simp only [Nat.lt_min, ← and_assoc]
  by_cases hin : (firstFrame start ≤ f ∧ f < regionEnd start size / pageSize) ∧ f < p.limit
  · simp [hin]
  · simp [hin]

theorem markRegionUsed_used (p : Pmm) (start size f : ℕ) :
    (markRegionUsed p start size).used f = false ↔ p.used f = false ∧
      ¬((start / pageSize ≤ f ∧ f < (regionEnd start size + pageSize - 1) / pageSize) ∧
        f < p.limit) := by
  rw [markRegionUsed, markRange_used fun _ _ => rfl]
  simp only [Nat.lt_min, ← and_assoc]
  by_cases hin : (start / pageSize ≤ f ∧ f < (regionEnd start size + pageSize - 1) / pageSize) ∧
      f < p.limit
  · simp [hin]
  · simp [hin]

/-- A pass of `pmm_init` over regions, which gives frames the state `v`. -/
theorem foldMark_spec {bits : ℕ} {mark : Pmm → ℕ → ℕ → Pmm} (v : Bool) (C : Region → Prop)
    (hkeeps : ∀ p start size, MarkKeeps p (mark p start size))
    (hmark : ∀ p r, (mark p (r.base % 2 ^ bits) (r.size % 2 ^ bits)).used f = v ↔
      p.used f = v ∨ C r ∧ f < p.limit) (l : List Region) (p : Pmm) :
    let q := l.foldl (fun p r => mark p (r.base % 2 ^ bits) (r.size % 2 ^ bits)) p
    MarkKeeps p q ∧ (q.used f = v ↔ p.used f = v ∨ (∃ r ∈ l, C r) ∧ f < p.limit) := by
  induction l generalizing p with
  | nil => exact ⟨⟨rfl, fun _ h => h⟩, by simp⟩
  | cons r l ih =>
    have hfirst := hkeeps p (r.base % 2 ^ bits) (r.size % 2 ^ bits)
    obtain ⟨hrest, hused⟩ := ih (mark p (r.base % 2 ^ bits) (r.size % 2 ^ bits))
    refine ⟨hfirst.trans hrest, ?_⟩
    rw [foldl_cons, hused, hmark, hfirst.limit, or_assoc, ← or_and_right, exists_mem_cons_iff]

end Regions

section Picture

/-- All bytes of the frame are in the region. -/
def Region.Contains (r : Region) (f : ℕ) : Prop :=
  r.base ≤ f * pageSize ∧ (f + 1) * pageSize ≤ r.base + r.size

def Region.Meets (r : Region) (f : ℕ) : Prop :=
  r.base < (f + 1) * pageSize ∧ f * pageSize < r.base + r.size

/-- The frames that the kernel keeps: frame 0, the page in which the other CPUs start, and its
own image. -/
def Kept (kernelStart kernelEnd f : ℕ) : Prop :=
  f = 0 ∨ f = 8 ∨ kernelStart < (f + 1) * pageSize ∧ f * pageSize < kernelEnd

/-- The regions that `hal_memmap_add` stores. -/
def Region.Stored (r : Region) : Prop := 0 < r.size ∧ r.base + r.size < 2 ^ 64

def frameLimit (map : List Region) : ℕ :=
  min (map.foldl (fun l r => max l (regionEnd r.base r.size / pageSize)) 0) maxFrames

theorem lt_frameLimit {map : List Region} {r : Region} {f : ℕ} (hr : r ∈ map)
    (hf : f < regionEnd r.base r.size / pageSize) (hmax : f < maxFrames) : f < frameLimit map := by
  have hle : ∀ (l : List Region) (n : ℕ), n ≤ l.foldl
      (fun l r => max l (regionEnd r.base r.size / pageSize)) n := by
    intro l
    induction l with
    | nil => exact fun n => Nat.le_refl n
    | cons a l ih => exact fun n => (Nat.le_max_left _ _).trans (ih _)
  have hfold : ∀ (l : List Region) (n : ℕ), r ∈ l → f < l.foldl
      (fun l r => max l (regionEnd r.base r.size / pageSize)) n := by
    intro l
    induction l with
    | nil => exact fun _ h => absurd h not_mem_nil
    | cons a l ih =>
      intro n hmem
      rcases mem_cons.mp hmem with heq | hmem
      · rw [← heq]
        exact hf.trans_le ((Nat.le_max_right _ _).trans (hle l _))
      · exact ih _ hmem
  exact Nat.lt_min.mpr ⟨hfold map 0 hr, hmax⟩

variable {bits kernelStart kernelEnd : ℕ} {map : List Region}

/-- The state of `pmm_init` between its passes over the map and the marks for the kernel. -/
theorem pmmInit_passes (bits : ℕ) (map : List Region) (f : ℕ) :
    ∃ p : Pmm, p.limit = frameLimit map ∧ p.Marked ∧
      (p.used f = false ↔ f < frameLimit map ∧ (∃ r ∈ map, r.usable = true ∧ CountedFree bits r f) ∧
        ∀ r ∈ map, r.usable = false → ¬CountedUsed bits r f) ∧
      ∀ kernelStart kernelEnd, pmmInit bits kernelStart kernelEnd map =
        let q := markRegionUsed (markRegionUsed (markRegionUsed p 0 pageSize) 0x8000 pageSize)
          kernelStart (kernelEnd - kernelStart)
        { q with totalPages := q.freePages } := by
  let p₀ : Pmm := ⟨fun _ => true, fun _ => 0, frameLimit map, 1, 0, 0⟩
  obtain ⟨hkeeps₁, hused₁⟩ := foldMark_spec false (CountedFree bits · f) markRegionFree_keeps
    (fun p r => markRegionFree_used p _ _ f) (map.filter fun r => r.usable) p₀
  obtain ⟨hkeeps₂, hused₂⟩ := foldMark_spec true (CountedUsed bits · f) markRegionUsed_keeps
    (fun p r => by
      rw [← Bool.not_eq_false, markRegionUsed_used, not_and_not_right, ← Bool.not_eq_false,
        imp_iff_not_or]
      rfl) (map.filter fun r => !r.usable)
    ((map.filter fun r => r.usable).foldl
      (fun p r => markRegionFree p (r.base % 2 ^ bits) (r.size % 2 ^ bits)) p₀)
  have hkeeps := hkeeps₁.trans hkeeps₂
  have hmarked₀ : p₀.Marked := ⟨⟨nofun, by simp [p₀]⟩, fun _ => ⟨Nat.zero_le _, nofun⟩, rfl⟩
  refine ⟨_, hkeeps.limit, hkeeps.marked (Nat.min_le_right _ _) hmarked₀, ?_, fun _ _ => rfl⟩
  rw [← Bool.not_eq_true, hused₂, hkeeps₁.limit, not_or, Bool.not_eq_true, hused₁]
  have hp₀ : p₀.used f = true := rfl
  have hlimit₀ : p₀.limit = frameLimit map := rfl
  simp only [hp₀, hlimit₀, Bool.true_eq_false, false_or, mem_filter, Bool.not_eq_true',
    and_assoc]
  constructor
  · intro ⟨hfree, hf, hrest⟩
    exact ⟨hf, hfree, fun r hr hu hc => hrest ⟨⟨r, hr, hu, hc⟩, hf⟩⟩
  · intro ⟨hf, hfree, hrest⟩
    exact ⟨hfree, hf, fun ⟨⟨r, hr, hu, hc⟩, _⟩ => hrest r hr hu hc⟩

theorem pmmInit_free (hk : kernelStart < kernelEnd) (hend : kernelEnd ≤ maxPhysAddr) (f : ℕ) :
    (pmmInit bits kernelStart kernelEnd map).used f = false ↔
      f < frameLimit map ∧ (∃ r ∈ map, r.usable = true ∧ CountedFree bits r f) ∧
        (∀ r ∈ map, r.usable = false → ¬CountedUsed bits r f) ∧ ¬Kept kernelStart kernelEnd f := by
  obtain ⟨p, hlimit, -, hused, hinit⟩ := pmmInit_passes bits map f
  have himage : regionEnd kernelStart (kernelEnd - kernelStart) = kernelEnd := by
    unfold regionEnd maxPhysAddr at *
    rw [if_neg (by omega)]
    omega
  have hmarks : f < frameLimit map →
      (¬(0 / pageSize ≤ f ∧ f < (regionEnd 0 pageSize + pageSize - 1) / pageSize ∧
          f < frameLimit map) ∧
        ¬(0x8000 / pageSize ≤ f ∧ f < (regionEnd 0x8000 pageSize + pageSize - 1) / pageSize ∧
          f < frameLimit map) ∧
        ¬(kernelStart / pageSize ≤ f ∧ f < (kernelEnd + pageSize - 1) / pageSize ∧
          f < frameLimit map) ↔ ¬Kept kernelStart kernelEnd f) := by
    intro hf
    have hzero : regionEnd 0 4096 = 0x1000 := rfl
    have htrampoline : regionEnd 0x8000 4096 = 0x9000 := rfl
    simp only [Kept, pageSize, hzero, htrampoline]
    omega
  simp only [hinit, markRegionUsed_used, (markRegionUsed_keeps _ _ _).limit, hlimit, hused, himage,
    and_assoc]
  constructor
  · intro ⟨hf, hfree, hrest, hkept⟩
    exact ⟨hf, hfree, hrest, (hmarks hf).mp hkept⟩
  · intro ⟨hf, hfree, hrest, hkept⟩
    exact ⟨hf, hfree, hrest, (hmarks hf).mpr hkept⟩

theorem pmmInit_marked (bits kernelStart kernelEnd : ℕ) (map : List Region) :
    (pmmInit bits kernelStart kernelEnd map).Marked := by
  obtain ⟨p, hlimit, hmarked, -, hinit⟩ := pmmInit_passes bits map 0
  have hmax : p.limit ≤ maxFrames := hlimit ▸ Nat.min_le_right _ _
  have hkeeps := ((markRegionUsed_keeps p 0 pageSize).trans
    (markRegionUsed_keeps _ 0x8000 pageSize)).trans
    (markRegionUsed_keeps _ kernelStart (kernelEnd - kernelStart))
  have hq := hkeeps.marked hmax hmarked
  rw [hinit]
  exact ⟨⟨hq.counted.bound, hq.counted.count⟩, hq.refs, hq.start⟩

/-- The picture that the map gives: a frame is free when a usable region holds it, no other
region meets it, the kernel does not keep it and the allocator can manage it; and the count of
free frames is right. -/
def SoundPicture (kernelStart kernelEnd : ℕ) (map : List Region) (p : Pmm) : Prop :=
  (∀ f, p.used f = false ↔ (∃ r ∈ map, r.usable = true ∧ r.Contains f) ∧
    (∀ r ∈ map, r.usable = false → ¬r.Meets f) ∧ ¬Kept kernelStart kernelEnd f ∧
    f < maxFrames) ∧
  p.freePages = ((Finset.range maxFrames).filter fun f => p.used f = false).card

/-- The conversions of bases and sizes and the rounding of bases do not change which frames that
the kernel does not keep are usable. -/
def ExactCounts (bits kernelStart kernelEnd : ℕ) (map : List Region) : Prop :=
  ∀ f < maxFrames, ¬Kept kernelStart kernelEnd f →
    ((f < frameLimit map ∧ (∃ r ∈ map, r.usable = true ∧ CountedFree bits r f) ∧
        ∀ r ∈ map, r.usable = false → ¬CountedUsed bits r f) ↔
      (∃ r ∈ map, r.usable = true ∧ r.Contains f) ∧ ∀ r ∈ map, r.usable = false → ¬r.Meets f)

/-- The allocator starts from a sound picture exactly when its counts are exact. -/
theorem pmmInit_sound_iff (hk : kernelStart < kernelEnd) (hend : kernelEnd ≤ maxPhysAddr) :
    SoundPicture kernelStart kernelEnd map (pmmInit bits kernelStart kernelEnd map) ↔
      ExactCounts bits kernelStart kernelEnd map := by
  have hmax : ∀ f, f < frameLimit map → f < maxFrames := fun f hf =>
    hf.trans_le (Nat.min_le_right _ _)
  constructor
  · intro ⟨hfree, _⟩ f hf hkept
    have hiff := (pmmInit_free hk hend f).symm.trans (hfree f)
    constructor
    · intro ⟨hlimit, hin, hout⟩
      obtain ⟨hin', hout', -⟩ := hiff.mp ⟨hlimit, hin, hout, hkept⟩
      exact ⟨hin', hout'⟩
    · intro ⟨hin, hout⟩
      obtain ⟨hlimit, hin', hout', -⟩ := hiff.mpr ⟨hin, hout, hkept, hf⟩
      exact ⟨hlimit, hin', hout'⟩
  · intro hexact
    refine ⟨fun f => ?_, (pmmInit_marked bits kernelStart kernelEnd map).counted.count⟩
    rw [pmmInit_free hk hend]
    constructor
    · intro ⟨hlimit, hin, hout, hkept⟩
      obtain ⟨hin', hout'⟩ := (hexact f (hmax f hlimit) hkept).mp ⟨hlimit, hin, hout⟩
      exact ⟨hin', hout', hkept, hmax f hlimit⟩
    · intro ⟨hin, hout, hkept, hf⟩
      obtain ⟨hlimit, hin', hout'⟩ := (hexact f hf hkept).mpr ⟨hin, hout⟩
      exact ⟨hlimit, hin', hout', hkept⟩

theorem exactCounts_of_fitting (h : ∀ r ∈ map, r.Stored ∧ r.base + pageSize ≤ 2 ^ 64 ∧
    r.base < 2 ^ bits ∧ r.size < 2 ^ bits) : ExactCounts bits kernelStart kernelEnd map := by
  intro f hf _
  -- A region that fits the word and can be rounded up is counted as what it is.
  have hcounts : ∀ r ∈ map, (CountedFree bits r f ↔ r.Contains f) ∧
      (CountedUsed bits r f ↔ r.Meets f) ∧
      (r.Contains f → f < regionEnd r.base r.size / pageSize) := by
    intro r hr
    obtain ⟨⟨hpos, hsum⟩, hround, hbase, hsize⟩ := h r hr
    have hend : regionEnd r.base r.size = min (r.base + r.size) maxPhysAddr := by
      unfold regionEnd
      rw [Nat.mod_eq_of_lt hsum]
      split
      · omega
      · omega
    simp only [CountedFree, CountedUsed, Region.Contains, Region.Meets, Nat.mod_eq_of_lt hbase,
      Nat.mod_eq_of_lt hsize, hend, firstFrame, maxPhysAddr, pageSize, maxFrames] at hf hround ⊢
    omega
  constructor
  · intro ⟨_, ⟨r, hr, husable, hfree⟩, hout⟩
    refine ⟨⟨r, hr, husable, (hcounts r hr).1.mp hfree⟩, fun r hr hother hmeets => ?_⟩
    exact hout r hr hother ((hcounts r hr).2.1.mpr hmeets)
  · intro ⟨⟨r, hr, husable, hin⟩, hout⟩
    refine ⟨lt_frameLimit hr ((hcounts r hr).2.2 hin) hf, ⟨r, hr, husable,
      (hcounts r hr).1.mpr hin⟩, fun r hr hother hused => ?_⟩
    exact hout r hr hother ((hcounts r hr).2.1.mp hused)

def highMap : List Region := [⟨0x100000, 0x3ff00000, true⟩, ⟨0x100000000, 0x40000000, true⟩]

/-- On a 32-bit target the memory above 4 GiB is counted as low memory: the frame of the text
screen is free. -/
theorem pmmInit_high_memory : (∀ r ∈ highMap, r.Stored) ∧
    (pmmInit 32 0x100000 0x200000 highMap).used 0xb8 = false ∧
    ¬SoundPicture 0x100000 0x200000 highMap (pmmInit 32 0x100000 0x200000 highMap) := by
  have hfree : (pmmInit 32 0x100000 0x200000 highMap).used 0xb8 = false := by
    refine (pmmInit_free (by decide) (by decide) 0xb8).mpr ⟨by decide, ?_, ?_, ?_⟩
    · exact ⟨⟨0x100000000, 0x40000000, true⟩, by decide, rfl, by unfold CountedFree; decide⟩
    · simp [highMap]
    · unfold Kept pageSize
      omega
  refine ⟨by unfold Region.Stored; decide, hfree, fun hsound => ?_⟩
  obtain ⟨⟨r, hr, -, hlow, -⟩, -⟩ := (hsound.1 0xb8).mp hfree
  simp only [highMap, mem_cons, not_mem_nil, or_false, pageSize] at hr hlow
  rcases hr with rfl | rfl
  · simp at hlow
  · simp at hlow

/-- The map of a machine with 128 MiB of memory, on a 64-bit target. -/
theorem pmmInit_sound_small : SoundPicture 0x100000 0x200000
    [⟨0, 0x9fc00, true⟩, ⟨0x9fc00, 0x60400, false⟩, ⟨0x100000, 0x7f00000, true⟩]
    (pmmInit 64 0x100000 0x200000
      [⟨0, 0x9fc00, true⟩, ⟨0x9fc00, 0x60400, false⟩, ⟨0x100000, 0x7f00000, true⟩]) := by
  refine (pmmInit_sound_iff (by decide) (by decide)).mpr (exactCounts_of_fitting ?_)
  unfold Region.Stored
  decide

end Picture

end Tach.Frames
