import Tach.ByteBlock
import Tach.FramesInit

/-!
The memory map and the modules that a Multiboot loader hands over: multiboot.c reads them from
the information block, hal/mm.c keeps at most 64 regions, and `kernel_main` gives the map, or the
map of the platform when the block has none, to `pmm_init`.

A parse is given a number of rounds for its loops; a block for which they do not end has no
outcome with any number.
-/

namespace Tach.Multiboot

open List ByteBlock Frames

/-- `HAL_MAX_MEMORY_REGIONS`. -/
def maxRegions : ℕ := 64

/-- `MULTIBOOT_MAX_MODULES`. -/
def maxModules : ℕ := 16

structure Module where
  start : ℕ
  finish : ℕ
  deriving DecidableEq

/-- `g_regions` and `g_modules`. -/
structure Handoff where
  regions : List Region
  modules : List Module
  deriving DecidableEq

namespace Handoff

def empty : Handoff := ⟨[], []⟩

/-- `hal_memmap_add`. -/
def add (h : Handoff) (base size : ℕ) (usable : Bool) : Handoff :=
  if size = 0 ∨ maxRegions ≤ h.regions.length then h
  else
    let size := if (base + size) % 2 ^ 64 < base then 2 ^ 64 - 1 - base else size
    { h with regions := h.regions ++ [⟨base, size, usable⟩] }

/-- `hal_memmap_add` returns 0. -/
def adds (h : Handoff) (size : ℕ) : Bool := size ≠ 0 ∧ h.regions.length < maxRegions

/-- `remember_module`. -/
def remember (h : Handoff) (start finish : ℕ) : Handoff :=
  if finish ≤ start ∨ maxModules ≤ h.modules.length then h
  else { h with modules := h.modules ++ [⟨start, finish⟩] }

/-- The reservation and the record of a module. -/
def module (h : Handoff) (start finish : ℕ) : Handoff :=
  if start < finish then (h.add start (finish - start) false).remember start finish else h

end Handoff

section Source

variable (bits : ℕ) (mem : ℕ → UInt8)

/-- An address, with the wrap-around of `uintptr_t`. -/
def ptr (a : ℕ) : ℕ := a % 2 ^ bits

def u32 (a : ℕ) : ℕ := littleEndian mem a 4

def u64 (a : ℕ) : ℕ := littleEndian mem a 8

/-- An entry of a memory map; the number counts the regions that were added. -/
def entry (base size type : ℕ) (h : Handoff) (regions : ℕ) : Handoff × ℕ :=
  if h.adds size then (h.add base size (type = 1), regions + 1) else (h, regions)

/-- The value of a parser with the hand-off; no value while the loop goes on. -/
abbrev Outcome := Option (ℤ × Handoff)

/-- The loop of `parse_multiboot1` over the memory map; `rest` goes on behind it. -/
def entries1 (finish : ℕ) (rest : ℕ → Handoff → Outcome) :
    ℕ → ℕ → ℕ → Handoff → Outcome
  | 0, _, _, _ => none
  | n + 1, cursor, regions, h =>
    if ptr bits (cursor + 4) ≤ finish then
      let record := ptr bits (u32 mem cursor + 4)
      if record < 24 ∨ finish < ptr bits (cursor + record) then some (-1, h)
      else
        let r := entry (u64 mem (cursor + 4)) (u64 mem (cursor + 12)) (u32 mem (cursor + 20))
          h regions
        entries1 finish rest n (ptr bits (cursor + record)) r.2 r.1
    else rest regions h

/-- The modules of `parse_multiboot1`. -/
def modules1 (table count : ℕ) (h : Handoff) : Handoff :=
  (List.range count).foldl (fun h i =>
    h.module (u32 mem (table + 16 * i)) (u32 mem (table + 16 * i + 4))) h

/-- The end of `parse_multiboot1`. -/
def finish1 (info regions : ℕ) (h : Handoff) : Outcome :=
  if (u32 mem info).testBit 3 then
    let count := u32 mem (info + 20)
    let table := u32 mem (info + 24)
    some (regions, modules1 mem table count (h.add table (ptr bits (count * 16)) false))
  else some (regions, h)

def parseMultiboot1 (rounds info : ℕ) (h : Handoff) : Outcome :=
  let h := h.add info 72 false
  if (u32 mem info).testBit 6 then
    let cursor := u32 mem (info + 48)
    let length := u32 mem (info + 44)
    entries1 bits mem (ptr bits (cursor + length)) (finish1 bits mem info) rounds cursor 0
      (h.add cursor length false)
  else if (u32 mem info).testBit 0 then
    let upper := u32 mem (info + 8) * 1024
    let h := h.add 0 0x100000 false
    if 0 < upper then
      finish1 bits mem info (if h.adds upper then 1 else 0) (h.add 0x100000 upper true)
    else finish1 bits mem info 0 h
  else finish1 bits mem info 0 h

/-- The entries of a memory map tag of `parse_multiboot2`. -/
def entries2 (size finish : ℕ) : ℕ → ℕ → ℕ → Handoff → Option (Handoff × ℕ)
  | 0, _, _, _ => none
  | n + 1, cursor, regions, h =>
    if ptr bits (cursor + size) ≤ finish then
      let r := entry (u64 mem cursor) (u64 mem (cursor + 8)) (u32 mem (cursor + 16)) h regions
      entries2 size finish n (ptr bits (cursor + size)) r.2 r.1
    else some (h, regions)

/-- The loop of `parse_multiboot2` over the tags. -/
def tags2 (rounds finish : ℕ) : ℕ → ℕ → ℕ → Handoff → Outcome
  | 0, _, _, _ => none
  | n + 1, cursor, regions, h =>
    if ptr bits (cursor + 8) ≤ finish then
      let type := u32 mem cursor
      let size := u32 mem (cursor + 4)
      let next := ptr bits (cursor + size + 7) / 8 * 8
      if size < 8 ∨ finish < ptr bits (cursor + size) then some (-1, h)
      else if type = 0 then some (regions, h)
      else if type = 6 then
        if u32 mem (cursor + 8) < 24 then some (-1, h)
        else
          match entries2 bits mem (u32 mem (cursor + 8)) (ptr bits (cursor + size)) rounds
              (ptr bits (cursor + 16)) regions h with
          | none => none
          | some (h, regions) => tags2 rounds finish n next regions h
      else if type = 3 then
        tags2 rounds finish n next regions
          (h.module (u32 mem (cursor + 8)) (u32 mem (cursor + 12)))
      else tags2 rounds finish n next regions h
    else some (regions, h)

def parseMultiboot2 (rounds info : ℕ) (h : Handoff) : Outcome :=
  let total := u32 mem info
  if total < 16 then some (-1, h)
  else
    tags2 bits mem rounds (ptr bits (info + total)) rounds (ptr bits (info + 8)) 0
      (h.add info total false)

def multibootParse (rounds magic info : ℕ) : Outcome :=
  if info = 0 then some (-1, .empty)
  else if magic = 0x2BADB002 then parseMultiboot1 bits mem rounds info .empty
  else if magic = 0x36d76289 then parseMultiboot2 bits mem rounds info .empty
  else some (-1, .empty)

/-- `hal_memmap_use_platform_fallback` on the x86 targets. -/
def platformMap : List Region := [⟨0, 0x100000, false⟩, ⟨0x100000, 0x0ff00000, true⟩]

/-- The map that `kernel_main` gives to `pmm_init`. -/
def bootMap (value : ℤ) (h : Handoff) : List Region := if value ≤ 0 then platformMap else h.regions

/-- The allocator after the boot sequence of `kernel_main`. -/
def bootPmm (kernelStart kernelEnd : ℕ) (value : ℤ) (h : Handoff) : Pmm :=
  pmmInit bits kernelStart kernelEnd (bootMap value h)

end Source

section Modules

def Module.region (m : Module) : Region := ⟨m.start, m.finish - m.start, false⟩

/-- Each module has its reservation, unless the table of regions is full. -/
structure Handoff.Safe (h : Handoff) : Prop where
  room : h.regions.length ≤ maxRegions
  modules : ∀ m ∈ h.modules, m.start < m.finish ∧ m.finish < 2 ^ 32 ∧
    (m.region ∈ h.regions ∨ h.regions.length = maxRegions)

variable {h : Handoff} {finish : ℕ}

theorem safe_empty : Handoff.empty.Safe := ⟨Nat.zero_le _, nofun⟩

theorem Handoff.Safe.add (hs : h.Safe) (base size : ℕ) (usable : Bool) :
    (h.add base size usable).Safe := by
  unfold Handoff.add
  split
  · exact hs
  · rename_i hroom
    refine ⟨by simp only [length_append, length_singleton]; omega, fun m hm => ?_⟩
    obtain ⟨hlt, hbound, hregion⟩ := hs.modules m hm
    refine ⟨hlt, hbound, .inl (mem_append_left _ (hregion.resolve_right ?_))⟩
    omega

theorem Handoff.Safe.module (hs : h.Safe) {start : ℕ} (hbound : finish < 2 ^ 32) :
    (h.module start finish).Safe := by
  unfold Handoff.module
  split
  · rename_i hlt
    have hadd := hs.add start (finish - start) false
    unfold Handoff.remember
    split
    · exact hadd
    · refine ⟨hadd.room, fun m hm => ?_⟩
      rcases mem_append.mp hm with hm | hm
      · exact hadd.modules m hm
      · rw [mem_singleton.mp hm]
        refine ⟨hlt, hbound, ?_⟩
        have hlength := hs.room
        by_cases hfull : h.regions.length = maxRegions
        · refine .inr ?_
          rw [Handoff.add, if_pos (.inr (Nat.le_of_eq hfull.symm))]
          exact hfull
        · refine .inl ?_
          have hwrap : ¬(start + (finish - start)) % 2 ^ 64 < start := by omega
          rw [Handoff.add, if_neg (by omega), if_neg hwrap]
          exact mem_append_right _ (mem_singleton.mpr rfl)
  · exact hs

variable (bits : ℕ) (mem : ℕ → UInt8) {r : ℤ × Handoff} {regions rounds cursor info n : ℕ}

theorem u32_lt (a : ℕ) : u32 mem a < 2 ^ 32 := littleEndian_lt mem a 4

theorem Handoff.Safe.entry (hs : h.Safe) (base size type regions : ℕ) :
    (Multiboot.entry base size type h regions).1.Safe := by
  unfold Multiboot.entry
  split
  · exact hs.add _ _ _
  · exact hs

theorem entries1_safe {rest : ℕ → Handoff → Outcome}
    (hrest : ∀ regions h, h.Safe → ∀ r, rest regions h = some r → r.2.Safe) (hs : h.Safe)
    (hr : entries1 bits mem finish rest n cursor regions h = some r) : r.2.Safe := by
  induction n generalizing cursor regions h with
  | zero => cases hr
  | succ n ih =>
    rw [entries1] at hr
    split at hr
    · simp only at hr
      split at hr
      · cases hr
        exact hs
      · exact ih (hs.entry _ _ _ _) hr
    · exact hrest _ _ hs _ hr

theorem finish1_safe (hs : h.Safe) (hr : finish1 bits mem info regions h = some r) : r.2.Safe := by
  have hfold : ∀ (l : List ℕ) (table : ℕ) (h : Handoff), h.Safe →
      (l.foldl (fun h i => h.module (u32 mem (table + 16 * i)) (u32 mem (table + 16 * i + 4))) h).Safe
      := by
    intro l table
    induction l with
    | nil => exact fun _ hs => hs
    | cons i l ih => exact fun h hs => ih _ (hs.module (u32_lt mem _))
  unfold finish1 at hr
  split at hr
  · cases hr
    exact hfold _ _ _ (hs.add _ _ _)
  · cases hr
    exact hs

theorem parseMultiboot1_safe (hs : h.Safe)
    (hr : parseMultiboot1 bits mem rounds info h = some r) : r.2.Safe := by
  have hinfo := hs.add info 72 false
  unfold parseMultiboot1 at hr
  simp only at hr
  split at hr
  · exact entries1_safe bits mem (fun _ _ hs _ hr => finish1_safe bits mem hs hr)
      (hinfo.add _ _ _) hr
  · split at hr
    · split at hr
      · exact finish1_safe bits mem ((hinfo.add _ _ _).add _ _ _) hr
      · exact finish1_safe bits mem (hinfo.add _ _ _) hr
    · exact finish1_safe bits mem hinfo hr

theorem entries2_safe {size : ℕ} (hs : h.Safe) {r : Handoff × ℕ}
    (hr : entries2 bits mem size finish n cursor regions h = some r) : r.1.Safe := by
  induction n generalizing cursor regions h with
  | zero => cases hr
  | succ n ih =>
    rw [entries2] at hr
    split at hr
    · exact ih (hs.entry _ _ _ _) hr
    · cases hr
      exact hs

theorem tags2_safe (hs : h.Safe)
    (hr : tags2 bits mem rounds finish n cursor regions h = some r) : r.2.Safe := by
  induction n generalizing cursor regions h with
  | zero => cases hr
  | succ n ih =>
    rw [tags2] at hr
    simp only at hr
    split at hr
    · split at hr
      · cases hr
        exact hs
      · split at hr
        · cases hr
          exact hs
        · split at hr
          · split at hr
            · cases hr
              exact hs
            · split at hr
              · cases hr
              · rename_i hentries
                exact ih (entries2_safe bits mem hs hentries) hr
          · split at hr
            · exact ih (hs.module (u32_lt mem _)) hr
            · exact ih hs hr
    · cases hr
      exact hs

theorem multibootParse_safe {magic : ℕ}
    (hr : multibootParse bits mem rounds magic info = some r) : r.2.Safe := by
  unfold multibootParse at hr
  split at hr
  · cases hr
    exact safe_empty
  · split at hr
    · exact parseMultiboot1_safe bits mem safe_empty hr
    · split at hr
      · unfold parseMultiboot2 at hr
        simp only at hr
        split at hr
        · cases hr
          exact safe_empty
        · exact tags2_safe bits mem (safe_empty.add _ _ _) hr
      · cases hr
        exact safe_empty

end Modules

section Boot

variable {bits kernelStart kernelEnd rounds magic info : ℕ} {mem : ℕ → UInt8} {value : ℤ}
variable {h : Handoff}

def ModulesKept (h : Handoff) (p : Pmm) : Prop :=
  ∀ m ∈ h.modules, ∀ f, m.region.Meets f → p.used f = true

/-- Where the map has no reservation for the modules: no frame that overlaps one is usable
according to it. -/
def ModulesUnusable (bits kernelStart kernelEnd : ℕ) (map : List Region) (h : Handoff) : Prop :=
  ∀ m ∈ h.modules, ∀ f, m.region.Meets f → f < frameLimit map →
    (∃ r ∈ map, r.usable = true ∧ CountedFree bits r f) →
    (∃ r ∈ map, r.usable = false ∧ CountedUsed bits r f) ∨ Kept kernelStart kernelEnd f

theorem countedUsed_of_meets {m : Module} {f : ℕ} (hbits : 32 ≤ bits) (hlt : m.start < m.finish)
    (hbound : m.finish < 2 ^ 32) (hf : m.region.Meets f) : CountedUsed bits m.region f := by
  have hpow : 2 ^ 32 ≤ 2 ^ bits := Nat.pow_le_pow_right (by omega) hbits
  have hend : regionEnd m.start (m.finish - m.start) = m.finish := by
    unfold regionEnd maxPhysAddr
    rw [if_neg (by omega)]
    omega
  unfold CountedUsed Region.Meets Module.region at *
  simp only at hf ⊢
  rw [Nat.mod_eq_of_lt (by omega), Nat.mod_eq_of_lt (by omega), hend]
  unfold pageSize at *
  omega

/-- The modules that are reported are kept out of the allocator exactly when the block was parsed
with regions and without filling the table of regions, or when the map that is used instead does
not have the modules in usable memory. -/
theorem modulesKept_iff (hbits : 32 ≤ bits) (hk : kernelStart < kernelEnd)
    (hend : kernelEnd ≤ maxPhysAddr)
    (hparse : multibootParse bits mem rounds magic info = some (value, h)) :
    ModulesKept h (bootPmm bits kernelStart kernelEnd value h) ↔
      (0 < value ∧ h.regions.length < maxRegions) ∨
        ModulesUnusable bits kernelStart kernelEnd (bootMap value h) h := by
  have hsafe : h.Safe := multibootParse_safe bits mem hparse
  have hused : ∀ f, (bootPmm bits kernelStart kernelEnd value h).used f = true ↔
      (f < frameLimit (bootMap value h) →
        (∃ r ∈ bootMap value h, r.usable = true ∧ CountedFree bits r f) →
        (∃ r ∈ bootMap value h, r.usable = false ∧ CountedUsed bits r f) ∨
          Kept kernelStart kernelEnd f) := by
    intro f
    rw [← Bool.not_eq_false, bootPmm, pmmInit_free hk hend]
    constructor
    · intro hnot hf hfree
      by_contra hrest
      rw [not_or] at hrest
      exact hnot ⟨hf, hfree, fun r hr hother hu => hrest.1 ⟨r, hr, hother, hu⟩, hrest.2⟩
    · intro himp ⟨hf, hfree, hother, hkept⟩
      rcases himp hf hfree with ⟨r, hr, hnot, hu⟩ | hkept'
      · exact hother r hr hnot hu
      · exact hkept hkept'
  constructor
  · intro hkept
    exact .inr fun m hm f hf => (hused f).mp (hkept m hm f hf)
  · intro hcond m hm f hf
    rw [hused]
    rcases hcond with ⟨hvalue, hroom⟩ | hunusable
    · intro _ _
      obtain ⟨hlt, hbound, hregion⟩ := hsafe.modules m hm
      have hmap : bootMap value h = h.regions := if_neg (by omega)
      refine .inl ⟨m.region, ?_, rfl, countedUsed_of_meets hbits hlt hbound hf⟩
      rw [hmap]
      exact hregion.resolve_right (by omega)
    · exact hunusable m hm f hf

/-- A Multiboot 1 block at `0x9000` with one module, from 8 MiB to 9 MiB, and without a memory
map. -/
def moduleBlock (a : ℕ) : UInt8 :=
  if a = 0x9000 then 8
  else if a = 0x9014 then 1
  else if a = 0x9019 then 0x91
  else if a = 0x9102 then 0x80
  else if a = 0x9106 then 0x90
  else 0

def moduleHandoff : Handoff :=
  ⟨[⟨0x9000, 72, false⟩, ⟨0x9100, 16, false⟩, ⟨0x800000, 0x100000, false⟩], [⟨0x800000, 0x900000⟩]⟩

/-- The block has no regions, so the map of the platform replaces the one with the reservation,
and the first frame of the module is free. -/
theorem module_handed_out : multibootParse 64 moduleBlock 1 0x2BADB002 0x9000 =
      some (0, moduleHandoff) ∧ (bootPmm 64 0x100000 0x200000 0 moduleHandoff).used 0x800 = false ∧
    ¬ModulesKept moduleHandoff (bootPmm 64 0x100000 0x200000 0 moduleHandoff) := by
  have hfree : (bootPmm 64 0x100000 0x200000 0 moduleHandoff).used 0x800 = false := by
    refine (pmmInit_free (by decide) (by decide) 0x800).mpr ⟨by decide, ?_, ?_, ?_⟩
    · exact ⟨⟨0x100000, 0x0ff00000, true⟩, by decide, rfl, by unfold CountedFree; decide⟩
    · intro r hr hother
      have hr' : r = ⟨0, 0x100000, false⟩ := by
        rcases mem_cons.mp hr with heq | hmem
        · exact heq
        · rw [mem_singleton.mp hmem] at hother
          cases hother
      rw [hr']
      unfold CountedUsed
      decide
    · unfold Kept pageSize
      omega
  refine ⟨by decide +kernel, hfree, fun hkept => ?_⟩
  have hused := hkept ⟨0x800000, 0x900000⟩ (by decide) 0x800
    (by unfold Region.Meets Module.region; decide)
  rw [hfree] at hused
  cases hused

def memoryBlock (a : ℕ) : UInt8 :=
  if a = 0x9000 then 9
  else if a = 0x9009 then 0xfc
  else if a = 0x900a then 1
  else moduleBlock a

def memoryHandoff : Handoff :=
  ⟨[⟨0x9000, 72, false⟩, ⟨0, 0x100000, false⟩, ⟨0x100000, 0x7f00000, true⟩,
    ⟨0x9100, 16, false⟩, ⟨0x800000, 0x100000, false⟩], [⟨0x800000, 0x900000⟩]⟩

theorem module_kept_with_memory :
    ModulesKept memoryHandoff (bootPmm 64 0x100000 0x200000 1 memoryHandoff) := by
  have hparse : multibootParse 64 memoryBlock 1 0x2BADB002 0x9000 = some (1, memoryHandoff) := by
    decide +kernel
  exact (modulesKept_iff (by decide) (by decide) (by decide) hparse).mpr (.inl (by decide))

end Boot

end Tach.Multiboot
