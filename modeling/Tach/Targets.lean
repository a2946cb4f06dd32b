import Tach.Elf
import Tach.PagingI686
import Tach.TablesX86
import Tach.VmmSpecs

/-!
The two architectures: their page tables with the constants of vmm.c, elf_loader.c and
userptr.h. A small system and a small executable for i686 serve the examples of other modules.
-/

namespace Tach.Vmm

def x86 : Arch :=
  { PagingX86.x86Tables with
    bits := 64
    dynamicBase := 0x4000000
    elfDynBase := 0x1000000000
    elfMachine := 62
    userStart := 0x400000
    userEnd := 0x7fffffffffff }

def i686 : Arch :=
  { PagingI686.i686Tables with
    bits := 32
    dynamicBase := 0x40000
    elfDynBase := 0x10000000
    elfMachine := 3
    userStart := 0x400000
    userEnd := 0x80000000 }

/-- A machine of `n` frames with an empty page table of the kernel in frame 1. -/
def smallSpaces (n : ℕ) : Spaces :=
  ⟨⟨⟨fun f => decide (f < 2 ∨ n ≤ f), fun f => if f < 2 then 1 else 0, n, 2, n - 2, n⟩,
    fun _ _ => 0⟩, 1, fun _ => none, fun _ => none⟩

end Tach.Vmm

namespace Tach.Ownership

open Frames Vmm

/-- The owners of the frames of `smallSpaces n`. -/
def smallOwner (n f : ℕ) : Owner := if f = 1 then .kernel else if f < 2 ∨ n ≤ f then .other else .free

theorem smallSpaces_sound {n : ℕ} (hn : n ≤ maxFrames) : (smallSpaces n).mach.pmm.Sound := by
  have hfree : ∀ f, (smallSpaces n).mach.pmm.used f = false ↔ 2 ≤ f ∧ f < n := by
    intro f
    simp only [smallSpaces, decide_eq_false_iff_not]
    omega
  refine ⟨fun f hf => ?_, Nat.le_succ 1, hn, fun f hf => ?_, ?_⟩
  · obtain ⟨hlow, hhigh⟩ := (hfree f).mp hf
    exact ⟨if_neg (by omega), by omega, hhigh⟩
  · have := (hfree f).mp hf
    omega
  · have hset : ((Finset.range maxFrames).filter fun f => (smallSpaces n).mach.pmm.used f = false) =
        Finset.Ico 2 n := by
      ext f
      rw [Finset.mem_filter, hfree, Finset.mem_range, Finset.mem_Ico]
      omega
    rw [hset, Nat.card_Ico]
    rfl

theorem owned_smallSpaces (A : Arch) {n : ℕ} (hn : n ≤ maxFrames) :
    Owned A (smallSpaces n) (smallOwner n) fun f => if f < 2 then 1 else 0 := by
  obtain ⟨hgood, htables, hnone⟩ := A.blank (smallSpaces n).mach.ram
    (smallSpaces n).kernelRoot fun _ => rfl
  have hown : ∀ f, smallOwner n f = .kernel ∧ f = 1 ∨ smallOwner n f = .other ∧ (f < 2 ∨ n ≤ f) ∨
      smallOwner n f = .free ∧ 2 ≤ f ∧ f < n := by
    intro f
    unfold smallOwner
    split
    · exact .inl ⟨rfl, by assumption⟩
    · split
      · exact .inr (.inl ⟨rfl, by assumption⟩)
      · exact .inr (.inr ⟨rfl, by omega, by omega⟩)
  refine ⟨smallSpaces_sound hn, fun f => ?_, fun f hf => ?_, fun f hf => ?_, fun f _ => rfl,
    fun f hf => ?_, fun c f hf => ?_, ⟨hgood, fun f hf => ?_, fun w leaf hleaf => ?_⟩, nofun, nofun⟩
  · simp only [smallSpaces, decide_eq_true_eq]
    rcases hown f with ⟨ho, hf⟩ | ⟨ho, hf⟩ | ⟨ho, hf⟩
    · rw [ho]
      exact ⟨fun _ => nofun, fun _ => by omega⟩
    · rw [ho]
      exact ⟨fun _ => nofun, fun _ => hf⟩
    · rw [ho]
      exact ⟨fun _ => by omega, fun h => absurd rfl h⟩
  · rcases hown f with ⟨ho, -⟩ | ⟨ho, -⟩ | ⟨ho, -⟩
    all_goals
      rw [ho] at hf
      exact hf.elim
  · rcases hown f with ⟨ho, -⟩ | ⟨ho, -⟩ | ⟨ho, -⟩
    all_goals
      rw [ho] at hf
      cases hf
  · rcases hown f with ⟨ho, -⟩ | ⟨ho, -⟩ | ⟨ho, hf'⟩
    · exact .inr (.inl ho)
    · exact .inr (.inr ho)
    · exact absurd (if_neg (by omega)) hf
  · rcases hown f with ⟨ho, -⟩ | ⟨ho, -⟩ | ⟨ho, -⟩
    all_goals
      rw [ho] at hf
      cases hf
  · rw [htables] at hf
    exact if_pos hf
  · rw [(hnone w).1] at hleaf
    cases hleaf

theorem owned_createContext (A : Arch)
    (hok : (createContext A (smallSpaces 64)).result.toOption = some 0) : ∃ own extra root,
      Owned A (createContext A (smallSpaces 64)).state own extra ∧
      (createContext A (smallSpaces 64)).state.slots 0 = some ⟨root, A.dynamicBase, []⟩ := by
  have hends := createContext_ends (owned_smallSpaces A (n := 64) (by decide))
  obtain ⟨e, -, -, hr, -⟩ | ⟨c, root, own', hr, -, hturn, hslot, -⟩ := hends
  · rw [hr] at hok
    cases hok
  · rw [hr] at hok
    rw [Option.some.inj hok] at hslot
    exact ⟨_, _, root, hturn.owned, hslot⟩

def smallContext : Spaces := (createContext i686 (smallSpaces 64)).state

theorem owned_smallContext : ∃ own extra root, Owned i686 smallContext own extra ∧
      smallContext.slots 0 = some ⟨root, i686.dynamicBase, []⟩ := by
  rw [smallContext]
  exact owned_createContext i686 (by decide +kernel)

end Tach.Ownership

namespace Tach.Processes

open Vmm

/-- After `process_init` and `scheduler_init` on a machine of `n` frames. -/
def smallSystem (n : ℕ) : System where
  spaces := smallSpaces n
  files := ⟨fun _ => none, fun _ => 0, fun _ => 0, fun _ => 0, fun _ => false⟩
  procs _ := none
  nextPid := 1
  cpu := ⟨0, maxCpus_pos⟩
  current _ := none
  switchedFrom _ := none
  queues _ := ⟨[], 0⟩
  cpuCount := 1
  console := 1

/-- The image of an executable for i686: its header, and one program header that loads the whole
file at 0x400000. -/
def tinyImage : Image :=
  [0x7f, 0x45, 0x4c, 0x46, 1, 1, 1, 0, 0, 0, 0, 0, 0, 0, 0, 0, 2, 0, 3, 0, 1, 0, 0, 0,
    0x54, 0, 0x40, 0, 52, 0, 0, 0, 0, 0, 0, 0, 0, 0, 0, 0, 52, 0, 32, 0, 1, 0, 0, 0, 0, 0, 0, 0,
    1, 0, 0, 0, 0, 0, 0, 0, 0, 0, 0x40, 0, 0, 0, 0, 0, 84, 0, 0, 0, 84, 0, 0, 0,
    5, 0, 0, 0, 0, 0, 0, 0]

example : (parseHeader i686 tinyImage).isOk = true := by decide

end Tach.Processes
