import Tach.MapX86

/-!
The page tables of x86_64 as `PageTables`.
-/

namespace Tach.PagingX86

open Frames Paging Radix TableTrees

variable {m : Machine} {k v p root : ℕ}

def views : Views := coding.views 3 fun p fl => ⟨p, fl.writable, fl.user, fl.executable⟩

/-- Bits 47 to 63 of an address are the same. -/
def Canonical (v : ℕ) : Prop := v < 2 ^ 35 ∨ 2 ^ 52 - 2 ^ 35 ≤ v ∧ v < 2 ^ 52

def x86Tables : PageTables where
  toViews := views
  address := Canonical
  seen_inj v w hv hw h := by
    have h : v % 512 ^ 4 = w % 512 ^ 4 := h
    unfold Canonical at hv hw
    omega
  createRoot := createRoot
  destroyRoot := destroyRoot
  map := map
  unmap := unmap
  root_mem _ _ := root_mem_tables
  congr := Coding.views_congr
  slot_seen ram _ _ _ := Coding.slot_of_seen ram
  blank _ _ := Coding.views_blank (by decide)
  leaf_frame _ _ := ⟨rfl, rfl, rfl⟩
  map_spec _ _ v _ fl h hp := by
    have hp40 := hp.trans (show maxFrames < 2 ^ 40 by decide)
    obtain ⟨N, hM⟩ := mapAt_spec v fl h.good h.used h.sound le_rfl hp40
    exact ⟨N, Coding.MapsAt.maps h.good le_rfl hM⟩
  unmap_spec _ _ _ h hslot := by
    obtain ⟨u, hu⟩ := Option.isSome_iff_exists.mp hslot
    rw [unmap, unmapAt_eq h.good le_rfl, hu]
    exact Coding.unmaps_of_slot h.sound h.good hu
  unmap_none _ _ _ h hslot := by
    rw [unmap, unmapAt_eq h.good le_rfl, Option.not_isSome_iff_eq_none.mp hslot]
  createRoot_some _ _ _ _ h hc := (cloneLevel_spec h.good h.used h.sound).copies h.good hc
  createRoot_none _ _ _ h hc := (cloneLevel_spec h.good h.used h.sound).fails hc
  destroyRoot_spec k m root h hne hsingle := by
    have hroot := hsingle root root_mem_tables
    rw [destroyRoot, if_pos ⟨Nat.pos_iff_ne_zero.mp hroot.2.1, hne⟩]
    exact destroyLevel_spec (Coding.Fine.tree h.good) h.sound
      fun f hf => ⟨h.used f hf, hsingle f hf⟩

end Tach.PagingX86
