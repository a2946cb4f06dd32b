import Tach.FatView
import Tach.Memory

/-!
The smallest volume `fat32_mount` accepts: 65525 clusters of one sector and two mirrored
copies of the table, in a memory of 66581 sectors. Concrete runs of the model are carried out
on it.
-/

namespace Tach.Smallest

open ByteBlock Sectors FatData FatView

def geom : Geom where
  readonly := false
  numFats := 2
  fatSize := 512
  fatActive := 0
  mirror := true
  fat0Lba := 32
  fatLba := 32
  fsinfoLba := 1
  dataLba := 1056
  clusters := 65525
  rootCluster := 2
  spc := 1
  spcShift := 0
  entriesPerCluster := 16
  total := 66581
  spc_eq := rfl
  shift_le := by decide
  entries_eq := rfl
  active_lt := by decide
  mirror_active := by decide
  fatLba_eq := rfl
  reserved_pos := by decide
  fsinfo_lt := by decide
  data_eq := rfl
  clusters_ge := by decide
  clusters_le := by decide
  fat_fits := by decide
  data_fits := by decide
  root_ge := by decide
  root_lt := by decide

def volume : Volume Memory.Mem :=
  { geom with layer := Memory.layer 66581, fits := by decide, ro := rfl }

/-- A device whose table starts with the sector `d`, in both copies, over the sectors `v`. -/
def image (d : Sector) (v : View) : View := fun l =>
  if l = 32 ∨ l = 544 then d else if l < 1056 then Block.zero 512 else v l

/-- The volume state `fat32_mount` leaves, with a search hint. -/
def mounted (free hint : ℕ) : VolState := ⟨free, hint, false, false, 0, [], 0, (23585, 0)⟩

theorem mirrored_image (d : Sector) (v : View) : Mirrored geom (image d v) := by
  intro _ k hk
  funext c
  by_cases hc : geom.InRange c
  · have hlt : c / 128 < 512 := by
      have := hc.2
      simp only [geom] at this
      omega
    have hsec : ∀ j, j < 2 → image d v (32 + j * 512 + c / 128) =
        if c / 128 = 0 then d else Block.zero 512 := by
      intro j hj
      unfold image
      by_cases h0 : c / 128 = 0
      · rw [if_pos (by omega), if_pos h0]
      · rw [if_neg (by omega), if_neg h0, if_pos (by omega)]
    have hentry : ∀ j, j < 2 → fatCopy geom (image d v) j c =
        FatTable.entryBits ((if c / 128 = 0 then d else Block.zero 512).le32 (c % 128 * 4)) := by
      intro j hj
      rw [fatCopy, if_pos ⟨hj, hc⟩, entryAt]
      exact congrArg (fun b => FatTable.entryBits (Block.le32 b (c % 128 * 4))) (hsec j hj)
    rw [fat, hentry k hk, hentry geom.fatActive (by decide)]
  · rw [fat_of_not_inRange hc, fatCopy, if_neg (fun h => hc h.2)]

end Tach.Smallest
