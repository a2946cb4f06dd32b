import Mathlib

/-!
Lists of stretches that lie one after the other. They are pairwise disjoint, and a stretch can be cut
in two, or two neighbours be joined, without a change of the others.
-/

namespace Tach.Tilings

variable {β : Type*} (addr len : β → ℕ)

/-- The stretches fill the interval from `a` to `e`, in order. -/
def Tiles (a : ℕ) : List β → ℕ → Prop
  | [], e => a = e
  | b :: l, e => addr b = a ∧ Tiles (a + len b) l e

variable {addr len} {a e : ℕ} {b c : β} {l r : List β}

theorem tiles_append : Tiles addr len a (l ++ r) e ↔
    ∃ m, Tiles addr len a l m ∧ Tiles addr len m r e := by
  induction l generalizing a with
  | nil => simp [Tiles]
  | cons b l ih =>
    rw [List.cons_append, Tiles, ih]
    simp only [Tiles, and_assoc, exists_and_left]

namespace Tiles

theorem le (h : Tiles addr len a l e) : a ≤ e := by
  induction l generalizing a with
  | nil => exact h.le
  | cons b l ih => exact le_trans (Nat.le_add_right _ _) (ih h.2)

theorem mem (h : Tiles addr len a l e) (hb : b ∈ l) : a ≤ addr b ∧ addr b + len b ≤ e := by
  induction l generalizing a with
  | nil => exact absurd hb List.not_mem_nil
  | cons c l ih =>
    rcases List.mem_cons.mp hb with rfl | hb
    · exact ⟨h.1.ge, h.1 ▸ h.2.le⟩
    · obtain ⟨hle, hend⟩ := ih h.2 hb
      exact ⟨le_trans (Nat.le_add_right _ _) hle, hend⟩

theorem pairwise (h : Tiles addr len a l e) : l.Pairwise fun b c => addr b + len b ≤ addr c := by
  induction l generalizing a with
  | nil => exact .nil
  | cons b l ih => exact .cons (fun c hc => h.1 ▸ (h.2.mem hc).1) (ih h.2)

/-- Some of the stretches are exchanged for others that fill the same interval. -/
theorem replace {n m : List β} (h : Tiles addr len a (l ++ n ++ r) e)
    (hnm : ∀ c d, Tiles addr len c n d → Tiles addr len c m d) :
    Tiles addr len a (l ++ m ++ r) e := by
  obtain ⟨d, hln, hr⟩ := tiles_append.mp h
  obtain ⟨c, hl, hn⟩ := tiles_append.mp hln
  exact tiles_append.mpr ⟨d, tiles_append.mpr ⟨c, hl, hnm c d hn⟩, hr⟩

end Tiles

end Tach.Tilings
