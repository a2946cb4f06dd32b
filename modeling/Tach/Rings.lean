import Mathlib

/-!
Cells used in a circle of `cap` positions. A loop that reads or writes one cell after the other
moves its position on by one, back to the first cell after the last. What was written from the
position behind the filled cells on is read after them, as long as it does not come round to them.
-/

namespace Tach.Rings

variable {α : Type*} (cap : ℕ)

/-- The position after `n` steps. -/
def advance (pos : ℕ) : ℕ → ℕ
  | 0 => pos
  | n + 1 => advance ((pos + 1) % cap) n

/-- The `n` cells from a position on. -/
def window (cells : ℕ → α) (pos : ℕ) : ℕ → List α
  | 0 => []
  | n + 1 => cells pos :: window cells ((pos + 1) % cap) n

/-- The cells after a list was written from a position on. -/
def fill (cells : ℕ → α) (pos : ℕ) : List α → ℕ → α
  | [] => cells
  | a :: l => fill (Function.update cells pos a) ((pos + 1) % cap) l

variable {cap} {cells cells' : ℕ → α} {pos n : ℕ} {l : List α}

theorem advance_eq (hpos : pos < cap) (n : ℕ) : advance cap pos n = (pos + n) % cap := by
  induction n generalizing pos with
  | zero => exact (Nat.mod_eq_of_lt hpos).symm
  | succ n ih =>
    rw [advance, ih (Nat.mod_lt _ (by omega)), Nat.mod_add_mod]
    congr 1
    omega

theorem advance_lt (hpos : pos < cap) (n : ℕ) : advance cap pos n < cap := by
  rw [advance_eq hpos]
  exact Nat.mod_lt _ (by omega)

theorem advance_add (pos m n : ℕ) : advance cap pos (m + n) = advance cap (advance cap pos m) n := by
  induction m generalizing pos with
  | zero => rw [Nat.zero_add, advance]
  | succ m ih => rw [Nat.succ_add, advance, ih, advance]

@[simp] theorem window_length (cells : ℕ → α) (pos n : ℕ) : (window cap cells pos n).length = n := by
  induction n generalizing pos with
  | zero => rfl
  | succ n ih => rw [window, List.length_cons, ih]

theorem window_add (cells : ℕ → α) (pos m n : ℕ) : window cap cells pos (m + n) =
      window cap cells pos m ++ window cap cells (advance cap pos m) n := by
  induction m generalizing pos with
  | zero => rw [Nat.zero_add, advance, window, List.nil_append]
  | succ m ih => rw [Nat.succ_add, window, ih, window, advance, List.cons_append]

theorem window_congr (hpos : pos < cap)
    (h : ∀ i < n, cells' ((pos + i) % cap) = cells ((pos + i) % cap)) :
    window cap cells' pos n = window cap cells pos n := by
  induction n generalizing pos with
  | zero => rfl
  | succ n ih =>
    have hhead := h 0 (by omega)
    rw [Nat.add_zero, Nat.mod_eq_of_lt hpos] at hhead
    rw [window, window, hhead, ih (Nat.mod_lt _ (by omega))]
    intro i hi
    rw [Nat.mod_add_mod, Nat.add_assoc, Nat.add_comm 1 i]
    exact h (i + 1) (by omega)

/-- Writing changes no cells but those it comes to. -/
theorem fill_of_ne (hpos : pos < cap) {x : ℕ}
    (hx : ∀ i < l.length, x ≠ (pos + i) % cap) : fill cap cells pos l x = cells x := by
  induction l generalizing cells pos with
  | nil => rfl
  | cons a l ih =>
    have hhead := hx 0 (by simp)
    rw [Nat.add_zero, Nat.mod_eq_of_lt hpos] at hhead
    rw [fill, ih (Nat.mod_lt _ (by omega)), Function.update_of_ne hhead]
    intro i hi
    rw [Nat.mod_add_mod, Nat.add_assoc, Nat.add_comm 1 i]
    exact hx (i + 1) (by simpa using hi)

/-- Two positions less than a whole round apart differ. -/
theorem mod_ne_of_lt {a i j : ℕ} (hij : i < j) (hj : j < i + cap) :
    (a + i) % cap ≠ (a + j) % cap := by
  intro h
  have hdvd : cap ∣ (a + j) - (a + i) := (Nat.modEq_iff_dvd' (by omega)).mp h
  have hle := Nat.le_of_dvd (by omega) hdvd
  omega

/-- What was written is read back. -/
theorem window_fill (hpos : pos < cap) (hl : l.length ≤ cap) :
    window cap (fill cap cells pos l) pos l.length = l := by
  induction l generalizing cells pos with
  | nil => rfl
  | cons a l ih =>
    rw [List.length_cons] at hl
    have hnext : (pos + 1) % cap < cap := Nat.mod_lt _ (by omega)
    rw [List.length_cons, window, fill, ih hnext (by omega), fill_of_ne hnext, Function.update_self]
    intro i hi h
    have hne : (pos + 0) % cap ≠ (pos + (1 + i)) % cap := mod_ne_of_lt (by omega) (by omega)
    rw [Nat.add_zero, Nat.mod_eq_of_lt hpos] at hne
    rw [Nat.mod_add_mod, Nat.add_assoc] at h
    exact hne h

/-- Writing behind the filled cells appends to them. -/
theorem window_append (hpos : pos < cap) (hl : n + l.length ≤ cap) :
    window cap (fill cap cells (advance cap pos n) l) pos (n + l.length) =
      window cap cells pos n ++ l := by
  have hback := advance_lt hpos n
  rw [window_add, window_fill hback (by omega)]
  congr 1
  refine window_congr hpos fun i hi => fill_of_ne hback fun j hj => ?_
  rw [advance_eq hpos, Nat.mod_add_mod, Nat.add_assoc]
  exact mod_ne_of_lt (by omega) (by omega)

end Tach.Rings
