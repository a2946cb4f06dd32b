import Mathlib

/-!
Fixed-size blocks of bytes and the little-endian fields stored in them. A block of `n`
bytes can be read at every index and is zero past its end, so two blocks that agree below
`n` are equal and no read needs a bound. Storing a 16 or 32 bit field and loading it back is
the only fact later modules use.
-/

namespace Tach.ByteBlock

/-- The number that `n` bytes from `a` on hold, the lowest first. -/
def littleEndian (read : ℕ → UInt8) (a : ℕ) : ℕ → ℕ
  | 0 => 0
  | n + 1 => (read a).toNat + 256 * littleEndian read (a + 1) n

theorem littleEndian_lt (read : ℕ → UInt8) (a n : ℕ) : littleEndian read a n < 256 ^ n := by
  induction n generalizing a with
  | zero => exact Nat.one_pos
  | succ n ih =>
    have hbyte := (read a).toNat_lt
    have hrest := ih (a + 1)
    rw [littleEndian, Nat.pow_succ]
    omega

@[ext] structure Block (n : ℕ) where
  byte : ℕ → UInt8
  past : ∀ i, n ≤ i → byte i = 0

instance {n : ℕ} : CoeFun (Block n) (fun _ => ℕ → UInt8) := ⟨Block.byte⟩

namespace Block

variable {n m o p i : ℕ} {a : Block n}

def ofFn (n : ℕ) (f : ℕ → UInt8) : Block n where
  byte i := if i < n then f i else 0
  past i hi := by simp [Nat.not_lt.mpr hi]

def zero (n : ℕ) : Block n := ofFn n (fun _ => 0)

def set (b : Block n) (i : ℕ) (x : UInt8) : Block n :=
  ofFn n (fun j => if j = i then x else b j)

/-- The `m` bytes of `b` from offset `o` on. -/
def window (b : Block n) (o m : ℕ) : Block m := ofFn m (fun i => b (o + i))

def le16 (b : Block n) (o : ℕ) : ℕ := (b o).toNat + 256 * (b (o + 1)).toNat

def le32 (b : Block n) (o : ℕ) : ℕ := b.le16 o + 65536 * b.le16 (o + 2)

def put16 (b : Block n) (o v : ℕ) : Block n :=
  (b.set o (UInt8.ofNat v)).set (o + 1) (UInt8.ofNat (v / 256))

def put32 (b : Block n) (o v : ℕ) : Block n := (b.put16 o v).put16 (o + 2) (v / 65536)

@[simp] theorem ofFn_apply (f : ℕ → UInt8) (i : ℕ) : ofFn n f i = if i < n then f i else 0 := rfl

theorem set_apply (b : Block n) (i j : ℕ) (x : UInt8) :
    b.set i x j = if j = i ∧ j < n then x else b j := by
  by_cases hj : j < n
  · simp [set, hj]
  · simp [set, hj, b.past j (by omega)]

theorem le16_lt (b : Block n) (o : ℕ) : b.le16 o < 65536 := by
  have h0 := (b o).toNat_lt
  have h1 := (b (o + 1)).toNat_lt
  unfold le16
  omega

theorem le32_lt (b : Block n) (o : ℕ) : b.le32 o < 4294967296 := by
  have h0 := b.le16_lt o
  have h1 := b.le16_lt (o + 2)
  unfold le32
  omega

theorem le16_congr {b : Block m} (h0 : a o = b p)
    (h1 : a (o + 1) = b (p + 1)) : a.le16 o = b.le16 p := by
  simp only [le16, h0, h1]

theorem le32_congr {b : Block m}
    (h : ∀ i, i < 4 → a (o + i) = b (p + i)) : a.le32 o = b.le32 p := by
  have h0 : a.le16 o = b.le16 p := le16_congr (h 0 (by omega)) (h 1 (by omega))
  have h2 : a.le16 (o + 2) = b.le16 (p + 2) := le16_congr (h 2 (by omega)) (h 3 (by omega))
  simp only [le32, h0, h2]

variable (b : Block n)
include b

theorem put16_apply (o v i : ℕ) : b.put16 o v i = if i = o + 1 ∧ i < n then UInt8.ofNat (v / 256)
      else if i = o ∧ i < n then UInt8.ofNat v else b i := by
  simp only [put16, set_apply]

theorem put16_of_outside (v : ℕ) (h : i < o ∨ o + 2 ≤ i) : b.put16 o v i = b i := by
  rw [put16_apply, if_neg (by omega), if_neg (by omega)]

theorem put32_of_outside (v : ℕ) (h : i < o ∨ o + 4 ≤ i) : b.put32 o v i = b i := by
  unfold put32
  rw [put16_of_outside _ _ (by omega), put16_of_outside _ _ (by omega)]

theorem le16_put16 (v : ℕ) (ho : o + 2 ≤ n) : (b.put16 o v).le16 o = v % 65536 := by
  have h0 : b.put16 o v o = UInt8.ofNat v := by
    rw [put16_apply, if_neg (by omega), if_pos (by omega)]
  have h1 : b.put16 o v (o + 1) = UInt8.ofNat (v / 256) := by
    rw [put16_apply, if_pos (by omega)]
  simp only [le16, h0, h1, UInt8.toNat_ofNat']
  omega

theorem le16_put16_of_disjoint (v : ℕ)
    (h : p + 2 ≤ o ∨ o + 2 ≤ p) : (b.put16 o v).le16 p = b.le16 p :=
  le16_congr (put16_of_outside b v (by omega)) (put16_of_outside b v (by omega))

theorem le32_put32 (v : ℕ) (ho : o + 4 ≤ n) : (b.put32 o v).le32 o = v % 4294967296 := by
  have hlow : (b.put32 o v).le16 o = v % 65536 := by
    unfold put32
    rw [le16_put16_of_disjoint _ _ (by omega), le16_put16 _ _ (by omega)]
  have hhigh : (b.put32 o v).le16 (o + 2) = v / 65536 % 65536 := by
    unfold put32
    rw [le16_put16 _ _ (by omega)]
  simp only [le32, hlow, hhigh]
  omega

theorem le32_put32_of_disjoint (v : ℕ)
    (h : p + 4 ≤ o ∨ o + 4 ≤ p) : (b.put32 o v).le32 p = b.le32 p :=
  le32_congr (fun _ hi => put32_of_outside b v (by omega))

end Block

end Tach.ByteBlock
