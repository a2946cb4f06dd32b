import Tach.ByteBlock

/-!
Records in a memory of bytes. A codec says how many bytes a record takes, how it is read from them
and how it is written over them, padding left as it was; a record that fits is read back. Records
and other stretches of bytes that do not overlap are written independently of one another.
-/

namespace Tach.Records

open ByteBlock (littleEndian)

abbrev Bytes := ℕ → UInt8

/-- The memory with `n` bytes from `a` on replaced. -/
def put (m : Bytes) (a n : ℕ) (f : Bytes) : Bytes := fun x =>
  if a ≤ x ∧ x < a + n then f (x - a) else m x

/-- Two stretches of bytes have none in common. -/
def Separate (a n c k : ℕ) : Prop := a + n ≤ c ∨ c + k ≤ a

structure Codec (ρ : Type*) where
  size : ℕ
  fits : ρ → Prop
  load : Bytes → ρ
  store : ρ → Bytes → Bytes
  load_congr : ∀ {b b'}, (∀ i < size, b i = b' i) → load b = load b'
  load_store : ∀ {r}, fits r → ∀ b, load (store r b) = r

theorem Separate.symm {a n c k : ℕ} (h : Separate a n c k) : Separate c k a n := Or.symm h

theorem Separate.mono {a n c k a' n' c' k' : ℕ} (h : Separate a n c k) (ha : a ≤ a')
    (hn : a' + n' ≤ a + n) (hc : c ≤ c') (hk : c' + k' ≤ c + k) : Separate a' n' c' k' := by
  rcases h with h | h
  · exact .inl (by omega)
  · exact .inr (by omega)

section Put

variable {m f : Bytes} {a n x : ℕ}

theorem put_outside (h : x < a ∨ a + n ≤ x) : put m a n f x = m x := if_neg (by omega)

theorem put_inside {i : ℕ} (h : i < n) : put m a n f (a + i) = f i := by
  rw [put, if_pos (by omega), Nat.add_sub_cancel_left]

end Put

namespace Codec

variable {ρ : Type*} (C : Codec ρ) {m f : Bytes} {a c n : ℕ} {r : ρ}

def read (m : Bytes) (a : ℕ) : ρ := C.load fun i => m (a + i)

def write (m : Bytes) (a : ℕ) (r : ρ) : Bytes := put m a C.size (C.store r fun i => m (a + i))

theorem read_congr {m' : Bytes} (h : ∀ i < C.size, m (a + i) = m' (a + i)) :
    C.read m a = C.read m' a := C.load_congr h

theorem read_write_self (h : C.fits r) : C.read (C.write m a r) a = r := by
  have hload := C.load_store h fun i => m (a + i)
  rw [← hload]
  exact C.load_congr fun i hi => by rw [write, put_inside hi, hload]

theorem read_put (h : Separate a n c C.size) : C.read (put m a n f) c = C.read m c :=
  C.load_congr fun _ hi => put_outside (by rcases h with h | h <;> omega)

theorem read_write (h : Separate a C.size c C.size) : C.read (C.write m a r) c = C.read m c :=
  C.read_put h

end Codec

section Edits

variable {ρ : Type*} {C : Codec ρ} {n : ℕ} {S : List ℕ} {m m' : Bytes} {r : ℕ → ρ} {a : ℕ} {x : ρ}

/-- The stretches of `n` bytes at these addresses do not overlap. -/
def Apart (n : ℕ) (S : List ℕ) : Prop := ∀ a ∈ S, ∀ c ∈ S, a ≠ c → Separate a n c n

/-- From `m` to `m'` only the records at the addresses of `S` were stored into, each within `n` bytes,
and they are `r` now. -/
structure Edited (C : Codec ρ) (n : ℕ) (S : List ℕ) (m m' : Bytes) (r : ℕ → ρ) : Prop where
  sees : ∀ a ∈ S, C.read m' a = r a
  frame : ∀ x, (∀ a ∈ S, x < a ∨ a + n ≤ x) → m' x = m x

theorem Edited.refl (C : Codec ρ) (n : ℕ) (S : List ℕ) (m : Bytes) :
    Edited C n S m m (C.read m) := ⟨fun _ _ => rfl, fun _ _ => rfl⟩

theorem Edited.write (h : Edited C n S m m' r) (hn : C.size ≤ n) (hS : Apart n S) (ha : a ∈ S)
    (hx : C.fits x) : Edited C n S m (C.write m' a x) (Function.update r a x) := by
  refine ⟨fun c hc => ?_, fun y hy => ?_⟩
  · by_cases hca : c = a
    · subst hca
      rw [Function.update_self, C.read_write_self hx]
    · rw [Function.update_of_ne hca, C.read_write ((hS a ha c hc (Ne.symm hca)).mono Nat.le.refl
        (Nat.add_le_add_left hn a) Nat.le.refl (Nat.add_le_add_left hn c)), h.sees c hc]
  · rw [← h.frame y hy]
    have := hy a ha
    exact put_outside (by omega)

end Edits

/-- Byte `i` of a number. -/
def byte (v i : ℕ) : UInt8 := UInt8.ofNat (v / 256 ^ i)

theorem littleEndian_congr {b b' : Bytes} {a n : ℕ} (h : ∀ i < n, b (a + i) = b' (a + i)) :
    littleEndian b a n = littleEndian b' a n := by
  induction n generalizing a with
  | zero => rfl
  | succ n ih =>
    rw [littleEndian, littleEndian, ih, show b a = b' a from h 0 (by omega)]
    intro i hi
    rw [Nat.add_assoc, Nat.add_comm 1 i]
    exact h (i + 1) (by omega)

/-- The bytes of a number are read as the number. -/
theorem littleEndian_byte {b : Bytes} {a n v : ℕ} (hv : v < 256 ^ n)
    (h : ∀ i < n, b (a + i) = byte v i) : littleEndian b a n = v := by
  induction n generalizing a v with
  | zero =>
    rw [littleEndian]
    omega
  | succ n ih =>
    have hhead : (b a).toNat = v % 256 := by
      rw [show b a = byte v 0 from h 0 (by omega), byte]
      simp
    have hrest : littleEndian b (a + 1) n = v / 256 := by
      refine ih (by rw [Nat.pow_succ] at hv; omega) fun i hi => ?_
      rw [Nat.add_assoc, Nat.add_comm 1 i, h (i + 1) (by omega), byte, byte, Nat.div_div_eq_div_mul,
        Nat.pow_succ, Nat.mul_comm 256]
    rw [littleEndian, hhead, hrest]
    omega

/-- A number in `n` bytes, the lowest first. -/
def numberCodec (n : ℕ) : Codec ℕ where
  size := n
  fits v := v < 256 ^ n
  load b := littleEndian b 0 n
  store v _ := byte v
  load_congr h := littleEndian_congr fun i hi => h _ (by omega)
  load_store h _ := littleEndian_byte h fun i _ => by rw [Nat.zero_add]

end Tach.Records
