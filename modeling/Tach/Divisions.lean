import Tach.Slabs

/-!
The divisions written out with shifts and subtractions: next to that of slab.c those of printf.c,
time.c and the user's ext.c, and those that stand for the compiler's helpers on rv32 (divdi3.c) and
arm32 (aeabi.c). They differ in the width of the loop, in what they make of a divisor of zero and in
the part of the result they return.
-/

namespace Tach.Divisions

open Slabs
open KernelHeap (Arch)

section Code

/-- The loop of a width, from the highest bit on. -/
def divide (A : Arch) (n d : ℕ) : ℕ × ℕ := divideLoop A n d (8 * A.word) (0, 0)

/-- `divmod_u64` of printf.c, which returns the remainder as an `unsigned`. -/
def divmodU64 (value base : ℕ) : ℕ × ℕ :=
  let x := divide .bits64 value base
  (x.1, x.2 % 2 ^ 32)

def divmodSmall (v base : ℕ) : ℕ × ℕ :=
  if v / 2 ^ 32 = 0 then (v / base, v % base)
  else
    let x := divide .bits64 v base
    (x.1, x.2 % 2 ^ 32)

def timerDivideU64 (dividend divisor : ℕ) : ℕ := (divide .bits64 dividend divisor).1

/-- `divmod_u64` of divdi3.c. -/
def rv32DivmodU64 (n d : ℕ) : ℕ × ℕ := if d = 0 then (0, n) else divide .bits64 n d

def udivdi3 (n d : ℕ) : ℕ := (rv32DivmodU64 n d).1

def umoddi3 (n d : ℕ) : ℕ := (rv32DivmodU64 n d).2

/-- `__udivmod64` of aeabi.c, where `__aeabi_ldiv0` is zero. -/
def udivmod64 (n d : ℕ) : ℕ × ℕ := if d = 0 then (0, n) else divide .bits64 n d

def aeabiUidiv (n d : ℕ) : ℕ := if d = 0 then 0 else (divide .bits32 n d).1

variable {w : ℕ}

def magnitude (n : BitVec w) : BitVec w := if n.msb then 0 - n else n

def signedDivide (divide : ℕ → ℕ → ℕ) (n d : BitVec w) : BitVec w :=
  let q := BitVec.ofNat w (divide (magnitude n).toNat (magnitude d).toNat)
  if n.msb ≠ d.msb then 0 - q else q

def divdi3 : BitVec 64 → BitVec 64 → BitVec 64 := signedDivide udivdi3

def aeabiIdiv : BitVec 32 → BitVec 32 → BitVec 32 := signedDivide aeabiUidiv

def moddi3 (n d : BitVec 64) : BitVec 64 :=
  let rem := BitVec.ofNat 64 (umoddi3 (magnitude n).toNat (magnitude d).toNat)
  if n.msb then 0 - rem else rem

end Code

theorem divide_eq {A : Arch} {n d : ℕ} (hn : n < A.limit) (hd : 0 < d) :
    divide A n d = (n / d, n % d) := by
  have hslab := slabDivide_eq hn hd
  rwa [slabDivide, if_neg (by omega)] at hslab

theorem udivmod64_eq {n d : ℕ} (hn : n < 2 ^ 64) (hd : 0 < d) : udivmod64 n d = (n / d, n % d) := by
  rw [udivmod64, if_neg (by omega), divide_eq (A := .bits64) hn hd]

theorem udivdi3_eq {n d : ℕ} (hn : n < 2 ^ 64) (hd : 0 < d) : udivdi3 n d = n / d :=
  congrArg Prod.fst (udivmod64_eq hn hd)

theorem aeabiUidiv_eq {n d : ℕ} (hn : n < 2 ^ 32) (hd : 0 < d) : aeabiUidiv n d = n / d := by
  rw [aeabiUidiv, if_neg (by omega), divide_eq (A := .bits32) hn hd]

section Signed

variable {w : ℕ} {n d : BitVec w} {divide : ℕ → ℕ → ℕ}

theorem magnitude_pos (hd : d ≠ 0) : 0 < (magnitude d).toNat := by
  have hne : magnitude d ≠ 0#w := by
    unfold magnitude
    split
    · rw [BitVec.ofNat_eq_ofNat, BitVec.zero_sub, ne_eq, BitVec.neg_eq_zero_iff]
      exact hd
    · exact hd
  rw [Nat.pos_iff_ne_zero]
  exact fun h => hne (BitVec.eq_of_toNat_eq (h.trans BitVec.toNat_zero.symm))

/-- The quotient of the magnitudes with the sign of the operands is the signed one. -/
theorem signedDivide_eq (hdivide : ∀ {n d}, n < 2 ^ w → 0 < d → divide n d = n / d) (hd : d ≠ 0) :
    signedDivide divide n d = n.sdiv d := by
  have hquot : BitVec.ofNat w (divide (magnitude n).toNat (magnitude d).toNat) =
      (magnitude n).udiv (magnitude d) := by
    rw [hdivide (magnitude n).isLt (magnitude_pos hd), BitVec.udiv_eq, ← BitVec.toNat_udiv,
      BitVec.ofNat_toNat, BitVec.setWidth_eq]
  rw [signedDivide, hquot, BitVec.sdiv_eq]
  cases hn : n.msb <;> cases hd : d.msb <;> simp [magnitude, hn, hd]

end Signed

theorem moddi3_eq {n d : BitVec 64} (hd : d ≠ 0) : moddi3 n d = n.srem d := by
  have hrem : BitVec.ofNat 64 (umoddi3 (magnitude n).toNat (magnitude d).toNat) =
      magnitude n % magnitude d := by
    rw [umoddi3, rv32DivmodU64, ← udivmod64, udivmod64_eq (magnitude n).isLt (magnitude_pos hd),
      ← BitVec.toNat_umod, BitVec.ofNat_toNat, BitVec.setWidth_eq]
  rw [moddi3, hrem, BitVec.srem_eq]
  cases hn : n.msb <;> cases hd : d.msb <;> simp [magnitude, hn, hd]

/-- Every division is exact, and the signed ones truncate towards zero. -/
theorem divisions_exact : (∀ A n d, n < A.limit → 0 < d → slabDivide A n d = (n / d, n % d)) ∧
    (∀ n d, n < 2 ^ 64 → 0 < d → d < 2 ^ 32 → divmodU64 n d = (n / d, n % d) ∧
      divmodSmall n d = (n / d, n % d) ∧ timerDivideU64 n d = n / d) ∧
    (∀ n d, n < 2 ^ 64 → 0 < d → rv32DivmodU64 n d = (n / d, n % d) ∧ udivdi3 n d = n / d ∧
      umoddi3 n d = n % d ∧ udivmod64 n d = (n / d, n % d)) ∧
    (∀ n d, n < 2 ^ 32 → 0 < d → aeabiUidiv n d = n / d) ∧
    (∀ n d, d ≠ 0 → (n ≠ BitVec.intMin 64 ∨ d ≠ -1) →
      (divdi3 n d).toInt = n.toInt.tdiv d.toInt ∧ (moddi3 n d).toInt = n.toInt.tmod d.toInt ∧
      n.toInt = (divdi3 n d).toInt * d.toInt + (moddi3 n d).toInt) ∧
    ∀ n d, d ≠ 0 → (n ≠ BitVec.intMin 32 ∨ d ≠ -1) →
      (aeabiIdiv n d).toInt = n.toInt.tdiv d.toInt := by
  refine ⟨fun A n d => slabDivide_eq, ?_, ?_, fun n d => aeabiUidiv_eq, ?_, ?_⟩
  · intro n d hn hd hsmall
    have hmod : n % d % 2 ^ 32 = n % d := Nat.mod_eq_of_lt ((Nat.mod_lt n hd).trans hsmall)
    simp only [divmodU64, divmodSmall, timerDivideU64, divide_eq (A := .bits64) hn hd, hmod,
      ite_self, and_self]
  · intro n d hn hd
    have h := udivmod64_eq hn hd
    exact ⟨h, udivdi3_eq hn hd, congrArg Prod.snd h, h⟩
  · intro n d hd hne
    have hquot : (divdi3 n d).toInt = n.toInt.tdiv d.toInt := by
      rw [divdi3, signedDivide_eq udivdi3_eq hd]
      exact BitVec.toInt_sdiv_of_ne_or_ne n d hne
    have hrem : (moddi3 n d).toInt = n.toInt.tmod d.toInt := by
      rw [moddi3_eq hd, BitVec.toInt_srem]
    refine ⟨hquot, hrem, ?_⟩
    rw [hquot, hrem, Int.tdiv_mul_add_tmod]
  · intro n d hd hne
    rw [aeabiIdiv, signedDivide_eq aeabiUidiv_eq hd]
    exact BitVec.toInt_sdiv_of_ne_or_ne n d hne

end Tach.Divisions
