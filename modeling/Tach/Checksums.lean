import Tach.PartitionScans

/-!
The checksum of blk_part.c as a division of polynomials over the field of two elements. The lowest
bit of a register and of a byte stands for the highest power.
-/

namespace Tach.Partitions

open Polynomial Actions Sectors Finset

noncomputable section

variable {w : ℕ}

def coded (x : BitVec w) : (ZMod 2)[X] :=
  ∑ i ∈ Finset.range w, if x.getLsbD i then X ^ (w - 1 - i) else 0

/-- The first byte of a message has the highest powers. -/
def message : List UInt8 → (ZMod 2)[X]
  | [] => 0
  | b :: m => coded b.toBitVec * X ^ (8 * m.length) + message m

def generator : (ZMod 2)[X] :=
  X ^ 32 + X ^ 26 + X ^ 23 + X ^ 22 + X ^ 16 + X ^ 12 + X ^ 11 + X ^ 10 + X ^ 8 + X ^ 7 + X ^ 5 +
    X ^ 4 + X ^ 2 + X + 1

theorem coded_degree (x : BitVec w) : (coded x).degree < w := by
  refine mem_degreeLT.mp (Submodule.sum_mem _ fun i hi => ?_)
  split
  · have hi := mem_range.mp hi
    rw [mem_degreeLT, degree_X_pow]
    exact_mod_cast (by omega : w - 1 - i < w)
  · exact Submodule.zero_mem _

theorem coded_xor (x y : BitVec w) : coded (x ^^^ y) = coded x + coded y := by
  unfold coded
  rw [← sum_add_distrib]
  refine sum_congr rfl fun i _ => ?_
  rw [BitVec.getLsbD_xor]
  cases x.getLsbD i <;> cases y.getLsbD i <;> simp [CharTwo.add_self_eq_zero]

/-- A shift multiplies by `X`, but for the bit that falls out. -/
theorem coded_shift (x : BitVec (w + 1)) :
    coded (x >>> 1) + (if x.getLsbD 0 then X ^ (w + 1) else 0) = X * coded x := by
  have htop : x.getLsbD (1 + w) = false := BitVec.getLsbD_of_ge x (1 + w) (by omega)
  unfold coded
  rw [sum_range_succ, BitVec.getLsbD_ushiftRight, htop, Finset.sum_range_succ', mul_add,
    mul_sum]
  congr 1
  · rw [if_neg (by decide), add_zero]
    refine sum_congr rfl fun i hi => ?_
    have hi := mem_range.mp hi
    rw [BitVec.getLsbD_ushiftRight, Nat.add_comm 1 i, mul_ite, mul_zero, ← pow_succ',
      show w + 1 - 1 - (i + 1) + 1 = w + 1 - 1 - i by omega]
  · rw [mul_ite, mul_zero, ← pow_succ']
    rfl

theorem coded_polynomial : coded 0xEDB88320#32 + X ^ 32 = generator := by
  unfold coded generator
  simp [sum_range_succ]
  ring

theorem bitStep_toBitVec (c : UInt32) : (bitStep c).toBitVec =
    c.toBitVec >>> 1 ^^^ if c.toBitVec.getLsbD 0 then 0xEDB88320#32 else 0 := by
  rw [bitStep, UInt32.toBitVec_xor, UInt32.toBitVec_and, UInt32.toBitVec_sub, UInt32.toBitVec_and,
    UInt32.toBitVec_one, BitVec.and_one_eq_setWidth_ofBool_getLsbD]
  cases c.toBitVec.getLsbD 0 <;> rfl

theorem coded_byte (b : UInt8) : coded b.toUInt32.toBitVec = X ^ 24 * coded b.toBitVec := by
  unfold coded
  rw [sum_range_add _ 8 24, mul_sum]
  have hhigh : ∑ i ∈ range 24, (if b.toUInt32.toBitVec.getLsbD (8 + i) then
      X ^ (32 - 1 - (8 + i)) else (0 : (ZMod 2)[X])) = 0 := by
    refine sum_eq_zero fun i _ => if_neg ?_
    rw [UInt8.toBitVec_toUInt32, BitVec.getLsbD_setWidth, BitVec.getLsbD_of_ge _ _ (by omega)]
    simp
  rw [hhigh, add_zero]
  refine sum_congr rfl fun i hi => ?_
  have hi := mem_range.mp hi
  rw [UInt8.toBitVec_toUInt32, BitVec.getLsbD_setWidth, decide_eq_true (by omega), Bool.true_and,
    mul_ite, mul_zero, ← pow_add, show 24 + (8 - 1 - i) = 32 - 1 - i by omega]

def residue : (ZMod 2)[X] →+* AdjoinRoot generator := AdjoinRoot.mk generator

/-- A round of the loop multiplies by `X`, modulo the generator. -/
theorem residue_bitStep (c : UInt32) :
    residue (coded (bitStep c).toBitVec) = residue (X * coded c.toBitVec) := by
  rw [bitStep_toBitVec, coded_xor, ← coded_shift]
  cases c.toBitVec.getLsbD 0 with
  | false => simp [coded]
  | true =>
    have hzero : residue (X ^ 32 - coded 0xEDB88320#32) = 0 := by
      rw [CharTwo.sub_eq_add, add_comm, coded_polynomial]
      exact AdjoinRoot.mk_self
    rw [if_pos rfl, if_pos rfl, map_add, map_add, add_right_inj, eq_comm, ← sub_eq_zero, ← map_sub]
    exact hzero

theorem residue_byteStep (c : UInt32) (b : UInt8) : residue (coded (byteStep c b).toBitVec) =
    residue (X ^ 8 * coded c.toBitVec + X ^ 32 * coded b.toBitVec) := by
  have hrounds (n : ℕ) (d : UInt32) :
      residue (coded (bitStep^[n] d).toBitVec) = residue (X ^ n * coded d.toBitVec) := by
    induction n with
    | zero => rw [pow_zero, one_mul, Function.iterate_zero_apply]
    | succ n ih =>
      rw [Function.iterate_succ_apply', residue_bitStep, map_mul, ih, ← map_mul, pow_succ', mul_assoc]
  rw [byteStep, hrounds, UInt32.toBitVec_xor, coded_xor, coded_byte]
  refine congrArg _ ?_
  ring

theorem residue_foldl (m : List UInt8) (c : UInt32) :
    residue (coded (m.foldl byteStep c).toBitVec) =
      residue (X ^ (8 * m.length) * coded c.toBitVec + X ^ 32 * message m) := by
  induction m generalizing c with
  | nil => simp [message]
  | cons b m ih =>
    rw [List.foldl_cons, ih, map_add, map_mul, residue_byteStep, ← map_mul, ← map_add, message,
      List.length_cons]
    refine congrArg _ ?_
    ring

/-- The register after a message is the remainder of the division. -/
theorem coded_foldl (m : List UInt8) (c : UInt32) : coded (m.foldl byteStep c).toBitVec =
    (X ^ (8 * m.length) * coded c.toBitVec + X ^ 32 * message m) %ₘ generator := by
  have hmonic : generator.Monic := by
    unfold generator
    monicity!
  have hdegree : generator.degree = 32 := by
    unfold generator
    compute_degree!
  have hsmall := (modByMonic_eq_self_iff hmonic).mpr
    ((coded_degree (m.foldl byteStep c).toBitVec).trans_eq hdegree.symm)
  rw [← hsmall]
  exact modByMonic_eq_of_dvd_sub hmonic (AdjoinRoot.mk_eq_mk.mp (residue_foldl m c))

end

/-- The sector that a read of sector `lba` gets: its byte offset has 64 bits. -/
def wrapped (v : View) : View := fun lba => v (lba * 512 % 2 ^ 64 / 512)

section Tables

variable {disk : Device} {v : View} {s : Scan} {lba : ℕ}

theorem ends_gptRead : Ends (gptRead disk v lba) s fun r _ => ∀ x, r = .ok x → x = wrapped v lba := by
  have hread : Ends (readSector disk v lba) s fun r _ => ∀ x, r = .ok x → x = wrapped v lba := by
    unfold readSector
    dsimp only
    split
    · exact Ends.fail nofun
    refine Ends.bind (Ends.of_forall (Q := fun _ _ => True) fun _ _ => trivial) ?_ fun _ _ _ => nofun
    rintro (_ | e) t -
    · exact Ends.ret fun x hx => (Except.ok.inj hx).symm
    · exact Ends.fail nofun
  refine hread.attempt_bind ?_
  rintro (e | x) t hx
  · exact Ends.fail nofun
  · exact Ends.ret hx

theorem ends_tableCrc {n remaining : ℕ} {crc : UInt32} (hn : remaining ≤ 512 * n) :
    Ends (tableCrc disk v n lba remaining crc) s fun r _ =>
      ∀ c, r = .ok c → c = blkCrc32 crc (stretch (wrapped v) lba remaining) := by
  induction n generalizing lba remaining crc s with
  | zero =>
    obtain rfl : remaining = 0 := by omega
    refine Ends.ret fun c hc => (Except.ok.inj hc).symm.trans ?_
    exact UInt32.not_not.symm
  | succ n ih =>
    refine ends_gptRead.bind (fun x t hx => ?_) fun _ _ _ => nofun
    refine (ih (by omega)).mono fun r u hr c hc => ?_
    rw [hr c hc, hx x rfl, blkCrc32_append, ← stretch_eq]

end Tables

end Tach.Partitions
