import Tach.Interleaving
import Tach.KernelHeap

/-!
Reading the files of procfs.c. All of them share one snapshot: a read at offset 0, or of another file
than the snapshot is of, generates the text of the file anew, and a read takes its piece from the
snapshot as it then is. The descriptors read in any order, and the text that a generator emits may be
another one each time. A descriptor gets the pieces of one text as long as no text is generated for
another one while it is midway.
-/

namespace Tach.Procfs

open List Interleaving
open KernelHeap (Arch)

section Model

/-- `PROCFS_FILE_COUNT`. -/
def fileCount : ℕ := 7

/-- `PROCFS_BUFFER_SIZE`. -/
def bufferSize : ℕ := 2048

/-- `g_data` up to `g_length`, and `g_owner`. -/
structure Snapshot where
  data : List UInt8
  owner : Option (Fin fileCount)

/-- What `procfs_putc` keeps of the characters that a generator emits. -/
def kept (emitted : List UInt8) : List UInt8 := emitted.take (bufferSize - 1)

def Generates (s : Snapshot) (index : Fin fileCount) (offset : ℕ) : Prop :=
  offset = 0 ∨ s.owner ≠ some index

instance (s : Snapshot) (index : Fin fileCount) (offset : ℕ) : Decidable (Generates s index offset) :=
  inferInstanceAs (Decidable (_ ∨ _))

/-- `procfs_read` of a file, whose generator would emit this now. -/
def procfsRead (A : Arch) (emitted : List UInt8) (index : Fin fileCount) (count offset : ℕ)
    (s : Snapshot) : List UInt8 × Snapshot :=
  let s := if Generates s index offset then ⟨kept emitted, some index⟩ else s
  ((s.data.drop (offset % A.limit)).take count, s)

/-- A descriptor of a file. `text` is the one that was generated at its read at offset 0, as long as
it reads on from there, `pieces` what it got of it, and `ended` says that it met the end. -/
structure Reader where
  file : Fin fileCount
  offset : ℕ
  text : Option (List UInt8)
  pieces : List (List UInt8)
  ended : Bool

inductive Call
  | read (count : ℕ) (emitted : List UInt8)
  | lseek (offset : ℕ)

/-- What a descriptor keeps of a read that returned a piece of the snapshot `s`. -/
def Reader.got (r : Reader) (count : ℕ) (piece : List UInt8) (s : Snapshot) : Reader :=
  { r with
    offset := r.offset + piece.length
    text := if r.offset = 0 then some s.data else if r.ended then none else r.text
    pieces := (if r.offset = 0 then [] else r.pieces) ++ [piece]
    ended := 0 < count ∧ piece = [] }

def program (A : Arch) : Program Call Snapshot Reader
  | .read count emitted, s, r =>
    let result := procfsRead A emitted r.file count r.offset s
    some (result.2, r.got count result.1 result.2)
  | .lseek offset, s, r =>
    some (s, { r with offset := offset, text := none, pieces := [], ended := false })

/-- The pieces are consecutive slices of the text and, at the end of the file, all of it. -/
def Reader.Consistent (r : Reader) : Prop :=
  ∀ text ∈ r.text, r.pieces.flatten <+: text ∧ (r.ended = true → r.pieces.flatten = text)

/-- A descriptor that has read a part of its text. -/
def Reader.Midway (r : Reader) : Prop := r.text.isSome ∧ r.offset ≠ 0 ∧ r.ended = false

instance (r : Reader) : Decidable r.Midway := inferInstanceAs (Decidable (_ ∧ _ ∧ _))

variable {ι : Type*} [DecidableEq ι]

/-- No text is generated while another descriptor is midway. -/
def Undisturbed (w : World ι Snapshot Reader) (i : ι) : Call → Prop
  | .read _ _ => Generates w.shared (w.thread i).file (w.thread i).offset →
      ∀ j, j ≠ i → ¬(w.thread j).Midway
  | .lseek _ => True

instance [Fintype ι] (w : World ι Snapshot Reader) (i : ι) (c : Call) :
    Decidable (Undisturbed w i c) :=
  match c with
  | .read _ _ => inferInstanceAs (Decidable (_ → ∀ j, j ≠ i → ¬_))
  | .lseek _ => inferInstanceAs (Decidable True)

def start (files : ι → Fin fileCount) : World ι Snapshot Reader :=
  ⟨⟨[], none⟩, fun i => ⟨files i, 0, none, [], false⟩⟩

end Model

section Pieces

variable {A : Arch} {s : Snapshot} {r : Reader} {text emitted : List UInt8} {count : ℕ}

/-- The pieces make up the text up to the offset, and midway the snapshot is this text. -/
structure Reader.Follows (s : Snapshot) (r : Reader) (text : List UInt8) : Prop where
  pieces : r.pieces.flatten = text.take r.offset
  within : r.offset ≤ text.length
  short : text.length < bufferSize
  ended : r.ended = true → r.offset = text.length
  snapshot : r.Midway → s = ⟨text, some r.file⟩

/-- The next piece of the text that a descriptor follows. -/
theorem Reader.got_follows (hs : s = ⟨text, some r.file⟩) (hshort : text.length < bufferSize)
    (hwithin : r.offset ≤ text.length)
    (hbefore : (if r.offset = 0 then [] else r.pieces).flatten = text.take r.offset) :
    (r.got count ((text.drop r.offset).take count) s).Follows s text where
  pieces := by
    change ((if r.offset = 0 then [] else r.pieces) ++ [_]).flatten = text.take (r.offset + _)
    rw [flatten_append, hbefore, flatten_singleton, take_add, length_take, ← take_eq_take_min]
  within := by
    change r.offset + ((text.drop r.offset).take count).length ≤ text.length
    rw [length_take, length_drop]
    omega
  short := hshort
  ended hend := by
    obtain ⟨hcount, hpiece⟩ := of_decide_eq_true hend
    have hlength := congrArg List.length hpiece
    rw [length_take, length_drop, length_nil] at hlength
    change r.offset + ((text.drop r.offset).take count).length = text.length
    rw [hpiece, length_nil]
    omega
  snapshot _ := hs

/-- A read of a descriptor that has a text afterwards. -/
theorem read_follows (hr : ∀ text ∈ r.text, r.Follows s text)
    (htext : text ∈ (r.got count (procfsRead A emitted r.file count r.offset s).1
      (procfsRead A emitted r.file count r.offset s).2).text) :
    (r.got count (procfsRead A emitted r.file count r.offset s).1
      (procfsRead A emitted r.file count r.offset s).2).Follows
        (procfsRead A emitted r.file count r.offset s).2 text := by
  have hlimit : bufferSize < A.limit := by cases A <;> decide
  by_cases hzero : r.offset = 0
  · have hread : procfsRead A emitted r.file count r.offset s =
        (((kept emitted).drop r.offset).take count, ⟨kept emitted, some r.file⟩) := by
      rw [procfsRead, if_pos (.inl hzero), hzero, Nat.zero_mod]
    rw [hread] at htext ⊢
    have heq : text = kept emitted := by simpa [Reader.got, hzero] using htext.symm
    subst heq
    refine Reader.got_follows rfl ?_ (by omega) (by simp [hzero])
    exact Nat.lt_of_le_of_lt (length_take_le _ _) (by decide)
  · have hold : r.ended = false ∧ text ∈ r.text := by
      cases hend : r.ended <;> simp_all [Reader.got]
    obtain ⟨hend, hmem⟩ := hold
    have hf := hr text hmem
    have hs := hf.snapshot ⟨Option.isSome_of_mem hmem, hzero, hend⟩
    have hread : procfsRead A emitted r.file count r.offset s =
        ((text.drop r.offset).take count, s) := by
      have hkeep : ¬Generates s r.file r.offset := by
        rw [hs]
        simp [Generates, hzero]
      have hmod : r.offset % A.limit = r.offset :=
        Nat.mod_eq_of_lt (by have := hf.within; have := hf.short; omega)
      rw [procfsRead, if_neg hkeep, hmod, hs]
    rw [hread]
    refine Reader.got_follows hs hf.short hf.within ?_
    rw [if_neg hzero]
    exact hf.pieces

variable {ι : Type*} [DecidableEq ι] {w u : World ι Snapshot Reader}

def Steady (w : World ι Snapshot Reader) : Prop :=
  ∀ i, ∀ text ∈ (w.thread i).text, (w.thread i).Follows w.shared text

theorem steady_step {i : ι} {c : Call} (h : Steady w) (hok : Undisturbed w i c)
    (hstep : w.step (program A) i c = some u) : Steady u := by
  obtain ⟨s, r, hnext, rfl⟩ := World.step_cases hstep
  intro j text htext
  rw [World.put_shared]
  cases c with
  | lseek offset =>
    cases hnext
    by_cases hj : j = i
    · subst hj
      rw [World.put_self] at htext
      cases htext
    · rw [World.put_other hj] at htext ⊢
      exact h j text htext
  | read count emitted =>
    cases hnext
    by_cases hj : j = i
    · subst hj
      rw [World.put_self] at htext ⊢
      exact read_follows (h j) htext
    · rw [World.put_other hj] at htext ⊢
      have hf := h j text htext
      refine { hf with snapshot := fun hmid => ?_ }
      rw [procfsRead, if_neg fun hgen => hok hgen j hj hmid]
      exact hf.snapshot hmid

/-- Descriptors of `/proc/version` and `/proc/uname`. -/
def two : World (Fin 2) Snapshot Reader := start fun i => ⟨i, Nat.lt_of_lt_of_le i.2 (by decide)⟩

end Pieces

end Tach.Procfs
