import Tach.KernelHeap
import Tach.LinkedLists
import Tach.Tilings

/-!
The code of the heap on the list of its blocks. Headers of different blocks do not overlap, so that a
store into one of them is a change of one record, and memory outside of the headers stays as it is.
Each function that relinks blocks is followed from its stores to the list it leaves.
-/

namespace Tach.KernelHeap

open Function List LinkedLists Records ByteBlock

/-- A block of the heap: its address, size and state, and its pages if it has some. -/
structure Block where
  addr : ℕ
  size : ℕ
  free : Bool
  pages : ℕ
  pmm : Bool
  deriving DecidableEq

def Block.cell (b : Block) (previous next : ℕ) : Header :=
  ⟨heapMagic, if b.pmm then fromPmm else 0, b.size, b.pages, b.free, previous, next⟩

def links : Links Block Header where
  addr := Block.addr
  cell := Block.cell
  withPrevious x h := { h with previous := x }
  withNext x h := { h with next := x }
  withPrevious_cell _ _ _ _ := rfl
  withNext_cell _ _ _ _ := rfl

variable {n : ℕ}

section Headers

variable {A : Arch} {s : Heap} {a c x : ℕ} {f : Header → Header}

theorem Arch.limit_pos (A : Arch) : 0 < A.limit := by cases A <;> decide

theorem codec_size_le (A : Arch) : A.codec.size ≤ headerSize A := by
  cases A <;> decide

theorem header_fits (A : Arch) (s : Heap) (a : ℕ) : (s.header A a).Fits A.word where
  magic := littleEndian_lt ..
  flags := littleEndian_lt ..
  size := littleEndian_lt ..
  pages := littleEndian_lt ..
  previous := littleEndian_lt ..
  next := littleEndian_lt ..

theorem header_modify_self (h : (f (s.header A a)).Fits A.word) :
    (s.modify A a f).header A a = f (s.header A a) := A.codec.read_write_self h

theorem header_modify (h : Separate a (headerSize A) c (headerSize A)) :
    (s.modify A a f).header A c = s.header A c := by
  have hle := codec_size_le A
  exact A.codec.read_write (h.mono le_rfl (by omega) le_rfl (by omega))

theorem modify_mem (h : x < a ∨ a + headerSize A ≤ x) : (s.modify A a f).mem x = s.mem x := by
  have := codec_size_le A
  exact put_outside (by omega)

theorem header_clear (h : Separate a n c (headerSize A)) :
    (s.clear a n).header A c = s.header A c := by
  have hle := codec_size_le A
  exact A.codec.read_put (h.mono le_rfl le_rfl le_rfl (by omega))

theorem clear_mem (h : x < a ∨ a + n ≤ x) : (s.clear a n).mem x = s.mem x :=
  put_outside (f := fun _ => 0) h

theorem copy_mem {src : ℕ} (h : x < a ∨ a + n ≤ x) : (s.copy a src n).mem x = s.mem x :=
  put_outside (f := fun i => s.mem (src + i)) h

theorem copy_copied {src i : ℕ} (h : i < n) : (s.copy a src n).mem (a + i) = s.mem (src + i) :=
  put_inside (f := fun i => s.mem (src + i)) h

theorem header_clear_self (h : A.codec.size ≤ n) :
    (s.clear a n).header A a = ⟨0, 0, 0, 0, false, 0, 0⟩ := by
  have hzero : (s.clear a n).header A a = A.codec.load fun _ => 0 :=
    A.codec.load_congr fun i hi =>
      put_inside (f := fun _ => 0) (by omega)
  rw [hzero]
  cases A <;> rfl

end Headers

section Edits

variable {A : Arch} {S : List ℕ} {s t : Heap} {hdr : ℕ → Header} {a x : ℕ} {f : Header → Header}

/-- From `s` to `t` only headers at addresses of `S` were stored into, and they are `hdr` now. -/
structure Edited (A : Arch) (S : List ℕ) (s t : Heap) (hdr : ℕ → Header) : Prop extends
    Records.Edited A.codec (headerSize A) S s.mem t.mem hdr where
  ready : t.ready = s.ready

namespace Edited

theorem refl (A : Arch) (S : List ℕ) (s : Heap) : Edited A S s s (s.header A) :=
  ⟨.refl .., rfl⟩

variable (h : Edited A S s t hdr)
include h

theorem header (ha : a ∈ S) : t.header A a = hdr a := h.sees a ha

theorem fits (ha : a ∈ S) : (hdr a).Fits A.word :=
  h.sees a ha ▸ header_fits A t a

variable (hS : Apart (headerSize A) S)
include hS

theorem modify (ha : a ∈ S) (hf : (f (hdr a)).Fits A.word) :
    Edited A S s (t.modify A a f) (update hdr a (f (hdr a))) := by
  refine ⟨?_, h.ready⟩
  rw [← h.header ha] at hf ⊢
  exact h.toEdited.write (codec_size_le A) hS ha hf

theorem setPrevious (ha : a ≠ 0 → a ∈ S) (hx : x < A.limit) :
    Edited A S s (if a ≠ 0 then t.modify A a fun h => { h with previous := x } else t)
      (setPrevious links hdr a x) := by
  unfold LinkedLists.setPrevious
  split_ifs with hne
  · have hfits := h.fits (ha hne)
    exact h.modify hS (ha hne) { hfits with previous := hx }
  · exact h

theorem setNext (ha : a ≠ 0 → a ∈ S) (hx : x < A.limit) :
    Edited A S s (if a ≠ 0 then t.modify A a fun h => { h with next := x } else t)
      (setNext links hdr a x) := by
  unfold LinkedLists.setNext
  split_ifs with hne
  · have hfits := h.fits (ha hne)
    exact h.modify hS (ha hne) { hfits with next := hx }
  · exact h

end Edited

end Edits

section Lists

variable {A : Arch} {s : Heap} {L P R : List Block} {b c : Block}

/-- The blocks are linked in memory in this order, from `g_blocks` on. -/
structure Holds (A : Arch) (s : Heap) (L : List Block) : Prop where
  linked : Linked links (s.header A) 0 L 0
  head : s.blocks = headOr links L 0

/-- Blocks that are not at 0, have room for their headers below the end of memory and do not
overlap. -/
structure Placed (A : Arch) (L : List Block) : Prop where
  pos : ∀ b ∈ L, b.addr ≠ 0
  below : ∀ b ∈ L, b.addr + headerSize A ≤ A.limit
  apart : Apart (headerSize A) (L.map Block.addr)
  nodup : (L.map Block.addr).Nodup

namespace Placed

variable (h : Placed A L)
include h

theorem distinct : Distinct links L := by
  refine ⟨h.nodup, fun hmem => ?_⟩
  obtain ⟨b, hb, hzero⟩ := mem_map.mp hmem
  exact h.pos b hb hzero

theorem lt (hb : b ∈ L) : b.addr < A.limit := by
  have := h.below b hb
  have : 0 < headerSize A := by cases A <;> decide
  omega

theorem headOr_lt : headOr links L 0 < A.limit := by
  cases L with
  | nil => cases A <;> decide
  | cons b L => exact h.lt mem_cons_self

theorem sublist {M : List Block} (hs : M.Sublist L) : Placed A M where
  pos b hb := h.pos b (hs.subset hb)
  below b hb := h.below b (hs.subset hb)
  apart a ha c hc := h.apart a ((hs.map _).subset ha) c ((hs.map _).subset hc)
  nodup := h.nodup.sublist (hs.map _)

theorem congr {M : List Block} (haddr : M.map Block.addr = L.map Block.addr) : Placed A M := by
  have hmem {b : Block} (hb : b ∈ M) : ∃ c ∈ L, c.addr = b.addr := by
    have := mem_map_of_mem (f := Block.addr) hb
    rw [haddr] at this
    exact mem_map.mp this
  refine ⟨fun b hb => ?_, fun b hb => ?_, haddr ▸ h.apart, haddr ▸ h.nodup⟩
  · obtain ⟨c, hc, hcb⟩ := hmem hb
    exact hcb ▸ h.pos c hc
  · obtain ⟨c, hc, hcb⟩ := hmem hb
    exact hcb ▸ h.below c hc

end Placed

theorem appendBlock_holds {p : ℕ} (h : Holds A s L) (hL : Placed A (b :: L))
    (hb : s.header A b.addr = b.cell p n) : Holds A (appendBlock A s b.addr) (b :: L) ∧
      ∀ x, (∀ a ∈ (b :: L).map Block.addr, x < a ∨ a + headerSize A ≤ x) →
        (appendBlock A s b.addr).mem x = s.mem x := by
  have hfits := header_fits A s b.addr
  have hhead : s.blocks < A.limit := by
    rw [h.head]
    exact (hL.sublist (sublist_cons_self b L)).headOr_lt
  have hedit := ((Edited.refl A ((b :: L).map Block.addr) s).modify hL.apart mem_cons_self
    (f := fun h => { h with previous := 0, next := s.blocks })
    { hfits with previous := A.limit_pos, next := hhead }).setPrevious hL.apart
    (a := s.blocks)
    (fun hne => mem_cons_of_mem _ (by rw [h.head] at hne ⊢; exact headOr_mem_of_ne hne))
    (hL.lt mem_cons_self)
  rw [hb] at hedit
  have hnew := Linked.insert (l := []) h.linked hL.distinct
  rw [lastOr, setNext_zero, ← h.head] at hnew
  exact ⟨⟨hnew.congr fun c hc => hedit.sees c.addr (mem_map_of_mem hc), rfl⟩, hedit.frame⟩

theorem Placed.lastOr_lt (h : Placed A L) : lastOr links L 0 < A.limit := by
  by_cases hzero : lastOr links L 0 = 0
  · rw [hzero]
    exact A.limit_pos
  · obtain ⟨b, hb, haddr⟩ := mem_map.mp (lastOr_mem_of_ne hzero)
    exact haddr ▸ h.lt hb

section

variable (h : Holds A s (P ++ b :: R))
include h

theorem Holds.header : s.header A b.addr = b.cell (lastOr links P 0) (headOr links R 0) :=
  (linked_append.mp h.linked).2.1

theorem removeBlock_holds (hL : Placed A (P ++ b :: R)) :
    Holds A (removeBlock A s b.addr) (P ++ R) ∧
      (removeBlock A s b.addr).header A b.addr = s.header A b.addr ∧
      (removeBlock A s b.addr).ready = s.ready ∧
      ∀ x, (∀ a ∈ (P ++ b :: R).map Block.addr, x < a ∨ a + headerSize A ≤ x) →
        (removeBlock A s b.addr).mem x = s.mem x := by
  have hP := hL.sublist (sublist_append_left P (b :: R))
  have hbR := hL.sublist (sublist_append_right P (b :: R))
  have hheader := h.header
  have hsub {a : ℕ} (ha : a ∈ P.map Block.addr ∨ a ∈ R.map Block.addr) :
      a ∈ (P ++ b :: R).map Block.addr := by
    rw [map_append, map_cons, mem_append, mem_cons]
    exact ha.imp_right Or.inr
  -- the two links around the block
  have hfirst : Edited A ((P ++ b :: R).map Block.addr) s (if lastOr links P 0 ≠ 0 then
      s.modify A (lastOr links P 0) fun p => { p with next := headOr links R 0 }
      else { s with blocks := headOr links R 0 })
      (setNext links (s.header A) (lastOr links P 0) (headOr links R 0)) := by
    have hnext := (Edited.refl A ((P ++ b :: R).map Block.addr) s).setNext hL.apart
      (a := lastOr links P 0) (fun hne => hsub (.inl (lastOr_mem_of_ne hne)))
      (hbR.sublist (sublist_cons_self b R)).headOr_lt
    unfold LinkedLists.setNext at hnext ⊢
    split_ifs at hnext ⊢
    · exact hnext
    · exact ⟨⟨fun _ _ => rfl, fun _ _ => rfl⟩, rfl⟩
  generalize hs : (if lastOr links P 0 ≠ 0 then
      s.modify A (lastOr links P 0) fun p => { p with next := headOr links R 0 }
      else { s with blocks := headOr links R 0 } : Heap) = s₁ at hfirst
  have hbmem : b.addr ∈ (P ++ b :: R).map Block.addr := by simp
  have hkept : s₁.header A b.addr = s.header A b.addr := by
    rw [hfirst.header hbmem]
    exact setNext_of_ne hL.distinct.ne_lastOr
  have hcode : removeBlock A s b.addr = if headOr links R 0 ≠ 0 then
      s₁.modify A (headOr links R 0) fun n => { n with previous := lastOr links P 0 } else s₁ := by
    simp only [removeBlock, hheader, Block.cell, hs, hkept]
  have hsecond := hfirst.setPrevious hL.apart (a := headOr links R 0)
    (fun hne => hsub (.inr (headOr_mem_of_ne hne))) hP.lastOr_lt
  rw [← hcode] at hsecond
  refine ⟨⟨?_, ?_⟩, ?_, hsecond.ready, hsecond.frame⟩
  · refine (h.linked.remove hL.distinct).congr fun c hc => hsecond.sees c.addr (hsub ?_)
    rw [← mem_append, ← map_append]
    exact mem_map_of_mem hc
  · have hblocks : (removeBlock A s b.addr).blocks = s₁.blocks := by
      rw [hcode]
      split_ifs <;> rfl
    rw [hblocks, ← hs]
    cases P with
    | nil => rfl
    | cons c P =>
      have hc : lastOr links (c :: P) 0 ≠ 0 := fun hzero =>
        hP.distinct.pos (hzero ▸ lastOr_mem (by simp))
      rw [if_pos hc]
      exact h.head
  · rw [hsecond.header hbmem, ← hkept, hfirst.header hbmem]
    exact setPrevious_of_ne hL.distinct.ne_headOr

/-- A block changes its size or its state, and keeps its place and its links. -/
theorem modify_holds {f : Header → Header} (hL : Placed A (P ++ b :: R)) (haddr : c.addr = b.addr)
    (hf : ∀ p n, f (b.cell p n) = c.cell p n) (hsize : c.size < A.limit)
    (hpages : c.pages = b.pages) : Holds A (s.modify A b.addr f) (P ++ c :: R) ∧
      ∀ x, x < b.addr ∨ b.addr + headerSize A ≤ x → (s.modify A b.addr f).mem x = s.mem x := by
  have hheader := h.header
  have hfits := header_fits A s b.addr
  rw [hheader] at hfits
  have hcfits : (f (s.header A b.addr)).Fits A.word := by
    rw [hheader, hf]
    refine ⟨hfits.magic, ?_, hsize, by rw [Block.cell, hpages]; exact hfits.pages, hfits.previous,
      hfits.next⟩
    simp only [Block.cell, fromPmm]
    split_ifs <;> decide
  have hedit := (Edited.refl A ((P ++ b :: R).map Block.addr) s).modify hL.apart
    (by simp) hcfits
  rw [hheader, hf] at hedit
  refine ⟨⟨?_, ?_⟩, fun x hx => modify_mem hx⟩
  · refine (h.linked.replace hL.distinct haddr).congr fun d hd => hedit.sees d.addr ?_
    have haddrs : (P ++ c :: R).map Block.addr = (P ++ b :: R).map Block.addr := by simp [haddr]
    exact haddrs ▸ mem_map_of_mem hd
  · change s.blocks = _
    rw [h.head, headOr_append, headOr_append]
    exact congrArg (headOr links P) haddr.symm

theorem splitArenaBlock_holds {wanted : ℕ} {r : Block}
    (hr : r = ⟨b.addr + headerSize A + wanted, b.size - wanted - headerSize A, true, 0, false⟩)
    (hL : Placed A (P ++ { b with size := wanted } :: r :: R)) (hpmm : b.pmm = false)
    (hlimit : wanted + headerSize A + 16 < A.limit) (hroom : wanted + headerSize A + 16 ≤ b.size) :
    Holds A (splitArenaBlock A s b.addr wanted) (P ++ { b with size := wanted } :: r :: R) ∧
      ∀ x, (∀ a ∈ (P ++ { b with size := wanted } :: r :: R).map Block.addr,
          x < a ∨ a + headerSize A ≤ x) →
        (splitArenaBlock A s b.addr wanted).mem x = s.mem x := by
  have hheader := h.header
  obtain ⟨S, hS⟩ : ∃ S, S = ((P ++ [b]) ++ r :: R).map Block.addr := ⟨_, rfl⟩
  have hlist : (P ++ { b with size := wanted } :: r :: R).map Block.addr = S := by simp [hS]
  rw [hlist]
  have hplaced : Placed A ((P ++ [b]) ++ r :: R) := hL.congr (hS.symm.trans hlist.symm)
  have hR := hplaced.sublist ((sublist_cons_self r R).trans (sublist_append_right (P ++ [b]) _))
  obtain ⟨hrP, hrR⟩ := hplaced.distinct.not_mem
  have hbr : b.addr ≠ r.addr := fun heq => hrP (by simp [links, heq])
  have hbR : b.addr ≠ headOr links R 0 := by
    have hrest := hplaced.sublist (Sublist.append_left (sublist_cons_self r R) (P ++ [b]))
    rw [append_assoc] at hrest
    exact hrest.distinct.ne_headOr
  have hapart : Apart (headerSize A) S := hS ▸ hplaced.apart
  have hrmem : r.addr ∈ S := by simp [hS]
  have hbmem : b.addr ∈ S := by simp [hS]
  have hRmem {a : ℕ} (ha : a ∈ R.map Block.addr) : a ∈ S := by
    rw [hS, map_append]
    exact mem_append_right _ (mem_cons_of_mem _ ha)
  -- the header of the remainder is cleared first
  obtain ⟨t, ht⟩ : ∃ t, t = s.clear r.addr A.codec.size := ⟨_, rfl⟩
  have hother {a : ℕ} (ha : a ∈ S) (hne : a ≠ r.addr) : t.header A a = s.header A a := by
    have hle := codec_size_le A
    rw [ht]
    exact header_clear ((hapart r.addr hrmem a ha hne.symm).mono le_rfl (by omega) le_rfl le_rfl)
  obtain ⟨f, hf⟩ : ∃ f, f = Header.remainder (b.size - wanted - headerSize A) b.addr
      (headOr links R 0) := ⟨_, rfl⟩
  have hcell : f (t.header A r.addr) = r.cell b.addr (headOr links R 0) := by
    rw [ht, header_clear_self (le_refl A.codec.size), hf, hr]
    rfl
  have hbfits := header_fits A s b.addr
  rw [hheader] at hbfits
  have hcode : splitArenaBlock A s b.addr wanted = (if headOr links R 0 ≠ 0 then
        (t.modify A r.addr f).modify A (headOr links R 0) fun n => { n with previous := r.addr }
      else t.modify A r.addr f).modify A b.addr fun h => { h with next := r.addr, size := wanted } := by
    unfold splitArenaBlock
    rw [hheader, if_neg]
    · rw [ht, hf, hr]
      rfl
    · simp only [Block.cell, Header.isPmm, hpmm]
      rw [Nat.mod_eq_of_lt hlimit]
      simp
      omega
  have hfirst := (Edited.refl A S t).modify hapart hrmem (f := f) (by
    rw [hcell, hr]
    exact ⟨hbfits.magic, show 0 < 256 ^ 4 by decide,
      lt_of_le_of_lt (show b.size - wanted - headerSize A ≤ b.size by omega) hbfits.size, A.limit_pos,
      hplaced.lt (by simp), hR.headOr_lt⟩)
  rw [hcell] at hfirst
  have hsecond := hfirst.setPrevious hapart (a := headOr links R 0) (x := r.addr)
    (fun hne => hRmem (headOr_mem_of_ne hne)) (hplaced.lt (by simp))
  have hbsecond : setPrevious links (update (t.header A) r.addr (r.cell b.addr (headOr links R 0)))
      (headOr links R 0) r.addr b.addr = b.cell (lastOr links P 0) (headOr links R 0) := by
    rw [setPrevious_of_ne hbR, update_of_ne hbr, hother hbmem hbr, hheader]
  have hthird := hsecond.modify hapart hbmem (f := fun h => { h with next := r.addr, size := wanted })
    (by
      rw [hbsecond]
      exact { hbfits with
        next := hplaced.lt (by simp)
        size := (by show wanted < A.limit; omega) })
  rw [hbsecond, ← hcode] at hthird
  refine ⟨⟨?_, ?_⟩, fun x hx => ?_⟩
  · -- the remainder is put behind the block, which then changes its size
    have hold : Linked links (t.header A) 0 ((P ++ [b]) ++ R) 0 := by
      refine Linked.congr (by simpa using h.linked) fun c hc => ?_
      rcases mem_append.mp hc with hc | hc
      · exact hother (hS ▸ mem_map_of_mem (mem_append_left _ hc)) fun heq =>
          hrP (mem_map.mpr ⟨c, hc, heq⟩)
      · exact hother (hRmem (mem_map_of_mem hc)) fun heq => hrR (mem_map.mpr ⟨c, hc, heq⟩)
    have hput := hold.insert hplaced.distinct
    rw [lastOr_append, append_assoc] at hput
    have hnew := hput.replace (d := { b with size := wanted }) (by simpa using hplaced.distinct) rfl
    rw [show lastOr links [b] (lastOr links P 0) = b.addr from rfl, LinkedLists.setNext,
      if_pos (hplaced.pos b (by simp))] at hnew
    exact hnew.congr fun c hc => (hthird.sees c.addr (hlist ▸ mem_map_of_mem hc)).trans
      (congrFun (update_idem ..).symm _)
  · have hblocks : (splitArenaBlock A s b.addr wanted).blocks = s.blocks := by
      rw [hcode, ht]
      split_ifs <;> rfl
    rw [hblocks, h.head, headOr_append, headOr_append]
    rfl
  · rw [hthird.frame x hx, ht]
    refine clear_mem ?_
    have := hx r.addr hrmem
    have := codec_size_le A
    omega

end

def Block.join (A : Arch) (b c : Block) : Block := { b with size := b.size + (headerSize A + c.size) }

theorem absorb_holds (h : Holds A s (P ++ b :: c :: R)) (hL : Placed A (P ++ b :: c :: R))
    (hsize : b.size + (headerSize A + c.size) < A.limit) :
    Holds A (absorb A s b.addr (s.header A c.addr)) (P ++ b.join A c :: R) ∧
      ∀ x, (∀ a ∈ (P ++ b :: c :: R).map Block.addr, x < a ∨ a + headerSize A ≤ x) →
        (absorb A s b.addr (s.header A c.addr)).mem x = s.mem x := by
  have hheader := h.header
  have hcheader : s.header A c.addr = c.cell b.addr (headOr links R 0) := by
    have h' : Holds A s ((P ++ [b]) ++ c :: R) := by simpa using h
    rw [h'.header, lastOr_append]
    rfl
  have hR := hL.sublist (((sublist_cons_self c R).trans (sublist_cons_self b _)).trans
    (sublist_append_right P _))
  have hRmem {a : ℕ} (ha : a ∈ R.map Block.addr) : a ∈ (P ++ b :: c :: R).map Block.addr := by
    rw [map_append]
    exact mem_append_right _ (mem_cons_of_mem _ (mem_cons_of_mem _ ha))
  have hbfits := header_fits A s b.addr
  have hfirst := (Edited.refl A ((P ++ b :: c :: R).map Block.addr) s).modify hL.apart
    (by simp)
    (f := fun p => { p with size := p.size + (headerSize A + c.size), next := headOr links R 0 })
    { hbfits with
      size := (by rw [hheader]; exact hsize)
      next := hR.headOr_lt }
  have hsecond := hfirst.setPrevious hL.apart (a := headOr links R 0) (x := b.addr)
    (fun hne => hRmem (headOr_mem_of_ne hne)) (hL.lt (by simp))
  have hcode : absorb A s b.addr (s.header A c.addr) = if headOr links R 0 ≠ 0 then
        (s.modify A b.addr fun p => { p with
          size := p.size + (headerSize A + c.size), next := headOr links R 0 }).modify A
          (headOr links R 0) fun n => { n with previous := b.addr }
      else s.modify A b.addr fun p => { p with
          size := p.size + (headerSize A + c.size), next := headOr links R 0 } := by
    rw [hcheader]
    rfl
  rw [← hcode] at hsecond
  refine ⟨⟨?_, ?_⟩, hsecond.frame⟩
  · -- the block changes its size, and the one behind it is taken out
    have hput := h.linked.replace (d := b.join A c) hL.distinct rfl
    have hjoin : Placed A (P ++ [b.join A c] ++ c :: R) := hL.congr (by simp [Block.join])
    have hnew := Linked.remove (by simpa using hput) hjoin.distinct
    rw [lastOr_append, append_assoc] at hnew
    change Linked links (setPrevious links (setNext links (update (s.header A) b.addr _) b.addr _) _
      b.addr) 0 (P ++ b.join A c :: R) 0 at hnew
    rw [setNext_update (hL.pos b (by simp))] at hnew
    rw [hheader] at hsecond
    refine hnew.congr fun d hd => hsecond.sees d.addr ?_
    have hmem := mem_map_of_mem (f := Block.addr) hd
    simp only [map_append, map_cons, mem_append, mem_cons] at hmem ⊢
    exact hmem.imp_right fun h => h.imp_right .inr
  · have hblocks : (absorb A s b.addr (s.header A c.addr)).blocks = s.blocks := by
      rw [hcode]
      split_ifs <;> rfl
    rw [hblocks, h.head, headOr_append, headOr_append]
    rfl

/-- The walk over the list: the first free block that is large enough. -/
theorem firstFit_eq {fuel p : ℕ} (size : ℕ) (h : Linked links (s.header A) p L 0)
    (hpos : ∀ b ∈ L, b.addr ≠ 0) (hfuel : L.length ≤ fuel) :
    firstFit A s size fuel (headOr links L 0) =
      ((L.find? fun b => b.free && decide (size ≤ b.size)).map Block.addr).getD 0 := by
  refine h.walk_eq hpos hfuel (fun k => by cases k <;> rfl) fun k b p n hcell hne => ?_
  rw [firstFit, if_neg hne, hcell]
  change (if !b.free ∨ b.size < size then _ else _) = _
  by_cases hfit : b.free = true ∧ size ≤ b.size
  · rw [if_neg (by simp [hfit]), if_pos (by simp [hfit])]
  · rw [if_pos (by simpa [or_iff_not_imp_left] using hfit), if_neg (by simpa using hfit)]
    rfl

end Lists

end Tach.KernelHeap
