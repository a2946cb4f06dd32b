import Tach.LinkedLists
import Tach.Tilings
import Tach.UserHeap

/-!
The code of the user heap on the list of its blocks. The headers do not overlap, so that a store into
one of them is a change of one record. Each function is followed from its stores to the list it
leaves; the loop of `free` joins free neighbours all over the list.
-/

namespace Tach.UserHeap

open Function List BlockLists LinkedLists Records
open KernelHeap (Arch)

structure Block where
  addr : ℕ
  size : ℕ
  free : Bool
  deriving DecidableEq

def Block.cell (b : Block) (_ next : ℕ) : Header := ⟨b.size, next, b.free⟩

def links : Links Block Header where
  addr := Block.addr
  cell := Block.cell
  withPrevious _ h := h
  withNext x h := { h with next := x }
  withPrevious_cell _ _ _ _ := rfl
  withNext_cell _ _ _ _ := rfl

def Block.len (A : Arch) (b : Block) : ℕ := blockHeader A + b.size

section Headers

variable {A : Arch} {s : Heap} {L P R : List Block} {b c : Block} {hdr : ℕ → Header} {p n : ℕ}

theorem blockHeader_pos (A : Arch) : 0 < blockHeader A := by cases A <;> decide

theorem codec_size_le (A : Arch) : (codec A).size ≤ blockHeader A := by cases A <;> decide

theorem Block.header_le_len (A : Arch) (b : Block) : blockHeader A ≤ b.len A := Nat.le_add_right ..

theorem Block.len_pos (A : Arch) (b : Block) : 0 < b.len A :=
  Nat.lt_of_lt_of_le (blockHeader_pos A) (b.header_le_len A)

theorem header_fits (A : Arch) (s : Heap) (a : ℕ) : (s.header A a).Fits A.word where
  size := ByteBlock.littleEndian_lt ..
  next := ByteBlock.littleEndian_lt ..

/-- There are no links backwards. -/
theorem setPrevious_links (hdr : ℕ → Header) (a x : ℕ) : setPrevious links hdr a x = hdr := by
  unfold setPrevious
  split_ifs
  · exact update_eq_self ..
  · rfl

/-- The blocks are linked in memory in this order, from `heap_head` to `heap_tail`. -/
structure Holds (A : Arch) (s : Heap) (L : List Block) : Prop where
  linked : Linked links (s.header A) 0 L 0
  head : s.head = headOr links L 0
  tail : s.tail = lastOr links L 0

abbrev Spread (A : Arch) (L : List Block) : Prop :=
  BlockLists.Spread Block.addr (Block.len A) A.limit L

theorem Holds.header (h : Holds A s (P ++ b :: R)) :
    s.header A b.addr = ⟨b.size, headOr links R 0, b.free⟩ := (linked_append.mp h.linked).2.1

namespace Spread

theorem apart (h : Spread A L) : Apart (blockHeader A) (L.map Block.addr) := by
  intro a ha c hc hne
  obtain ⟨b, hb, rfl⟩ := mem_map.mp ha
  obtain ⟨d, hd, rfl⟩ := mem_map.mp hc
  have hbd : b ≠ d := fun heq => hne (by rw [heq])
  exact (h.separate hb hd hbd).mono le_rfl (Nat.add_le_add_left (b.header_le_len A) _) le_rfl
    (Nat.add_le_add_left (d.header_le_len A) _)

theorem lt (h : Spread A L) (hb : b ∈ L) : b.addr + blockHeader A ≤ A.limit ∧ b.addr < A.limit := by
  have hend := (h.within b hb).2
  have hlen := b.header_le_len A
  have hpos := blockHeader_pos A
  omega

theorem distinct (h : Spread A L) : Distinct links L := by
  refine ⟨h.nodup (Block.len_pos A), fun hmem => ?_⟩
  obtain ⟨b, hb, hzero⟩ := mem_map.mp hmem
  exact (h.within b hb).1 hzero

end Spread

end Headers

section Edits

variable {A : Arch} {s : Heap} {P R Q L : List Block} {b c : Block}

theorem lastOr_replace (haddr : c.addr = b.addr) :
    lastOr links (P ++ c :: R) 0 = lastOr links (P ++ b :: R) 0 := by
  rw [lastOr_append, lastOr_append]
  exact congrArg (lastOr links R) haddr

theorem headOr_replace (haddr : c.addr = b.addr) :
    headOr links (P ++ c :: Q) 0 = headOr links (P ++ b :: R) 0 := by
  rw [headOr_append, headOr_append]
  exact congrArg (headOr links P) haddr

/-- A block changes its size or its state, and keeps its place. -/
theorem modify_holds {f : Header → Header} (h : Holds A s (P ++ b :: R)) (hL : Spread A (P ++ b :: R))
    (haddr : c.addr = b.addr) (hf : ∀ n, f ⟨b.size, n, b.free⟩ = ⟨c.size, n, c.free⟩)
    (hsize : c.size < A.limit) : Holds A (s.modify A b.addr f) (P ++ c :: R) ∧
      ∀ x, x < b.addr ∨ b.addr + blockHeader A ≤ x → (s.modify A b.addr f).mem x = s.mem x := by
  have hheader := h.header
  have hfits := header_fits A s b.addr
  rw [hheader] at hfits
  have hbmem : b.addr ∈ (P ++ b :: R).map Block.addr := by simp
  have hedit := (Edited.refl (codec A) (blockHeader A) ((P ++ b :: R).map Block.addr) s.mem).write
    (codec_size_le A) hL.apart hbmem (x := f (s.header A b.addr)) (by
      rw [hheader, hf]
      exact ⟨hsize, hfits.next⟩)
  refine ⟨⟨?_, ?_, ?_⟩, fun x hx => ?_⟩
  · refine (h.linked.replace hL.distinct haddr).congr fun d hd => (hedit.sees d.addr ?_).trans ?_
    · have haddrs : (P ++ c :: R).map Block.addr = (P ++ b :: R).map Block.addr := by simp [haddr]
      exact haddrs ▸ mem_map_of_mem hd
    · rw [hheader, hf]
      rfl
  · rw [headOr_replace haddr]
    exact h.head
  · rw [lastOr_replace haddr]
    exact h.tail
  · have := codec_size_le A
    exact put_outside (by omega)

theorem blockSplit_holds {wanted : ℕ} {r : Block} (h : Holds A s (P ++ b :: R))
    (hr : r = ⟨b.addr + blockHeader A + wanted, b.size - wanted - blockHeader A, true⟩)
    (hL : Spread A (P ++ b :: R)) (hL' : Spread A (P ++ { b with size := wanted } :: r :: R))
    (hlimit : wanted + blockHeader A + 16 < A.limit) (hroom : wanted + blockHeader A + 16 ≤ b.size) :
    Holds A (blockSplit A s b.addr wanted) (P ++ { b with size := wanted } :: r :: R) ∧
      (blockSplit A s b.addr wanted).stop = s.stop ∧
      (blockSplit A s b.addr wanted).ready = s.ready ∧
      ∀ x, (∀ a ∈ (P ++ { b with size := wanted } :: r :: R).map Block.addr,
          x < a ∨ a + blockHeader A ≤ x) →
        (blockSplit A s b.addr wanted).mem x = s.mem x := by
  have hheader := h.header
  have hfits := header_fits A s b.addr
  rw [hheader] at hfits
  obtain ⟨S, hS⟩ : ∃ S, S = (P ++ { b with size := wanted } :: r :: R).map Block.addr := ⟨_, rfl⟩
  have hrmem : r.addr ∈ S := by simp [hS]
  have hbmem : b.addr ∈ S := by simp [hS]
  have hraddr : r.addr = b.addr + blockHeader A + wanted := by rw [hr]
  have hne : b.addr ≠ r.addr := by
    have := blockHeader_pos A
    omega
  have hapart : Apart (blockHeader A) S := hS ▸ hL'.apart
  have hrlt := (hL'.lt (b := r) (by simp)).2
  have hfirst := (Edited.refl (codec A) (blockHeader A) S s.mem).write (codec_size_le A) hapart hrmem
    (x := (⟨b.size - wanted - blockHeader A, headOr links R 0, true⟩ : Header))
    ⟨lt_of_le_of_lt (by dsimp only; omega) hfits.size, hfits.next⟩
  have hsecond := hfirst.write (codec_size_le A) hapart hbmem
    (x := (⟨wanted, r.addr, b.free⟩ : Header)) ⟨show wanted < A.limit by omega, hrlt⟩
  have hcode : blockSplit A s b.addr wanted = { s with
        mem := (codec A).write ((codec A).write s.mem r.addr
          ⟨b.size - wanted - blockHeader A, headOr links R 0, true⟩) b.addr ⟨wanted, r.addr, b.free⟩
        tail := if s.tail = b.addr then r.addr else s.tail } := by
    have hkept : (codec A).read ((codec A).write s.mem r.addr
        ⟨b.size - wanted - blockHeader A, headOr links R 0, true⟩) b.addr =
        ⟨b.size, headOr links R 0, b.free⟩ := by
      rw [hfirst.sees b.addr hbmem, update_of_ne hne]
      exact hheader
    unfold blockSplit
    rw [hheader, if_neg (by rw [Nat.mod_eq_of_lt hlimit]; dsimp only; omega)]
    simp only [Heap.modify, Heap.header, ← hraddr, hkept]
  have hlist : P ++ [b] ++ r :: R = P ++ b :: r :: R := by simp
  have hdistinct : Distinct links (P ++ b :: r :: R) := hL'.distinct.congr (by simp [links])
  refine ⟨⟨?_, ?_, ?_⟩, by rw [hcode], by rw [hcode], fun x hx => ?_⟩
  · -- the rest is put behind the block, which then changes its size
    have hput := Linked.insert (by simpa using h.linked)
      (hlist ▸ hdistinct)
    rw [setPrevious_links, lastOr_append, hlist] at hput
    have hnew := hput.replace (d := { b with size := wanted }) hdistinct rfl
    rw [show lastOr links [b] (lastOr links P 0) = b.addr from rfl, LinkedLists.setNext,
      if_pos (hL.within b (by simp)).1] at hnew
    rw [hcode]
    refine hnew.congr fun d hd => (hsecond.sees d.addr (hS ▸ mem_map_of_mem hd)).trans ?_
    rw [hr]
    exact congrFun (update_idem ..).symm _
  · rw [hcode]
    refine h.head.trans ?_
    rw [headOr_append, headOr_append]
    rfl
  · -- the rest is the last block if the block was
    rw [hcode]
    rw [h.tail, lastOr_append, lastOr_append]
    exact lastOr_swap (Spread.distinct hL).not_mem.2
  · rw [hcode]
    exact hsecond.frame x fun a ha => hx a (hS ▸ ha)

theorem growHeap_holds {size : ℕ} (requested : ℕ) (h : Holds A s L)
    (hb : b = ⟨s.stop, size, false⟩) (hL : Spread A (L ++ [b])) (hsize : size < A.limit) :
    Holds A (growHeap A s size requested) (L ++ [b]) ∧
      (growHeap A s size requested).stop = requested ∧
      (growHeap A s size requested).ready = s.ready ∧
      ∀ x, (∀ a ∈ (L ++ [b]).map Block.addr, x < a ∨ a + blockHeader A ≤ x) →
        (growHeap A s size requested).mem x = s.mem x := by
  have hstop : b.addr = s.stop := by rw [hb]
  have htmem (ht : s.tail ≠ 0) : s.tail ∈ (L ++ [b]).map Block.addr := by
    rw [h.tail] at ht ⊢
    rw [map_append]
    exact mem_append_left _ (lastOr_mem_of_ne ht)
  obtain ⟨m, hm⟩ : ∃ m, m = (codec A).write s.mem b.addr ⟨size, 0, false⟩ := ⟨_, rfl⟩
  have hfirst := (Edited.refl (codec A) (blockHeader A) ((L ++ [b]).map Block.addr) s.mem).write
    (codec_size_le A) hL.apart (a := b.addr) (by simp) (x := (⟨size, 0, false⟩ : Header))
    ⟨hsize, Nat.pow_pos (by decide)⟩
  rw [← hm] at hfirst
  have hcode : growHeap A s size requested =
      ⟨if s.tail ≠ 0 then (codec A).write m s.tail { (codec A).read m s.tail with next := b.addr } else m,
        if s.tail ≠ 0 then s.head else b.addr, b.addr, requested, s.ready, requested⟩ := by
    by_cases ht : s.tail = 0 <;> simp [growHeap, Heap.modify, Heap.header, hm, hstop, ht]
  have hsecond : Edited (codec A) (blockHeader A) ((L ++ [b]).map Block.addr) s.mem
      (growHeap A s size requested).mem
      (setNext links (update (s.header A) b.addr ⟨size, 0, false⟩) s.tail b.addr) := by
    rw [hcode]
    unfold setNext
    split_ifs with ht
    · have hfits := header_fits A { s with mem := m } s.tail
      have hread := hfirst.sees s.tail (htmem ht)
      rw [Heap.header, hread] at hfits
      rw [hread]
      exact hfirst.write (codec_size_le A) hL.apart (htmem ht)
        ⟨hfits.size, (hL.lt (by simp)).2⟩
    · exact hfirst
  have hnew := Linked.insert (by simpa using h.linked) hL.distinct
  rw [setPrevious_links, ← h.tail, show links.cell b s.tail _ = ⟨size, 0, false⟩ by rw [hb]; rfl] at hnew
  refine ⟨⟨hnew.congr fun d hd => hsecond.sees d.addr (mem_map_of_mem hd), ?_, ?_⟩, rfl, ?_,
    hsecond.frame⟩
  · rw [hcode, h.tail, h.head]
    cases L with
    | nil => rfl
    | cons d L =>
      refine if_pos fun hzero => (hL.distinct.sublist (sublist_append_left _ [b])).pos ?_
      exact hzero ▸ lastOr_mem (by simp)
  · rw [hcode, lastOr_append]
    rfl
  · rw [hcode]

def Block.join (A : Arch) (b c : Block) : Block := { b with size := b.size + (blockHeader A + c.size) }

theorem absorb_holds (h : Holds A s (P ++ b :: c :: R)) (hL : Spread A (P ++ b :: c :: R))
    (hsize : b.size + (blockHeader A + c.size) < A.limit) :
    Holds A (absorb A s b.addr c.addr) (P ++ b.join A c :: R) ∧
      (absorb A s b.addr c.addr).stop = s.stop ∧ (absorb A s b.addr c.addr).ready = s.ready ∧
      ∀ x, x < b.addr ∨ b.addr + blockHeader A ≤ x →
        (absorb A s b.addr c.addr).mem x = s.mem x := by
  have hheader : s.header A b.addr = ⟨b.size, c.addr, b.free⟩ := h.header
  have hlist : P ++ b :: c :: R = (P ++ [b]) ++ c :: R := by simp
  have hcheader : s.header A c.addr = ⟨c.size, headOr links R 0, c.free⟩ :=
    Holds.header (by rw [← hlist]; exact h)
  have hcfits := header_fits A s c.addr
  rw [hcheader] at hcfits
  have hbmem : b.addr ∈ (P ++ b :: c :: R).map Block.addr := by simp
  have hedit := (Edited.refl (codec A) (blockHeader A) ((P ++ b :: c :: R).map Block.addr) s.mem).write
    (codec_size_le A) hL.apart hbmem
    (x := (⟨b.size + (blockHeader A + c.size), headOr links R 0, b.free⟩ : Header))
    ⟨hsize, hcfits.next⟩
  have hcode : absorb A s b.addr c.addr = { s with
        mem := (codec A).write s.mem b.addr
          ⟨b.size + (blockHeader A + c.size), headOr links R 0, b.free⟩
        tail := if s.tail = c.addr then b.addr else s.tail } := by
    simp only [absorb, Heap.modify, hheader, hcheader]
  refine ⟨⟨?_, ?_, ?_⟩, by rw [hcode], by rw [hcode], fun x hx => ?_⟩
  · -- the block changes its size, and the one behind it is taken out
    have hput := h.linked.replace (d := b.join A c) hL.distinct rfl
    have hdistinct : Distinct links (P ++ [b.join A c] ++ c :: R) :=
      hL.distinct.congr (by simp [links, Block.join])
    have hnew := Linked.remove (by simpa using hput) hdistinct
    rw [setPrevious_links, lastOr_append, append_assoc] at hnew
    change Linked links (setNext links (update (s.header A) b.addr _) b.addr _) 0
      (P ++ b.join A c :: R) 0 at hnew
    rw [setNext_update (hL.within b (by simp)).1] at hnew
    rw [hcode]
    refine hnew.congr fun d hd => hedit.sees d.addr ?_
    have hmem := mem_map_of_mem (f := Block.addr) hd
    simp only [map_append, map_cons, mem_append, mem_cons] at hmem ⊢
    exact hmem.imp_right fun h => h.imp_right .inr
  · rw [hcode]
    refine h.head.trans ?_
    rw [headOr_append, headOr_append]
    rfl
  · -- the block is the last one if the other was
    rw [hcode]
    rw [h.tail, lastOr_append, lastOr_append]
    rw [hlist] at hL
    exact lastOr_swap (Spread.distinct hL).not_mem.2
  · rw [hcode]
    have := codec_size_le A
    exact put_outside (by omega)

/-- The walk over the list: the first free block that is large enough. -/
theorem firstFit_eq {fuel p : ℕ} (size : ℕ) (h : Linked links (s.header A) p L 0)
    (hpos : ∀ b ∈ L, b.addr ≠ 0) (hfuel : L.length ≤ fuel) :
    firstFit A s size fuel (headOr links L 0) =
      ((L.find? fun b => b.free && decide (size ≤ b.size)).map Block.addr).getD 0 := by
  refine h.walk_eq hpos hfuel (fun k => by cases k <;> rfl) fun k b p n hcell hne => ?_
  rw [firstFit, if_neg hne, hcell]
  exact if_congr (by simp [links, Block.cell]) rfl rfl

end Edits

end Tach.UserHeap
