import Tach.HeapLists

/-!
The layout of the heap. The blocks of the page allocator come first, none of them free; those of the
arena tile it in the order of their addresses, and no two free ones are neighbours. `kmalloc`,
`kfree` and stores into blocks in use keep the layout, and no call changes a byte of a block that
stays in use.
-/

namespace Tach.KernelHeap

open List BlockLists Records Tilings Block

def Block.len (A : Arch) (b : Block) : ℕ := headerSize A + b.size

def span (A : Arch) (arena : ℕ × ℕ) : Option (ℕ × ℕ) :=
  if arena.1 = 0 ∨ arena.2 ≤ headerSize A + 16 then none
  else
    let base := (arena.1 + 15) / 16 * 16
    if arena.2 - (base - arena.1) ≤ headerSize A then none else some (base, arena.1 + arena.2)

def arenaBlock (A : Arch) (arena : ℕ × ℕ) : List Block :=
  match span A arena with
  | none => []
  | some (a, e) => [⟨a, e - a - headerSize A, true, 0, false⟩]

def Covers (A : Arch) (arena : ℕ × ℕ) (R : List Block) : Prop :=
  match span A arena with
  | none => R = []
  | some (a, e) => Tiles Block.addr (Block.len A) a R e

structure Block.Paged (A : Arch) (arena : ℕ × ℕ) (b : Block) : Prop where
  pmm : b.pmm = true
  used : b.free = false
  pages : b.len A = b.pages * pageSize
  pos : b.addr ≠ 0
  below : b.addr + b.len A ≤ A.limit
  outside : Separate arena.1 arena.2 b.addr (b.len A)

/-- Where the blocks of the heap lie: `P` from the page allocator, `R` of the arena. -/
structure Shape (A : Arch) (arena : ℕ × ℕ) (P R : List Block) : Prop where
  paged : ∀ b ∈ P, b.Paged A arena
  apart : P.Pairwise fun b c => Separate b.addr (b.len A) c.addr (c.len A)
  plain : ∀ b ∈ R, b.pmm = false ∧ b.pages = 0
  covers : Covers A arena R

/-- The blocks are linked in memory, and none is left to merge. -/
structure Layout (A : Arch) (arena : ℕ × ℕ) (s : Heap) (P R : List Block) : Prop extends
    Shape A arena P R where
  merged : Merged Block.free R
  holds : Holds A s (P ++ R)
  ready : s.ready = false → P ++ R = []

section Regions

variable {A : Arch} {arena : ℕ × ℕ} {P R L : List Block} {b c : Block}

theorem headerSize_pos (A : Arch) : 0 < headerSize A := by cases A <;> decide

theorem span_some {a e : ℕ} (h : span A arena = some (a, e)) :
    arena.1 ≤ a ∧ a ≠ 0 ∧ e = arena.1 + arena.2 ∧ a < e := by
  unfold span at h
  split_ifs at h with hnone
  dsimp only at h
  split_ifs at h
  cases h
  refine ⟨?_, ?_, rfl, ?_⟩ <;> omega

theorem Covers.mem (h : Covers A arena R) (hb : b ∈ R) :
    arena.1 ≤ b.addr ∧ b.addr ≠ 0 ∧ b.addr + b.len A ≤ arena.1 + arena.2 := by
  unfold Covers at h
  split at h
  · rw [h] at hb
    exact absurd hb not_mem_nil
  · rename_i a e hspan
    obtain ⟨hstart, hpos, hend, -⟩ := span_some hspan
    obtain ⟨hle, hbelow⟩ := h.mem hb
    exact ⟨by omega, by omega, by omega⟩

theorem Covers.pairwise (h : Covers A arena R) :
    R.Pairwise fun b c => Separate b.addr (b.len A) c.addr (c.len A) := by
  unfold Covers at h
  split at h
  · rw [h]
    exact .nil
  · exact h.pairwise.imp fun hle => .inl hle

/-- Blocks that do not overlap and lie in memory. -/
abbrev Spread (A : Arch) (L : List Block) : Prop :=
  BlockLists.Spread Block.addr (Block.len A) A.limit L

abbrev Block.Payload (A : Arch) (b : Block) (x : ℕ) : Prop :=
  BlockLists.Payload Block.addr (Block.len A) (headerSize A) b x

theorem Block.header_le_len (A : Arch) (b : Block) : headerSize A ≤ b.len A := Nat.le_add_right ..

theorem Block.len_pos (A : Arch) (b : Block) : 0 < b.len A :=
  Nat.lt_of_lt_of_le (headerSize_pos A) (b.header_le_len A)

theorem Spread.placed (h : Spread A L) : Placed A L where
  pos b hb := (h.within b hb).1
  below b hb := le_trans (Nat.add_le_add_left (b.header_le_len A) _) (h.within b hb).2
  apart a ha c hc hne := by
    obtain ⟨b, hb, rfl⟩ := mem_map.mp ha
    obtain ⟨d, hd, rfl⟩ := mem_map.mp hc
    have hbd : b ≠ d := fun heq => hne (by rw [heq])
    exact (h.separate hb hd hbd).mono le_rfl (Nat.add_le_add_left (b.header_le_len A) _) le_rfl
      (Nat.add_le_add_left (d.header_le_len A) _)
  nodup := h.nodup (len_pos A)

theorem Spread.outside {x : ℕ} (h : Spread A L) (hb : b ∈ L) (hx : b.Payload A x) {a : ℕ}
    (ha : a ∈ L.map addr) : x < a ∨ a + headerSize A ≤ x :=
  h.payload_header (header_le_len A) hb hx ha

namespace Shape

theorem spread (h : Shape A arena P R) (harena : arena.1 + arena.2 ≤ A.limit) :
    Spread A (P ++ R) where
  apart := by
    refine pairwise_append.mpr ⟨h.apart, h.covers.pairwise, fun b hb c hc => ?_⟩
    obtain ⟨hstart, -, hend⟩ := h.covers.mem hc
    exact ((h.paged b hb).outside.symm).mono le_rfl le_rfl hstart hend
  within b hb := by
    rcases mem_append.mp hb with hb | hb
    · exact ⟨(h.paged b hb).pos, (h.paged b hb).below⟩
    · obtain ⟨-, hpos, hend⟩ := h.covers.mem hb
      exact ⟨hpos, by omega⟩

/-- Blocks of the arena are exchanged for others in the same place. -/
theorem replace {R₁ R₂ N M : List Block} (h : Shape A arena P (R₁ ++ N ++ R₂)) (hN : N ≠ [])
    (hplain : ∀ b ∈ M, b.pmm = false ∧ b.pages = 0)
    (htiles : ∀ c d, Tiles addr (len A) c N d → Tiles addr (len A) c M d) :
    Shape A arena P (R₁ ++ M ++ R₂) where
  paged := h.paged
  apart := h.apart
  plain b hb := by
    rcases mem_append.mp hb with hb | hb
    · rcases mem_append.mp hb with hb | hb
      · exact h.plain b (mem_append_left _ (mem_append_left _ hb))
      · exact hplain b hb
    · exact h.plain b (mem_append_right _ hb)
  covers := by
    have hcovers := h.covers
    unfold Covers at hcovers ⊢
    split
    · rename_i hspan
      rw [hspan] at hcovers
      exact absurd (append_eq_nil_iff.mp (append_eq_nil_iff.mp hcovers).1).2 hN
    · rename_i hspan
      rw [hspan] at hcovers
      exact hcovers.replace htiles

end Shape

end Regions

section Allocation

variable {A : Arch} {arena : ℕ × ℕ} {s : Heap} {P R R₁ R₂ : List Block} {b : Block} {wanted : ℕ}

theorem splitArenaBlock_ready (A : Arch) (s : Heap) (block wanted : ℕ) :
    (splitArenaBlock A s block wanted).ready = s.ready := by
  simp only [splitArenaBlock]
  split_ifs <;> rfl

/-- The block that `kmalloc` found, cut if it is much too large, and no longer free. -/
theorem takeBlock_layout (h : Layout A arena s P (R₁ ++ [b] ++ R₂))
    (harena : arena.1 + arena.2 ≤ A.limit) (hfree : b.free = true) (hwanted : wanted ≤ b.size)
    (hlimit : wanted + headerSize A + 16 < A.limit) :
    ∃ c M, Layout A arena (takeBlock A s b.addr wanted).heap P (R₁ ++ c :: M ++ R₂) ∧
      c.addr = b.addr ∧ wanted ≤ c.size ∧ c.free = false ∧ used free M = [] ∧
      ∀ d ∈ used free (P ++ (R₁ ++ [b] ++ R₂)), ∀ x, d.Payload A x →
        (takeBlock A s b.addr wanted).heap.mem x = s.mem x := by
  simp only [takeBlock]
  obtain ⟨hpmm, hpages⟩ := h.plain b (by simp)
  have hspread := h.spread harena
  have hblocks : Holds A s (P ++ R₁ ++ b :: R₂) := by simpa using h.holds
  have hready : s.ready = true := by
    by_contra hready
    simpa using h.ready (by simpa using hready)
  have hmerged : Merged free (R₁ ++ b :: R₂) := by simpa using h.merged
  obtain ⟨hmerged₁, hmerged₂, -⟩ := isChain_append.mp hmerged
  have hmerged₂' : Merged free R₂ := (isChain_cons.mp hmerged₂).2
  have hbsize : b.size < A.limit := by
    have hbelow := (hspread.within b (by simp)).2
    have hpos := headerSize_pos A
    simp only [len] at hbelow
    omega
  by_cases hsmall : b.size < wanted + headerSize A + 16
  · have hsplit : splitArenaBlock A s b.addr wanted = s := by
      unfold splitArenaBlock
      rw [if_pos]
      right
      rw [hblocks.header, Nat.mod_eq_of_lt hlimit]
      exact hsmall
    rw [hsplit]
    obtain ⟨hholds, hframe⟩ := modify_holds (c := { b with free := false })
      (f := fun h => { h with free := false }) hblocks
      (hspread.placed.congr (by simp)) rfl (fun _ _ => rfl) hbsize rfl
    refine ⟨{ b with free := false }, [], ?_, rfl, hwanted, rfl, rfl, fun d hd x hx => ?_⟩
    · have hshape := h.toShape.replace (M := [{ b with free := false }]) (by simp)
        (by simp [hpmm, hpages]) fun c d ht => ht
      refine ⟨hshape, ?_, by simpa using hholds, fun hr => ?_⟩
      · rw [append_assoc]
        exact (merged_used rfl).mpr ⟨hmerged₁, hmerged₂'⟩
      · simp [Heap.modify, Heap.setHeader, hready] at hr
    · exact hframe x (hspread.outside (mem_used.mp hd).1 hx (mem_map_of_mem (by simp)))
  · obtain ⟨r, hr⟩ : ∃ r : Block,
        r = ⟨b.addr + headerSize A + wanted, b.size - wanted - headerSize A, true, 0, false⟩ := ⟨_, rfl⟩
    have hshape := h.toShape.replace (M := [{ b with size := wanted, free := false }, r]) (by simp)
      (by simp [hpmm, hpages, hr]) fun c d ht => by
        simp only [Tiles, len, hr] at ht ⊢
        omega
    have hplaced : Placed A (P ++ R₁ ++ { b with size := wanted } :: r :: R₂) :=
      (hshape.spread harena).placed.congr (by simp)
    obtain ⟨hholds, hframe⟩ := splitArenaBlock_holds hblocks hr hplaced hpmm hlimit (by omega)
    obtain ⟨hholds', hframe'⟩ := modify_holds (c := { b with size := wanted, free := false })
      (f := fun h => { h with free := false }) hholds hplaced rfl (fun _ _ => rfl)
      (show wanted < A.limit by omega) rfl
    refine ⟨{ b with size := wanted, free := false }, [r], ⟨hshape, ?_, by simpa using hholds', ?_⟩,
      rfl, le_rfl, rfl, by simp [used, hr], fun d hd x hx => ?_⟩
    · rw [append_assoc]
      exact (merged_used rfl).mpr ⟨hmerged₁, Merged.head hmerged₂ (by rw [hr, hfree])⟩
    · intro hr
      rw [show ((splitArenaBlock A s b.addr wanted).modify A b.addr _).ready = s.ready from
        splitArenaBlock_ready .., hready] at hr
      cases hr
    · -- a block in use is one of the new list too, and its bytes are in no header there
      have hdmem : d ∈ P ++ (R₁ ++ [{ b with size := wanted, free := false }, r] ++ R₂) := by
        obtain ⟨hdmem, hdused⟩ := mem_used.mp hd
        have hdb : d ≠ b := fun heq => by rw [heq, hfree] at hdused; cases hdused
        simp only [mem_append, mem_cons, not_mem_nil] at hdmem ⊢
        tauto
      have hheaders {a : ℕ} (ha) := (hshape.spread harena).outside (a := a) hdmem hx ha
      rw [hframe' x (hheaders (by simp)), hframe x fun a ha => hheaders (by simpa using ha)]

theorem appendBlock_ready (A : Arch) (s : Heap) (block : ℕ) :
    (appendBlock A s block).ready = s.ready := by
  simp only [appendBlock]
  split_ifs <;> rfl

theorem takePages_layout {a pages : ℕ} (h : Layout A arena s P R)
    (harena : arena.1 + arena.2 ≤ A.limit) (hready : s.ready = true)
    (hfresh : Fresh A arena (P.map fun b => (b.addr, b.pages)) pages (some a))
    (hroom : headerSize A ≤ pages * pageSize)
    (hb : b = ⟨a, pages * pageSize - headerSize A, false, pages, true⟩) :
    Layout A arena (takePages A s pages (some a)).heap (b :: P) R ∧
      ∀ d ∈ used free (P ++ R), ∀ x, d.Payload A x →
        (takePages A s pages (some a)).heap.mem x = s.mem x := by
  simp only [takePages]
  obtain ⟨hpos, hbelow, houtside, hruns⟩ := hfresh a rfl
  have hlen : b.len A = pages * pageSize := by
    rw [hb, len]
    dsimp only
    omega
  have hshape : Shape A arena (b :: P) R := by
    refine ⟨fun c hc => ?_, pairwise_cons.mpr ⟨fun c hc => ?_, h.apart⟩, h.plain, h.covers⟩
    · rcases mem_cons.mp hc with rfl | hc
      · rw [← hlen] at hbelow houtside
        subst hb
        exact ⟨rfl, rfl, hlen, hpos, hbelow, houtside⟩
      · exact h.paged c hc
    · rw [hlen, (h.paged c hc).pages, hb]
      exact (hruns (c.addr, c.pages) (mem_map_of_mem hc)).symm
  have hspread := hshape.spread harena
  have hplaced := hspread.placed
  have hsep {c : Block} (hc : c ∈ P ++ R) : Separate a (headerSize A) c.addr (headerSize A) := by
    have hca : c.addr ≠ b.addr := by
      have := (nodup_cons.mp hplaced.nodup).1
      exact fun heq => this (heq ▸ mem_map_of_mem hc)
    have hapart := hplaced.apart b.addr mem_cons_self c.addr
      (mem_cons_of_mem _ (mem_map_of_mem hc)) (Ne.symm hca)
    rwa [hb] at hapart
  have hsize : (pages * pageSize - headerSize A) % A.limit = pages * pageSize - headerSize A :=
    Nat.mod_eq_of_lt (by omega)
  have hpages : pages < A.limit := by
    have : pages ≤ pages * pageSize := Nat.le_mul_of_pos_right _ (by decide)
    omega
  -- the new header, with no links yet
  have hcell : ((s.clear a (headerSize A)).modify A a (.paged A pages)).header A b.addr = b.cell 0 0 := by
    have hzero := header_clear_self (s := s) (a := a) (codec_size_le A)
    have haddr : b.addr = a := by rw [hb]
    rw [haddr, header_modify_self, hzero, Header.paged, hsize, hb]
    · rfl
    · rw [hzero]
      exact ⟨show heapMagic < 256 ^ 4 by decide, show fromPmm < 256 ^ 4 by decide,
        Nat.mod_lt _ A.limit_pos, hpages, A.limit_pos, A.limit_pos⟩
  have hholds : Holds A ((s.clear a (headerSize A)).modify A a (.paged A pages)) (P ++ R) := by
    refine ⟨h.holds.linked.congr fun c hc => ?_, h.holds.head⟩
    change ((s.clear a (headerSize A)).modify A a _).header A c.addr = s.header A c.addr
    rw [header_modify (hsep hc), header_clear (hsep hc)]
  have haddr : a = b.addr := by rw [hb]
  obtain ⟨hnew, hframe⟩ := appendBlock_holds hholds hplaced hcell
  rw [← haddr] at hnew hframe
  refine ⟨⟨hshape, h.merged, hnew, fun hr => ?_⟩, fun d hd x hx => ?_⟩
  · rw [appendBlock_ready] at hr
    exact absurd (hready.symm.trans hr) (by simp)
  · have hdmem : d ∈ b :: P ++ R := mem_cons_of_mem _ (mem_used.mp hd).1
    have hheaders {c : ℕ} (hc : c ∈ (b :: P ++ R).map addr) :=
      hspread.outside hdmem hx hc
    have hxa : x < a ∨ a + headerSize A ≤ x := haddr ▸ hheaders mem_cons_self
    rw [hframe x fun c hc => hheaders hc, modify_mem hxa, clear_mem hxa]

/-- The requests for which there is room for a header and a page do not wrap around. -/
theorem request_sizes {size : ℕ} (h : size + headerSize A + pageSize ≤ A.limit) :
    size ≤ alignUp A size ∧ alignUp A size + headerSize A + 16 < A.limit ∧
      headerSize A + alignUp A size ≤ pagesFor A (alignUp A size) * pageSize := by
  have haligned : A.limit % 4096 = 0 ∧ headerSize A % 16 = 0 := by cases A <;> decide
  rw [pageSize] at h
  have hup : alignUp A size = (size + 15) / 16 * 16 := by
    rw [alignUp, Nat.mod_eq_of_lt (by omega)]
  have hpages : pagesFor A (alignUp A size) = (headerSize A + alignUp A size + 4095) / 4096 := by
    have hbytes : (headerSize A + alignUp A size) % A.limit = headerSize A + alignUp A size :=
      Nat.mod_eq_of_lt (by omega)
    rw [pagesFor, hbytes, pageSize, Nat.mod_eq_of_lt (by omega)]
    rfl
  rw [hpages, pageSize]
  omega

def Block.run (b : Block) : ℕ × ℕ := (b.addr, b.pages)

/-- What a call that hands out the block `b` leaves. -/
structure Grown (A : Arch) (arena : ℕ × ℕ) (s t : Heap) (P R P' R' : List Block) (b : Block) :
    Prop where
  layout : Layout A arena t P' R'
  inUse : (used Block.free (P' ++ R')).Perm (b :: used Block.free (P ++ R))
  frame : ∀ d ∈ used Block.free (P ++ R), ∀ x, d.Payload A x → t.mem x = s.mem x

/-- An allocation fails and changes nothing, or there is one block in use more. -/
def Allocates (A : Arch) (arena : ℕ × ℕ) (s : Heap) (P R : List Block) (size : ℕ) (r : Allocated) :
    Prop :=
  (r.pointer = 0 ∧ r.taken = none ∧ r.heap.mem = s.mem ∧ Layout A arena r.heap P R) ∨
    ∃ b P' R', Grown A arena s r.heap P R P' R' b ∧ r.pointer = b.addr + headerSize A ∧
      size ≤ b.size ∧ P'.map Block.run = take (P.map Block.run) b.addr r.taken

theorem kmalloc_layout {size : ℕ} {answer : Option ℕ} (h : Layout A arena s P R)
    (harena : arena.1 + arena.2 ≤ A.limit) (hmax : size + headerSize A + pageSize ≤ A.limit)
    (hfresh : Fresh A arena (P.map run) (pagesFor A (alignUp A size)) answer) :
    Allocates A arena s P R size (kmalloc A s size answer) := by
  by_cases hsize : size = 0
  · rw [kmalloc, if_pos hsize]
    exact .inl ⟨rfl, rfl, rfl, h⟩
  obtain ⟨hup, hlimit, hpages⟩ := request_sizes hmax
  -- the heap is ready from here on
  obtain ⟨t, ht, hmem, hready, hlayout⟩ : ∃ t, (if s.ready then s else kheapInit A s.mem 0 0) = t ∧
      t.mem = s.mem ∧ t.ready = true ∧ Layout A arena t P R := by
    cases hr : s.ready with
    | true => exact ⟨s, rfl, rfl, hr, h⟩
    | false =>
      have hnil := h.ready hr
      refine ⟨kheapInit A s.mem 0 0, rfl, rfl, rfl, h.toShape, h.merged, ?_, fun hf => hnil⟩
      rw [hnil]
      exact ⟨trivial, rfl⟩
  have hspread := hlayout.spread harena
  have hfit := firstFit_eq (alignUp A size) hlayout.holds.linked hspread.placed.pos
    (hspread.length_le (len_pos A))
  rw [← hlayout.holds.head] at hfit
  have hkmalloc : kmalloc A s size answer =
      if firstFit A t (alignUp A size) A.limit t.blocks ≠ 0 then
        takeBlock A t (firstFit A t (alignUp A size) A.limit t.blocks) (alignUp A size)
      else takePages A t (pagesFor A (alignUp A size)) answer := by
    rw [kmalloc, if_neg hsize]
    simp only [ht]
  rw [hkmalloc]
  cases hfind : (P ++ R).find? fun b => b.free && decide (alignUp A size ≤ b.size) with
  | some b =>
    have hb := List.find?_some hfind
    have hmemb := mem_of_find?_eq_some hfind
    simp only [Bool.and_eq_true, decide_eq_true_eq] at hb
    rw [hfind] at hfit
    have hbR : b ∈ R := by
      rcases mem_append.mp hmemb with hbP | hbR
      · rw [(hlayout.paged b hbP).used] at hb
        exact absurd hb.1 (by simp)
      · exact hbR
    obtain ⟨R₁, R₂, hR⟩ := append_of_mem hbR
    have hR' : R = R₁ ++ [b] ++ R₂ := by simpa using hR
    rw [hR'] at hlayout
    obtain ⟨c, M, hnew, haddr, hsizec, hused, hM, hframe⟩ :=
      takeBlock_layout hlayout harena hb.1 hb.2 hlimit
    replace hfit : firstFit A t (alignUp A size) A.limit t.blocks = b.addr := hfit
    have hne : b.addr ≠ 0 := hspread.placed.pos b hmemb
    rw [hfit, if_pos hne]
    refine .inr ⟨c, P, R₁ ++ c :: M ++ R₂, ⟨hnew, ?_, ?_⟩, by rw [haddr]; rfl, hup.trans hsizec, rfl⟩
    · rw [hR']
      simp only [used_append, used_cons_busy hused, used_cons_free hb.1, hM, append_assoc,
        nil_append, cons_append]
      rw [← append_assoc, ← append_assoc]
      exact perm_middle
    · rw [hR', ← hmem]
      exact hframe
  | none =>
    rw [hfind] at hfit
    rw [if_neg (not_not.mpr (show firstFit A t (alignUp A size) A.limit t.blocks = 0 from hfit))]
    cases answer with
    | none => exact .inl ⟨rfl, rfl, hmem, hlayout⟩
    | some a =>
      obtain ⟨hnew, hframe⟩ := takePages_layout hlayout harena hready hfresh (by omega) rfl
      refine .inr ⟨_, _, R, ⟨hnew, ?_, ?_⟩, rfl, ?_, rfl⟩
      · rw [cons_append, used_cons_busy rfl]
      · rw [← hmem]
        exact hframe
      · show size ≤ pagesFor A (alignUp A size) * pageSize - headerSize A
        omega

end Allocation

end Tach.KernelHeap
