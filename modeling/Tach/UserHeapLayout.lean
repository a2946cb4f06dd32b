import Tach.UserHeapLists

/-!
The layout of the user heap. The blocks tile the memory up to `heap_end`, their sizes are multiples of
16, and no two free ones are neighbours. Every call keeps the layout, and none changes a byte of a
block that stays in use.
-/

namespace Tach.UserHeap

open List BlockLists LinkedLists Records Tilings Block
open KernelHeap (Arch)

structure Shape (A : Arch) (stop : ℕ) (L : List Block) : Prop where
  tiles : ∃ base, base ≠ 0 ∧ base % 16 = 0 ∧ Tiles Block.addr (Block.len A) base L stop
  sizes : ∀ b ∈ L, b.size % 16 = 0 ∧ b.size ≠ 0
  below : stop < A.limit

structure Arranged (A : Arch) (s : Heap) (L : List Block) : Prop extends Shape A s.stop L where
  ready : s.ready = true
  merged : Merged Block.free L
  holds : Holds A s L

def Layout (A : Arch) (s : Heap) (L : List Block) : Prop :=
  Arranged A s L ∨ s.ready = false ∧ L = [] ∧ Holds A s []

abbrev Block.Payload (A : Arch) (b : Block) (x : ℕ) : Prop :=
  BlockLists.Payload Block.addr (Block.len A) (blockHeader A) b x

section Shapes

variable {A : Arch} {s t : Heap} {stop x : ℕ} {L P R : List Block} {b c : Block}

theorem blockHeader_mod (A : Arch) : blockHeader A % 16 = 0 := by cases A <;> decide

theorem Spread.outside (h : Spread A L) (hb : b ∈ L) (hx : b.Payload A x) {a : ℕ}
    (ha : a ∈ L.map addr) : x < a ∨ a + blockHeader A ≤ x :=
  h.payload_header (header_le_len A) hb hx ha

namespace Shape

theorem spread (h : Shape A stop L) : Spread A L := by
  obtain ⟨base, hbase, -, htiles⟩ := h.tiles
  have hbelow := h.below
  refine ⟨htiles.pairwise.imp fun hle => .inl hle, fun b hb => ?_⟩
  obtain ⟨hlo, hhi⟩ := htiles.mem hb
  omega

theorem end_le (h : Shape A stop L) (hb : b ∈ L) : b.addr + b.len A ≤ stop := by
  obtain ⟨base, -, -, htiles⟩ := h.tiles
  exact (htiles.mem hb).2

theorem head_le (h : Shape A stop L) (hb : b ∈ L) : headOr links L 0 ≤ b.addr := by
  obtain ⟨base, -, -, htiles⟩ := h.tiles
  cases L with
  | nil => exact absurd hb not_mem_nil
  | cons c L =>
    show c.addr ≤ b.addr
    rw [htiles.1]
    exact (htiles.mem hb).1

/-- Blocks are exchanged for others in the same place. -/
theorem replace {N M : List Block} (h : Shape A stop (P ++ N ++ R))
    (hsizes : ∀ b ∈ M, b.size % 16 = 0 ∧ b.size ≠ 0)
    (htiles : ∀ c d, Tiles addr (len A) c N d → Tiles addr (len A) c M d) :
    Shape A stop (P ++ M ++ R) := by
  obtain ⟨base, hbase, halign, hold⟩ := h.tiles
  refine ⟨⟨base, hbase, halign, hold.replace htiles⟩, fun b hb => ?_, h.below⟩
  rcases mem_append.mp hb with hb | hb
  · rcases mem_append.mp hb with hb | hb
    · exact h.sizes b (mem_append_left _ (mem_append_left _ hb))
    · exact hsizes b hb
  · exact h.sizes b (mem_append_right _ hb)

theorem size_lt (h : Shape A stop L) (hb : b ∈ L) : b.size < A.limit := by
  have hend := h.end_le hb
  have hbelow := h.below
  simp only [len] at hend
  omega

theorem aligned (h : Shape A stop L) (hb : b ∈ L) : b.addr % 16 = 0 := by
  obtain ⟨base, -, halign, htiles⟩ := h.tiles
  have hsizes := h.sizes
  clear h
  induction L generalizing base with
  | nil => exact absurd hb not_mem_nil
  | cons c L ih =>
    obtain ⟨hc, hrest⟩ := htiles
    rcases mem_cons.mp hb with rfl | hb
    · rwa [hc]
    · refine ih hb (base + c.len A) ?_ hrest fun d hd => hsizes d (mem_cons_of_mem _ hd)
      have hheader := blockHeader_mod A
      have hsize := (hsizes c mem_cons_self).1
      rw [len]
      omega

end Shape

theorem Holds.fill (h : Holds A s L) (hL : Spread A L) (hb : b ∈ L) (hhead : t.head = s.head)
    (htail : t.tail = s.tail) (hmem : ∀ x, ¬b.Payload A x → t.mem x = s.mem x) : Holds A t L := by
  refine ⟨h.linked.congr fun c hc => ?_, by rw [hhead, h.head], by rw [htail, h.tail]⟩
  change t.header A c.addr = s.header A c.addr
  refine (codec A).read_congr fun i hi => hmem _ fun hx => ?_
  have hout := hL.outside hb hx (mem_map_of_mem hc)
  have := codec_size_le A
  omega

theorem Arranged.fill (h : Arranged A s L) (hb : b ∈ L) (hhead : t.head = s.head)
    (htail : t.tail = s.tail) (hstop : t.stop = s.stop) (hready : t.ready = s.ready)
    (hmem : ∀ x, ¬b.Payload A x → t.mem x = s.mem x) : Arranged A t L :=
  ⟨hstop ▸ h.toShape, hready.trans h.ready, h.merged, h.holds.fill h.spread hb hhead htail hmem⟩

theorem Layout.arranged (h : Layout A s L) (hb : b ∈ L) : Arranged A s L := by
  rcases h with h | ⟨-, rfl, -⟩
  · exact h
  · exact absurd hb not_mem_nil

end Shapes

section Allocation

variable {A : Arch} {s t : Heap} {L L' L₁ L₂ : List Block} {b c : Block} {size : ℕ} {grant : Bool}

/-- What a call that hands out the block `b` leaves. -/
structure Grown (A : Arch) (s t : Heap) (L L' : List Block) (b : Block) : Prop where
  layout : Arranged A t L'
  inUse : (used Block.free L').Perm (b :: used Block.free L)
  frame : ∀ d ∈ used Block.free L, ∀ x, d.Payload A x → t.mem x = s.mem x

/-- An allocation fails and changes nothing, or there is one block in use more. -/
def Allocates (A : Arch) (s : Heap) (L : List Block) (size : ℕ) (r : Heap × ℕ) : Prop :=
  (r.2 = 0 ∧ r.1.mem = s.mem ∧ Layout A r.1 L) ∨
    ∃ b L', Grown A s r.1 L L' b ∧ r.2 = b.addr + blockHeader A ∧ size ≤ b.size

/-- The block that `malloc` found, cut if it is much too large, and no longer free. -/
theorem takeBlock_grown (h : Arranged A s (L₁ ++ b :: L₂)) (hfree : b.free = true)
    (hsize : size ≤ b.size) (hlimit : size + blockHeader A + 16 < A.limit) (hround : size % 16 = 0)
    (hzero : size ≠ 0) :
    ∃ c L', Grown A s (takeBlock A s b.addr size) (L₁ ++ b :: L₂) L' c ∧ c.addr = b.addr ∧
      size ≤ c.size := by
  have hspread := h.spread
  obtain ⟨hmerged₁, hmerged₂, -⟩ := isChain_append.mp h.merged
  have hmerged₂' : Merged Block.free L₂ := (isChain_cons.mp hmerged₂).2
  have hold : Shape A s.stop (L₁ ++ [b] ++ L₂) := by simpa using h.toShape
  have hbusy (c : Block) (hc : c.free = false) (M : List Block) (hM : used Block.free M = []) :
      (used Block.free (L₁ ++ c :: (M ++ L₂))).Perm (c :: used Block.free (L₁ ++ b :: L₂)) := by
    simp only [used_append, used_cons_busy hc, used_cons_free hfree, hM, nil_append]
    exact perm_middle
  by_cases hsmall : b.size < size + blockHeader A + 16
  · have hsplit : blockSplit A s b.addr size = s := by
      unfold blockSplit
      rw [h.holds.header, Nat.mod_eq_of_lt hlimit]
      exact if_pos hsmall
    obtain ⟨hholds, hframe⟩ := modify_holds (c := { b with free := false })
      (f := fun h => { h with free := false }) h.holds hspread rfl (fun _ => rfl)
      (show b.size < A.limit from h.size_lt (by simp))
    have hshape := hold.replace (M := [{ b with free := false }])
      (by simpa using hold.sizes b (by simp)) fun _ _ ht => ht
    rw [append_assoc] at hshape
    rw [takeBlock, hsplit]
    refine ⟨{ b with free := false }, L₁ ++ { b with free := false } :: L₂,
      ⟨⟨hshape, h.ready, ?_, hholds⟩, hbusy _ rfl [] rfl, fun d hd x hx => ?_⟩, rfl, hsize⟩
    · exact (merged_used rfl).mpr ⟨hmerged₁, hmerged₂'⟩
    · exact hframe x (hspread.outside (mem_used.mp hd).1 hx (by simp))
  · obtain ⟨r, hr⟩ : ∃ r : Block,
        r = ⟨b.addr + blockHeader A + size, b.size - size - blockHeader A, true⟩ := ⟨_, rfl⟩
    have hshape (free : Bool) :
        Shape A s.stop (L₁ ++ { b with size := size, free := free } :: r :: L₂) := by
      have hnew := hold.replace (M := [{ b with size := size, free := free }, r]) (fun c hc => by
          have hb := (hold.sizes b (by simp)).1
          have hheader := blockHeader_mod A
          simp only [mem_cons, not_mem_nil, or_false] at hc
          rcases hc with rfl | rfl
          · exact ⟨hround, hzero⟩
          · rw [hr]
            dsimp only
            omega) fun c d ht => by
        simp only [Tiles, len, hr] at ht ⊢
        omega
      simpa using hnew
    obtain ⟨hholds, hstop, hready, hframe⟩ := blockSplit_holds h.holds hr hspread
      (hshape b.free).spread hlimit (by omega)
    obtain ⟨hholds', hframe'⟩ := modify_holds (c := { b with size := size, free := false })
      (f := fun h => { h with free := false }) hholds (hshape b.free).spread rfl (fun _ => rfl)
      (show size < A.limit by omega)
    refine ⟨{ b with size := size, free := false }, _, ⟨⟨hstop ▸ hshape false, hready.trans h.ready, ?_,
      hholds'⟩, ?_, fun d hd x hx => ?_⟩, rfl, le_rfl⟩
    · exact (merged_used rfl).mpr ⟨hmerged₁, Merged.head hmerged₂ (by rw [hr, hfree])⟩
    · exact hbusy _ rfl [r] (by rw [used_cons_free (by rw [hr]), used_nil])
    · -- a block in use is one of the new list too, and its bytes are in no header there
      have hdmem : d ∈ L₁ ++ { b with size := size, free := b.free } :: r :: L₂ := by
        obtain ⟨hdmem, hdused⟩ := mem_used.mp hd
        have hdb : d ≠ b := fun heq => by rw [heq, hfree] at hdused; cases hdused
        simp only [mem_append, mem_cons] at hdmem ⊢
        tauto
      have hheaders {a : ℕ} (ha) := (hshape b.free).spread.outside (a := a) hdmem hx ha
      show ((blockSplit A s b.addr size).modify A b.addr _).mem x = s.mem x
      rw [hframe' x (hheaders (by simp)), hframe x fun a ha => hheaders ha]

theorem growHeap_grown (h : Arranged A s L) (hend : s.stop + (blockHeader A + size) < A.limit)
    (hround : size % 16 = 0) (hzero : size ≠ 0) (hb : b = ⟨s.stop, size, false⟩) :
    Grown A s (growHeap A s size (s.stop + (blockHeader A + size))) L (L ++ [b]) b := by
  have hshape : Shape A (s.stop + (blockHeader A + size)) (L ++ [b]) := by
    obtain ⟨base, hbase, halign, htiles⟩ := h.tiles
    refine ⟨⟨base, hbase, halign, tiles_append.mpr ⟨s.stop, htiles, ?_, ?_⟩⟩, fun c hc => ?_, hend⟩
    · rw [hb]
    · rw [hb]
      rfl
    · rcases mem_append.mp hc with hc | hc
      · exact h.sizes c hc
      · rw [mem_singleton.mp hc, hb]
        exact ⟨hround, hzero⟩
  obtain ⟨hholds, hstop, hready, hframe⟩ := growHeap_holds
    (s.stop + (blockHeader A + size)) h.holds hb hshape.spread (by omega)
  have hbusy : b.free = false := by rw [hb]
  refine ⟨⟨by rw [hstop]; exact hshape, hready.trans h.ready, ?_, hholds⟩, ?_, fun d hd x hx => ?_⟩
  · exact (merged_used hbusy).mpr ⟨h.merged, .nil⟩
  · rw [used_append, used_cons_busy hbusy, used_nil]
    exact perm_append_singleton ..
  · exact hframe x fun a ha => hshape.spread.outside
      (mem_append_left _ (mem_used.mp hd).1) hx ha

theorem mallocReady_allocates (h : Arranged A s L) (hround : size % 16 = 0)
    (hzero : size ≠ 0) (hlimit : size + blockHeader A + 16 < A.limit) :
    Allocates A s L size (mallocReady A s size grant) := by
  have hspread := h.spread
  have hfit := firstFit_eq size h.holds.linked (fun b hb => (hspread.within b hb).1)
    (hspread.length_le (len_pos A))
  rw [← h.holds.head] at hfit
  cases hfind : L.find? fun b => b.free && decide (size ≤ b.size) with
  | some b =>
    have hb := List.find?_some hfind
    have hmem := mem_of_find?_eq_some hfind
    simp only [Bool.and_eq_true, decide_eq_true_eq] at hb
    rw [hfind] at hfit
    replace hfit : firstFit A s size A.limit s.head = b.addr := hfit
    obtain ⟨L₁, L₂, rfl⟩ := append_of_mem hmem
    obtain ⟨c, L', hgrown, haddr, hsize⟩ := takeBlock_grown h hb.1 hb.2 hlimit hround hzero
    rw [mallocReady, hfit]
    rw [if_pos (hspread.within b hmem).1]
    exact .inr ⟨c, L', hgrown, congrArg (· + _) haddr.symm, hsize⟩
  | none =>
    rw [hfind] at hfit
    replace hfit : firstFit A s size A.limit s.head = 0 := hfit
    have hbelow := h.below
    have hcode : mallocReady A s size grant =
        if (s.stop + (blockHeader A + size)) % A.limit < s.stop ∨ !grant then (s, 0)
        else (growHeap A s size ((s.stop + (blockHeader A + size)) % A.limit),
          s.stop + blockHeader A) := by
      rw [mallocReady, hfit]
      simp only [ne_eq, not_true_eq_false, if_false, Nat.mod_eq_of_lt (show blockHeader A + size <
        A.limit by omega)]
    rw [hcode]
    by_cases hrefused : (s.stop + (blockHeader A + size)) % A.limit < s.stop ∨ (!grant) = true
    · rw [if_pos hrefused]
      exact .inl ⟨rfl, rfl, .inl h⟩
    · rw [if_neg hrefused]
      -- a sum that wraps around would be below `heap_end`
      have hend : s.stop + (blockHeader A + size) < A.limit := by
        by_contra hwrap
        refine hrefused (.inl ?_)
        rw [Nat.mod_eq_sub_mod (by omega), Nat.mod_eq_of_lt (by omega)]
        omega
      rw [Nat.mod_eq_of_lt hend]
      exact .inr ⟨_, _, growHeap_grown h hend hround hzero rfl, rfl, le_rfl⟩

/-- Sizes up to `SIZE_MAX / 2` do not wrap around when they are rounded up. -/
theorem roundUp_bounds (hzero : size ≠ 0) (hmax : size ≤ (A.limit - 1) / 2) :
    size ≤ roundUp A size ∧ roundUp A size % 16 = 0 ∧ roundUp A size ≠ 0 ∧
      roundUp A size + blockHeader A + 16 < A.limit := by
  have hlimit : 4294967296 ≤ A.limit := by cases A <;> decide
  have hheader : blockHeader A ≤ 32 := by cases A <;> decide
  have hup : roundUp A size = (size + 15) / 16 * 16 := by
    rw [roundUp, Nat.mod_eq_of_lt (by omega)]
  rw [hup]
  omega

theorem heapInit_arranged (h : Holds A s []) (hinit : heapInit A s grant = some t) :
    Arranged A t [] ∧ t.mem = s.mem := by
  simp only [heapInit] at hinit
  split_ifs at hinit with hbad
  · cases hinit
    have hup : roundUp A s.brk = (s.brk + 15) / 16 * 16 := by
      rw [roundUp, Nat.mod_eq_of_lt (by omega)]
    refine ⟨⟨⟨⟨_, ?_, ?_, rfl⟩, fun _ hb => absurd hb not_mem_nil, ?_⟩, rfl, .nil, trivial, h.head,
      h.tail⟩, rfl⟩ <;> dsimp only <;> omega

theorem malloc_allocates (size : ℕ) (answers : Answers) (h : Layout A s L) :
    Allocates A s L size (malloc A s size answers) := by
  by_cases hbad : size = 0 ∨ (A.limit - 1) / 2 < size
  · rw [malloc, if_pos hbad]
    exact .inl ⟨rfl, rfl, h⟩
  · rw [not_or, not_lt] at hbad
    obtain ⟨hup, hround, hzero, hlimit⟩ := roundUp_bounds hbad.1 hbad.2
    have hallocates {t : Heap} (ht : Arranged A t L) (hmem : t.mem = s.mem) :
        Allocates A s L size (mallocReady A t (roundUp A size) answers.grow) := by
      rcases mallocReady_allocates ht hround hzero hlimit with
        ⟨hfail, hsame, hlayout⟩ | ⟨b, L', hgrown, hpointer, hsize⟩
      · exact .inl ⟨hfail, hsame.trans hmem, hlayout⟩
      · exact .inr ⟨b, L', ⟨hgrown.layout, hgrown.inUse, fun d hd x hx => by
          rw [hgrown.frame d hd x hx, hmem]⟩, hpointer, hup.trans hsize⟩
    rw [malloc, if_neg (by rw [not_or, not_lt]; exact hbad)]
    rcases h with harranged | ⟨hready, rfl, hholds⟩
    · simp only [harranged.ready, if_true]
      exact hallocates harranged rfl
    · simp only [hready, Bool.false_eq_true, if_false]
      cases hinit : heapInit A s answers.align with
      | none => exact .inl ⟨rfl, rfl, .inr ⟨hready, rfl, hholds⟩⟩
      | some t =>
        obtain ⟨ht, hmem⟩ := heapInit_arranged hholds hinit
        exact hallocates ht hmem

end Allocation

end Tach.UserHeap
