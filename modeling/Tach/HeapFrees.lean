import Tach.HeapLayout

/-!
`kfree` and `krealloc` on the layout of the heap. A block of the page allocator leaves the list; a
block of the arena becomes free and takes in the free blocks next to it, so that again no two
neighbours are free.
-/

namespace Tach.KernelHeap

open List BlockLists LinkedLists Records Tilings Block

section Merging

variable {A : Arch} {arena : ℕ × ℕ} {s : Heap} {P R R₁ R₂ : List Block} {b c : Block}

/-- A block of the arena ends where the next one starts. -/
theorem Covers.adjacent (h : Covers A arena (R₁ ++ b :: c :: R₂)) : b.addr + b.len A = c.addr := by
  unfold Covers at h
  split at h
  · simp at h
  · obtain ⟨m, -, hb, hc, -⟩ := tiles_append.mp h
    rw [hb, hc]

/-- A free block of the arena takes in the free one behind it. -/
theorem join_shape (h : Shape A arena P (R₁ ++ b :: c :: R₂)) :
    Shape A arena P (R₁ ++ b.join A c :: R₂) := by
  have hplain := h.plain b (by simp)
  have hold : Shape A arena P (R₁ ++ [b, c] ++ R₂) := by simpa using h
  have hnew := hold.replace (M := [b.join A c]) (by simp) (by simpa [join] using hplain)
    fun x y ht => by
      simp only [Tiles, len, join] at ht ⊢
      omega
  simpa using hnew

theorem absorb_ready (A : Arch) (s : Heap) (x : ℕ) (h : Header) :
    (absorb A s x h).ready = s.ready := by
  simp only [absorb]
  split_ifs <;> rfl

variable (harena : arena.1 + arena.2 ≤ A.limit)

include harena

section

variable (h : Shape A arena P (R₁ ++ b :: c :: R₂)) (hholds : Holds A s (P ++ (R₁ ++ b :: c :: R₂)))
include h hholds

theorem join_holds :
    Holds A (absorb A s b.addr (s.header A c.addr)) (P ++ (R₁ ++ b.join A c :: R₂)) ∧
      ∀ x, (∀ a ∈ (P ++ (R₁ ++ b :: c :: R₂)).map addr, x < a ∨ a + headerSize A ≤ x) →
        (absorb A s b.addr (s.header A c.addr)).mem x = s.mem x := by
  have hspread := h.spread harena
  have hadjacent := h.covers.adjacent
  have hc := (hspread.within c (by simp)).2
  have hpos := (hspread.within b (by simp)).1
  have hsize : b.size + (headerSize A + c.size) < A.limit := by
    simp only [len] at hadjacent hc
    omega
  have hnew := absorb_holds (P := P ++ R₁) (by simpa using hholds) (by simpa using hspread.placed)
    hsize
  simpa using hnew

/-- What merging does to two neighbours of the arena: they are joined if the other one is free. -/
theorem merge_eq :
    mergeNext A s b.addr = (if c.free then absorb A s b.addr (s.header A c.addr) else s) ∧
      mergePrevious A s c.addr = if b.free then absorb A s b.addr (s.header A c.addr) else s := by
  have hb : s.header A b.addr = b.cell (lastOr links (P ++ R₁) 0) c.addr :=
    Holds.header (R := c :: R₂) (by simpa using hholds)
  have hc : s.header A c.addr = c.cell b.addr (headOr links R₂ 0) := by
    have hsplit : Holds A s ((P ++ R₁ ++ [b]) ++ c :: R₂) := by simpa using hholds
    rw [hsplit.header, lastOr_append]
    rfl
  have hpos : b.addr ≠ 0 ∧ c.addr ≠ 0 :=
    ⟨((h.spread harena).within b (by simp)).1, ((h.spread harena).within c (by simp)).1⟩
  have hend : b.addr + headerSize A + b.size = c.addr := by
    rw [← h.covers.adjacent, len, Nat.add_assoc]
  have hplain : b.pmm = false ∧ c.pmm = false := ⟨(h.plain b (by simp)).1, (h.plain c (by simp)).1⟩
  refine ⟨?_, ?_⟩
  · simp [mergeNext, hb, hc, cell, Header.isPmm, hplain, hend, hpos]
  · simp [mergePrevious, hb, hc, cell, Header.isPmm, hplain, hend, hpos]

end

variable (h : Shape A arena P (R₁ ++ b :: R₂)) (hholds : Holds A s (P ++ (R₁ ++ b :: R₂))) (hfree : b.free = true)
include h hholds hfree

/-- The first half of merging: the block behind is taken in if it is free. -/
theorem mergeNext_holds (hmerged : Merged free R₂) : ∃ c R₃, Shape A arena P (R₁ ++ c :: R₃) ∧
      Holds A (mergeNext A s b.addr) (P ++ (R₁ ++ c :: R₃)) ∧ c.addr = b.addr ∧ c.free = true ∧
      used free R₃ = used free R₂ ∧ Merged free (c :: R₃) ∧ (mergeNext A s b.addr).ready = s.ready ∧
      ∀ x, (∀ a ∈ (P ++ (R₁ ++ b :: R₂)).map addr, x < a ∨ a + headerSize A ≤ x) →
        (mergeNext A s b.addr).mem x = s.mem x := by
  cases R₂ with
  | nil =>
    have hheader : s.header A b.addr = b.cell (lastOr links (P ++ R₁) 0) 0 :=
      Holds.header (R := []) (by simpa using hholds)
    have hkeep : mergeNext A s b.addr = s := by
      rw [mergeNext, hheader]
      exact if_neg fun hne => hne.1 rfl
    rw [hkeep]
    exact ⟨b, [], h, hholds, rfl, hfree, rfl, .singleton b, rfl, fun _ _ => rfl⟩
  | cons c R₂ =>
    rw [(merge_eq harena h hholds).1]
    cases hcfree : c.free with
    | true =>
      rw [if_pos rfl]
      obtain ⟨hnew, hframe⟩ := join_holds harena h hholds
      refine ⟨b.join A c, R₂, join_shape h, hnew, rfl, hfree, (used_cons_free hcfree).symm, ?_,
        absorb_ready .., hframe⟩
      exact Merged.head hmerged (hfree.trans hcfree.symm)
    | false =>
      rw [if_neg (by simp)]
      refine ⟨b, c :: R₂, h, hholds, rfl, hfree, rfl, ?_, rfl, fun _ _ => rfl⟩
      exact isChain_cons.mpr ⟨by simp [hcfree], hmerged⟩

/-- The second half: the block before takes this one in if it is free and of the arena. -/
theorem mergePrevious_holds
    (hmerged₁ : Merged free R₁) (hmerged₂ : Merged free (b :: R₂)) :
    ∃ R', Shape A arena P R' ∧ Holds A (mergePrevious A s b.addr) (P ++ R') ∧ Merged free R' ∧
      used free R' = used free (R₁ ++ b :: R₂) ∧ (mergePrevious A s b.addr).ready = s.ready ∧
      ∀ x, (∀ a ∈ (P ++ (R₁ ++ b :: R₂)).map addr, x < a ∨ a + headerSize A ≤ x) →
        (mergePrevious A s b.addr).mem x = s.mem x := by
  rcases eq_nil_or_concat R₁ with rfl | ⟨R₀, c, rfl⟩
  · -- what stands before is a block of the page allocator, which is not free
    have hheader : s.header A b.addr = b.cell (lastOr links P 0) (headOr links R₂ 0) :=
      Holds.header (by simpa using hholds)
    have hkeep : mergePrevious A s b.addr = s := by
      rw [mergePrevious, hheader]
      refine if_neg ?_
      rintro ⟨hne, hpfree, -⟩
      obtain ⟨p, hp, haddr⟩ := mem_map.mp (lastOr_mem_of_ne hne)
      obtain ⟨P₁, P₂, rfl⟩ := append_of_mem hp
      have hpheader : s.header A (links.addr p) = p.cell _ _ :=
        Holds.header (by simpa using hholds)
      change (s.header A (lastOr links (P₁ ++ p :: P₂) 0)).free = true at hpfree
      rw [← haddr, hpheader, cell, (h.paged p hp).used] at hpfree
      exact absurd hpfree (by simp)
    rw [hkeep]
    exact ⟨_, h, hholds, hmerged₂, rfl, rfl, fun _ _ => rfl⟩
  · rw [concat_eq_append] at *
    have hshape : Shape A arena P (R₀ ++ c :: b :: R₂) := by simpa using h
    have hpair : Holds A s (P ++ (R₀ ++ c :: b :: R₂)) := by simpa using hholds
    rw [(merge_eq harena hshape hpair).2]
    obtain ⟨hmerged₀, -, hlink⟩ := isChain_append.mp hmerged₁
    cases hcfree : c.free with
    | true =>
      rw [if_pos rfl]
      obtain ⟨hnew, hframe⟩ := join_holds harena hshape hpair
      refine ⟨R₀ ++ c.join A b :: R₂, join_shape hshape, hnew, ?_, ?_, absorb_ready .., ?_⟩
      · refine isChain_append.mpr ⟨hmerged₀, Merged.head hmerged₂ ?_, ?_⟩
        · exact hcfree.trans hfree.symm
        · simpa [join] using hlink
      · simp only [used_append, used_cons_free (show (c.join A b).free = true from hcfree),
          used_cons_free hcfree, used_cons_free hfree, used_nil, append_nil]
      · intro x hx
        exact hframe x fun a ha => hx a (by simpa using ha)
    | false =>
      rw [if_neg (by simp)]
      refine ⟨_, h, hholds, ?_, rfl, rfl, fun _ _ => rfl⟩
      refine isChain_append.mpr ⟨hmerged₁, hmerged₂, ?_⟩
      simp [hcfree]

end Merging

section Frees

variable {A : Arch} {arena : ℕ × ℕ} {s : Heap} {P R : List Block} {b : Block}

/-- What a call that gives up the block `b` leaves. -/
structure Freed (A : Arch) (arena : ℕ × ℕ) (s t : Heap) (P R P' R' : List Block) (b : Block) :
    Prop where
  layout : Layout A arena t P' R'
  inUse : (used Block.free (P ++ R)).Perm (b :: used Block.free (P' ++ R'))
  frame : ∀ d ∈ used Block.free (P' ++ R'), ∀ x, d.Payload A x → t.mem x = s.mem x

theorem Layout.header (h : Layout A arena s P R) (hb : b ∈ P ++ R) :
    ∃ p n, s.header A b.addr = b.cell p n := by
  obtain ⟨L₁, L₂, hL⟩ := append_of_mem hb
  exact ⟨_, _, Holds.header (by rw [← hL]; exact h.holds)⟩

variable (harena : arena.1 + arena.2 ≤ A.limit)

include harena

/-- A block of the page allocator is given back. -/
theorem removePages_layout {P₁ P₂ : List Block} (h : Layout A arena s (P₁ ++ b :: P₂) R) :
    Freed A arena s ((removeBlock A s b.addr).modify A b.addr fun h => { h with magic := 0 })
      (P₁ ++ b :: P₂) R (P₁ ++ P₂) R b := by
  have hspread := h.spread harena
  have hlist : (P₁ ++ b :: P₂) ++ R = P₁ ++ b :: (P₂ ++ R) := by simp
  have hkeep : P₁ ++ P₂ ++ R = P₁ ++ (P₂ ++ R) := append_assoc ..
  have hsub : (P₁ ++ P₂).Sublist (P₁ ++ b :: P₂) :=
    List.Sublist.append_left (sublist_cons_self b P₂) P₁
  have hbusy : b.free = false := (h.paged b (by simp)).used
  rw [hlist] at hspread
  obtain ⟨hholds, -, hready, hframe⟩ := removeBlock_holds (by rw [← hlist]; exact h.holds)
    hspread.placed
  have hnd := hspread.placed.nodup
  rw [map_append, map_cons, nodup_middle] at hnd
  have hother {c : Block} (hc : c ∈ P₁ ++ (P₂ ++ R)) :
      c ∈ P₁ ++ b :: (P₂ ++ R) ∧ b.addr ≠ c.addr := by
    refine ⟨?_, fun heq => (nodup_cons.mp hnd).1 ?_⟩
    · rcases mem_append.mp hc with hc | hc
      · exact mem_append_left _ hc
      · exact mem_append_right _ (mem_cons_of_mem _ hc)
    · rw [heq, ← map_append]
      exact mem_map_of_mem hc
  refine ⟨⟨⟨fun c hc => h.paged c (hsub.subset hc), h.apart.sublist hsub, h.plain, h.covers⟩,
    h.merged, ?_, fun hr => ?_⟩, ?_, fun d hd x hx => ?_⟩
  · rw [hkeep]
    refine ⟨hholds.linked.congr fun c hc => ?_, hholds.head⟩
    obtain ⟨hcmem, hne⟩ := hother hc
    exact header_modify (hspread.placed.apart b.addr (by simp) c.addr (mem_map_of_mem hcmem) hne)
  · have hnil := h.ready (hready.symm.trans hr)
    simp at hnil
  · simp only [used_append, used_cons_busy hbusy, append_assoc, cons_append]
    exact perm_middle
  · have hdmem := (hother (hkeep ▸ (mem_used.mp hd).1)).1
    rw [modify_mem (hspread.outside hdmem hx (by simp)),
      hframe x fun a ha => hspread.outside hdmem hx ha]

/-- A block of the arena is given back and merged with its neighbours. -/
theorem freeBlock_layout {R₁ R₂ : List Block} (h : Layout A arena s P (R₁ ++ b :: R₂))
    (hbusy : b.free = false) : ∃ R', Freed A arena s
      (mergeArenaNeighbors A (s.modify A b.addr fun h => { h with free := true }) b.addr)
      P (R₁ ++ b :: R₂) P R' b := by
  have hspread := h.spread harena
  obtain ⟨hmerged₁, hmerged₂⟩ := (merged_used hbusy).mp h.merged
  have hready : s.ready = true := by
    by_contra hready
    simpa using h.ready (by simpa using hready)
  have hbsize : b.size < A.limit := by
    have hbelow := (hspread.within b (by simp)).2
    have hpos := headerSize_pos A
    simp only [len] at hbelow
    omega
  -- the block is free, and the blocks lie where they lay
  have hshape : Shape A arena P (R₁ ++ { b with free := true } :: R₂) := by
    have hold : Shape A arena P (R₁ ++ [b] ++ R₂) := by simpa using h.toShape
    have hnew := hold.replace (M := [{ b with free := true }]) (by simp)
      (by simpa using h.plain b (by simp)) fun c d ht => ht
    simpa using hnew
  obtain ⟨hholds, hframe⟩ := modify_holds (P := P ++ R₁) (b := b)
    (c := { b with free := true }) (f := fun h => { h with free := true }) (by simpa using h.holds) (by simpa using hspread.placed)
    rfl (fun _ _ => rfl) hbsize rfl
  obtain ⟨c, R₃, hshape', hholds', haddr, hcfree, hused, hmerged', hready', hframe'⟩ :=
    mergeNext_holds harena hshape (by simpa using hholds) rfl hmerged₂
  obtain ⟨R', hshape'', hholds'', hmerged'', hused', hready'', hframe''⟩ :=
    mergePrevious_holds harena hshape' hholds' hcfree hmerged₁ hmerged'
  rw [haddr] at hholds'' hready'' hframe''
  have hleft : used free R' = used free R₁ ++ used free R₂ := by
    rw [hused', used_append, used_cons_free hcfree, hused]
  refine ⟨R', ⟨hshape'', hmerged'', hholds'', fun hr => ?_⟩, ?_, fun d hd x hx => ?_⟩
  · rw [mergeArenaNeighbors, hready'', hready'] at hr
    exact absurd (hready.symm.trans hr) (by simp)
  · rw [used_append, used_append, used_cons_busy hbusy, used_append, hleft, ← append_assoc,
      ← append_assoc]
    exact perm_middle
  · -- a block in use is none of the merged ones, and its bytes are in no header on the way
    have hd' : d ∈ used free P ∨ d ∈ used free R₁ ∨ d ∈ used free R₂ := by
      rw [used_append, hleft] at hd
      simpa only [mem_append] using hd
    have hmem (L : List Block) (hL : used free R₂ = used free L) (e : Block) :
        d ∈ P ++ (R₁ ++ e :: L) := by
      rw [hL] at hd'
      simp only [mem_used] at hd'
      simp only [mem_append, mem_cons]
      tauto
    rw [mergeArenaNeighbors,
      hframe'' x fun a ha => (hshape'.spread harena).outside (hmem _ hused.symm _) hx ha,
      hframe' x fun a ha => (hshape.spread harena).outside (hmem _ rfl _) hx ha,
      hframe x (hspread.outside (hmem _ rfl _) hx (by simp))]

theorem kfree_layout (h : Layout A arena s P R) (hb : b ∈ used free (P ++ R)) :
    ∃ P' R', Freed A arena s (kfree A s (b.addr + headerSize A)).1 P R P' R' b ∧
      P'.map run = give (P.map run) (kfree A s (b.addr + headerSize A)).2 := by
  obtain ⟨hbmem, hbusy⟩ := mem_used.mp hb
  have hspread := h.spread harena
  obtain ⟨p, n, hheader⟩ := h.header hbmem
  have hcode : kfree A s (b.addr + headerSize A) =
      if b.pmm then ((removeBlock A s b.addr).modify A b.addr fun h => { h with magic := 0 },
        some (b.addr, b.pages))
      else (mergeArenaNeighbors A (s.modify A b.addr fun h => { h with free := true }) b.addr,
        none) := by
    have hpos := headerSize_pos A
    rw [kfree, if_neg (by omega)]
    simp only [Nat.add_sub_cancel, hheader, cell, hbusy, ne_eq, not_true_eq_false, if_false,
      Bool.false_eq_true, Header.isPmm]
    cases b.pmm <;> rfl
  rw [hcode]
  rcases mem_append.mp hbmem with hbP | hbR
  · obtain ⟨P₁, P₂, rfl⟩ := append_of_mem hbP
    rw [if_pos (h.paged b hbP).pmm]
    refine ⟨P₁ ++ P₂, R, removePages_layout harena h, ?_⟩
    have hnot : b.run ∉ P₁.map run := by
      intro hmem
      obtain ⟨c, hc, hrun⟩ := mem_map.mp hmem
      have hnd := hspread.placed.nodup
      simp only [append_assoc, map_append, cons_append, map_cons, nodup_middle] at hnd
      have haddr : c.addr = b.addr := congrArg Prod.fst hrun
      exact (nodup_cons.mp hnd).1
        (haddr ▸ mem_append_left _ (mem_map_of_mem hc))
    change _ = ((P₁ ++ b :: P₂).map run).erase b.run
    rw [map_append, map_append, map_cons, erase_append_right _ hnot, erase_cons_head]
  · obtain ⟨R₁, R₂, rfl⟩ := append_of_mem hbR
    rw [if_neg (by simp [(h.plain b hbR).1])]
    obtain ⟨R', hfreed⟩ := freeBlock_layout harena h hbusy
    exact ⟨P, R', hfreed, rfl⟩

end Frees

section Contents

variable {A : Arch} {arena : ℕ × ℕ} {s t : Heap} {P R P' R' : List Block} {b c : Block} {size : ℕ}

/-- After `kheap_init` the arena is one free block. -/
theorem kheapInit_layout {mem : Bytes} {start : ℕ} (hstart : start ≠ 0)
    (hlimit : start + size ≤ A.limit) :
    Layout A (start, size) (kheapInit A mem start size) [] (arenaBlock A (start, size)) := by
  unfold arenaBlock
  by_cases hsmall : size ≤ headerSize A + 16
  · have hspan : span A (start, size) = none := if_pos (.inr hsmall)
    have hinit : kheapInit A mem start size = ⟨mem, 0, true⟩ := if_pos (.inr hsmall)
    rw [hspan, hinit]
    refine ⟨⟨by simp, .nil, by simp, ?_⟩, .nil, ⟨trivial, rfl⟩, fun hr => by cases hr⟩
    simp [Covers, hspan]
  obtain ⟨base, hbase⟩ : ∃ base, base = (start + 15) / 16 * 16 := ⟨_, rfl⟩
  have hspan : span A (start, size) = some (base, start + size) := by
    rw [span, if_neg (by dsimp only; omega)]
    rw [← hbase, if_neg (by omega)]
  obtain ⟨b, hb⟩ : ∃ b : Block, b = ⟨base, start + size - base - headerSize A, true, 0, false⟩ :=
    ⟨_, rfl⟩
  have hend : b.addr + b.len A = start + size := by
    rw [hb]
    simp only [len]
    omega
  have hinit : kheapInit A mem start size = appendBlock A
      (((⟨mem, 0, true⟩ : Heap).clear base A.codec.size).modify A base fun h =>
        { h with magic := heapMagic, size := b.size, free := true }) base := by
    have halign : alignUp A start = base := by
      rw [alignUp, Nat.mod_eq_of_lt (by omega), hbase]
    have hskipped : (base + A.limit - start) % A.limit = base - start := by
      rw [show base + A.limit - start = base - start + A.limit by omega, Nat.add_mod_right,
        Nat.mod_eq_of_lt (by omega)]
    have hbsize : b.size = size - (base - start) - headerSize A := by
      rw [hb]
      dsimp only
      omega
    rw [kheapInit, if_neg (by omega)]
    simp only [halign, hskipped]
    rw [if_neg (by omega), hbsize]
    rfl
  rw [hspan]
  dsimp only
  rw [← hb, hinit]
  have hshape : Shape A (start, size) [] [b] := by
    refine ⟨by simp, .nil, by simp [hb], ?_⟩
    simp only [Covers, hspan, Tiles]
    rw [hb] at hend ⊢
    exact ⟨rfl, hend⟩
  have hspread := hshape.spread hlimit
  have haddr : b.addr = base := by rw [hb]
  have hcell : (((⟨mem, 0, true⟩ : Heap).clear base A.codec.size).modify A base fun h =>
      { h with magic := heapMagic, size := b.size, free := true }).header A b.addr = b.cell 0 0 := by
    have hzero := header_clear_self (s := ⟨mem, 0, true⟩) (a := base) (le_refl A.codec.size)
    rw [haddr, header_modify_self, hzero, hb]
    · rfl
    · rw [hzero]
      refine ⟨show heapMagic < 256 ^ 4 by decide, show 0 < 256 ^ 4 by decide, ?_, A.limit_pos,
        A.limit_pos, A.limit_pos⟩
      show b.size < A.limit
      simp only [len] at hend
      omega
  obtain ⟨hholds, -⟩ := appendBlock_holds (L := []) ⟨trivial, rfl⟩ hspread.placed hcell
  rw [haddr] at hholds
  refine ⟨hshape, .singleton b, hholds, fun hr => ?_⟩
  cases hr

theorem Grown.mem_iff (h : Grown A arena s t P R P' R' b) :
    c ∈ used free (P' ++ R') ↔ c = b ∨ c ∈ used free (P ++ R) := by
  rw [h.inUse.mem_iff, mem_cons]

variable (harena : arena.1 + arena.2 ≤ A.limit) {answer : Option ℕ}

include harena

theorem Layout.fill (h : Layout A arena s P R) (hb : b ∈ P ++ R) (hblocks : t.blocks = s.blocks)
    (hready : t.ready = s.ready) (hmem : ∀ x, ¬b.Payload A x → t.mem x = s.mem x) :
    Layout A arena t P R := by
  refine ⟨h.toShape, h.merged, ⟨h.holds.linked.congr fun c hc => ?_, ?_⟩, hready ▸ h.ready⟩
  · change t.header A c.addr = s.header A c.addr
    refine A.codec.read_congr fun i hi => hmem _ fun hx => ?_
    have hout := (h.spread harena).outside hb hx (mem_map_of_mem hc)
    have := codec_size_le A
    omega
  · rw [hblocks, h.holds.head]

theorem Grown.not_mem (h : Grown A arena s t P R P' R' b) : b ∉ used free (P ++ R) := by
  have hnodup : (used free (P' ++ R')).Nodup :=
    (List.Nodup.of_map _ (h.layout.spread harena).placed.nodup).filter _
  exact (nodup_cons.mp (h.inUse.nodup_iff.mp hnodup)).1

theorem Grown.fill {u : Heap} (h : Grown A arena s t P R P' R' b) (hblocks : u.blocks = t.blocks)
    (hready : u.ready = t.ready) (hmem : ∀ x, ¬b.Payload A x → u.mem x = t.mem x) :
    Grown A arena s u P R P' R' b := by
  have hb := (mem_used.mp (h.mem_iff.mpr (.inl rfl))).1
  refine ⟨h.layout.fill harena hb hblocks hready hmem, h.inUse, fun d hd x hx => ?_⟩
  have hd' := (mem_used.mp (h.mem_iff.mpr (.inr hd))).1
  have hne : d ≠ b := fun heq => h.not_mem harena (heq ▸ hd)
  rw [hmem x ((h.layout.spread harena).payload_ne hd' hb hne hx), h.frame d hd x hx]

theorem kzalloc_layout (h : Layout A arena s P R) (hmax : size + headerSize A + pageSize ≤ A.limit)
    (hfresh : Fresh A arena (P.map run) (pagesFor A (alignUp A size)) answer) :
    Allocates A arena s P R size (kzalloc A s size answer) := by
  rcases kmalloc_layout h harena hmax hfresh with hfail | ⟨b, P', R', hgrown, hpointer, hsize, hruns⟩
  · rw [kzalloc, if_neg (not_not.mpr hfail.1)]
    exact .inl hfail
  · have hpos := headerSize_pos A
    rw [kzalloc, if_pos (by omega)]
    refine .inr ⟨b, P', R', hgrown.fill harena rfl rfl fun x hx => ?_, hpointer, hsize, hruns⟩
    refine clear_mem ?_
    simp only [BlockLists.Payload, len, not_and_or, not_le, not_lt] at hx
    omega

/-- What `krealloc` does with the block `b` of the caller: nothing, with or without success, or the
block moves to `c`. -/
inductive Reallocates (A : Arch) (arena : ℕ × ℕ) (s : Heap) (P R : List Block) (b : Block)
    (size : ℕ) (r : Reallocated) : Prop
  | failed (pointer : r.pointer = 0) (taken : r.taken = none) (given : r.given = none)
      (mem : r.heap.mem = s.mem) (layout : Layout A arena r.heap P R)
  | kept (pointer : r.pointer = b.addr + headerSize A) (taken : r.taken = none)
      (given : r.given = none) (heap : r.heap = s) (room : size ≤ b.size)
  | moved (c : Block) (P' R' U : List Block) (pointer : r.pointer = c.addr + headerSize A)
      (room : size ≤ c.size) (layout : Layout A arena r.heap P' R')
      (before : (used Block.free (P ++ R)).Perm (b :: U)) (after : (used Block.free (P' ++ R')).Perm (c :: U))
      (frame : ∀ d ∈ U, ∀ x, d.Payload A x → r.heap.mem x = s.mem x)
      (copied : ∀ i < b.size, r.heap.mem (c.addr + headerSize A + i) =
        s.mem (b.addr + headerSize A + i))
      (runs : P'.map Block.run = give (take (P.map Block.run) c.addr r.taken) r.given)

theorem krealloc_layout (h : Layout A arena s P R)
    (hb : b ∈ used free (P ++ R)) (hzero : size ≠ 0)
    (hmax : size + headerSize A + pageSize ≤ A.limit)
    (hfresh : Fresh A arena (P.map run) (pagesFor A (alignUp A size)) answer) :
    Reallocates A arena s P R b size (krealloc A s (b.addr + headerSize A) size answer) := by
  have hpos := headerSize_pos A
  obtain ⟨p, n, hheader⟩ := h.header (mem_used.mp hb).1
  have hcode : krealloc A s (b.addr + headerSize A) size answer =
      if size ≤ b.size then ⟨s, b.addr + headerSize A, none, none⟩
      else
        let r := kmalloc A s size answer
        if r.pointer = 0 then ⟨r.heap, 0, r.taken, none⟩
        else
          let t := r.heap.copy r.pointer (b.addr + headerSize A) (r.heap.header A b.addr).size
          let f := kfree A t (b.addr + headerSize A)
          ⟨f.1, r.pointer, r.taken, f.2⟩ := by
    rw [krealloc, if_neg (by omega), if_neg hzero]
    simp only [Nat.add_sub_cancel, hheader, cell, ne_eq, not_true_eq_false, if_false]
  rw [hcode]
  by_cases hroom : size ≤ b.size
  · rw [if_pos hroom]
    exact .kept rfl rfl rfl rfl hroom
  rw [if_neg hroom]
  rcases kmalloc_layout h harena hmax hfresh with
    ⟨hpointer, htaken, hmem, hlayout⟩ | ⟨c, P', R', hgrown, hpointer, hsize, hruns⟩
  · rw [if_pos hpointer]
    exact .failed rfl htaken rfl hmem hlayout
  -- the new block is filled from the old one, which is then freed
  have hb' : b ∈ used free (P' ++ R') := hgrown.mem_iff.mpr (.inr hb)
  obtain ⟨p', n', hheader'⟩ := hgrown.layout.header (mem_used.mp hb').1
  have hbsize : ((kmalloc A s size answer).heap.header A b.addr).size = b.size := by
    rw [hheader']
    rfl
  rw [if_neg (by omega), hbsize, hpointer]
  generalize ht : (kmalloc A s size answer).heap.copy (c.addr + headerSize A)
    (b.addr + headerSize A) b.size = t
  have hfilled : Grown A arena s t P R P' R' c := by
    rw [← ht]
    refine hgrown.fill harena rfl rfl fun x hx => ?_
    refine copy_mem ?_
    simp only [BlockLists.Payload, len, not_and_or, not_le, not_lt] at hx
    omega
  obtain ⟨P'', R'', hfreed, hruns'⟩ := kfree_layout harena hfilled.layout hb'
  have hcopied (i : ℕ) (hi : i < b.size) : t.mem (c.addr + headerSize A + i) =
      s.mem (b.addr + headerSize A + i) := by
    have hold : (kmalloc A s size answer).heap.mem (b.addr + headerSize A + i) =
        s.mem (b.addr + headerSize A + i) :=
      hgrown.frame b hb _ ⟨by omega, by simp only [len]; omega⟩
    rw [← ht, ← hold]
    exact copy_copied hi
  obtain ⟨U, hU, hafter⟩ := exists_kept hb hgrown.inUse hfreed.inUse
  refine .moved c P'' R'' U rfl hsize hfreed.layout hU hafter (fun d hd x hx => ?_) (fun i hi => ?_) ?_
  · rw [hfreed.frame d (hafter.mem_iff.mpr (mem_cons_of_mem _ hd)) x hx]
    exact hfilled.frame d (hU.mem_iff.mpr (mem_cons_of_mem _ hd)) x hx
  · rw [hfreed.frame c (hafter.mem_iff.mpr mem_cons_self) _
      ⟨by omega, by simp only [len]; omega⟩]
    exact hcopied i hi
  · rw [hruns', hruns]

end Contents

end Tach.KernelHeap
