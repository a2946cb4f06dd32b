import Tach.UserHeapLayout

/-!
`free` and the calls that are built from it. The loop of `free` goes through the whole list and joins
free neighbours, so a block that was freed has no free neighbour, and neither has any other.
-/

namespace Tach.UserHeap

open List BlockLists LinkedLists Records Tilings Block
open KernelHeap (Arch)

section Joining

variable (A : Arch)

/-- The list behind `b`, after the loop of `free` from there on. -/
def mergeInto (b : Block) : List Block → List Block
  | [] => [b]
  | c :: l => if b.free ∧ c.free then mergeInto (b.join A c) l else b :: mergeInto c l

variable {A} {s : Heap} {stop : ℕ} {b : Block} {l P : List Block}

/-- No block that is in use is touched. -/
theorem used_mergeInto : used Block.free (mergeInto A b l) = used Block.free (b :: l) := by
  induction l generalizing b with
  | nil => rfl
  | cons c l ih =>
    rw [mergeInto]
    split
    · rename_i hfree
      rw [ih, used_cons_free hfree.1, used_cons_free hfree.2,
        used_cons_free (show (b.join A c).free = true from hfree.1)]
    · by_cases hb : b.free = true
      · rw [used_cons_free hb, used_cons_free hb, ih]
      · rw [used_cons_busy (by simpa using hb), used_cons_busy (by simpa using hb), ih]

/-- No two neighbours are left free; the first block is free if it was. -/
theorem mergeInto_merged :
    ∃ c R, mergeInto A b l = c :: R ∧ c.free = b.free ∧ Merged Block.free (c :: R) := by
  induction l generalizing b with
  | nil => exact ⟨b, [], rfl, rfl, .singleton _⟩
  | cons c l ih =>
    rw [mergeInto]
    split
    · obtain ⟨d, R, heq, hfree, hmerged⟩ := ih
      exact ⟨d, R, heq, hfree, hmerged⟩
    · rename_i hfree
      obtain ⟨d, R, heq, hd, hmerged⟩ := ih
      refine ⟨b, d :: R, by rw [heq], rfl, isChain_cons_cons.mpr ⟨?_, hmerged⟩⟩
      rwa [hd]

/-- Two neighbours take the place of both. -/
theorem Shape.join {c : Block} {R : List Block} (h : Shape A stop (P ++ b :: c :: R)) :
    Shape A stop (P ++ b.join A c :: R) := by
  have hb := h.sizes b (by simp)
  have hc := h.sizes c (by simp)
  have hheader := blockHeader_mod A
  have hold : Shape A stop (P ++ [b, c] ++ R) := by simpa using h
  have hnew := hold.replace (M := [b.join A c]) (fun d hd => by
      rw [mem_singleton.mp hd]
      simp only [Block.join]
      omega) fun x y ht => by
    simp only [Tiles, len, Block.join] at ht ⊢
    omega
  simpa using hnew

/-- The loop of `free`, from `b` on. -/
theorem coalesce_holds {fuel : ℕ} (h : Holds A s (P ++ b :: l)) (hs : Shape A s.stop (P ++ b :: l))
    (hfuel : l.length ≤ fuel) : Holds A (coalesce A fuel s b.addr) (P ++ mergeInto A b l) ∧
      Shape A (coalesce A fuel s b.addr).stop (P ++ mergeInto A b l) ∧
      (coalesce A fuel s b.addr).ready = s.ready ∧
      ∀ x, (∀ a ∈ (P ++ b :: l).map addr, x < a ∨ a + blockHeader A ≤ x) →
        (coalesce A fuel s b.addr).mem x = s.mem x := by
  induction l generalizing s b P fuel with
  | nil =>
    have hcode : coalesce A fuel s b.addr = s := by
      cases fuel with
      | zero => rfl
      | succ fuel =>
        rw [coalesce, h.header]
        exact if_pos (.inr rfl)
    rw [hcode]
    exact ⟨h, hs, rfl, fun _ _ => rfl⟩
  | cons c l ih =>
    obtain ⟨fuel, rfl⟩ : ∃ n, fuel = n + 1 := ⟨fuel - 1, by simp only [length_cons] at hfuel; omega⟩
    have hspread := hs.spread
    have hlist : P ++ b :: c :: l = (P ++ [b]) ++ c :: l := by simp
    have hheader : s.header A b.addr = ⟨b.size, c.addr, b.free⟩ := h.header
    have hcheader : s.header A c.addr = ⟨c.size, headOr links l 0, c.free⟩ :=
      Holds.header (by rw [← hlist]; exact h)
    have hnext : ¬(b.addr = 0 ∨ c.addr = 0) :=
      not_or.mpr ⟨(hspread.within b (by simp)).1, (hspread.within c (by simp)).1⟩
    have hcode : coalesce A (fuel + 1) s b.addr =
        if b.free ∧ c.free then coalesce A fuel (absorb A s b.addr c.addr) b.addr
        else coalesce A fuel s c.addr := by
      rw [coalesce, hheader]
      rw [if_neg hnext, hcheader]
    have hfuel' : l.length ≤ fuel := by simpa using hfuel
    rw [hcode, mergeInto]
    by_cases hfree : b.free = true ∧ c.free = true
    · rw [if_pos hfree, if_pos hfree]
      have hjoin : Shape A s.stop (P ++ b.join A c :: l) := hs.join
      obtain ⟨hholds, hstop, hready, hframe⟩ := absorb_holds h hspread
        (hjoin.size_lt (b := b.join A c) (by simp))
      obtain ⟨hholds', hshape', hready', hframe'⟩ := ih hholds (hstop ▸ hjoin) hfuel'
      refine ⟨hholds', hshape', hready'.trans hready, fun x hx => ?_⟩
      change (coalesce A fuel (absorb A s b.addr c.addr) (b.join A c).addr).mem x = s.mem x
      rw [hframe' x fun a ha => hx a ?_, hframe x (hx _ (by simp))]
      simp only [map_append, map_cons, mem_append, mem_cons] at ha ⊢
      rcases ha with ha | rfl | ha
      · exact .inl ha
      · exact .inr (.inl rfl)
      · exact .inr (.inr (.inr ha))
    · rw [if_neg hfree, if_neg hfree]
      rw [hlist] at h hs ⊢
      have hrest := ih h hs hfuel'
      rw [append_assoc] at hrest
      exact hrest

end Joining

section Freeing

variable {A : Arch} {s t u : Heap} {L L' : List Block} {b c : Block} {size n x : ℕ}

/-- What `free` of the block `b` leaves. -/
structure Shrunk (A : Arch) (s t : Heap) (L L' : List Block) (b : Block) : Prop where
  layout : Arranged A t L'
  inUse : (used Block.free L).Perm (b :: used Block.free L')
  frame : ∀ d ∈ used Block.free L, ∀ x, d.Payload A x → t.mem x = s.mem x

theorem Arranged.header (h : Arranged A s L) (hb : b ∈ L) :
    ∃ n, s.header A b.addr = ⟨b.size, n, b.free⟩ := by
  obtain ⟨L₁, L₂, rfl⟩ := append_of_mem hb
  exact ⟨_, h.holds.header⟩

/-- The pointer of a block in use passes the tests of `free`. -/
theorem free_code (h : Arranged A s L) (hb : b ∈ used Block.free L) :
    free A s (b.addr + blockHeader A) =
      coalesce A A.limit (s.modify A b.addr fun h => { h with free := true }) s.head := by
  obtain ⟨hbmem, hbusy⟩ := mem_used.mp hb
  obtain ⟨n, hheader⟩ := h.header hbmem
  have hpos := blockHeader_pos A
  have hhead := h.head_le hbmem
  have hend := h.end_le hbmem
  have hsize := (h.sizes b hbmem).2
  rw [← h.holds.head] at hhead
  rw [len] at hend
  have htests : ¬(b.addr < s.head ∨ s.stop ≤ b.addr + blockHeader A ∨ b.free = true) := by
    rw [hbusy]
    simp only [Bool.false_eq_true, or_false]
    omega
  rw [free, if_neg (by omega), Nat.add_sub_cancel]
  dsimp only
  rw [hheader, if_neg htests]
  rfl

theorem free_shrunk (h : Arranged A s L) (hb : b ∈ used Block.free L) :
    ∃ L', Shrunk A s (free A s (b.addr + blockHeader A)) L L' b := by
  obtain ⟨hbmem, hbusy⟩ := mem_used.mp hb
  have hspread := h.spread
  have hcode := free_code h hb
  obtain ⟨L₁, L₂, rfl⟩ := append_of_mem hbmem
  obtain ⟨hholds, hframe⟩ := modify_holds (c := { b with free := true })
    (f := fun h => { h with free := true }) h.holds hspread rfl (fun _ => rfl)
    (show b.size < A.limit from h.size_lt hbmem)
  have hshape : Shape A s.stop (L₁ ++ { b with free := true } :: L₂) := by
    have hold : Shape A s.stop (L₁ ++ [b] ++ L₂) := by simpa using h.toShape
    have hnew := hold.replace (M := [{ b with free := true }])
      (by simpa using hold.sizes b (by simp)) fun _ _ ht => ht
    rw [append_assoc] at hnew
    exact hnew
  have haddrs : (L₁ ++ { b with free := true } :: L₂).map addr =
      (L₁ ++ b :: L₂).map addr := by simp
  have hused : used Block.free (L₁ ++ { b with free := true } :: L₂) =
      used Block.free L₁ ++ used Block.free L₂ := by
    rw [used_append, used_cons_free rfl]
  -- the loop starts at the first block, which need not be the one that was freed
  generalize hM : L₁ ++ { b with free := true } :: L₂ = M at hholds hshape haddrs hused
  obtain ⟨d, l, rfl⟩ : ∃ d l, M = d :: l := by
    cases M with
    | nil => simp at hM
    | cons d l => exact ⟨d, l, rfl⟩
  have hhead : s.head = d.addr := hholds.head
  have hlength : l.length ≤ A.limit := by
    have := hshape.spread.length_le (len_pos A)
    rw [length_cons] at this
    omega
  obtain ⟨hholds', hshape', hready', hframe'⟩ := coalesce_holds (P := []) hholds hshape hlength
  obtain ⟨e, R, hmerge, -, hmerged⟩ := mergeInto_merged
  rw [hcode, hhead]
  refine ⟨_, ⟨hshape', hready'.trans h.ready, ?_, hholds'⟩, ?_, fun c hc x hx => ?_⟩
  · rw [nil_append, hmerge]
    exact hmerged
  · rw [nil_append, used_mergeInto, hused, used_append, used_cons_busy hbusy]
    exact perm_middle
  · have hout {a : ℕ} (ha : a ∈ (L₁ ++ b :: L₂).map addr) :=
      hspread.outside (mem_used.mp hc).1 hx ha
    rw [hframe' x fun a ha => hout (haddrs ▸ ha), hframe x (hout (by simp))]

theorem Grown.mem_iff (h : Grown A s t L L' b) :
    c ∈ used Block.free L' ↔ c = b ∨ c ∈ used Block.free L := by
  rw [h.inUse.mem_iff, mem_cons]

theorem Grown.not_mem (h : Grown A s t L L' b) : b ∉ used Block.free L := by
  have hnodup : (used Block.free L').Nodup :=
    (List.Nodup.of_map _ (h.layout.spread.nodup (len_pos A))).filter _
  exact (nodup_cons.mp (h.inUse.nodup_iff.mp hnodup)).1

theorem Grown.fill (h : Grown A s t L L' b) (hhead : u.head = t.head) (htail : u.tail = t.tail)
    (hstop : u.stop = t.stop) (hready : u.ready = t.ready)
    (hmem : ∀ x, ¬b.Payload A x → u.mem x = t.mem x) : Grown A s u L L' b := by
  have hb := (mem_used.mp (h.mem_iff.mpr (.inl rfl))).1
  refine ⟨h.layout.fill hb hhead htail hstop hready hmem, h.inUse, fun d hd x hx => ?_⟩
  have hd' := (mem_used.mp (h.mem_iff.mpr (.inr hd))).1
  have hne : d ≠ b := fun heq => h.not_mem (heq ▸ hd)
  rw [hmem x (h.layout.spread.payload_ne hd' hb hne hx), h.frame d hd x hx]

/-- A store of `n` bytes behind the header of a block that has room for them. -/
theorem put_payload {m : Bytes} {f : ℕ → UInt8} (hn : n ≤ b.size) (hx : ¬b.Payload A x) :
    put m (b.addr + blockHeader A) n f x = m x := by
  refine put_outside ?_
  simp only [BlockLists.Payload, len, not_and_or, not_le, not_lt] at hx
  omega

theorem clear_mem (hn : n ≤ b.size) (hx : ¬b.Payload A x) :
    (s.clear (b.addr + blockHeader A) n).mem x = s.mem x :=
  put_payload (f := fun _ => 0) hn hx

theorem copy_mem {src : ℕ} (hn : n ≤ b.size) (hx : ¬b.Payload A x) :
    (s.copy (b.addr + blockHeader A) src n).mem x = s.mem x :=
  put_payload (f := fun i => s.mem (src + i)) hn hx

theorem copy_copied {a src i : ℕ} (h : i < n) : (s.copy a src n).mem (a + i) = s.mem (src + i) :=
  put_inside (f := fun i => s.mem (src + i)) h

theorem calloc_allocates (count : ℕ) (answers : Answers) (h : Layout A s L)
    (hsize : size < A.limit) : Allocates A s L (count * size) (calloc A s count size answers) := by
  have hpos := blockHeader_pos A
  by_cases hbad : count ≠ 0 ∧ (A.limit - 1) / count < size
  · rw [calloc, if_pos hbad]
    exact .inl ⟨rfl, rfl, h⟩
  have htotal : count * size % A.limit = count * size := by
    refine Nat.mod_eq_of_lt ?_
    rcases Nat.eq_zero_or_pos count with rfl | hcount
    · omega
    · have hle : size ≤ (A.limit - 1) / count := by
        by_contra hlt
        exact hbad ⟨by omega, by omega⟩
      have := (Nat.le_div_iff_mul_le hcount).mp hle
      rw [Nat.mul_comm] at this
      omega
  rw [calloc, if_neg hbad, htotal]
  rcases malloc_allocates (count * size) answers h with
    hfail | ⟨b, L', hgrown, hpointer, hroom⟩
  · rw [if_neg (not_not.mpr hfail.1)]
    exact .inl hfail
  · rw [if_pos (by omega)]
    refine .inr ⟨b, L', hgrown.fill rfl rfl rfl rfl fun x hx => ?_, hpointer, hroom⟩
    rw [hpointer]
    exact clear_mem hroom hx

/-- No multiple of 16 is between a size and the size that it is rounded up to. -/
theorem roundUp_le (hn : n % 16 = 0) (hle : size ≤ n) : roundUp A size ≤ n := by
  have := Nat.mod_le (size + 15) A.limit
  rw [roundUp]
  omega

/-- What `realloc` does with the block `b` of the caller: nothing, with or without success, or the
block moves to `c`. -/
inductive Reallocates (A : Arch) (s : Heap) (L : List Block) (b : Block) (size : ℕ)
    (r : Heap × ℕ) : Prop
  | failed (pointer : r.2 = 0) (mem : r.1.mem = s.mem) (layout : Layout A r.1 L)
  | kept (pointer : r.2 = b.addr + blockHeader A) (heap : r.1 = s) (room : size ≤ b.size)
  | moved (c : Block) (L' U : List Block) (pointer : r.2 = c.addr + blockHeader A)
      (room : size ≤ c.size) (layout : Arranged A r.1 L')
      (before : (used Block.free L).Perm (b :: U)) (after : (used Block.free L').Perm (c :: U))
      (frame : ∀ d ∈ U, ∀ x, d.Payload A x → r.1.mem x = s.mem x)
      (copied : ∀ i < b.size,
        r.1.mem (c.addr + blockHeader A + i) = s.mem (b.addr + blockHeader A + i))

theorem realloc_reallocates {answers : Answers} (h : Arranged A s L)
    (hb : b ∈ used Block.free L) (hzero : size ≠ 0) :
    Reallocates A s L b size (realloc A s (b.addr + blockHeader A) size answers) := by
  have hpos := blockHeader_pos A
  obtain ⟨n, hheader⟩ := h.header (mem_used.mp hb).1
  by_cases hmax : (A.limit - 1) / 2 < size
  · rw [realloc, if_neg (by omega), if_neg hzero, if_pos hmax]
    exact .failed rfl rfl (.inl h)
  have hup := (roundUp_bounds hzero (not_lt.mp hmax)).1
  have hcode : realloc A s (b.addr + blockHeader A) size answers =
      if roundUp A size ≤ b.size then (s, b.addr + blockHeader A)
      else
        let r := malloc A s size answers
        if r.2 = 0 then (r.1, 0)
        else
          let s := r.1.copy r.2 (b.addr + blockHeader A) (r.1.header A b.addr).size
          (free A s (b.addr + blockHeader A), r.2) := by
    rw [realloc, if_neg (by omega), if_neg hzero, if_neg hmax]
    simp only [Nat.add_sub_cancel, hheader]
  rw [hcode]
  by_cases hroom : roundUp A size ≤ b.size
  · rw [if_pos hroom]
    exact .kept rfl rfl (hup.trans hroom)
  rw [if_neg hroom]
  rcases malloc_allocates size answers (.inl h) with
    ⟨hpointer, hmem, hlayout⟩ | ⟨c, L', hgrown, hpointer, hsize⟩
  · rw [if_pos hpointer]
    exact .failed rfl hmem hlayout
  -- the new block is filled from the old one, which is then freed
  have hb' : b ∈ used Block.free L' := hgrown.mem_iff.mpr (.inr hb)
  obtain ⟨n', hheader'⟩ := hgrown.layout.header (mem_used.mp hb').1
  have hbsize : ((malloc A s size answers).1.header A b.addr).size = b.size := by rw [hheader']
  have hcopy : b.size ≤ c.size := by
    have hc := (mem_used.mp (hgrown.mem_iff.mpr (.inl rfl))).1
    have := roundUp_le (A := A) (hgrown.layout.sizes c hc).1 hsize
    omega
  rw [if_neg (by omega), hbsize, hpointer]
  generalize ht : (malloc A s size answers).1.copy (c.addr + blockHeader A)
    (b.addr + blockHeader A) b.size = t
  have hfilled : Grown A s t L L' c := by
    rw [← ht]
    exact hgrown.fill rfl rfl rfl rfl fun x hx => copy_mem hcopy hx
  obtain ⟨L'', hfreed⟩ := free_shrunk hfilled.layout hb'
  have hcopied (i : ℕ) (hi : i < b.size) : t.mem (c.addr + blockHeader A + i) =
      s.mem (b.addr + blockHeader A + i) := by
    have hold : (malloc A s size answers).1.mem (b.addr + blockHeader A + i) =
        s.mem (b.addr + blockHeader A + i) :=
      hgrown.frame b hb _ ⟨by omega, by simp only [len]; omega⟩
    rw [← ht, ← hold]
    exact copy_copied hi
  obtain ⟨U, hU, hafter⟩ := exists_kept hb hgrown.inUse hfreed.inUse
  have hstill {d : Block} (hd : d ∈ c :: U) : d ∈ used Block.free L' :=
    hfreed.inUse.mem_iff.mpr (mem_cons_of_mem _ (hafter.mem_iff.mpr hd))
  refine .moved c L'' U rfl hsize hfreed.layout hU hafter (fun d hd x hx => ?_) (fun i hi => ?_)
  · rw [hfreed.frame d (hstill (mem_cons_of_mem _ hd)) x hx]
    exact hfilled.frame d (hU.mem_iff.mpr (mem_cons_of_mem _ hd)) x hx
  · rw [hfreed.frame c (hstill mem_cons_self) _ ⟨by omega, by simp only [len]; omega⟩]
    exact hcopied i hi

end Freeing

end Tach.UserHeap
