import Tach.Slabs

/-!
The caches of slab.c over all interleavings. The objects of a page are on its free list or owned by
one thread. A thread that created a page and still has to take an object from it finds one, as long
as the others leave it one.
-/

namespace Tach.Slabs

open List Interleaving Records
open KernelHeap (Arch)

variable {x : ℕ} {point : Point}

section Invariant

variable {ι : Type*} {A : Arch} {C : Cache} {w : World ι Slab Thread} {p : Page}

def Owns (w : World ι Slab Thread) (i : ι) (x : ℕ) : Prop := x ∈ (w.thread i).objects

/-- The free list of a page: objects of the page that nobody owns, as many as are not in use. -/
structure Listed (A : Arch) (C : Cache) (w : World ι Slab Thread) (p : Page) (l : List ℕ) : Prop where
  chain : FreeChain A w.shared.mem p.freeList l
  nodup : l.Nodup
  objects : ∀ x ∈ l, x ∈ p.objects A C
  count : l.length + p.inUse = p.capacity
  free : ∀ x ∈ l, ∀ i, ¬Owns w i x

structure Kept (A : Arch) (C : Cache) (w : World ι Slab Thread) : Prop where
  apart : Apart A C w.shared.pages
  lists : ∀ p ∈ w.shared.pages, ∃ l, Listed A C w p l
  owned : ∀ i x, Owns w i x → ∃ p ∈ w.shared.pages, x ∈ p.objects A C
  nodup : ∀ i, (w.thread i).objects.Nodup
  single : ∀ i j x, Owns w i x → Owns w j x → i = j
  waits : ∀ i a, (w.thread i).point = .retaking a →
    ∃ p ∈ w.shared.pages, p.addr = a ∧ p.freeList ≠ 0
  creators : ∀ i j a, (w.thread i).point = .retaking a → (w.thread j).point = .retaking a → i = j
  clears : ∀ i x, (w.thread i).point = .clearing x → Owns w i x

theorem fresh_kept (mem : Bytes) : Kept A C (fresh ι mem) where
  apart := ⟨by simp [fresh], by simp [fresh], .nil⟩
  lists := by simp [fresh]
  owned i x h := absurd h not_mem_nil
  nodup _ := .nil
  single i _ x h := absurd h not_mem_nil
  waits _ _ h := by cases h
  creators _ _ _ h := by cases h
  clears _ _ h := by cases h

/-- Stores into an object that a thread owns. -/
theorem Kept.read_put {i : ι} {a n : ℕ} {f : Bytes} (h : Kept A C w) (hC : Sized A C) (hx : Owns w i x)
    (ha : x ≤ a) (hn : a + n ≤ x + C.objectSize) :
    ∀ p ∈ w.shared.pages, ∀ y ∈ p.objects A C, (∀ j, ¬Owns w j y) →
      (wordCodec A).read (put w.shared.mem a n f) y = (wordCodec A).read w.shared.mem y := by
  intro p hp y hy hfree
  obtain ⟨q, hq, hxq⟩ := h.owned i x hx
  have hne : x ≠ y := fun heq => hfree i (heq ▸ hx)
  refine (wordCodec A).read_put ((h.apart.objects hq hp hxq hy hne).mono ha hn le_rfl ?_)
  exact Nat.add_le_add_left hC.word y

variable [DecidableEq ι] {i : ι} {s : Slab} {t : Thread}

theorem owns_put {j : ι} (h : Owns (w.put s i t) j x) :
    j = i ∧ x ∈ t.objects ∨ j ≠ i ∧ Owns w j x := by
  rcases w.put_cases s i t j with ⟨hj, heq⟩ | ⟨hj, heq⟩
  · exact .inl ⟨hj, by rwa [Owns, heq] at h⟩
  · exact .inr ⟨hj, by rwa [Owns, heq] at h⟩

/-- A thread moves on, and a page may have another free list. -/
theorem Kept.put (h : Kept A C w) (hapart : Apart A C s.pages)
    (hlists : ∀ p ∈ s.pages, ∃ l, Listed A C (w.put s i t) p l)
    (hpages : ∀ p ∈ w.shared.pages, ∃ q ∈ s.pages, q.addr = p.addr ∧
      q.objects A C = p.objects A C ∧ ∀ j, j ≠ i → (w.thread j).point = .retaking p.addr →
        p.freeList ≠ 0 → q.freeList ≠ 0)
    (howned : ∀ x ∈ t.objects, ∃ p ∈ s.pages, x ∈ p.objects A C) (hnodup : t.objects.Nodup)
    (hsingle : ∀ x ∈ t.objects, ∀ j, j ≠ i → ¬Owns w j x)
    (hretaking : ∀ a, t.point = .retaking a → (∃ p ∈ s.pages, p.addr = a ∧ p.freeList ≠ 0) ∧
      ∀ j, j ≠ i → (w.thread j).point ≠ .retaking a)
    (hclears : ∀ x, t.point = .clearing x → x ∈ t.objects) : Kept A C (w.put s i t) := by
  have hthread := w.put_cases s i t
  refine ⟨hapart, hlists, fun j x hx => ?_, fun j => ?_,
    fun j k x => World.put_unique (P := fun t : Thread => x ∈ t.objects)
      (fun j k => h.single j k x) (hsingle x) j k, fun j a ha => ?_,
    fun j k a => World.put_unique (P := fun t : Thread => t.point = .retaking a)
      (fun j k => h.creators j k a) (fun ha => (hretaking a ha).2) j k,
    fun j x hx => ?_⟩
  · rcases owns_put hx with ⟨-, hx⟩ | ⟨-, hx⟩
    · exact howned x hx
    · obtain ⟨p, hp, hxp⟩ := h.owned j x hx
      obtain ⟨q, hq, -, hobjects, -⟩ := hpages p hp
      exact ⟨q, hq, hobjects ▸ hxp⟩
  · rcases hthread j with ⟨-, heq⟩ | ⟨-, heq⟩ <;> rw [heq]
    · exact hnodup
    · exact h.nodup j
  · rcases hthread j with ⟨-, heq⟩ | ⟨hj, heq⟩
    · exact (hretaking a (heq ▸ ha)).1
    · rw [heq] at ha
      obtain ⟨p, hp, rfl, hfree⟩ := h.waits j a ha
      obtain ⟨q, hq, hqa, -, hkeep⟩ := hpages p hp
      exact ⟨q, hq, hqa, hkeep j hj ha hfree⟩
  · rw [Owns]
    rcases hthread j with ⟨-, heq⟩ | ⟨-, heq⟩ <;> rw [heq] at hx ⊢
    · exact hclears x hx
    · exact h.clears j x hx

/-- What a free list is for the others when a thread is given an object that is on none of them. -/
theorem Listed.put {q : Page} {l : List ℕ} (hl : Listed A C w q l)
    (hread : ∀ x ∈ l, (wordCodec A).read s.mem x = (wordCodec A).read w.shared.mem x)
    (hobjects : ∀ x ∈ t.objects, x ∈ (w.thread i).objects ∨ x ∉ l) :
    Listed A C (w.put s i t) q l := by
  refine ⟨hl.chain.congr hread, hl.nodup, hl.objects, hl.count, fun x hx j hj => ?_⟩
  rcases owns_put hj with ⟨-, hj⟩ | ⟨-, hj⟩
  · exact (hobjects x hj).elim (hl.free x hx i) fun hnot => hnot hx
  · exact hl.free x hx j hj

/-- A thread moves on without a change of its objects or of the pages, in memory that the free lists
do not use. -/
theorem Kept.move (h : Kept A C w) (hpages : s.pages = w.shared.pages)
    (hread : ∀ p ∈ w.shared.pages, ∀ x ∈ p.objects A C, (∀ j, ¬Owns w j x) →
      (wordCodec A).read s.mem x = (wordCodec A).read w.shared.mem x)
    (hretaking : ∀ a, point = .retaking a → (w.thread i).point = .retaking a)
    (hclearing : ∀ x, point = .clearing x → (w.thread i).point = .clearing x) :
    Kept A C (w.put s i ⟨point, (w.thread i).objects⟩) := by
  refine h.put (hpages ▸ h.apart) (fun p hp => ?_) (fun p hp => ?_) (hpages ▸ h.owned i) (h.nodup i)
    (fun x hx j hj hown => hj (h.single j i x hown hx)) (fun a ha => ⟨?_, fun j hj ha' => ?_⟩)
    fun x hx => h.clears i x (hclearing x hx)
  · rw [hpages] at hp
    obtain ⟨l, hl⟩ := h.lists p hp
    exact ⟨l, hl.put (fun x hx => hread p hp x (hl.objects x hx) (hl.free x hx)) fun x hx => .inl hx⟩
  · exact ⟨p, hpages ▸ hp, rfl, rfl, fun _ _ _ => id⟩
  · rw [hpages]
    exact h.waits i a (hretaking a ha)
  · exact hj (h.creators j i a ha' (hretaking a ha))

/-- A page changes its free list and its count, and a thread its objects. -/
theorem Kept.change {f : Page → Page} (h : Kept A C w) (hp : p ∈ w.shared.pages) (hC : Sized A C)
    (hpages : s.pages = setPage p.addr f w.shared.pages) (haddr : ∀ q, (f q).addr = q.addr)
    (hcapacity : ∀ q, (f q).capacity = q.capacity) (hlist : ∃ l, Listed A C (w.put s i t) (f p) l)
    (hothers : ∀ q ∈ w.shared.pages, q.addr ≠ p.addr → ∀ l, Listed A C w q l →
      Listed A C (w.put s i t) q l)
    (howned : ∀ x ∈ t.objects, ∃ q ∈ w.shared.pages, x ∈ q.objects A C) (hnodup : t.objects.Nodup)
    (hsingle : ∀ x ∈ t.objects, ∀ j, j ≠ i → ¬Owns w j x)
    (hwaits : ∀ j, j ≠ i → (w.thread j).point = .retaking p.addr → (f p).freeList ≠ 0)
    (hretaking : ∀ a, t.point ≠ .retaking a) (hclears : ∀ x, t.point = .clearing x → x ∈ t.objects) :
    Kept A C (w.put s i t) := by
  have hfind {q : Page} (hq : q ∈ w.shared.pages) : ∃ q' ∈ s.pages, q'.addr = q.addr ∧
      q'.objects A C = q.objects A C ∧ (q.addr = p.addr ∧ q' = f p ∨ q' = q) := by
    refine ⟨_, by rw [hpages]; exact mem_map_of_mem hq, ?_⟩
    split_ifs with hq'
    · obtain rfl := h.apart.eq_of_addr hC hq hp hq'
      exact ⟨haddr q, by simp only [Page.objects, haddr, hcapacity], .inl ⟨rfl, rfl⟩⟩
    · exact ⟨rfl, rfl, .inr rfl⟩
  refine h.put (hpages ▸ h.apart.setPage haddr hcapacity) (fun q hq => ?_) (fun q hq => ?_)
    (fun x hx => ?_) hnodup hsingle (fun a ha => absurd ha (hretaking a)) hclears
  · rw [hpages] at hq
    obtain ⟨q', hq', heq⟩ := mem_map.mp hq
    split_ifs at heq with haddr'
    · rwa [← heq, h.apart.eq_of_addr hC hq' hp haddr']
    · subst heq
      obtain ⟨l, hl⟩ := h.lists q' hq'
      exact ⟨l, hothers q' hq' haddr' l hl⟩
  · obtain ⟨q', hq', hqa, hobjects, ⟨hqp, rfl⟩ | rfl⟩ := hfind hq
    · exact ⟨f p, hq', hqa, hobjects, fun j hj hpoint _ => hwaits j hj (hqp ▸ hpoint)⟩
    · exact ⟨q', hq', hqa, hobjects, fun _ _ _ => id⟩
  · obtain ⟨q, hq, hxq⟩ := howned x hx
    obtain ⟨q', hq', -, hobjects, -⟩ := hfind hq
    exact ⟨q', hq', hobjects ▸ hxq⟩

end Invariant

section Steps

variable {ι : Type*} [DecidableEq ι] {A : Arch} {C : Cache} {w : World ι Slab Thread} {p : Page}
  {i : ι}

variable (h : Kept A C w) (hC : Sized A C)
include h hC

theorem take_kept (hp : p ∈ w.shared.pages) (hfree : p.freeList ≠ 0)
    (hspared : ∀ j, j ≠ i → (w.thread j).point = .retaking p.addr →
      (wordCodec A).read w.shared.mem p.freeList ≠ 0) :
    Kept A C (w.put (takeObject A w.shared p) i ((w.thread i).given p.freeList)) := by
  obtain ⟨l, hl⟩ := h.lists p hp
  obtain ⟨l', rfl, hrest⟩ := hl.chain.head_mem hfree
  have hnodup := nodup_cons.mp hl.nodup
  have hhead : p.freeList ∈ p.objects A C := hl.objects _ mem_cons_self
  have hnew (j : ι) : ¬Owns w j p.freeList := hl.free _ mem_cons_self j
  refine h.change hp hC rfl (fun _ => rfl) (fun _ => rfl) ⟨l', ?_⟩ (fun q hq hne k hk => ?_) ?_ ?_ ?_
    (fun j hj ha => hspared j hj ha) (fun a ha => by cases ha) ?_
  · refine ⟨hrest, hnodup.2, fun x hx => hl.objects x (mem_cons_of_mem _ hx), ?_,
      fun x hx j hj => ?_⟩
    · have hcount := hl.count
      rw [length_cons] at hcount
      show l'.length + (p.inUse + 1) = p.capacity
      omega
    · rcases owns_put hj with ⟨-, hj⟩ | ⟨-, hj⟩
      · rcases mem_cons.mp hj with rfl | hj
        · exact hnodup.1 hx
        · exact hl.free x (mem_cons_of_mem _ hx) i hj
      · exact hl.free x (mem_cons_of_mem _ hx) j hj
  · refine hk.put (fun x _ => rfl) fun x hx => ?_
    rcases mem_cons.mp hx with rfl | hx
    · refine .inr fun hmem => hne ?_
      rw [h.apart.eq_of_object hC hq hp (hk.objects _ hmem) hhead]
    · exact .inl hx
  · intro x hx
    rcases mem_cons.mp hx with rfl | hx
    · exact ⟨p, hp, hhead⟩
    · exact h.owned i x hx
  · exact nodup_cons.mpr ⟨hnew i, h.nodup i⟩
  · intro x hx j hj hown
    rcases mem_cons.mp hx with rfl | hx
    · exact hnew j hown
    · exact hj (h.single j i x hown hx)
  · rintro x hx
    cases hx
    exact mem_cons_self

theorem free_kept (hx : Owns w i x) (hpoint : point = .out) :
    Kept A C (w.put (slabFree A C w.shared x) i ⟨point, (w.thread i).objects.erase x⟩) := by
  obtain ⟨p, hp, hxp⟩ := h.owned i x hx
  obtain ⟨hzero, hlimit⟩ := h.apart.object_lt hC hp hxp
  have hfind : (w.shared.pages.find? fun p => p.holds A C x) = some p := by
    cases hf : w.shared.pages.find? fun p => p.holds A C x with
    | none =>
      exact absurd ((holds_iff hC hlimit).mpr hxp) (List.find?_eq_none.mp hf p hp)
    | some q =>
      have hq : q.holds A C x = true := List.find?_some (p := fun p => Page.holds A C p x) hf
      rw [h.apart.eq_of_object hC (mem_of_find?_eq_some hf) hp
        ((holds_iff hC hlimit).mp hq) hxp]
  have hread (y : ℕ) (q : Page) (hq : q ∈ w.shared.pages) (hy : y ∈ q.objects A C) (hne : y ≠ x) :
      (wordCodec A).read ((wordCodec A).write w.shared.mem x p.freeList) y =
        (wordCodec A).read w.shared.mem y := by
    have hsep := h.apart.objects hp hq hxp hy (Ne.symm hne)
    exact (wordCodec A).read_write (hsep.mono le_rfl (Nat.add_le_add_left hC.word x) le_rfl
      (Nat.add_le_add_left hC.word y))
  have hother {y : ℕ} (hy : y ∈ (w.thread i).objects.erase x) : y ≠ x ∧ Owns w i y :=
    (h.nodup i).mem_erase_iff.mp hy
  obtain ⟨l, hl⟩ := h.lists p hp
  have hxl : x ∉ l := fun hmem => hl.free x hmem i hx
  have hnodup : (x :: l).Nodup := nodup_cons.mpr ⟨hxl, hl.nodup⟩
  have hobjects : ∀ y ∈ x :: l, y ∈ p.objects A C := forall_mem_cons.mpr ⟨hxp, hl.objects⟩
  rw [slabFree, hfind]
  refine h.change hp hC rfl (fun _ => rfl) (fun _ => rfl) ⟨x :: l, ?_⟩ (fun q hq _ k hk => ?_) ?_ ?_ ?_
    (fun _ _ _ => hzero) (fun a ha => by rw [hpoint] at ha; cases ha)
    (fun y hy => by rw [hpoint] at hy; cases hy)
  · have hhead : p.freeList < 256 ^ A.word := by
      by_cases hnil : p.freeList = 0
      · rw [hnil]
        exact Nat.pow_pos (by decide)
      · obtain ⟨l', rfl, -⟩ := hl.chain.head_mem hnil
        exact (h.apart.object_lt hC hp (hl.objects _ mem_cons_self)).2
    refine ⟨⟨rfl, hzero, ?_⟩, hnodup, hobjects, ?_, fun y hy j hj => ?_⟩
    · rw [World.put_shared, (wordCodec A).read_write_self hhead]
      exact hl.chain.congr fun y hy => hread y p hp (hl.objects y hy) fun heq => hxl (heq ▸ hy)
    · -- the object was in use, so the count is not 0
      have hlt := (subperm_of_subset hnodup hobjects).length_le
      have hcount := hl.count
      simp only [Page.objects, length_map, length_range, length_cons] at hlt
      show l.length + 1 + (p.inUse - 1) = p.capacity
      omega
    · rcases owns_put hj with ⟨-, hown⟩ | ⟨hji, hown⟩
      · obtain ⟨hne, hown⟩ := hother hown
        rcases mem_cons.mp hy with rfl | hy
        · exact hne rfl
        · exact hl.free y hy i hown
      · rcases mem_cons.mp hy with rfl | hy
        · exact hji (h.single j i y hown hx)
        · exact hl.free y hy j hown
  · refine hk.put (fun y hy => ?_) fun y hy => .inl (hother hy).2
    exact hread y q hq (hk.objects y hy) fun heq => hk.free y hy i (heq ▸ hx)
  · exact fun y hy => h.owned i y (hother hy).2
  · exact (h.nodup i).erase x
  · intro y hy j hj hown
    exact hj (h.single j i y hown (hother hy).2)

theorem create_kept {page : ℕ} (hfresh : Fresh A C w i (.create (some page))) :
    Kept A C (w.put (slabPageCreate A C w.shared page) i
      ⟨.retaking page, (w.thread i).objects⟩) := by
  obtain ⟨hzero, hend, hsep⟩ := hfresh page rfl
  rw [hC.pageBytes] at hend hsep
  have hspan : pageSpan A C = pageHeader A + C.perSlab * C.objectSize := rfl
  have hpos : 0 < C.perSlab * C.objectSize := Nat.mul_pos hC.some hC.pos
  obtain ⟨hchain, hframe⟩ := linkObjects_chain (n := C.perSlab)
    (put w.shared.mem page (pageHeader A) fun _ => 0) hC (show page + pageHeader A ≠ 0 by omega)
    (by omega)
  generalize hr : linkObjects A C (page + pageHeader A)
    (put w.shared.mem page (pageHeader A) fun _ => 0) C.perSlab = r at hchain hframe
  let new : Page := ⟨page, r.2, 0, C.perSlab⟩
  have hapart : Apart A C (new :: w.shared.pages) := by
    refine ⟨fun p hp => ?_, fun p hp => ?_, pairwise_cons.mpr ⟨fun p hp => ?_, h.apart.apart⟩⟩
    · rcases mem_cons.mp hp with rfl | hp
      · exact ⟨hzero, hend⟩
      · exact h.apart.within p hp
    · rcases mem_cons.mp hp with rfl | hp
      · rfl
      · exact h.apart.capacity p hp
    · exact (hsep p hp).symm
  have hsame {q : Page} (hq : q ∈ w.shared.pages) {x : ℕ} (hx : x ∈ q.objects A C) :
      (wordCodec A).read r.1 x = (wordCodec A).read w.shared.mem x := by
    obtain ⟨hlo, hhi⟩ := h.apart.object hq hx
    have hword := hC.word
    refine (wordCodec A).read_congr fun k hk => ?_
    have hk' : k < A.word := hk
    have hout : x + k < page ∨ page + pageSpan A C ≤ x + k := by
      rcases hsep q hq with hs | hs
      · exact .inl (by omega)
      · exact .inr (by omega)
    rw [hframe _ (by omega)]
    exact put_outside (by omega)
  have hnotin {j : ι} {x : ℕ} (hx : x ∈ new.objects A C) : ¬Owns w j x := by
    intro hown
    obtain ⟨q, hq, hxq⟩ := h.owned j x hown
    obtain ⟨hlo, hhi⟩ := hapart.object mem_cons_self hx
    obtain ⟨hlo', hhi'⟩ := h.apart.object hq hxq
    have hsize := hC.pos
    have haddr : new.addr = page := rfl
    rcases hsep q hq with hs | hs <;> omega
  have hfirst : r.2 ≠ 0 := by
    obtain ⟨n, hn⟩ : ∃ n, C.perSlab = n + 1 := ⟨C.perSlab - 1, by have := hC.some; omega⟩
    rw [← hr, hn]
    show page + pageHeader A + n * C.objectSize ≠ 0
    omega
  -- nobody waits for a page at this address
  have hnone (j : ι) : (w.thread j).point ≠ .retaking page := by
    intro hj
    obtain ⟨q, hq, hqa, -⟩ := h.waits j page hj
    have := hsep q hq
    rw [hqa] at this
    rcases this with hs | hs <;> omega
  rw [slabPageCreate, hr]
  refine h.put hapart (fun q hq => ?_) (fun q hq => ?_) (fun x hx => ?_)
    (h.nodup i) (fun x hx j hj hown => hj (h.single j i x hown hx)) (fun a ha => ?_) nofun
  · rcases mem_cons.mp hq with rfl | hq
    · refine ⟨(new.objects A C).reverse, hchain, ?_, fun x hx => mem_reverse.mp hx, ?_,
        fun x hx j hj => ?_⟩
      · rw [nodup_reverse]
        refine List.Nodup.map (fun k l heq => ?_) nodup_range
        exact Nat.eq_of_mul_eq_mul_right hC.pos (Nat.add_left_cancel heq)
      · rw [length_reverse, Page.objects, length_map, length_range]
        rfl
      · rcases owns_put hj with ⟨-, hj⟩ | ⟨-, hj⟩
        · exact hnotin (mem_reverse.mp hx) hj
        · exact hnotin (mem_reverse.mp hx) hj
    · obtain ⟨l, hl⟩ := h.lists q hq
      exact ⟨l, hl.put (fun x hx => hsame hq (hl.objects x hx)) fun x hx => .inl hx⟩
  · exact ⟨q, mem_cons_of_mem _ hq, rfl, rfl, fun _ _ _ => id⟩
  · obtain ⟨q, hq, hxq⟩ := h.owned i x hx
    exact ⟨q, mem_cons_of_mem _ hq, hxq⟩
  · cases ha
    exact ⟨⟨new, mem_cons_self, rfl, hfirst⟩, fun j _ => hnone j⟩

end Steps

section Runs

variable {ι : Type*} [DecidableEq ι] {A : Arch} {C : Cache} {w v : World ι Slab Thread} {i : ι}
  {a : Choice}

theorem step_kept (h : Kept A C w) (hC : Sized A C) (hfresh : Fresh A C w i a)
    (hspared : Spared A w i a) (hs : w.step (program A C) i a = some v) : Kept A C v := by
  obtain ⟨s, t, hp, rfl⟩ := World.step_cases hs
  cases a with
  | alloc =>
    simp only [program] at hp
    split_ifs at hp with hout
    split at hp
    · rename_i p hfind
      cases hp
      have hfree : p.freeList ≠ 0 := by simpa using List.find?_some hfind
      exact take_kept h hC (mem_of_find?_eq_some hfind) hfree fun j _ hj =>
        hspared rfl p hfind ⟨j, hj⟩
    · cases hp
      exact h.move rfl (fun _ _ _ _ _ => rfl) (fun _ hr => by cases hr) fun _ hc => by cases hc
  | create answer =>
    simp only [program] at hp
    split_ifs at hp with hcreating
    cases answer with
    | none =>
      cases hp
      exact h.move rfl (fun _ _ _ _ _ => rfl) (fun _ hr => by cases hr) fun _ hc => by cases hc
    | some page =>
      cases hp
      exact create_kept h hC hfresh
  | go =>
    simp only [program] at hp
    split at hp
    · rename_i page hpoint
      obtain ⟨p, hfind, hp⟩ := Option.map_eq_some_iff.mp hp
      cases hp
      have hmem := mem_of_find?_eq_some hfind
      have haddr : p.addr = page := by simpa using List.find?_some hfind
      obtain ⟨q, hq, hqa, hfree⟩ := h.waits i page hpoint
      obtain rfl := h.apart.eq_of_addr hC hmem hq (haddr.trans hqa.symm)
      refine take_kept h hC hmem hfree fun j hj hj' => ?_
      exact absurd (h.creators j i page (haddr ▸ hj') hpoint) hj
    · rename_i object hpoint
      cases hp
      refine h.move rfl ?_ (fun _ hr => by cases hr) fun _ hc => by cases hc
      exact h.read_put (f := fun _ => 0) hC (h.clears i object hpoint) le_rfl le_rfl
    · cases hp
  | free object =>
    simp only [program] at hp
    split_ifs at hp with hown
    cases hp
    exact free_kept h hC hown.2 hown.1
  | store object k value =>
    simp only [program] at hp
    split_ifs at hp with hown
    cases hp
    refine h.move rfl ?_ (fun _ hr => hr) fun _ hc => hc
    exact h.read_put (f := fun _ => value) hC hown.1
      (Nat.le_add_right _ _) (by omega)

structure Sound (A : Arch) (C : Cache) (w : World ι Slab Thread) : Prop where
  once : ∀ i, (w.thread i).objects.Nodup
  single : ∀ i j x, Owns w i x → Owns w j x → i = j
  lists : ∀ p ∈ w.shared.pages, ∃ l, FreeChain A w.shared.mem p.freeList l ∧
    l.length + p.inUse = p.capacity ∧ ∀ x ∈ l, ∀ i, ¬Owns w i x
  found : ∀ i page, (w.thread i).point = .retaking page →
    ∃ p, (w.shared.pages.find? fun p => p.addr = page) = some p ∧ p.freeList ≠ 0

omit [DecidableEq ι] in
theorem Kept.sound (h : Kept A C w) (hC : Sized A C) : Sound A C w := by
  refine ⟨h.nodup, h.single, fun p hp => ?_, fun i page hpoint => ?_⟩
  · obtain ⟨l, hl⟩ := h.lists p hp
    exact ⟨l, hl.chain, hl.count, hl.free⟩
  · obtain ⟨p, hp, hpa, hfree⟩ := h.waits i page hpoint
    cases hf : w.shared.pages.find? fun p => p.addr = page with
    | none => exact absurd hpa (by simpa using List.find?_eq_none.mp hf p hp)
    | some q =>
      have hqa : q.addr = page := by simpa using List.find?_some hf
      obtain rfl := h.apart.eq_of_addr hC (mem_of_find?_eq_some hf) hp (hqa.trans hpa.symm)
      exact ⟨q, rfl, hfree⟩

/-- An object that a thread is given was owned by nobody. -/
theorem Kept.given (h : Kept A C v) (hs : w.step (program A C) i a = some v)
    (hx : (v.thread i).objects = x :: (w.thread i).objects) (j : ι) : ¬Owns w j x := by
  intro hown
  have hnodup := h.nodup i
  rw [hx] at hnodup
  have hi : Owns v i x := by
    rw [Owns, hx]
    exact mem_cons_self
  by_cases hj : j = i
  · subst hj
    exact (nodup_cons.mp hnodup).1 hown
  · obtain ⟨s, t, -, rfl⟩ := World.step_cases hs
    exact hj (h.single j i x (by rwa [Owns, World.put_other hj]) hi)

/-- Where `kmalloc` hands out fresh memory and threads leave an object of a new page to its creator,
no object is handed out twice and no free list is taken from when it is empty. -/
theorem slab_objects_sound {size : ℕ} {mem : Bytes} (hcreate : slabCacheCreate A size = some C)
    (hsize : 5 * A.word + (size + A.word - 1) / A.word * A.word < A.limit)
    (h : Runs (program A C) (fun w i a => Fresh A C w i a ∧ Spared A w i a) (fresh ι mem) w) :
    Sound A C w ∧ ∀ i a v, Fresh A C w i a → Spared A w i a → w.step (program A C) i a = some v →
      ∀ x, (v.thread i).objects = x :: (w.thread i).objects → ∀ j, ¬Owns w j x := by
  have hC := slabCacheCreate_sized hcreate hsize
  have hkept : Kept A C w := h.invariant (fresh_kept mem) fun u i a v hu hok hs =>
    step_kept hu hC hok.1 hok.2 hs
  refine ⟨hkept.sound hC, fun i a v hfresh hspared hs x hx => ?_⟩
  exact (step_kept hkept hC hfresh hspared hs).given hs hx

end Runs

/-- One thread allocates an object of 4000 bytes, for which it creates a page. -/
theorem slab_objects_sound_used : ∃ w : World (Fin 2) Slab Thread, Runs (program .bits64 ⟨4000, 1⟩)
        (fun w i a => Fresh .bits64 ⟨4000, 1⟩ w i a ∧ Spared .bits64 w i a) (fresh (Fin 2) fun _ => 0) w ∧
      (w.thread 0).objects = [4136] ∧ Sound .bits64 ⟨4000, 1⟩ w := by
  obtain ⟨w, hrun, hobjects⟩ : ∃ w, (fresh (Fin 2) fun _ => 0).run (program .bits64 ⟨4000, 1⟩)
      (fun w _ a => decide (w.shared.pages = []) && decide (a = .alloc ∨ a = .create (some 4096)) ||
        decide (a = .go))
      [(0, .alloc), (0, .create (some 4096)), (0, .go), (0, .go)] = some w ∧
      (w.thread 0).objects = [4136] := ⟨_, rfl, by decide +kernel⟩
  have hruns : Runs (program .bits64 ⟨4000, 1⟩)
      (fun w i a => Fresh .bits64 ⟨4000, 1⟩ w i a ∧ Spared .bits64 w i a) (fresh (Fin 2) fun _ => 0) w := by
    refine Runs.of_run (fun u i a hpass => ?_) hrun
    simp only [Bool.or_eq_true, Bool.and_eq_true, decide_eq_true_eq] at hpass
    rcases hpass with ⟨hnil, rfl | rfl⟩ | rfl
    · exact ⟨nofun, fun _ p hfind => by rw [hnil] at hfind; cases hfind⟩
    · refine ⟨fun page heq => ?_, nofun⟩
      cases heq
      exact ⟨by decide, by decide, by simp [hnil]⟩
    · exact ⟨nofun, nofun⟩
  exact ⟨w, hruns, hobjects,
    (slab_objects_sound (show slabCacheCreate .bits64 4000 = some ⟨4000, 1⟩ by decide +kernel)
      (by decide) hruns).1⟩

/-- A thread creates a page with one object, another one takes the object, and the first one takes
what is not there. -/
theorem slab_takes_from_empty : slabCacheCreate .bits64 4000 = some ⟨4000, 1⟩ ∧
    ∃ w v : World (Fin 2) Slab Thread, Runs (program .bits64 ⟨4000, 1⟩) (Fresh .bits64 ⟨4000, 1⟩)
        (fresh (Fin 2) fun _ => 0) w ∧ w.step (program .bits64 ⟨4000, 1⟩) 0 .go = some v ∧
      (w.thread 0).point = .retaking 4096 ∧ w.shared.pages = [⟨4096, 0, 1, 1⟩] ∧
      (v.thread 0).objects = [0] ∧ v.shared.pages = [⟨4096, 0, 2, 1⟩] := by
  refine ⟨by decide +kernel, ?_⟩
  obtain ⟨w, v, hrun, hstep, hpoint, hpages, hobjects, hpages'⟩ : ∃ w v,
      (fresh (Fin 2) fun _ => 0).run (program .bits64 ⟨4000, 1⟩)
        (fun w _ a => decide (w.shared.pages = []) && decide (a = .create (some 4096)) ||
          decide (a = .alloc) || decide (a = .go))
        [(0, .alloc), (0, .create (some 4096)), (1, .alloc), (1, .go)] = some w ∧
      w.step (program .bits64 ⟨4000, 1⟩) 0 .go = some v ∧
      (w.thread 0).point = .retaking 4096 ∧ w.shared.pages = [⟨4096, 0, 1, 1⟩] ∧
      (v.thread 0).objects = [0] ∧ v.shared.pages = [⟨4096, 0, 2, 1⟩] :=
    ⟨_, _, rfl, rfl, by decide +kernel, by decide +kernel, by decide +kernel, by decide +kernel⟩
  refine ⟨w, v, Runs.of_run (fun u i a hpass => ?_) hrun, hstep, hpoint, hpages, hobjects, hpages'⟩
  simp only [Bool.or_eq_true, Bool.and_eq_true, decide_eq_true_eq] at hpass
  rcases hpass with (⟨hnil, rfl⟩ | rfl) | rfl
  · intro page heq
    cases heq
    exact ⟨by decide, by decide, by simp [hnil]⟩
  · exact nofun
  · exact nofun

end Tach.Slabs
