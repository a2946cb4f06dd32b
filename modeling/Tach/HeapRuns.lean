import Tach.HeapFrees

/-!
The kernel heap over whole runs of `kmalloc`, `kzalloc`, `krealloc`, `kfree` and stores of the owners.
The blocks in use are those that were handed out and not freed, and the runs of pages are those of
the blocks of the page allocator.
-/

namespace Tach.KernelHeap

open Function List BlockLists Records Tilings Block

/-- What `kmalloc` returns for a block. -/
def Block.pointer (A : Arch) (b : Block) : ℕ := b.addr + headerSize A

theorem Block.pointer_ne (A : Arch) (b : Block) : b.pointer A ≠ 0 := by
  have := headerSize_pos A
  rw [Block.pointer]
  omega

section Steps

variable {A : Arch} {arena : ℕ × ℕ} {s : System} {P R U : List Block} {size i : ℕ} {b : Block}

/-- The users and the page allocator agree with the layout of the heap. -/
structure Accounts (A : Arch) (arena : ℕ × ℕ) (s : System) (P R : List Block) : Prop where
  layout : Layout A arena s.heap P R
  runs : s.runs = P.map Block.run
  live : Matches (Block.pointer A) Block.size s.live (used Block.free (P ++ R))

def Action.owner : Action → ℕ
  | .malloc _ _ => 0
  | .zalloc _ _ => 0
  | .realloc pointer _ _ => pointer
  | .free pointer => pointer
  | .store pointer _ _ => pointer

/-- The blocks of other owners are still there, with their bytes. -/
abbrev Others (s t : System) (owner : ℕ) : Prop :=
  BlockLists.Others s.live s.heap.mem t.live t.heap.mem owner

/-- What `krealloc` keeps of the block at `pointer`, when it returns `q`. -/
abbrev Carried (s t : System) (pointer size q : ℕ) : Prop :=
  BlockLists.Carried s.live s.heap.mem t.live t.heap.mem pointer size q

theorem Block.payload_pointer (hi : i < b.size) : b.Payload A (b.pointer A + i) := by
  simp only [BlockLists.Payload, Block.pointer, len]
  omega

/-- What keeps the bytes of blocks keeps the bytes that their users see. -/
theorem frame_pointer {m m' : Bytes} (hframe : ∀ d ∈ U, ∀ x, d.Payload A x → m' x = m x) :
    ∀ d ∈ U, ∀ i < d.size, m' (d.pointer A + i) = m (d.pointer A + i) :=
  fun d hd _ hi => hframe d hd _ (payload_pointer hi)

theorem modest_room (h : size ≤ (A.limit - 1) / 2) : size + headerSize A + pageSize ≤ A.limit := by
  have hlimit : 4294967296 ≤ A.limit := by cases A <;> decide
  have hheader : headerSize A ≤ 48 := by cases A <;> decide
  rw [pageSize]
  omega

/-- What a call or store does to the blocks in use. -/
structure Respects (A : Arch) (s : System) (a : Action) : Prop where
  others : Others s (step A s a).1 a.owner
  realloc : ∀ pointer size answer, a = .realloc pointer size answer →
    Carried s (step A s a).1 pointer size (krealloc A s.heap pointer size answer).pointer

variable (h : Accounts A arena s P R) (harena : arena.1 + arena.2 ≤ A.limit) {pointer : ℕ}

include h

theorem Accounts.zero_not_mem : 0 ∉ s.live.map Prod.fst :=
  h.live.zero_not_mem (pointer_ne A)

theorem Accounts.without_zero : without s.live 0 = s.live :=
  Matches.without_none h.zero_not_mem

theorem allocate_accounts {r : Allocated} (hr : Allocates A arena s.heap P R size r) :
    (∃ P' R', Accounts A arena (s.allocate A size r) P' R') ∧ Others s (s.allocate A size r) 0 := by
  rcases hr with ⟨hpointer, htaken, hmem, hlayout⟩ | ⟨b, P', R', hgrown, hpointer, hsize, hruns⟩
  · have hlive : (s.allocate A size r).live = s.live := if_neg (not_not.mpr hpointer)
    refine ⟨⟨P, R, hlayout, ?_, ?_⟩, fun q hq _ => ⟨by rwa [hlive], fun i _ => congrFun hmem _⟩⟩
    · rw [← h.runs, System.allocate, htaken]
      rfl
    · rw [hlive]
      exact h.live
  · have hne : r.pointer ≠ 0 := hpointer ▸ b.pointer_ne A
    have hlive : (s.allocate A size r).live = (b.pointer A, size) :: s.live := by
      rw [System.allocate]
      rw [if_pos hne, hpointer]
      rfl
    have hchange := h.live.grown hgrown.inUse hsize (frame_pointer hgrown.frame)
    rw [← hlive] at hchange
    refine ⟨⟨P', R', hgrown.layout, ?_, hchange.1⟩, hchange.2⟩
    rw [hruns, ← h.runs, System.allocate, hpointer, Nat.add_sub_cancel]

include harena

theorem Accounts.pointer_not_mem
    (hU : (used free (P ++ R)).Perm (b :: U)) : b.pointer A ∉ U.map (Block.pointer A) :=
  h.live.pointer_not_mem (h.layout.spread harena) (fun _ => rfl) (len_pos A) hU

theorem free_accounts (hown : s.Owns pointer) :
    (∃ P' R', Accounts A arena (step A s (.free pointer)).1 P' R') ∧
      Others s (step A s (.free pointer)).1 pointer := by
  rcases hown with rfl | hown
  · have hcode : step A s (.free 0) = (s, []) := by
      simp only [step, kfree, if_pos, give, h.without_zero]
    rw [hcode]
    exact ⟨⟨P, R, h⟩, fun r hr _ => ⟨hr, fun _ _ => rfl⟩⟩
  · obtain ⟨b, hb, rfl⟩ := h.live.mem hown
    obtain ⟨P', R', hfreed, hruns⟩ := kfree_layout harena h.layout hb
    obtain ⟨hmatches, hothers⟩ := h.live.shrunk hfreed.inUse
      (h.pointer_not_mem harena hfreed.inUse) (frame_pointer hfreed.frame)
    refine ⟨⟨P', R', hfreed.layout, ?_, hmatches⟩, hothers⟩
    rw [hruns, ← h.runs]
    rfl

/-- The outcomes of `krealloc` for a block in use. -/
theorem reallocate_accounts {r : Reallocated} (hb : b ∈ used free (P ++ R)) (hzero : size ≠ 0)
    (hr : Reallocates A arena s.heap P R b size r) :
    (∃ P' R', Accounts A arena (s.reallocate A (b.pointer A) size r) P' R') ∧
      Others s (s.reallocate A (b.pointer A) size r) (b.pointer A) ∧
      Carried s (s.reallocate A (b.pointer A) size r) (b.pointer A) size r.pointer := by
  cases hr with
  | failed hpointer htaken hgiven hsame hlayout =>
    have hnew : s.reallocate A (b.pointer A) size r = ⟨r.heap, s.live, s.runs⟩ := by
      rw [System.reallocate, htaken, hgiven, if_neg (not_not.mpr hpointer), if_neg hzero]
      rfl
    rw [hnew]
    exact ⟨⟨P, R, hlayout, h.runs, h.live⟩, fun q hq _ => ⟨hq, fun i _ => congrFun hsame _⟩,
      fun _ _ => ⟨hsame, rfl⟩, fun hne => absurd hpointer hne⟩
  | kept hpointer htaken hgiven hheap hroom =>
    have hq : r.pointer = b.pointer A := hpointer
    have hnew : s.reallocate A (b.pointer A) size r =
        ⟨s.heap, (b.pointer A, size) :: without s.live (b.pointer A), s.runs⟩ := by
      rw [System.reallocate, htaken, hgiven, hq, if_pos (b.pointer_ne A), hheap]
      rfl
    have hperm := perm_cons_erase hb
    obtain ⟨hmatches, hothers, hcarried⟩ := h.live.moved hperm
      (h.pointer_not_mem harena hperm) hperm hroom (b.pointer_ne A) (fun _ _ _ _ => rfl)
      fun _ _ _ => rfl
    rw [hnew, hq]
    exact ⟨⟨P, R, h.layout, h.runs, hmatches⟩, hothers, hcarried⟩
  | moved c P' R' U hpointer hroom hlayout hbefore hafter hframe hcopied hruns =>
    have hq : r.pointer = c.pointer A := hpointer
    have hnew : s.reallocate A (b.pointer A) size r =
        ⟨r.heap, (c.pointer A, size) :: without s.live (b.pointer A), P'.map run⟩ := by
      rw [System.reallocate, hq, if_pos (c.pointer_ne A), hruns, h.runs, Block.pointer,
        Nat.add_sub_cancel]
    obtain ⟨hmatches, hothers, hcarried⟩ := h.live.moved hbefore (h.pointer_not_mem harena hbefore)
      hafter hroom (c.pointer_ne A) (frame_pointer hframe) fun i hi _ => hcopied i hi
    rw [hnew, hq]
    exact ⟨⟨P', R', hlayout, rfl, hmatches⟩, hothers, hcarried⟩

theorem realloc_accounts {answer : Option ℕ}
    (hok : Proper A arena s (.realloc pointer size answer)) :
    (∃ P' R', Accounts A arena (step A s (.realloc pointer size answer)).1 P' R') ∧
      Others s (step A s (.realloc pointer size answer)).1 pointer ∧
      Carried s (step A s (.realloc pointer size answer)).1 pointer size
        (krealloc A s.heap pointer size answer).pointer := by
  obtain ⟨hown, hmax, hfresh⟩ := hok
  rw [h.runs] at hfresh
  rcases hown with rfl | hown
  · -- a plain allocation
    have hcode : krealloc A s.heap 0 size answer =
        ⟨(kmalloc A s.heap size answer).heap, (kmalloc A s.heap size answer).pointer,
          (kmalloc A s.heap size answer).taken, none⟩ := if_pos rfl
    have hnew : (step A s (.realloc 0 size answer)).1 =
        s.allocate A size (kmalloc A s.heap size answer) := by
      simp only [step, System.reallocate, hcode, h.without_zero, ite_self, give]
      rfl
    have halloc := kmalloc_layout h.layout harena (modest_room hmax) hfresh
    obtain ⟨haccounts, hothers⟩ := allocate_accounts h halloc
    rw [hnew, hcode]
    refine ⟨haccounts, hothers, .of_new h.zero_not_mem fun hzero => ?_⟩
    rcases halloc with ⟨-, -, hmem, -⟩ | ⟨b, -, -, -, hpointer, -, -⟩
    · exact hmem
    · exact absurd (hpointer.symm.trans hzero) (b.pointer_ne A)
  · obtain ⟨b, hb, rfl⟩ := h.live.mem hown
    by_cases hzero : size = 0
    · -- the block is freed
      have hcode : krealloc A s.heap (b.pointer A) size answer =
          ⟨(kfree A s.heap (b.pointer A)).1, 0, none, (kfree A s.heap (b.pointer A)).2⟩ := by
        rw [krealloc, if_neg (b.pointer_ne A), if_pos hzero]
      have hnew : (step A s (.realloc (b.pointer A) size answer)).1 =
          (step A s (.free (b.pointer A))).1 := by
        simp only [step, System.reallocate, hcode, ne_eq, not_true_eq_false, if_false, if_pos hzero]
        rfl
      obtain ⟨haccounts, hothers⟩ := free_accounts h harena (.inr hown)
      rw [hnew, hcode]
      exact ⟨haccounts, hothers, fun hne => absurd hzero hne, fun hne => absurd rfl hne⟩
    · exact reallocate_accounts h harena hb hzero
        (krealloc_layout harena h.layout hb hzero (modest_room hmax) hfresh)

theorem store_accounts {value : UInt8} (hok : Proper A arena s (.store pointer i value)) :
    (∃ P' R', Accounts A arena (step A s (.store pointer i value)).1 P' R') ∧
      Others s (step A s (.store pointer i value)).1 pointer := by
  obtain ⟨r, hr, rfl, hi⟩ := hok
  obtain ⟨b, hb, hpointer, hroom⟩ := h.live.room r hr
  have hx : b.Payload A (r.1 + i) := by
    rw [hpointer]
    exact payload_pointer (by omega)
  have hbmem := (mem_used.mp hb).1
  have houtside (x : ℕ) (hne : ¬b.Payload A x) :
      update s.heap.mem (r.1 + i) value x = s.heap.mem x :=
    update_of_ne (show x ≠ r.1 + i from fun heq => hne (heq ▸ hx)) _ _
  exact ⟨⟨P, R, h.layout.fill harena hbmem rfl rfl houtside, h.runs, h.live⟩,
    h.live.stored (h.layout.spread harena) (fun _ => rfl) (len_pos A) (fun _ => le_rfl) hr hi
      _ value⟩

theorem step_accounts {a : Action} (hok : Proper A arena s a) :
    (∃ P' R', Accounts A arena (step A s a).1 P' R') ∧ Respects A s a := by
  cases a with
  | malloc size answer =>
    obtain ⟨hmax, hfresh⟩ := hok
    rw [h.runs] at hfresh
    obtain ⟨hnew, hothers⟩ := allocate_accounts h (kmalloc_layout h.layout harena (modest_room hmax) hfresh)
    exact ⟨hnew, hothers, nofun⟩
  | zalloc size answer =>
    obtain ⟨hmax, hfresh⟩ := hok
    rw [h.runs] at hfresh
    obtain ⟨hnew, hothers⟩ := allocate_accounts h (kzalloc_layout harena h.layout (modest_room hmax) hfresh)
    exact ⟨hnew, hothers, nofun⟩
  | realloc pointer size answer =>
    obtain ⟨hnew, hothers, hcarried⟩ := realloc_accounts h harena hok
    exact ⟨hnew, hothers, fun _ _ _ heq => by cases heq; exact hcarried⟩
  | free pointer =>
    obtain ⟨hnew, hothers⟩ := free_accounts h harena hok
    exact ⟨hnew, hothers, nofun⟩
  | store pointer i value =>
    obtain ⟨hnew, hothers⟩ := store_accounts h harena hok
    exact ⟨hnew, hothers, nofun⟩

end Steps

section Integrity

variable {A : Arch} {arena : ℕ × ℕ} {s : System} {P R : List Block} {given : Option (ℕ × ℕ)}

/-- A state of the heap in which nothing overlaps and nothing is lost. -/
structure Sound (A : Arch) (arena : ℕ × ℕ) (s : System) (P R : List Block) : Prop where
  holds : Holds A s.heap (P ++ R)
  blocks : Spread A (P ++ R)
  paged : ∀ b ∈ P, b.pmm = true ∧ b.free = false ∧ b.len A = b.pages * pageSize
  runs : s.runs = P.map Block.run
  covers : Covers A arena R
  merged : Merged Block.free R
  room : ∀ r ∈ s.live, ∃ b ∈ P ++ R, b.free = false ∧ r.1 = b.addr + headerSize A ∧ r.2 ≤ b.size
  apart : s.live.Pairwise fun r q => Separate r.1 r.2 q.1 q.2
  headers : ∀ r ∈ s.live, ∀ b ∈ P ++ R, Separate r.1 r.2 b.addr (headerSize A)
  idle : s.live = [] → s.runs = [] ∧ P ++ R = arenaBlock A arena

theorem empty_layout (mem : Bytes) (ready : Bool) : Layout A (0, 0) ⟨mem, 0, ready⟩ [] [] :=
  ⟨⟨by simp, .nil, by simp, rfl⟩, .nil, ⟨trivial, rfl⟩, fun _ => rfl⟩

theorem boot_accounts (mem : Bytes) (hgiven : (arenaOf given).1 + (arenaOf given).2 ≤ A.limit) :
    ∃ R, Accounts A (arenaOf given) (boot A mem given) [] R := by
  cases given with
  | none => exact ⟨[], empty_layout mem false, rfl, .nil, by simp [boot]⟩
  | some g =>
    obtain ⟨start, size⟩ := g
    by_cases hstart : start = 0
    · have harena : arenaOf (some (start, size)) = (0, 0) := if_pos hstart
      have hboot : boot A mem (some (start, size)) = ⟨⟨mem, 0, true⟩, [], []⟩ := by
        rw [boot, kheapInit, if_pos (.inl hstart)]
      rw [harena, hboot]
      exact ⟨[], empty_layout mem true, rfl, .nil, by simp⟩
    · have harena : arenaOf (some (start, size)) = (start, size) := if_neg hstart
      rw [harena] at hgiven ⊢
      refine ⟨_, kheapInit_layout hstart hgiven, rfl, ?_, by simp [boot]⟩
      rw [nil_append, arenaBlock]
      split <;> exact .nil

/-- Every state of a run has a layout that agrees with its users. -/
theorem run_accounts {mem : Bytes} {history : List ℕ}
    (hgiven : (arenaOf given).1 + (arenaOf given).2 ≤ A.limit)
    (h : Run A (arenaOf given) (boot A mem given) history s) :
    ∃ P R, Accounts A (arenaOf given) s P R := by
  refine h.invariant (I := fun _ s => ∃ P R, Accounts A (arenaOf given) s P R) ?_ ?_
  · obtain ⟨R, hboot⟩ := boot_accounts mem hgiven
    exact ⟨[], R, hboot⟩
  · rintro _ u a v e ⟨P, R, hu⟩ hok hnext
    have hv : (step A u a).1 = v := congrArg Prod.fst (Option.some.inj hnext)
    exact hv ▸ (step_accounts hu hgiven hok).1

/-- Where all blocks of the arena are free there is only one. -/
theorem Layout.idle {t : Heap} (h : Layout A arena t P R) (hused : used free (P ++ R) = []) :
    P = [] ∧ R = arenaBlock A arena := by
  have hfree (b : Block) (hb : b ∈ P ++ R) : b.free = true := by
    by_contra hbusy
    have : b ∈ used free (P ++ R) := mem_used.mpr ⟨hb, by simpa using hbusy⟩
    rw [hused] at this
    exact absurd this not_mem_nil
  have hP : P = [] := by
    refine eq_nil_iff_forall_not_mem.mpr fun b hb => ?_
    have hbusy := (h.paged b hb).used
    rw [hfree b (mem_append_left _ hb)] at hbusy
    cases hbusy
  refine ⟨hP, ?_⟩
  have hcovers := h.covers
  unfold Covers at hcovers
  unfold arenaBlock
  split at hcovers
  · exact hcovers
  · rename_i a e hspan
    match R, h.merged, h.plain, hfree, hcovers with
    | [], _, _, _, hcovers =>
      obtain ⟨-, -, -, hlt⟩ := span_some hspan
      exact absurd hcovers (Nat.ne_of_lt hlt)
    | [b], _, hplain, hfree, hcovers =>
      obtain ⟨hpmm, hpages⟩ := hplain b mem_cons_self
      have hbfree := hfree b (by simp)
      obtain ⟨haddr, hend⟩ := hcovers
      have hsize : b.size = e - a - headerSize A := by
        simp only [Tiles, len] at hend
        omega
      rw [← haddr] at hsize
      rw [← haddr, ← hsize, ← hbfree, ← hpages, ← hpmm]
    | b :: c :: R, hmerged, _, hfree, _ =>
      exact absurd ⟨hfree b (by simp), hfree c (by simp)⟩ (isChain_cons_cons.mp hmerged).1

theorem Accounts.sound (h : Accounts A arena s P R) (harena : arena.1 + arena.2 ≤ A.limit) :
    Sound A arena s P R := by
  have hspread := h.layout.spread harena
  have hsize (b : Block) : headerSize A + b.size ≤ b.len A := by rw [len]
  refine ⟨h.layout.holds, hspread, fun b hb => ?_, h.runs, h.layout.covers, h.layout.merged,
    fun r hr => ?_, h.live.apart hspread (fun _ => rfl) (len_pos A) hsize,
    h.live.headers hspread (fun _ => rfl) hsize, fun hnil => ?_⟩
  · exact ⟨(h.layout.paged b hb).pmm, (h.layout.paged b hb).used, (h.layout.paged b hb).pages⟩
  · obtain ⟨b, hb, hroom⟩ := h.live.room r hr
    exact ⟨b, (mem_used.mp hb).1, (mem_used.mp hb).2, hroom⟩
  · have hused : used free (P ++ R) = [] := by
      have hpointers := h.live.pointers
      rw [hnil] at hpointers
      exact map_eq_nil_iff.mp hpointers.symm.eq_nil
    obtain ⟨rfl, hR⟩ := h.layout.idle hused
    exact ⟨h.runs, hR⟩

/-- In every run of the heap the blocks lie as they should, and every call and store that keeps to
the rules leaves the blocks of others alone. -/
theorem heap_integrity (A : Arch) (given : Option (ℕ × ℕ)) (mem : Bytes)
    (hgiven : (arenaOf given).1 + (arenaOf given).2 ≤ A.limit) {history : List ℕ} {s : System}
    (h : Run A (arenaOf given) (boot A mem given) history s) :
    (∃ P R, Sound A (arenaOf given) s P R) ∧
      ∀ a, Proper A (arenaOf given) s a → Respects A s a := by
  obtain ⟨P, R, haccounts⟩ := run_accounts hgiven h
  exact ⟨⟨P, R, haccounts.sound hgiven⟩, fun a ha => (step_accounts haccounts hgiven ha).2⟩

/-- Allocations of at most 100 bytes that ask for no page, and frees of blocks in use. -/
def modest (s : System) : Action → Bool
  | .malloc size none => size ≤ 100
  | .free pointer => pointer ∈ s.live.map Prod.fst
  | _ => false

/-- In an arena of 400 bytes a block of 100 bytes is allocated, one of 40 behind it, and the first is
freed; the second is where it was. -/
theorem heap_integrity_used :
    ∃ s, Run .bits64 (64, 400) (boot .bits64 (fun _ => 0) (some (64, 400))) [112, 272] s ∧
      s.live = [(272, 40)] ∧ Others s (step .bits64 s (.malloc 16 none)).1 0 := by
  obtain ⟨s, hrun, hlive⟩ : ∃ s, Run .bits64 (64, 400)
      (boot .bits64 (fun _ => 0) (some (64, 400))) [112, 272] s ∧ s.live = [(272, 40)] := by
    refine ⟨_, Histories.Run.of_exec modest (fun u a hpass => ?_)
      [.malloc 100 none, .malloc 40 none, .free 112] rfl, by decide +kernel⟩
    unfold modest at hpass
    split at hpass
    · exact ⟨(of_decide_eq_true hpass).trans (by decide), fun _ h => by cases h⟩
    · exact .inr (of_decide_eq_true hpass)
    · cases hpass
  refine ⟨s, hrun, hlive, ((heap_integrity .bits64 (some (64, 400)) (fun _ => 0) (by decide) hrun).2
    (.malloc 16 none) ⟨by decide, fun _ h => by cases h⟩).others⟩

/-- A block in use with at least `size` bytes. -/
def Offers (A : Arch) (arena : ℕ × ℕ) (s : Heap) (pointer size : ℕ) : Prop :=
  ∃ P R, Layout A arena s P R ∧ ∃ b ∈ used Block.free (P ++ R), pointer = b.pointer A ∧ size ≤ b.size

theorem Allocates.offers {n : ℕ} {s : Heap} {r : Allocated} (h : Allocates A arena s P R n r)
    (hne : r.pointer ≠ 0) : Offers A arena r.heap r.pointer n := by
  rcases h with ⟨hfail, -⟩ | ⟨b, P', R', hgrown, hpointer, hsize, -⟩
  · exact absurd hfail hne
  · exact ⟨P', R', hgrown.layout, b, hgrown.inUse.mem_iff.mpr mem_cons_self, hpointer, hsize⟩

end Integrity

end Tach.KernelHeap
