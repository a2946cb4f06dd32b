import Tach.UserHeapFrees

/-!
The user heap over whole runs of `malloc`, `calloc`, `realloc`, `free` and stores of the program,
with any answers of `brk`.
-/

namespace Tach.UserHeap

open Function List BlockLists Records Tilings Block
open KernelHeap (Arch)

/-- What `malloc` returns for a block. -/
def Block.pointer (A : Arch) (b : Block) : ℕ := b.addr + blockHeader A

theorem Block.pointer_ne (A : Arch) (b : Block) : b.pointer A ≠ 0 := by
  have := blockHeader_pos A
  rw [pointer]
  omega

section Steps

variable {A : Arch} {s : System} {L U : List Block} {b : Block}

/-- The program agrees with the layout of the heap. -/
structure Accounts (A : Arch) (s : System) (L : List Block) : Prop where
  layout : Layout A s.heap L
  live : Matches (Block.pointer A) Block.size s.live (used Block.free L)

def Action.owner : Action → ℕ
  | .malloc _ _ => 0
  | .calloc _ _ _ => 0
  | .realloc pointer _ _ => pointer
  | .free pointer => pointer
  | .store pointer _ _ => pointer

/-- The other blocks are still there, with their bytes. -/
abbrev Others (s t : System) (owner : ℕ) : Prop :=
  BlockLists.Others s.live s.heap.mem t.live t.heap.mem owner

/-- What `realloc` keeps of the block at `pointer`, when it returns `q`. -/
abbrev Carried (s t : System) (pointer size q : ℕ) : Prop :=
  BlockLists.Carried s.live s.heap.mem t.live t.heap.mem pointer size q

theorem Block.payload_pointer {i : ℕ} (hi : i < b.size) : b.Payload A (b.pointer A + i) := by
  simp only [BlockLists.Payload, pointer, len]
  omega

/-- What keeps the bytes of blocks keeps the bytes that the program sees. -/
theorem frame_pointer {m m' : Bytes} (hframe : ∀ d ∈ U, ∀ x, d.Payload A x → m' x = m x) :
    ∀ d ∈ U, ∀ i < d.size, m' (d.pointer A + i) = m (d.pointer A + i) :=
  fun d hd _ hi => hframe d hd _ (payload_pointer hi)

theorem Arranged.pointer_not_mem {t : Heap} {live : List (ℕ × ℕ)}
    (h : Arranged A t L) (hlive : Matches (pointer A) size live (used Block.free L))
    (hU : (used Block.free L).Perm (b :: U)) : b.pointer A ∉ U.map (pointer A) :=
  hlive.pointer_not_mem h.spread (fun _ => rfl) (len_pos A) hU

namespace Accounts

variable (h : Accounts A s L)
include h

theorem zero_not_mem : 0 ∉ s.live.map Prod.fst :=
  h.live.zero_not_mem (pointer_ne A)

theorem without_zero : without s.live 0 = s.live := Matches.without_none h.zero_not_mem

variable {pointer size : ℕ} {r : Heap × ℕ}

/-- A pointer of the program is that of a block, in a heap that is ready. -/
theorem block (hown : pointer ∈ s.live.map Prod.fst) :
    ∃ b ∈ used Block.free L, pointer = b.pointer A ∧ Arranged A s.heap L := by
  obtain ⟨b, hb, hpointer⟩ := h.live.mem hown
  exact ⟨b, hb, hpointer, h.layout.arranged (mem_used.mp hb).1⟩

theorem allocate (hr : Allocates A s.heap L size r) :
    (∃ L', Accounts A (s.allocate size r) L') ∧ Others s (s.allocate size r) 0 := by
  rcases hr with ⟨hpointer, hmem, hlayout⟩ | ⟨b, L', hgrown, hpointer, hsize⟩
  · have hlive : (s.allocate size r).live = s.live := if_neg (not_not.mpr hpointer)
    refine ⟨⟨L, hlayout, ?_⟩, fun q hq _ => ⟨by rwa [hlive], fun i _ => congrFun hmem _⟩⟩
    rw [hlive]
    exact h.live
  · have hne : r.2 ≠ 0 := hpointer ▸ b.pointer_ne A
    have hlive : (s.allocate size r).live = (b.pointer A, size) :: s.live := by
      rw [System.allocate]
      rw [if_pos hne, hpointer]
      rfl
    have hchange := h.live.grown hgrown.inUse hsize (frame_pointer hgrown.frame)
    rw [← hlive] at hchange
    exact ⟨⟨L', .inl hgrown.layout, hchange.1⟩, hchange.2⟩

theorem free (hown : s.Owns pointer) : (∃ L', Accounts A (step A s (.free pointer)).1 L') ∧
      Others s (step A s (.free pointer)).1 pointer := by
  rcases hown with rfl | hown
  · have hcode : step A s (.free 0) = (s, []) := by
      simp only [step, UserHeap.free, if_pos, h.without_zero]
    rw [hcode]
    exact ⟨⟨L, h⟩, fun r hr _ => ⟨hr, fun _ _ => rfl⟩⟩
  · obtain ⟨b, hb, rfl, harranged⟩ := h.block hown
    obtain ⟨L', hfreed⟩ := free_shrunk harranged hb
    obtain ⟨hmatches, hothers⟩ := h.live.shrunk hfreed.inUse
      (harranged.pointer_not_mem h.live hfreed.inUse)
      (frame_pointer fun d hd => hfreed.frame d (hfreed.inUse.mem_iff.mpr (mem_cons_of_mem _ hd)))
    exact ⟨⟨L', .inl hfreed.layout, hmatches⟩, hothers⟩

/-- The outcomes of `realloc` for a block in use. -/
theorem reallocate (hb : b ∈ used Block.free L)
    (hzero : size ≠ 0) (hr : Reallocates A s.heap L b size r) :
    (∃ L', Accounts A (s.reallocate (b.pointer A) size r) L') ∧
      Others s (s.reallocate (b.pointer A) size r) (b.pointer A) ∧
      Carried s (s.reallocate (b.pointer A) size r) (b.pointer A) size r.2 := by
  have harranged := h.layout.arranged (mem_used.mp hb).1
  cases hr with
  | failed hpointer hsame hlayout =>
    have hnew : s.reallocate (b.pointer A) size r = ⟨r.1, s.live⟩ := by
      rw [System.reallocate, if_neg (not_not.mpr hpointer), if_neg hzero]
    rw [hnew]
    exact ⟨⟨L, hlayout, h.live⟩, fun q hq _ => ⟨hq, fun i _ => congrFun hsame _⟩,
      fun _ _ => ⟨hsame, rfl⟩, fun hne => absurd hpointer hne⟩
  | kept hpointer hheap hroom =>
    have hq : r.2 = b.pointer A := hpointer
    have hnew : s.reallocate (b.pointer A) size r =
        ⟨s.heap, (b.pointer A, size) :: without s.live (b.pointer A)⟩ := by
      rw [System.reallocate, hq, if_pos (b.pointer_ne A), hheap]
    have hperm := perm_cons_erase hb
    obtain ⟨hmatches, hothers, hcarried⟩ := h.live.moved hperm
      (harranged.pointer_not_mem h.live hperm) hperm hroom (b.pointer_ne A) (fun _ _ _ _ => rfl)
      fun _ _ _ => rfl
    rw [hnew, hq]
    exact ⟨⟨L, h.layout, hmatches⟩, hothers, hcarried⟩
  | moved c L' U hpointer hroom hlayout hbefore hafter hframe hcopied =>
    have hq : r.2 = c.pointer A := hpointer
    have hnew : s.reallocate (b.pointer A) size r =
        ⟨r.1, (c.pointer A, size) :: without s.live (b.pointer A)⟩ := by
      rw [System.reallocate, hq, if_pos (c.pointer_ne A)]
    obtain ⟨hmatches, hothers, hcarried⟩ := h.live.moved hbefore
      (harranged.pointer_not_mem h.live hbefore) hafter hroom (c.pointer_ne A)
      (frame_pointer hframe) fun i hi _ => hcopied i hi
    rw [hnew, hq]
    exact ⟨⟨L', .inl hlayout, hmatches⟩, hothers, hcarried⟩

theorem realloc (size : ℕ) (answers : Answers) (hown : s.Owns pointer) :
    (∃ L', Accounts A (step A s (.realloc pointer size answers)).1 L') ∧
      Others s (step A s (.realloc pointer size answers)).1 pointer ∧
      Carried s (step A s (.realloc pointer size answers)).1 pointer size
        (UserHeap.realloc A s.heap pointer size answers).2 := by
  rcases hown with rfl | hown
  · -- a plain allocation
    have hcode : UserHeap.realloc A s.heap 0 size answers = malloc A s.heap size answers := if_pos rfl
    have hnew : (step A s (.realloc 0 size answers)).1 =
        s.allocate size (malloc A s.heap size answers) := by
      simp only [step, System.reallocate, hcode, h.without_zero, ite_self]
      rfl
    have halloc := malloc_allocates size answers h.layout
    obtain ⟨haccounts, hothers⟩ := h.allocate halloc
    rw [hnew, hcode]
    refine ⟨haccounts, hothers, .of_new h.zero_not_mem fun hzero => ?_⟩
    rcases halloc with ⟨-, hmem, -⟩ | ⟨b, -, -, hpointer, -⟩
    · exact hmem
    · exact absurd (hpointer.symm.trans hzero) (b.pointer_ne A)
  · obtain ⟨b, hb, rfl, harranged⟩ := h.block hown
    by_cases hzero : size = 0
    · -- the block is freed
      have hcode : UserHeap.realloc A s.heap (b.pointer A) size answers =
          (UserHeap.free A s.heap (b.pointer A), 0) := by
        rw [UserHeap.realloc, if_neg (b.pointer_ne A), if_pos hzero]
      have hnew : (step A s (.realloc (b.pointer A) size answers)).1 =
          (step A s (.free (b.pointer A))).1 := by
        simp only [step, System.reallocate, hcode, ne_eq, not_true_eq_false, if_false, if_pos hzero]
      obtain ⟨haccounts, hothers⟩ := h.free (.inr hown)
      rw [hnew, hcode]
      exact ⟨haccounts, hothers, fun hne => absurd hzero hne, fun hne => absurd rfl hne⟩
    · exact h.reallocate hb hzero (realloc_reallocates harranged hb hzero)

theorem store {i : ℕ} {value : UInt8} (hok : Proper A s (.store pointer i value)) :
    (∃ L', Accounts A (step A s (.store pointer i value)).1 L') ∧
      Others s (step A s (.store pointer i value)).1 pointer := by
  obtain ⟨r, hr, rfl, hi⟩ := hok
  obtain ⟨b, hb, hpointer, hroom⟩ := h.live.room r hr
  have hbmem := (mem_used.mp hb).1
  have harranged := h.layout.arranged hbmem
  have hx : b.Payload A (r.1 + i) := by
    rw [hpointer]
    exact payload_pointer (by omega)
  have houtside (x : ℕ) (hne : ¬b.Payload A x) :
      update s.heap.mem (r.1 + i) value x = s.heap.mem x :=
    update_of_ne (show x ≠ r.1 + i from fun heq => hne (heq ▸ hx)) _ _
  exact ⟨⟨L, .inl (harranged.fill hbmem rfl rfl rfl rfl houtside), h.live⟩,
    h.live.stored harranged.spread (fun _ => rfl) (len_pos A) (fun _ => le_rfl) hr hi _ value⟩

end Accounts

end Steps

section Integrity

variable {A : Arch} {s : System} {L : List Block}

/-- A state of the heap in which nothing overlaps and nothing is lost: the blocks are those that are
linked in memory, and they fill the heap from `heap_head` to `heap_end`. -/
structure Sound (A : Arch) (s : System) (L : List Block) : Prop where
  holds : Holds A s.heap L
  tiles : L ≠ [] → Tiles Block.addr (Block.len A) s.heap.head L s.heap.stop
  merged : Merged Block.free L
  aligned : ∀ r ∈ s.live, r.1 % 16 = 0
  room : ∀ r ∈ s.live, ∃ b ∈ L, b.free = false ∧ r.1 = b.addr + blockHeader A ∧ r.2 ≤ b.size
  inUse : ∀ b ∈ L, b.free = false → ∃ r ∈ s.live, r.1 = b.addr + blockHeader A
  apart : s.live.Pairwise fun r q => Separate r.1 r.2 q.1 q.2
  headers : ∀ r ∈ s.live, ∀ b ∈ L, Separate r.1 r.2 b.addr (blockHeader A)

/-- What a call or store does to the blocks in use. -/
structure Respects (A : Arch) (s : System) (a : Action) : Prop where
  others : Others s (step A s a).1 a.owner
  realloc : ∀ pointer size answers, a = .realloc pointer size answers →
    Carried s (step A s a).1 pointer size (realloc A s.heap pointer size answers).2

theorem step_accounts {a : Action} (h : Accounts A s L) (hok : Proper A s a) :
    (∃ L', Accounts A (step A s a).1 L') ∧ Respects A s a := by
  cases a with
  | malloc size answers =>
    obtain ⟨hnew, hothers⟩ := h.allocate (malloc_allocates size answers h.layout)
    exact ⟨hnew, hothers, nofun⟩
  | calloc count size answers =>
    obtain ⟨hnew, hothers⟩ := h.allocate (calloc_allocates count answers h.layout hok.2)
    exact ⟨hnew, hothers, nofun⟩
  | realloc pointer size answers =>
    obtain ⟨hnew, hothers, hcarried⟩ := h.realloc size answers hok.1
    exact ⟨hnew, hothers, fun _ _ _ heq => by cases heq; exact hcarried⟩
  | free pointer =>
    obtain ⟨hnew, hothers⟩ := h.free hok
    exact ⟨hnew, hothers, nofun⟩
  | store pointer i value =>
    obtain ⟨hnew, hothers⟩ := h.store hok
    exact ⟨hnew, hothers, nofun⟩

/-- Every state of a run has a layout that agrees with the program. -/
theorem run_accounts {mem : Bytes} {brk : ℕ} {history : List ℕ}
    (h : Run A (start mem brk) history s) : ∃ L, Accounts A s L := by
  refine h.invariant (I := fun _ s => ∃ L, Accounts A s L) ?_ ?_
  · exact ⟨[], .inr ⟨rfl, rfl, trivial, rfl, rfl⟩, .nil, by simp [start]⟩
  · rintro _ u a v e ⟨L, hu⟩ hok hnext
    have hv : (step A u a).1 = v := congrArg Prod.fst (Option.some.inj hnext)
    exact hv ▸ (step_accounts hu hok).1

theorem Accounts.sound (h : Accounts A s L) : Sound A s L := by
  have hroom (r : ℕ × ℕ) (hr : r ∈ s.live) :
      ∃ b ∈ L, b.free = false ∧ r.1 = b.addr + blockHeader A ∧ r.2 ≤ b.size := by
    obtain ⟨b, hb, hroom⟩ := h.live.room r hr
    exact ⟨b, (mem_used.mp hb).1, (mem_used.mp hb).2, hroom⟩
  have hinUse (b : Block) (hb : b ∈ L) (hbusy : b.free = false) :
      ∃ r ∈ s.live, r.1 = b.addr + blockHeader A := by
    have hpointer : b.pointer A ∈ s.live.map Prod.fst :=
      h.live.pointers.mem_iff.mpr (mem_map_of_mem (mem_used.mpr ⟨hb, hbusy⟩))
    exact mem_map.mp hpointer
  have hsize (b : Block) : blockHeader A + b.size ≤ b.len A := by rw [len]
  rcases h.layout with harranged | ⟨-, rfl, hholds⟩
  · have hspread := harranged.spread
    refine ⟨harranged.holds, fun hne => ?_, harranged.merged, fun r hr => ?_, hroom, hinUse,
      h.live.apart hspread (fun _ => rfl) (len_pos A) hsize,
      h.live.headers hspread (fun _ => rfl) hsize⟩
    · obtain ⟨base, -, -, htiles⟩ := harranged.tiles
      obtain ⟨b, L, rfl⟩ := exists_cons_of_ne_nil hne
      have hhead : s.heap.head = b.addr := harranged.holds.head
      rw [hhead, htiles.1]
      exact htiles
    · obtain ⟨b, hb, -, hpointer, -⟩ := hroom r hr
      have hblock := harranged.aligned hb
      have hheader := blockHeader_mod A
      omega
  · have hnone : s.live = [] :=
      map_eq_nil_iff.mp (h.live.pointers.trans (by simp)).eq_nil
    refine ⟨hholds, fun hne => absurd rfl hne, .nil, ?_, hroom, hinUse, ?_, ?_⟩ <;> simp [hnone]

/-- In every run of the heap of a program, whatever `brk` answers, the blocks lie as they should, and
every call and store that keeps to the rules leaves the other blocks alone. -/
theorem user_heap_integrity (A : Arch) (mem : Bytes) (brk : ℕ) {history : List ℕ} {s : System}
    (h : Run A (start mem brk) history s) :
    (∃ L, Sound A s L) ∧ ∀ a, Proper A s a → Respects A s a := by
  obtain ⟨L, haccounts⟩ := run_accounts h
  exact ⟨⟨L, haccounts.sound⟩, fun a ha => (step_accounts haccounts ha).2⟩

/-- With the break at 4100, two blocks of 100 and 40 bytes are allocated and the first is freed; a
reallocation of the second that `brk` refuses leaves it as it was. -/
theorem user_heap_integrity_used :
    ∃ s, Run .bits64 (start (fun _ => 0) 4100) [4144, 4288] s ∧ s.live = [(4288, 40)] ∧
      Carried s (step .bits64 s (.realloc 4288 500 ⟨false, false⟩)).1 4288 500
        (realloc .bits64 s.heap 4288 500 ⟨false, false⟩).2 := by
  obtain ⟨s, hrun, hlive⟩ : ∃ s, Run .bits64 (start (fun _ => 0) 4100) [4144, 4288] s ∧
      s.live = [(4288, 40)] := by
    refine ⟨_, Histories.Run.of_exec (fun u a => match a with
        | .malloc size _ => decide (size ≤ 100)
        | .free pointer => decide (pointer ∈ u.live.map Prod.fst)
        | _ => false) (fun u a hpass => ?_)
      [.malloc 100 ⟨true, true⟩, .malloc 40 ⟨true, true⟩, .free 4144] rfl, by decide +kernel⟩
    match a, hpass with
    | .malloc size _, hpass => exact (of_decide_eq_true hpass).trans_lt (by decide)
    | .free pointer, hpass => exact .inr (of_decide_eq_true hpass)
  have hproper : Proper .bits64 s (.realloc 4288 500 ⟨false, false⟩) :=
    ⟨.inr (by simp [hlive]), by decide⟩
  exact ⟨s, hrun, hlive, ((user_heap_integrity .bits64 (fun _ => 0) 4100 hrun).2 _ hproper).realloc
    _ _ _ rfl⟩

end Integrity

end Tach.UserHeap
