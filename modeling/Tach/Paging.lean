import Tach.Frames
import Tach.Radix
import Tach.Sectors

/-!
What vmm.c asks of the page tables of an architecture, through hal/paging.h. A page is named by
its number, the virtual address divided by 4096. `PageTables` lists the four operations and the
laws that the rest of the kernel relies on: a map or an unmap concerns one page and the tables
of one root; new tables come from free frames.
-/

namespace Tach.Paging

open Function Frames Radix Machine
open Sectors (Errno)

/-- The `VMM_` flags of a mapping. `VMM_PRESENT` is set in every mapping and never read. -/
structure Flags where
  writable : Bool
  user : Bool
  nocache : Bool
  executable : Bool
  cow : Bool
  deriving DecidableEq

structure Leaf where
  frame : ℕ
  writable : Bool
  user : Bool
  executable : Bool
  deriving DecidableEq

abbrev Result := Except Errno Unit × Machine

/-- The frames `N` were free and are handed out. -/
structure Grows (m m' : Machine) (N : Set ℕ) : Prop where
  fresh : ∀ f ∈ N, m.pmm.used f = false
  used : ∀ f, m'.pmm.used f = true ↔ m.pmm.used f = true ∨ f ∈ N
  taken : ∀ f ∈ N, m'.pmm.refs f = 1
  kept : ∀ f, f ∉ N → m'.pmm.refs f = m.pmm.refs f
  limit : m'.pmm.limit = m.pmm.limit
  sound : m'.pmm.Sound

namespace Grows

variable {m m' m'' : Machine} {N N' : Set ℕ} {f : ℕ}

theorem refl (h : m.pmm.Sound) : Grows m m ∅ := by
  refine ⟨fun _ hf => hf.elim, fun f => ?_, fun _ hf => hf.elim, fun _ _ => rfl, rfl, h⟩
  simp only [Set.mem_empty_iff_false, or_false]

theorem of_pmm_eq (h : m.pmm.Sound) (heq : m'.pmm = m.pmm) : Grows m m' ∅ := by
  refine ⟨fun _ hf => hf.elim, fun f => ?_, fun _ hf => hf.elim, fun _ _ => by rw [heq],
    by rw [heq], by rw [heq]; exact h⟩
  simp only [heq, Set.mem_empty_iff_false, or_false]

theorem trans (h : Grows m m' N) (h' : Grows m' m'' N') : Grows m m'' (N ∪ N') := by
  have hfresh : ∀ f ∈ N', m.pmm.used f = false ∧ f ∉ N := by
    intro f hf
    have hfree := h'.fresh f hf
    refine ⟨Bool.of_not_eq_true fun hu => ?_, fun hN => ?_⟩
    · rw [(h.used f).mpr (.inl hu)] at hfree
      cases hfree
    · rw [(h.used f).mpr (.inr hN)] at hfree
      cases hfree
  refine ⟨fun f hf => hf.elim (h.fresh f) fun hf => (hfresh f hf).1, fun f => ?_, fun f hf => ?_,
    fun f hf => ?_, h'.limit.trans h.limit, h'.sound⟩
  · rw [h'.used, h.used, Set.mem_union]
    exact or_assoc
  · by_cases hf' : f ∈ N'
    · exact h'.taken f hf'
    · rw [h'.kept f hf']
      exact h.taken f (hf.resolve_right hf')
  · rw [h'.kept f fun hf' => hf (.inr hf'), h.kept f fun hf' => hf (.inl hf')]

theorem of_takes (h : Takes m.pmm f m'.pmm) (hs : m.pmm.Sound) : Grows m m' {f} := by
  refine ⟨fun g hg => ?_, fun g => ?_, fun g hg => ?_, fun g hg => ?_, h.limit, h.sound hs⟩
  · rw [Set.mem_singleton_iff.mp hg]
    exact h.free
  · rw [h.used]
    by_cases hg : g = f
    · simp [hg]
    · simp [hg]
  · rw [Set.mem_singleton_iff.mp hg, h.refs, update_self]
  · rw [h.refs, update_of_ne hg]

theorem used_mono (h : Grows m m' N) (hf : m.pmm.used f = true) : m'.pmm.used f = true :=
  (h.used f).mpr (.inl hf)

theorem notMem_of_used (h : Grows m m' N) (hf : m.pmm.used f = true) : f ∉ N := by
  intro hN
  rw [h.fresh f hN] at hf
  cases hf

theorem free (h : Grows m m' N) (hs : m.pmm.Sound) (hf : f ∈ N) :
    Grows m (m'.freeFrame f) (N \ {f}) := by
  obtain ⟨hzero, hpos, hlt⟩ := hs.free f (h.fresh f hf)
  have hone := h.taken f hf
  obtain ⟨hrefs, hused, hlimit⟩ := freeFrame_spec (by omega)
    (by rw [h.limit]; exact hlt) ((h.used f).mpr (.inr hf)) (by omega)
  refine ⟨fun g hg => h.fresh g hg.1, fun g => ?_, fun g hg => ?_, fun g hg => ?_,
    hlimit.trans h.limit, freeFrame_sound h.sound f⟩
  · simp only [freeFrame, hused, hone]
    by_cases hgf : g = f
    · simp [hgf, h.fresh f hf]
    · simp [hgf, h.used g]
  · simp only [freeFrame, hrefs, update_of_ne hg.2]
    exact h.taken g hg.1
  · simp only [freeFrame, hrefs]
    by_cases hgf : g = f
    · rw [hgf, update_self, hone, hzero]
    · rw [update_of_ne hgf]
      exact h.kept g fun hN => hg ⟨hN, hgf⟩

end Grows

theorem allocZeroed_grows {m m' : Machine} {f : ℕ} (hs : m.pmm.Sound)
    (h : m.allocZeroed = some (f, m')) :
    Grows m m' {f} ∧ m'.ram = update m.ram f (fun _ => 0) ∧ f < maxFrames ∧
      m.pmm.freePages ≤ m'.pmm.freePages + 1 := by
  unfold allocZeroed at h
  split at h
  · cases h
  · rename_i g p hp
    cases h
    have ht := allocFrame_takes hp
    have := (hs.free _ ht.free).2.2
    have := hs.limit
    exact ⟨Grows.of_takes ht hs, rfl, by omega, ht.few⟩

theorem allocZeroed_none {m : Machine} (hs : m.pmm.Sound) (h : m.allocZeroed = none) :
    m.pmm.freePages = 0 := by
  unfold allocZeroed at h
  split at h
  · rename_i hp
    exact freePages_of_none hs hp
  · cases h

/-- The views an architecture gives of its tables, below a root. -/
structure Views where
  /-- The number the tables see of a page number. -/
  seen : ℕ → ℕ
  trans : Ram → ℕ → ℕ → Option Leaf
  hasSlot : Ram → ℕ → ℕ → Prop
  tables : Ram → ℕ → Set ℕ
  good : Ram → ℕ → Prop
  leaf : ℕ → Flags → Leaf

namespace Views

variable (V : Views)

/-- What may be asked of a machine before an operation on a root. -/
structure Ready (m : Machine) (root : ℕ) : Prop where
  sound : m.pmm.Sound
  good : V.good m.ram root
  used : ∀ f ∈ V.tables m.ram root, m.pmm.used f = true

/-- A change within the tables of a root, which `N` joins. -/
structure Within (m m' : Machine) (root : ℕ) (N : Set ℕ) : Prop where
  grows : Grows m m' N
  off : ∀ f, f ∉ V.tables m.ram root → f ∉ N → m'.ram f = m.ram f
  good : V.good m'.ram root
  tables : V.tables m'.ram root = V.tables m.ram root ∪ N
  slots : ∀ w, V.hasSlot m.ram root w → V.hasSlot m'.ram root w

/-- `arch_paging_map` of page `v`. It takes three frames at most, and fails for want of frames or
because the page is part of a larger one. -/
structure Maps (m : Machine) (root v p : ℕ) (fl : Flags) (r : Result) (N : Set ℕ) : Prop where
  within : V.Within m r.2 root N
  others : ∀ w, V.seen w ≠ V.seen v → V.trans r.2.ram root w = V.trans m.ram root w
  ok : r.1 = .ok () → V.hasSlot r.2.ram root v ∧
    ∀ w, V.seen w = V.seen v → V.trans r.2.ram root w = some (V.leaf p fl)
  error : r.1 ≠ .ok () → V.trans r.2.ram root = V.trans m.ram root
  again : V.hasSlot m.ram root v → r.1 = .ok () ∧ N = ∅ ∧ r.2.pmm = m.pmm
  few : m.pmm.freePages ≤ r.2.pmm.freePages + 3
  stuck : r.1 ≠ .ok () → r.2.pmm.freePages = 0 ∨ V.trans m.ram root v ≠ none

/-- `arch_paging_unmap` of a page that has an entry. -/
structure Unmaps (m : Machine) (root v : ℕ) (r : Result) : Prop where
  ok : r.1 = .ok ()
  pmm : r.2.pmm = m.pmm
  within : V.Within m r.2 root ∅
  others : ∀ w, V.seen w ≠ V.seen v → V.trans r.2.ram root w = V.trans m.ram root w
  gone : ∀ w, V.seen w = V.seen v → V.trans r.2.ram root w = none
  slotsBack : ∀ w, V.hasSlot r.2.ram root w → V.hasSlot m.ram root w

/-- `arch_paging_create_root` from the root `k`. -/
structure Copies (m : Machine) (k root : ℕ) (m' : Machine) (N : Set ℕ) : Prop where
  grows : Grows m m' N
  off : ∀ f, f ∉ N → m'.ram f = m.ram f
  good : V.good m'.ram root
  tables : V.tables m'.ram root = N
  trans : V.trans m'.ram root = V.trans m.ram k
  slots : V.hasSlot m'.ram root = V.hasSlot m.ram k

end Views

/-- `arch_paging_destroy_root`: the frames of the tables `S` are free again. -/
structure Drops (m m' : Machine) (S : Set ℕ) : Prop where
  ram : m'.ram = m.ram
  used : ∀ f, m'.pmm.used f = true ↔ m.pmm.used f = true ∧ f ∉ S
  kept : ∀ f, f ∉ S → m'.pmm.refs f = m.pmm.refs f
  limit : m'.pmm.limit = m.pmm.limit
  sound : m'.pmm.Sound

namespace Drops

variable {m m' m'' : Machine} {S S' : Set ℕ} {f : ℕ}

theorem refl (hs : m.pmm.Sound) : Drops m m ∅ :=
  ⟨rfl, fun f => by simp, fun _ _ => rfl, rfl, hs⟩

theorem trans (h : Drops m m' S) (h' : Drops m' m'' S') : Drops m m'' (S ∪ S') := by
  refine ⟨h'.ram.trans h.ram, fun f => ?_, fun f hf => ?_, h'.limit.trans h.limit, h'.sound⟩
  · rw [h'.used, h.used, Set.mem_union, not_or, and_assoc]
  · rw [h'.kept f fun hS => hf (.inr hS), h.kept f fun hS => hf (.inl hS)]

theorem free (hs : m.pmm.Sound) (hused : m.pmm.used f = true) (hrefs : m.pmm.refs f = 1)
    (hpos : 0 < f) (hlt : f < m.pmm.limit) : Drops m (m.freeFrame f) {f} := by
  obtain ⟨hrefs', hused', hlimit⟩ := freeFrame_spec (by omega) hlt hused (by omega)
  refine ⟨rfl, fun g => ?_, fun g hg => ?_, hlimit, freeFrame_sound hs f⟩
  · simp only [freeFrame, hused', hrefs]
    by_cases hgf : g = f
    · simp [hgf]
    · simp [hgf]
  · simp only [freeFrame, hrefs', update_of_ne hg]

end Drops

structure PageTables extends Views where
  /-- The page numbers that are addresses of the processor. -/
  address : ℕ → Prop
  seen_inj : ∀ v w, address v → address w → seen v = seen w → v = w
  /-- `arch_paging_create_root`, given the root of the kernel. -/
  createRoot : ℕ → Machine → Option ℕ × Machine
  /-- `arch_paging_destroy_root`. -/
  destroyRoot : ℕ → Machine → ℕ → Machine
  /-- `arch_paging_map`. -/
  map : Machine → ℕ → ℕ → ℕ → Flags → Result
  /-- `arch_paging_unmap`. -/
  unmap : Machine → ℕ → ℕ → Result
  root_mem : ∀ ram root, root ∈ tables ram root
  congr : ∀ ram ram' root, (∀ f ∈ tables ram root, ram' f = ram f) →
    trans ram' root = trans ram root ∧ hasSlot ram' root = hasSlot ram root ∧
      tables ram' root = tables ram root ∧ (good ram root → good ram' root)
  slot_seen : ∀ ram root v w, seen v = seen w → hasSlot ram root v → hasSlot ram root w
  blank : ∀ ram root, (∀ i, ram root i = 0) → good ram root ∧ tables ram root = {root} ∧
    ∀ v, trans ram root v = none ∧ ¬hasSlot ram root v
  leaf_frame : ∀ p fl, (leaf p fl).frame = p ∧ (leaf p fl).writable = fl.writable ∧
    (leaf p fl).user = fl.user
  map_spec : ∀ m root v p fl, toViews.Ready m root → p < maxFrames →
    ∃ N, toViews.Maps m root v p fl (map m root v p fl) N
  unmap_spec : ∀ m root v, toViews.Ready m root → hasSlot m.ram root v →
    toViews.Unmaps m root v (unmap m root v)
  unmap_none : ∀ m root v, toViews.Ready m root → ¬hasSlot m.ram root v →
    unmap m root v = (.error .enoent, m)
  createRoot_some : ∀ k m root m', toViews.Ready m k → createRoot k m = (some root, m') →
    ∃ N, toViews.Copies m k root m' N
  createRoot_none : ∀ k m m', toViews.Ready m k → createRoot k m = (none, m') →
    ∃ N, Grows m m' N ∧ ∀ f, m.pmm.used f = true → m'.ram f = m.ram f
  destroyRoot_spec : ∀ k m root, toViews.Ready m root → root ≠ k →
    (∀ f ∈ tables m.ram root, m.pmm.refs f = 1 ∧ 0 < f ∧ f < m.pmm.limit) →
    Drops m (destroyRoot k m root) (tables m.ram root)

end Tach.Paging
