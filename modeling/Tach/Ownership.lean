import Tach.Vmm

/-!
Who owns which frame. The invariant of vmm.c gives each frame an owner: the tables of the kernel,
the tables of one context, the mappings, a kernel stack. A frame of the mappings has one
reference for each mapping of it and `extra` ones that are not in a table: between two steps of a
function, or because a mapping was overwritten. All references to a frame that vmm.c has nothing
to do with are `extra`; the other frames have none.

This module has the invariant and the steps that hand out, keep and give back frames.
-/

namespace Tach.Ownership

open Actions Frames KeyedLists Paging Vmm Finset

inductive Owner
  | free
  | kernel
  | table (c : Context)
  | data
  | stack (i : ℕ)
  | other

/-- One that holds the only reference to its frames. -/
def Owner.Sole : Owner → Prop
  | .table _ | .stack _ => True
  | _ => False

def usesIn (slot : Option Space) (f : ℕ) : ℕ :=
  slot.elim 0 fun sp => sp.mappings.countP fun m => m.phys = f

def uses (s : Spaces) (f : ℕ) : ℕ := ∑ c, usesIn (s.slots c) f

theorem uses_setSlot (s : Spaces) (c : Context) (slot : Option Space) (f : ℕ) :
    uses (s.setSlot c slot) f + usesIn (s.slots c) f = uses s f + usesIn slot f := by
  have hrest : ∀ t : Spaces, uses t f = usesIn (t.slots c) f +
      ∑ d ∈ univ.erase c, usesIn (t.slots d) f := fun t =>
    (add_sum_erase _ _ (mem_univ c)).symm
  have hsame : ∑ d ∈ univ.erase c, usesIn ((s.setSlot c slot).slots d) f =
      ∑ d ∈ univ.erase c, usesIn (s.slots d) f := by
    refine sum_congr rfl fun d hd => ?_
    simp only [Spaces.setSlot, Function.update_of_ne (ne_of_mem_erase hd)]
  rw [hrest, hrest s, hsame]
  simp only [Spaces.setSlot, Function.update_self]
  omega

theorem uses_pos {s : Spaces} {c : Context} {sp : Space} {m : Mapping} (hslot : s.slots c = some sp)
    (hm : m ∈ sp.mappings) : 0 < uses s m.phys := by
  have hle : usesIn (s.slots c) m.phys ≤ uses s m.phys :=
    single_le_sum (f := fun d => usesIn (s.slots d) m.phys) (fun _ _ => Nat.zero_le _)
      (mem_univ c)
  have hpos : 0 < usesIn (s.slots c) m.phys := by
    rw [hslot]
    exact List.countP_pos_iff.mpr ⟨m, hm, by simp⟩
  omega

theorem exists_of_uses {s : Spaces} {f : ℕ} (h : 0 < uses s f) :
    ∃ c sp m, s.slots c = some sp ∧ m ∈ sp.mappings ∧ m.phys = f := by
  obtain ⟨c, -, hc⟩ := exists_ne_zero_of_sum_ne_zero (Nat.pos_iff_ne_zero.mp h)
  cases hslot : s.slots c with
  | none => simp [hslot, usesIn] at hc
  | some sp =>
    rw [hslot] at hc
    obtain ⟨m, hm, hphys⟩ := List.countP_pos_iff.mp (Nat.pos_of_ne_zero hc)
    exact ⟨c, sp, m, hslot, hm, by simpa using hphys⟩

section Invariant

variable (A : Arch)

/-- One address space. A page of the tables that a user may reach is in the table of mappings,
perhaps under another address that the tables do not tell from it. -/
structure Fits (ram : Radix.Ram) (own : ℕ → Owner) (c : Context) (sp : Space) : Prop where
  good : A.good ram sp.root
  tables : ∀ f, own f = .table c ↔ f ∈ A.tables ram sp.root
  keys : (sp.mappings.map Mapping.virt).Nodup
  room : sp.mappings.length ≤ maxMappings
  low : ∀ m ∈ sp.mappings, m.virt ≠ 0
  owned : ∀ m ∈ sp.mappings, m.owned = true
  data : ∀ m ∈ sp.mappings, own m.phys = .data
  slots : ∀ m ∈ sp.mappings, A.hasSlot ram sp.root m.virt
  leaves : ∀ w leaf, A.trans ram sp.root w = some leaf → leaf.user = true →
    ∃ m ∈ sp.mappings, A.seen m.virt = A.seen w ∧ leaf = A.leaf m.phys m.flags

/-- The tables of the kernel, which no user may reach. -/
structure FitsKernel (ram : Radix.Ram) (own : ℕ → Owner) (root : ℕ) : Prop where
  good : A.good ram root
  tables : ∀ f ∈ A.tables ram root, own f = .kernel
  leaves : ∀ w leaf, A.trans ram root w = some leaf → leaf.user = false

structure Owned (s : Spaces) (own : ℕ → Owner) (extra : ℕ → ℕ) : Prop where
  sound : s.mach.pmm.Sound
  used : ∀ f, s.mach.pmm.used f = true ↔ own f ≠ .free
  sole : ∀ f, (own f).Sole → s.mach.pmm.refs f = 1 ∧ 0 < f ∧ f < s.mach.pmm.limit
  data : ∀ f, own f = .data → s.mach.pmm.refs f = uses s f + extra f ∧
    0 < s.mach.pmm.refs f ∧ 0 < f ∧ f < s.mach.pmm.limit
  rest : ∀ f, own f = .kernel ∨ own f = .other → s.mach.pmm.refs f = extra f
  spare : ∀ f, extra f ≠ 0 → own f = .data ∨ own f = .kernel ∨ own f = .other
  vacant : ∀ c f, own f = .table c → s.slots c ≠ none
  kernel : FitsKernel A s.mach.ram own s.kernelRoot
  spaces : ∀ c sp, s.slots c = some sp → Fits A s.mach.ram own c sp
  active : ∀ cpu c, s.active cpu = some c → s.slots c ≠ none

end Invariant

variable {A : Arch} {s : Spaces} {own own' : ℕ → Owner} {extra extra' : ℕ → ℕ} {c : Context}
variable {sp : Space} {m : Mapping} {f v : ℕ}

section Frame

variable {ram ram' : Radix.Ram}

theorem Fits.ready (h : Fits A s.mach.ram own c sp) (ho : Owned A s own extra) :
    A.Ready s.mach sp.root :=
  ⟨ho.sound, h.good, fun f hf => (ho.used f).mpr (by rw [(h.tables f).mpr hf]; nofun)⟩

theorem FitsKernel.ready (h : FitsKernel A s.mach.ram own s.kernelRoot)
    (ho : Owned A s own extra) : A.Ready s.mach s.kernelRoot :=
  ⟨ho.sound, h.good, fun f hf => (ho.used f).mpr (by rw [h.tables f hf]; nofun)⟩

/-- A space depends on the frames of its own tables. -/
theorem Fits.congr (h : Fits A ram own c sp) (hram : ∀ f, own f = .table c → ram' f = ram f)
    (hown : ∀ f, own' f = .table c ↔ own f = .table c)
    (hdata : ∀ m ∈ sp.mappings, own' m.phys = .data) : Fits A ram' own' c sp := by
  obtain ⟨htrans, hslots, htables, hgood⟩ :=
    A.congr ram ram' sp.root fun f hf => hram f ((h.tables f).mpr hf)
  refine ⟨hgood h.good, ?_, h.keys, h.room, h.low, h.owned, hdata, ?_, ?_⟩
  · rw [htables]
    exact fun f => (hown f).trans (h.tables f)
  · rw [hslots]
    exact h.slots
  · rw [htrans]
    exact h.leaves

theorem FitsKernel.congr {root : ℕ} (h : FitsKernel A ram own root)
    (hram : ∀ f, own f = .kernel → ram' f = ram f) (hown : ∀ f, own f = .kernel → own' f = .kernel) :
    FitsKernel A ram' own' root := by
  obtain ⟨htrans, -, htables, hgood⟩ :=
    A.congr ram ram' root fun f hf => hram f (h.tables f hf)
  refine ⟨hgood h.good, ?_, ?_⟩
  · rw [htables]
    exact fun f hf => hown f (h.tables f hf)
  · rw [htrans]
    exact h.leaves

namespace Owned

theorem free_of_unused (h : Owned A s own extra) (hf : s.mach.pmm.used f = false) :
    own f = .free := by
  by_contra hne
  rw [(h.used f).mpr hne] at hf
  cases hf

theorem uses_eq_zero (h : Owned A s own extra) (hf : own f ≠ .data) : uses s f = 0 := by
  by_contra hne
  obtain ⟨c, sp, m, hslot, hm, hphys⟩ := exists_of_uses (Nat.pos_of_ne_zero hne)
  exact hf (hphys ▸ (h.spaces c sp hslot).data m hm)

theorem find_mem (hslot : s.slots c = some sp) (hm : s.find c v = some m) :
    m ∈ sp.mappings ∧ m.virt = v := by
  rw [Spaces.find, hslot] at hm
  exact mem_of_find hm

end Owned

end Frame

section Steps

open Function

variable {mach : Machine} {o : Owner}

/-- What the invariant says of one frame, with `n` mappings and `e` other references. -/
structure Tallied (p : Pmm) (o : Owner) (n e f : ℕ) : Prop where
  used : p.used f = true ↔ o ≠ .free
  sole : o.Sole → p.refs f = 1 ∧ 0 < f ∧ f < p.limit
  data : o = .data → p.refs f = n + e ∧ 0 < p.refs f ∧ 0 < f ∧ f < p.limit
  rest : o = .kernel ∨ o = .other → p.refs f = e
  spare : e ≠ 0 → o = .data ∨ o = .kernel ∨ o = .other

theorem Tallied.congr {p p' : Pmm} {n n' e e' : ℕ} (h : Tallied p o n e f)
    (hused : p'.used f = p.used f) (hrefs : p'.refs f = p.refs f) (hlimit : p'.limit = p.limit)
    (hdata : o = .data → n' + e' = n + e) (hrest : o ≠ .data → e' = e) : Tallied p' o n' e' f := by
  refine ⟨by rw [hused]; exact h.used, fun ho => ?_, fun ho => ?_, fun ho => ?_, fun he => ?_⟩
  · rw [hrefs, hlimit]
    exact h.sole ho
  · rw [hrefs, hlimit, hdata ho]
    exact h.data ho
  · rw [hrefs, hrest (by rcases ho with rfl | rfl <;> nofun)]
    exact h.rest ho
  · by_cases ho : o = .data
    · exact .inl ho
    · exact h.spare (hrest ho ▸ he)

namespace Owned

variable (h : Owned A s own extra)
include h

theorem tallied (f : ℕ) : Tallied s.mach.pmm (own f) (uses s f) (extra f) f :=
  ⟨h.used f, h.sole f, h.data f, h.rest f, h.spare f⟩

/-- Frames change hands. A context keeps its slot and its tables, or it has a new space, or none. -/
theorem handed {t : Spaces} (hroot : t.kernelRoot = s.kernelRoot)
    (hactive : t.active = s.active) (hsound : t.mach.pmm.Sound)
    (htallied : ∀ f, Tallied t.mach.pmm (own' f) (uses t f) (extra' f) f)
    (hkernel : ∀ f, own f = .kernel → own' f = .kernel ∧ t.mach.ram f = s.mach.ram f)
    (hdata : ∀ f, own f = .data → 0 < uses s f → own' f = .data)
    (hslots : ∀ c, (t.slots c = s.slots c ∧ ∀ f, (own' f = .table c ↔ own f = .table c) ∧
        (own f = .table c → t.mach.ram f = s.mach.ram f)) ∨
      (∃ sp, t.slots c = some sp ∧ Fits A t.mach.ram own' c sp) ∨
      t.slots c = none ∧ (∀ f, own' f ≠ .table c) ∧ ∀ cpu, s.active cpu ≠ some c) :
    Owned A t own' extra' := by
  refine ⟨hsound, fun f => (htallied f).used, fun f => (htallied f).sole, fun f => (htallied f).data,
    fun f => (htallied f).rest, fun f => (htallied f).spare, fun c f hf => ?_, ?_,
    fun c sp hsp => ?_, fun cpu c hc => ?_⟩
  · rcases hslots c with ⟨hsame, htable⟩ | ⟨sp, hsp, -⟩ | ⟨-, hnone, -⟩
    · rw [hsame]
      exact h.vacant c f ((htable f).1.mp hf)
    · rw [hsp]
      nofun
    · exact absurd hf (hnone f)
  · rw [hroot]
    exact h.kernel.congr (fun f hf => (hkernel f hf).2) fun f hf => (hkernel f hf).1
  · rcases hslots c with ⟨hsame, htable⟩ | ⟨sp', hsp', hfits⟩ | ⟨hnone, -⟩
    · rw [hsame] at hsp
      have hfits := h.spaces c sp hsp
      exact hfits.congr (fun f => (htable f).2) (fun f => (htable f).1) fun m hm =>
        hdata _ (hfits.data m hm) (uses_pos hsp hm)
    · rw [hsp] at hsp'
      cases hsp'
      exact hfits
    · rw [hnone] at hsp
      cases hsp
  · rw [hactive] at hc
    rcases hslots c with ⟨hsame, -⟩ | ⟨sp, hsp, -⟩ | ⟨-, -, hidle⟩
    · rw [hsame]
      exact h.active cpu c hc
    · rw [hsp]
      nofun
    · exact absurd hc (hidle cpu)

/-- A frame that was not among those handed out. -/
theorem tallied_off {N : Set ℕ} (hg : Grows s.mach mach N) (hf : f ∉ N)
    {n e : ℕ} (hdata : own f = .data → n + e = uses s f + extra f)
    (hrest : own f ≠ .data → e = extra f) : Tallied mach.pmm (own f) n e f :=
  (h.tallied f).congr (Bool.eq_iff_iff.mpr ((hg.used f).trans (or_iff_left hf))) (hg.kept f hf)
    hg.limit hdata hrest

/-- A frame that was handed out to an owner that holds the only reference. -/
theorem tallied_taken {N : Set ℕ} (hg : Grows s.mach mach N) (hf : f ∈ N)
    (ho : o.Sole) (n : ℕ) : Tallied mach.pmm o n (extra f) f := by
  have hfree := h.free_of_unused (hg.fresh f hf)
  have hzero : extra f = 0 := by
    by_contra hne
    have := h.spare f hne
    simp [hfree] at this
  obtain ⟨-, hpos, hlt⟩ := h.sound.free f (hg.fresh f hf)
  refine ⟨⟨?_, fun _ => (hg.used f).mpr (.inr hf)⟩, fun _ => ⟨hg.taken f hf, hpos, hg.limit ▸ hlt⟩,
    ?_, ?_, fun hne => absurd hzero hne⟩
  · rintro - rfl
    exact ho
  · rintro rfl
    exact ho.elim
  · rintro (rfl | rfl) <;> exact ho.elim

end Owned

/-- A change of one frame that holds no table. -/
theorem Owned.on_frame (h : Owned A s own extra) (hf : own f = .data ∨ own f = .free)
    (ho : o = .data ∨ o = .free) (hs : mach.pmm.Sound) (hlimit : mach.pmm.limit = s.mach.pmm.limit)
    (hothers : ∀ g, g ≠ f → mach.ram g = s.mach.ram g ∧
      mach.pmm.refs g = s.mach.pmm.refs g ∧ mach.pmm.used g = s.mach.pmm.used g)
    (hextra : ∀ g, g ≠ f → extra' g = extra g)
    (hdata : o = .data → mach.pmm.used f = true ∧ mach.pmm.refs f = uses s f + extra' f ∧
      0 < mach.pmm.refs f ∧ 0 < f ∧ f < s.mach.pmm.limit)
    (hfree : o = .free → mach.pmm.used f = false ∧ uses s f = 0 ∧ extra' f = 0) :
    Owned A { s with mach := mach } (update own f o) extra' := by
  have hne : ∀ g, own g ≠ .data → own g ≠ .free → g ≠ f := by
    rintro g hg hg' rfl
    exact hf.elim hg hg'
  refine h.handed rfl rfl hs (fun g => ?_) (fun g hg => ?_) (fun g hg huses => ?_)
    fun c => .inl ⟨rfl, fun g => ⟨?_, fun hg => ?_⟩⟩
  · by_cases hgf : g = f
    · rw [hgf, update_self]
      rcases ho with rfl | rfl
      · obtain ⟨hused, hcount⟩ := hdata rfl
        exact ⟨⟨fun _ => nofun, fun _ => hused⟩, nofun, fun _ => hlimit ▸ hcount, nofun,
          fun _ => .inl rfl⟩
      · obtain ⟨hunused, -, hzero⟩ := hfree rfl
        exact ⟨by simp [hunused], nofun, nofun, nofun, fun hne => absurd hzero hne⟩
    · obtain ⟨-, hrefs, hused⟩ := hothers g hgf
      rw [update_of_ne hgf]
      exact (h.tallied g).congr hused hrefs hlimit (fun _ => by rw [hextra g hgf]; rfl) fun _ =>
        hextra g hgf
  · have hgf := hne g (by rw [hg]; nofun) (by rw [hg]; nofun)
    exact ⟨(update_of_ne hgf _ _).trans hg, (hothers g hgf).1⟩
  · by_cases hgf : g = f
    · rcases ho with rfl | rfl
      · rw [hgf, update_self]
      · rw [hgf, (hfree rfl).2.1] at huses
        exact absurd huses (Nat.lt_irrefl 0)
    · rw [update_of_ne hgf, hg]
  · by_cases hgf : g = f
    · rw [hgf, update_self]
      rcases hf with hf | hf <;> rcases ho with rfl | rfl <;> simp [hf]
    · rw [update_of_ne hgf]
  · exact (hothers g (hne g (by rw [hg]; nofun) (by rw [hg]; nofun))).1

/-- A frame is handed out for a mapping. -/
theorem Owned.alloc (h : Owned A s own extra) {p : Pmm} (hp : s.mach.pmm.allocFrame = some (f, p)) :
    own f = .free ∧ Owned A { s with mach := { s.mach with pmm := p } } (update own f .data)
      (update extra f 1) := by
  have ht := allocFrame_takes hp
  have hown := h.free_of_unused ht.free
  obtain ⟨-, hpos, hlt⟩ := h.sound.free f ht.free
  refine ⟨hown, h.on_frame (.inr hown) (.inl rfl) (ht.sound h.sound) ht.limit (fun g hg => ?_)
    (fun g hg => update_of_ne hg _ _) (fun _ => ?_) nofun⟩
  · exact ⟨rfl, by rw [ht.refs, update_of_ne hg], by rw [ht.used, update_of_ne hg]⟩
  · have hzero : uses s f = 0 := h.uses_eq_zero (by rw [hown]; nofun)
    refine ⟨by rw [ht.used, update_self], ?_, ?_, hpos, hlt⟩
    · rw [ht.refs, update_self, update_self, hzero]
    · rw [ht.refs, update_self]
      exact Nat.one_pos

/-- The contents of a frame of the mappings change. -/
theorem Owned.fill (h : Owned A s own extra) (hf : own f = .data) (page : ℕ → ℕ) :
    Owned A (s.onMach fun m => m.setFrame f page) own extra := by
  have hsame : Owned A { s with mach := s.mach.setFrame f page } (update own f .data) extra := by
    refine h.on_frame (.inl hf) (.inl rfl) h.sound rfl (fun g hg => ?_) (fun _ _ => rfl)
      (fun _ => ⟨(h.used f).mpr (by rw [hf]; nofun), h.data f hf⟩) nofun
    exact ⟨update_of_ne hg _ _, rfl, rfl⟩
  rwa [← hf, update_eq_self] at hsame

def released (s : Spaces) (own : ℕ → Owner) (f : ℕ) : ℕ → Owner :=
  update own f (if s.mach.pmm.refs f = 1 then .free else .data)

/-- A reference that is in no table goes away. -/
theorem Owned.free (h : Owned A s own extra) (hf : own f = .data) (hextra : 0 < extra f) :
    Owned A (s.onMach fun m => m.freeFrame f) (released s own f)
      (update extra f (extra f - 1)) := by
  obtain ⟨hcount, hpos, hlow, hhigh⟩ := h.data f hf
  have hused := (h.used f).mpr (by rw [hf]; nofun)
  obtain ⟨hrefs, husedEq, hlimit⟩ := freeFrame_spec (by omega) hhigh hused (by omega)
  refine h.on_frame (.inl hf) ?_ (freeFrame_sound h.sound f) hlimit
    (fun g hg => ?_) (fun g hg => update_of_ne hg _ _) (fun ho => ?_) (fun ho => ?_)
  · by_cases hone : s.mach.pmm.refs f = 1
    · exact .inr (if_pos hone)
    · exact .inl (if_neg hone)
  · obtain ⟨hrefs, hused⟩ := freeFrame_other s.mach.pmm hg
    exact ⟨rfl, hrefs, hused⟩
  · have hone : s.mach.pmm.refs f ≠ 1 := fun hone => by rw [if_pos hone] at ho; cases ho
    simp only [Machine.freeFrame_pmm, hrefs, husedEq, update_self]
    exact ⟨by simpa using hone, by omega, by omega, hlow, hhigh⟩
  · have hone : s.mach.pmm.refs f = 1 := by
      by_contra hone
      rw [if_neg hone] at ho
      cases ho
    refine ⟨?_, by omega, by rw [update_self]; omega⟩
    simp only [Machine.freeFrame_pmm, husedEq, update_self, hone]
    rfl

end Steps

end Tach.Ownership
