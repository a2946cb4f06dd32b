import Tach.OwnedTables

/-!
What the functions of vmm.c do to the frames and pages of all contexts. A page is entered in the
tables of a context together with its mapping, and leaves them together with it; an operation that
fails has changed no page, but it may have left new tables behind.
-/

namespace Tach.Ownership

open Actions Frames KeyedLists Paging Vmm Function List Spaces Mapping
open Sectors (Errno)

variable {A : Arch} {s t : Spaces} {own : ℕ → Owner} {extra extra' : ℕ → ℕ} {c : Context}
variable {sp sp' : Space} {m : Mapping} {f v p : ℕ} {fl : Flags} {N : Set ℕ}
variable (h : Owned A s own extra) (hslot : s.slots c = some sp)

def none' : Context → ℕ → Prop := fun _ _ => False

def only (c : Context) (v : ℕ) : Context → ℕ → Prop := fun d w => d = c ∧ w = v

def all (c : Context) : Context → ℕ → Prop := fun d _ => d = c

/-- The mappings of `m` to a frame: one or none. -/
def hits (m : Option Mapping) (f : ℕ) : ℕ := m.elim 0 fun m => if m.phys = f then 1 else 0

theorem usesIn_of_perm {old : Option Mapping} {rest : List Mapping}
    (h : sp.mappings ~ old.toList ++ rest) :
    usesIn (some sp) f = hits old f + rest.countP fun m => m.phys = f := by
  simp only [usesIn, Option.elim_some, h.countP_eq, countP_append]
  cases old with
  | none => simp [hits]
  | some o =>
    by_cases ho : o.phys = f
    · simp [hits, ho]
    · simp [hits, ho]

/-- The mappings after the mapping of page `v` was written, without `v`. -/
theorem recorded (hkeys : (sp.mappings.map virt).Nodup) (v p : ℕ) (fl : Flags) (o : Bool) :
    ∃ rest, sp.mappings ~ (sp.find v).toList ++ rest ∧
      ((sp.record v p fl).change v fun m => { m with owned := o }).mappings ~
        ⟨v, p, fl, o⟩ :: rest := by
  -- the entry is written first and marked as owned in a second step
  have hmark : ∀ (l rest : List Mapping) (b : Bool), l ~ ⟨v, p, fl, b⟩ :: rest →
      (l.map virt).Nodup →
      update virt l v (fun m => { m with owned := o }) ~ ⟨v, p, fl, o⟩ :: rest := by
    intro l rest b hl hn
    have hfind : KeyedLists.find virt l v = some ⟨v, p, fl, b⟩ :=
      (find_eq_some hn).mpr ⟨hl.mem_iff.mpr mem_cons_self, rfl⟩
    obtain ⟨r, hr, hr'⟩ := update_perm hfind fun m => { m with owned := o }
    have hrest : r ~ rest := ((hr.symm.trans hl).cons_inv)
    exact hr'.trans (hrest.cons _)
  cases hold : sp.find v with
  | none =>
    refine ⟨sp.mappings, Perm.refl _, ?_⟩
    have hnone := find_eq_none.mp hold
    simp only [Space.record, hold]
    refine hmark _ _ false (perm_append_singleton _ _) ?_
    rw [Space.onMappings, ((perm_append_singleton _ _).map virt).nodup_iff, map_cons,
      nodup_cons]
    refine ⟨fun hv => ?_, hkeys⟩
    obtain ⟨m, hm, hvirt⟩ := mem_map.mp hv
    exact hnone m hm hvirt
  | some old =>
    obtain ⟨rest, hl, hl'⟩ := update_perm hold fun m => { m with phys := p, flags := fl }
    refine ⟨rest, hl, ?_⟩
    have hvirt : old.virt = v := (mem_of_find hold).2
    have hentry : update virt sp.mappings v (fun m => { m with phys := p, flags := fl }) ~
        ⟨v, p, fl, old.owned⟩ :: rest := hvirt ▸ hl'
    have hrecord : (sp.record v p fl).mappings =
        update virt sp.mappings v fun m => { m with phys := p, flags := fl } := by
      simp only [Space.record, hold, Space.change, Space.onMappings]
    simp only [Space.change, Space.onMappings, hrecord]
    refine hmark _ _ old.owned hentry ?_
    rw [(hentry.map virt).nodup_iff]
    have hbefore := (hl.map virt).nodup_iff.mp hkeys
    rwa [map_cons, hvirt] at hbefore

/-- A lookup after the mapping of page `v` was removed. -/
theorem find_left (hkeys : (sp.mappings.map virt).Nodup)
    (hl : sp.mappings ~ (sp.find v).toList ++ sp'.mappings) (w : ℕ) :
    sp'.find w = if w = v then none else sp.find w :=
  find_replaced hkeys (((hl.map virt).nodup_iff.mp hkeys).sublist
    ((sublist_append_right _ _).map _)) nofun hl (Perm.refl _)

variable {mach : Machine}

section Enter

variable {r : Result} {rest l : List Mapping}

/-- The page `v` of a context maps the frame `p` now, in place of what it mapped before. -/
structure Enters (A : Arch) (c : Context) (v p : ℕ) (fl : Flags) (s t : Spaces) : Prop where
  find : t.find c v = some ⟨v, p, fl, true⟩
  trans : ∀ sp, t.slots c = some sp → ∀ w, A.seen w = A.seen v →
    A.trans t.mach.ram sp.root w = some (A.leaf p fl)
  slot : ∃ sp l, s.slots c = some sp ∧ t.slots c = some { sp with mappings := l }

include h hslot

/-- The entry of a page is another or gone, and so is its mapping; `extra` accounts for the frames of
both. -/
theorem Owned.edit (new : Option Mapping) (he : Edits A s own sp v mach N new l rest)
    (hcount : ∀ f, own f = .data → hits new f + extra' f = hits (sp.find v) f + extra f)
    (hrest : ∀ f, own f ≠ .data → extra' f = extra f)
    (ht : t = setSlot { s with mach := mach } c (some { sp with mappings := l })) :
    Turn A c (only c v) (only c v) s own t (claimed own c N) extra' ∧ t.find c v = new := by
  subst ht
  have hfits := h.spaces c sp hslot
  have hfits' := hfits.edited h he
  obtain ⟨hw, hnew, -, hothers, hbefore, hafter, -⟩ := he
  set sp' : Space := { sp with mappings := l }
  have hfind (w : ℕ) : sp'.find w = if w = v then new else sp.find w :=
    find_replaced hfits.keys hfits'.keys (fun m hm => (hnew m hm).1) hbefore hafter
  refine ⟨⟨h.grown hw.grows (fun _ => h.within_ram hfits.tables hw) hfits' (fun f hf => ?_) hrest, loose_claimed h hw.grows,
    h.within_spares hslot hw (show sp'.root = sp.root from rfl) (fun w hw => ?_) fun w hw => ?_,
    fun d hd => update_of_ne hd _ _, rfl, hw.grows.limit⟩, ?_⟩
  · have hcount := hcount f hf
    rw [hslot, usesIn_of_perm hbefore, usesIn_of_perm (hafter)]
    omega
  · rw [hfind, if_neg hw]
  · exact hothers w fun hseen => hw v hseen.symm rfl
  · simp only [Spaces.find, setSlot, update_self, Option.bind_some]
    rw [hfind, if_pos rfl]

variable (hmaps : A.Maps s.mach sp.root v p fl r N)
include hmaps

/-- The tables of a context and its mappings get a page. -/
theorem Owned.enter (hok : r.1 = .ok ()) (hv : v ≠ 0)
    (hp : own p = .data) (hbefore : sp.mappings ~ (sp.find v).toList ++ rest)
    (hafter : l ~ ⟨v, p, fl, true⟩ :: rest) (hroom : l.length ≤ maxMappings)
    (hcount : ∀ f, own f = .data → (if p = f then 1 else 0) + extra' f = hits (sp.find v) f + extra f)
    (hrest : ∀ f, own f ≠ .data → extra' f = extra f)
    (ht : t = setSlot { s with mach := r.2 } c (some { sp with mappings := l })) :
    Turn A c (only c v) (only c v) s own t (claimed own c N) extra' ∧ Enters A c v p fl s t ∧
      t.mach.ram p = s.mach.ram p := by
  obtain ⟨hhas, hhere⟩ := hmaps.ok hok
  obtain ⟨hturn, hfind⟩ := h.edit hslot (some ⟨v, p, fl, true⟩) ⟨hmaps.within,
    by rintro _ ⟨⟩; exact ⟨rfl, hv, rfl, hp, hhas⟩, hhere, hmaps.others, hbefore, hafter, hroom⟩
    hcount hrest ht
  subst ht
  refine ⟨hturn, ⟨hfind, fun sp₁ hsp₁ w hw => ?_, sp, l, hslot, update_self _ _ _⟩, ?_⟩
  · simp only [setSlot, update_self, Option.some_inj] at hsp₁
    rw [← hsp₁]
    exact hhere w hw
  · exact h.within_ram (h.spaces c sp hslot).tables hmaps.within (by simp [hp])
      (by simp [hp])

/-- A failed attempt may leave new tables behind. -/
theorem Owned.enter_failed (herr : r.1 ≠ .ok ()) :
    Turn A c none' none' s own { s with mach := r.2 } (claimed own c N) extra := by
  have hfits := h.spaces c sp hslot
  have hsame : { s with mach := r.2 } = setSlot { s with mach := r.2 } c (some sp) := by
    simp only [setSlot, ← hslot, update_eq_self]
  have hroot : sp.root = sp.root := rfl
  refine ⟨?_, loose_claimed h hmaps.within.grows, ?_, fun _ _ => rfl, rfl, hmaps.within.grows.limit⟩
  · rw [hsame]
    refine h.grown hmaps.within.grows (fun _ => h.within_ram hfits.tables hmaps.within) ?_
      (fun f _ => by rw [hslot]) fun _ _ => rfl
    refine hfits.within h hmaps.within fun w leaf hleaf => ?_
    rw [hmaps.error herr] at hleaf
    exact hfits.leaves w leaf hleaf
  · rw [hsame]
    exact (h.within_spares hslot hmaps.within hroot
      (fun _ _ => rfl) fun w _ => congrFun (hmaps.error herr) w).mono (fun _ _ hw => hw.2)
      fun _ _ hw => hw.2

/-- A mapping that `vmm_map` wrote and its caller marks as owned. -/
theorem Owned.enter_recorded (hok : r.1 = .ok ()) (hv : v ≠ 0) (hp : own p = .data)
    (hroom : sp.find v = none → sp.mappings.length < maxMappings)
    (hcount : ∀ f, own f = .data → (if p = f then 1 else 0) + extra' f = hits (sp.find v) f + extra f)
    (hrest : ∀ f, own f ≠ .data → extra' f = extra f)
    (ht : t = setSlot { s with mach := r.2 } c (some ((sp.record v p fl).change v fun m => { m with owned := true }))) :
    Turn A c (only c v) (only c v) s own t (claimed own c N) extra' ∧ Enters A c v p fl s t ∧
      t.mach.ram p = s.mach.ram p := by
  have hfits := h.spaces c sp hslot
  obtain ⟨rest, hbefore, hafter⟩ := recorded hfits.keys v p fl true
  refine h.enter hslot hmaps hok hv hp hbefore hafter ?_ hcount hrest ?_
  · have hlength := hbefore.length_eq
    have hlength' := hafter.length_eq
    have hmax := hfits.room
    simp only [length_append, length_cons] at hlength hlength'
    cases hold : sp.find v with
    | none =>
      have hless := hroom hold
      omega
    | some o =>
      simp only [hold, Option.toList_some, length_singleton] at hlength
      omega
  · rw [ht]
    simp only [Space.record]
    cases sp.find v with
    | none => rfl
    | some o => rfl

end Enter

section Map

theorem onTables_root {root : ℕ} (hroot : s.root c = root) (f : Machine → ℕ → Result) :
    Ends (onTables fun m => f m (s.root c)) s fun r t =>
      r = (f s.mach root).1 ∧ t = { s with mach := (f s.mach root).2 } := by
  rw [hroot]
  exact ⟨rfl, rfl⟩

theorem allocFrame_ends (s : Spaces) : Ends allocFrame s fun r t =>
    (r = .error .enomem ∧ t = s ∧ s.mach.pmm.allocFrame = none) ∨
    ∃ f q, r = .ok f ∧ s.mach.pmm.allocFrame = some (f, q) ∧
      t = { s with mach := { s.mach with pmm := q } } := by
  unfold Ends allocFrame
  cases hq : s.mach.pmm.allocFrame with
  | none => exact .inl ⟨rfl, rfl, rfl⟩
  | some fq => exact .inr ⟨fq.1, fq.2, rfl, rfl, rfl⟩

/-- The frame that `vmm_map_allocated` hands to `vmm_map`: it holds zeros and no page has it. -/
theorem Owned.turn_zeroed (h : Owned A s own extra) {q : Pmm}
    (hq : s.mach.pmm.allocFrame = some (p, q)) :
    let t := onMach (fun m => m.setFrame p fun _ => 0)
      { s with mach := { s.mach with pmm := q } }
    own p = .free ∧ extra p = 0 ∧ t.slots = s.slots ∧ t.mach.ram p = (fun _ => 0) ∧
      Turn A c none' none' s own t (update own p .data) (update extra p 1) := by
  obtain ⟨hfree, halloc⟩ := h.turn_alloc hq
  refine ⟨hfree, ?_, rfl, update_self _ _ _,
    halloc.trans (halloc.owned.turn_fill (update_self _ _ _) ?_ _)⟩
  · by_contra hne
    have := h.spare p hne
    simp [hfree] at this
  · exact h.uses_eq_zero (by rw [hfree]; nofun)

/-- The tables of a context have a page of the kernel at `v`. -/
def Covered (A : Arch) (s : Spaces) (c : Context) (v : ℕ) : Prop :=
  ∃ sp leaf, s.slots c = some sp ∧ A.trans s.mach.ram sp.root v = some leaf ∧ leaf.user = false

theorem Covered.spared {W T : Context → ℕ → Prop} (h : Covered A s c v) (hst : Spares A W T s t)
    (hT : ∀ w, ¬T c w) : Covered A t c v := by
  obtain ⟨sp, leaf, hslot, htrans, huser⟩ := h
  obtain ⟨sp', hslot', hroot, hsame⟩ := hst.trans c sp v hslot fun w _ => hT w
  exact ⟨sp', leaf, hslot', by rw [hroot, hsame, htrans], huser⟩

/-- Why the page `v` could not be mapped. -/
def Stuck (A : Arch) (c : Context) (v n : ℕ) (s t : Spaces) : Prop :=
  v = 0 ∨ s.find c v = none ∧ s.full c = true ∨ t.mach.pmm.freePages ≤ n ∨ Covered A s c v

/-- How `vmm_map_allocated` ends. -/
def Allots (A : Arch) (c : Context) (v : ℕ) (fl : Flags) (s : Spaces) (own : ℕ → Owner)
    (extra extra' : ℕ → ℕ) (r : Except Errno ℕ) (t : Spaces) : Prop :=
  s.mach.pmm.freePages ≤ t.mach.pmm.freePages + 4 ∧ ∃ own',
    (∃ e, r = .error e ∧ Turn A c none' none' s own t own' extra ∧ t.slots = s.slots ∧
      Stuck A c v 1 s t) ∨
    (∃ p, r = .ok p ∧ own p = .free ∧ v ≠ 0 ∧ Turn A c (only c v) (only c v) s own t own' extra' ∧
      Enters A c v p fl s t ∧ t.mach.ram p = fun _ => 0)

include h hslot

/-- `vmm_map`: what it leaves is not owned yet. -/
theorem vmmMap_ends (hp : own p = .data) (v : ℕ) (fl : Flags) :
    Ends (vmmMap A c v p fl) s fun r t => s.mach.pmm.freePages ≤ t.mach.pmm.freePages + 3 ∧
      ((∃ e own', r = .error e ∧ Turn A c none' none' s own t own' extra ∧ t.slots = s.slots ∧
        (∀ f, own f ≠ .free → own' f = own f) ∧ Stuck A c v 0 s t) ∨
      (r = .ok () ∧ v ≠ 0 ∧ (sp.find v = none → sp.mappings.length < maxMappings) ∧
        ∃ N q, A.Maps s.mach sp.root v p fl q N ∧ q.1 = .ok () ∧
          t = setSlot { s with mach := q.2 } c (some (sp.record v p fl)))) := by
  have hfits := h.spaces c sp hslot
  obtain ⟨-, -, -, hlimit⟩ := h.data p hp
  obtain ⟨N, hmaps⟩ := A.map_spec s.mach sp.root v p fl (hfits.ready h)
    (by have := h.sound.limit; omega)
  have hroot : s.root c = sp.root := by simp [root, hslot]
  have hpos : s.root c ≠ 0 := by
    have hmem := (hfits.tables sp.root).mpr (A.root_mem _ _)
    have := (h.sole sp.root (by rw [hmem]; trivial)).2.1
    omega
  refine Ends.read_bind ?_
  split
  · rename_i hzero
    exact Ends.fail ⟨by omega, .inl ⟨_, own, rfl, .refl h, rfl, fun _ _ => rfl,
      .inl (hzero.resolve_left hpos)⟩⟩
  · rename_i hzero
    refine Ends.read_bind ?_
    split
    · rename_i hfull
      simp only [Bool.and_eq_true, Option.isNone_iff_eq_none] at hfull
      exact Ends.fail ⟨by omega, .inl ⟨_, own, rfl, .refl h, rfl, fun _ _ => rfl, .inr (.inl hfull)⟩⟩
    · rename_i hfull
      have hspace : sp.find v = none → sp.mappings.length < maxMappings := by
        intro hnone
        simpa [Spaces.find, full, hslot, hnone] using hfull
      refine Ends.bind (onTables_root hroot fun m root => A.map m root v p fl) ?_ ?_
      · rintro _ t ⟨hr, rfl⟩
        refine Ends.modify ⟨hmaps.few, .inr ⟨rfl, fun hv => hzero (.inr hv), hspace, N, _, hmaps,
          hr.symm, ?_⟩⟩
        simp only [onSpace, hslot, Option.map_some]
      · rintro e t ⟨hr, rfl⟩
        have herr : (A.map s.mach sp.root v p fl).1 ≠ .ok () := by simp [← hr]
        refine ⟨hmaps.few, .inl ⟨e, claimed own c N, rfl, h.enter_failed hslot hmaps herr, rfl,
          fun f hf => h.claimed_of_used hmaps.within.grows hf, ?_⟩⟩
        rcases hmaps.stuck herr with hfree | htrans
        · exact .inr (.inr (.inl hfree.le))
        · obtain ⟨leaf, hleaf⟩ := Option.ne_none_iff_exists'.mp htrans
          refine .inr (.inr (.inr ⟨sp, leaf, hslot, hleaf, Bool.of_not_eq_true fun huser => ?_⟩))
          -- a page of a user would have an entry, and the map would succeed
          obtain ⟨m, hm, hseen, -⟩ := hfits.leaves v leaf hleaf huser
          exact herr (hmaps.again (A.slot_seen _ _ _ _ hseen (hfits.slots m hm))).1

theorem Owned.hits_eq_zero (hf : own f ≠ .data) : hits (sp.find v) f = 0 := by
  cases hm : sp.find v with
  | none => rfl
  | some m =>
    have hdata := (h.spaces c sp hslot).data m (mem_of_find hm).1
    have hne : m.phys ≠ f := fun heq => hf (heq ▸ hdata)
    exact if_neg hne

/-- `vmm_map_allocated`; the frame of the mapping that it replaces keeps its reference. -/
theorem vmmMapAllocated_ends (v : ℕ) (fl : Flags) : Ends (vmmMapAllocated A c v fl) s
    (Allots A c v fl s own extra fun f => extra f + hits (sp.find v) f) := by
  refine Ends.bind (allocFrame_ends s) (fun p t₁ ht₁ => ?_) fun e t₁ ht₁ => ?_
  swap
  · rcases ht₁ with ⟨-, rfl, hnone⟩ | ⟨_, _, hr, -⟩
    · have := freePages_of_none h.sound hnone
      exact ⟨by omega, own, .inl ⟨e, rfl, .refl h, rfl, .inr (.inr (.inl (by omega)))⟩⟩
    · cases hr
  rcases ht₁ with ⟨hr, -⟩ | ⟨f, q, hr, hq, rfl⟩
  · cases hr
  cases hr
  obtain ⟨hfree, hextra, hslots₁, hram₁, hzero⟩ := h.turn_zeroed hq (c := c)
  refine Ends.modify_bind ?_
  have hfew : s.mach.pmm.freePages ≤ (onMach (fun m => m.setFrame p fun _ => 0)
      { s with mach := { s.mach with pmm := q } }).mach.pmm.freePages + 1 := (allocFrame_takes hq).few
  generalize onMach (fun m => m.setFrame p fun _ => 0) _ = s₁ at hfew hslots₁ hram₁ hzero ⊢
  have hdata : update own p .data p = .data := update_self _ _ _
  rw [← hslots₁] at hslot
  refine Ends.attempt_bind (vmmMap_ends hzero.owned hslot hdata v fl) fun r t ht => ?_
  obtain ⟨hfew', ht⟩ := ht
  rcases ht with ⟨e, own', rfl, hturn, hslots, hkept, hstuck⟩ |
    ⟨rfl, hv, hroom, N, q', hmaps, hok, rfl⟩
  · have hback := hturn.owned.turn_free (c := c) (W := none') (T := none')
      (by rw [hkept p (by simp), hdata]) (by rw [update_self]; exact Nat.one_pos)
    have hsame : update (update extra p 1) p (update extra p 1 p - 1) = extra := by
      rw [update_self, update_idem, Nat.sub_self, ← hextra, update_eq_self]
    rw [hsame] at hback
    obtain ⟨hlow, hhigh⟩ : t.mach.pmm.freePages ≤ (t.onMach fun m => m.freeFrame p).mach.pmm.freePages ∧
        (t.onMach fun m => m.freeFrame p).mach.pmm.freePages ≤ t.mach.pmm.freePages + 1 :=
      freeFrame_freePages t.mach.pmm p
    refine Ends.modify_bind (Ends.fail ⟨by omega, _, .inl ⟨e, rfl,
      hzero.trans (hturn.trans hback), hslots.trans hslots₁, ?_⟩⟩)
    rcases hstuck with hv | ⟨hnone, hfull⟩ | hpages | ⟨sp', leaf, hsp', hleaf, huser⟩
    · exact .inl hv
    · rw [Spaces.find, hslots₁] at hnone
      rw [full, hslots₁] at hfull
      exact .inr (.inl ⟨hnone, hfull⟩)
    · exact .inr (.inr (.inl (by omega)))
    · rw [hslots₁] at hsp'
      obtain ⟨_, hsp'', -, hsame⟩ := hzero.spares.trans c sp' v hsp' fun _ _ => id
      exact .inr (.inr (.inr ⟨sp', leaf, hsp', hsame ▸ hleaf, huser⟩))
  · have hcount : ∀ f, (if p = f then 1 else 0) + extra f = update extra p 1 f := by
      intro f
      by_cases hf : p = f
      · rw [← hf, if_pos rfl, update_self, hextra]
      · rw [if_neg hf, update_of_ne (Ne.symm hf), Nat.zero_add]
    have hdata' : ∀ f, update own p .data f = .data → (if p = f then 1 else 0) +
        (extra f + hits (sp.find v) f) = hits (sp.find v) f + update extra p 1 f := by
      intro f _
      have := hcount f
      omega
    have hrest : ∀ f, update own p .data f ≠ .data →
        extra f + hits (sp.find v) f = update extra p 1 f := by
      intro f hf
      have hfp : f ≠ p := fun hfp => hf (by rw [hfp, update_self])
      rw [update_of_ne hfp] at hf ⊢
      rw [h.hits_eq_zero (hslots₁ ▸ hslot) hf, Nat.add_zero]
    obtain ⟨hturn, henters, hram⟩ :=
      hzero.owned.enter_recorded hslot hmaps hok hv hdata hroom hdata' hrest rfl
    refine Ends.modify_bind (Ends.ret ?_)
    have hstate : onSpace c (Space.change v fun m => { m with owned := true })
        (setSlot { s₁ with mach := q'.2 } c (some (sp.record v p fl))) =
        setSlot { s₁ with mach := q'.2 } c
          (some ((sp.record v p fl).change v fun m => { m with owned := true })) := by
      simp only [onSpace, setSlot, update_self, Option.map_some, update_idem]
    rw [hstate]
    have hpages : s₁.mach.pmm.freePages ≤ q'.2.pmm.freePages + 3 := hfew'
    refine ⟨show _ ≤ q'.2.pmm.freePages + 4 by omega, _, .inr ⟨p, rfl, hfree, hv,
      (hzero.mono (fun _ _ => False.elim) fun _ _ => False.elim).trans hturn, ?_, ?_⟩⟩
    · exact ⟨henters.find, henters.trans, hslots₁ ▸ henters.slot⟩
    · rw [hram, hram₁]

/-- On a page that is not mapped no frame is lost. -/
theorem vmmMapAllocated_fresh (hnone : s.find c v = none) (fl : Flags) :
    Ends (vmmMapAllocated A c v fl) s (Allots A c v fl s own extra extra) := by
  have hfind : sp.find v = none := by simpa [Spaces.find, hslot] using hnone
  have hends := vmmMapAllocated_ends h hslot v fl
  simpa only [hfind, hits, Option.elim_none, Nat.add_zero] using hends

end Map

section Unmap

variable {r : Result} {l : List Mapping}

include h hslot

/-- The entry of a page goes, and its mapping if it has one; the frame keeps its reference. -/
theorem Owned.leave (hun : A.Unmaps s.mach sp.root v r) (hl : sp.mappings ~ (sp.find v).toList ++ l)
    (ht : t = setSlot { s with mach := r.2 } c (some { sp with mappings := l })) :
    Turn A c (only c v) (only c v) s own t own (fun f => extra f + hits (sp.find v) f) := by
  have hlength := hl.length_eq
  have hroom := (h.spaces c sp hslot).room
  rw [length_append] at hlength
  obtain ⟨hturn, -⟩ := h.edit hslot none
    ⟨hun.within, nofun, hun.gone, hun.others, hl, Perm.refl l, by omega⟩ (fun f _ => (Nat.zero_add _).trans (Nat.add_comm ..))
    (fun f hf => by rw [h.hits_eq_zero hslot hf, Nat.add_zero]) ht
  rwa [claimed_empty] at hturn

/-- A mapping goes with its reference to the frame. -/
theorem Owned.leave_mapped (hun : A.Unmaps s.mach sp.root v r) (hm : sp.find v = some m)
    (hl : sp.mappings ~ m :: l)
    (ht : t = setSlot { s with mach := r.2.freeFrame m.phys } c (some { sp with mappings := l })) :
    ∃ own', Turn A c (only c v) (only c v) s own t own' extra := by
  have hleft := h.leave hslot hun (by rw [hm]; exact hl) rfl
  have hdata := (h.spaces c sp hslot).data m (mem_of_find hm).1
  have hhits : hits (sp.find v) m.phys = 1 := by rw [hm]; exact if_pos rfl
  have hfreed := hleft.owned.turn_free (c := c) (W := only c v) (T := only c v) hdata
    (by simp only [hhits]; omega)
  have hback : update (fun f => extra f + hits (sp.find v) f) m.phys
      (extra m.phys + hits (sp.find v) m.phys - 1) = extra := by
    funext f
    by_cases hf : f = m.phys
    · rw [hf, update_self, hhits, Nat.add_sub_cancel]
    · rw [update_of_ne hf, hm]
      exact congrArg (extra f + ·) (if_neg (Ne.symm hf))
  rw [hback] at hfreed
  rw [ht]
  exact ⟨_, hleft.trans hfreed⟩

theorem vmmUnmap_ends (v : ℕ) :
    Ends (vmmUnmap A c v) s fun r t => ∃ own' l, Turn A c (only c v) (only c v) s own t own' extra ∧
      t.slots c = some { sp with mappings := l } ∧ sp.mappings ~ (sp.find v).toList ++ l ∧
      (sp.find v ≠ none → r = .ok ()) := by
  have hfits := h.spaces c sp hslot
  have hroot : s.root c = sp.root := by simp [root, hslot]
  have hready := hfits.ready h
  unfold vmmUnmap
  split
  · rename_i hv
    have hnone : sp.find v = none := find_eq_none.mpr fun m hm => hv ▸ hfits.low m hm
    exact Ends.fail ⟨own, sp.mappings, .refl h, hslot, by rw [hnone]; rfl, fun h => absurd hnone h⟩
  · by_cases hhas : A.hasSlot s.mach.ram sp.root v
    · have hun := A.unmap_spec s.mach sp.root v hready hhas
      refine Ends.read_bind (Ends.bind (onTables_root hroot fun m root => A.unmap m root v)
        ?_ ?_)
      · rintro _ t ⟨-, ht⟩
        have hfind : t.find c v = sp.find v := by rw [ht, Spaces.find, hslot]; rfl
        refine Ends.read_bind ?_
        rw [hfind]
        cases hm : sp.find v with
        | none =>
          have hleft := h.leave hslot hun (by rw [hm]; rfl) rfl
          have hsame : t = setSlot { s with mach := (A.unmap s.mach sp.root v).2 } c
              (some { sp with mappings := sp.mappings }) := by
            rw [ht]
            simp only [setSlot, ← hslot, update_eq_self]
          rw [← hsame] at hleft
          simp only [hm, hits, Option.elim_none, Nat.add_zero] at hleft
          exact Ends.ret ⟨own, sp.mappings, hleft, by rw [ht]; exact hslot, Perm.refl _, by simp⟩
        | some m =>
          have hmem := (mem_of_find hm).1
          simp only [hfits.owned m hmem, if_true]
          refine Ends.modify_bind (Ends.modify ?_)
          have hstate : onSpace c (Space.onMappings fun l => remove virt l v)
              (onMach (fun mach => mach.freeFrame m.phys) t) =
              setSlot
                { s with mach := (A.unmap s.mach sp.root v).2.freeFrame m.phys } c
                (some { sp with mappings := remove virt sp.mappings v }) := by
            rw [ht]
            simp only [onSpace, onMach, hslot, Option.map_some]
            rfl
          have hl := remove_perm hm
          obtain ⟨own', hturn⟩ := h.leave_mapped hslot hun hm hl hstate
          refine ⟨own', _, hturn, ?_, hl, fun _ => rfl⟩
          rw [hstate]
          exact update_self _ _ _
      · rintro e t ⟨hr, -⟩
        rw [hun.ok] at hr
        cases hr
    · have hun := A.unmap_none s.mach sp.root v hready hhas
      have hnone : sp.find v = none := by
        by_contra hsome
        obtain ⟨m, hm⟩ := Option.ne_none_iff_exists'.mp hsome
        obtain ⟨hmem, hvirt⟩ := mem_of_find hm
        exact hhas (hvirt ▸ hfits.slots m hmem)
      refine Ends.read_bind (Ends.bind (onTables_root hroot fun m root => A.unmap m root v)
        ?_ ?_)
      · rintro _ t ⟨hr, -⟩
        rw [hun] at hr
        cases hr
      · rintro e t ⟨-, ht⟩
        rw [hun] at ht
        subst ht
        exact ⟨own, sp.mappings, .refl h, hslot, by rw [hnone]; rfl, fun h => absurd hnone h⟩

end Unmap

section Create

/-- A failed `arch_paging_create_root` has given back all frames that it took. -/
def Balanced (A : Arch) : Prop :=
  ∀ k m m', A.Ready m k → A.createRoot k m = (none, m') →
    m'.pmm.used = m.pmm.used ∧ m'.pmm.refs = m.pmm.refs

theorem createRoot_ends (A : Arch) (s : Spaces) : Ends (createRoot A) s fun r t =>
    ∃ mach, t = { s with mach := mach } ∧
      ((r = .error .enomem ∧ A.createRoot s.kernelRoot s.mach = (none, mach)) ∨
        ∃ root, r = .ok root ∧ A.createRoot s.kernelRoot s.mach = (some root, mach)) := by
  unfold Ends createRoot
  rcases A.createRoot s.kernelRoot s.mach with ⟨root, mach⟩
  cases root with
  | none => exact ⟨mach, rfl, .inl ⟨rfl, rfl⟩⟩
  | some root => exact ⟨mach, rfl, .inr ⟨root, rfl, rfl⟩⟩

include h

/-- A context that was not used gets a copy of the tables of the kernel. -/
theorem Owned.created (hslot : s.slots c = none) {root next : ℕ}
    (hcopies : A.Copies s.mach s.kernelRoot root mach N) :
    Turn A c none' none' s own (setSlot { s with mach := mach } c (some ⟨root, next, []⟩))
      (claimed own c N) extra := by
  have hram : ∀ f, own f ≠ .free → own f ≠ .table c → mach.ram f = s.mach.ram f := fun f hf _ =>
    hcopies.off f (hcopies.grows.notMem_of_used ((h.used f).mpr hf))
  have hfits : Fits A mach.ram (claimed own c N) c ⟨root, next, []⟩ := by
    refine ⟨hcopies.good, fun f => ?_, nodup_nil, Nat.zero_le _, nofun, nofun, nofun, nofun,
      fun w leaf hleaf huser => ?_⟩
    · have hnone : ∀ f, own f = .table c ↔ f ∈ (∅ : Set ℕ) := fun f =>
        ⟨fun hf => h.vacant c f hf hslot, fun hf => hf.elim⟩
      rw [claimed_iff hnone, hcopies.tables, Set.empty_union]
    · rw [hcopies.trans] at hleaf
      rw [h.kernel.leaves w leaf hleaf] at huser
      cases huser
  refine ⟨h.grown hcopies.grows hram hfits (fun f _ => by rw [hslot]; rfl) fun _ _ => rfl,
    loose_claimed h hcopies.grows, ?_, fun d hd => update_of_ne hd _ _, rfl, hcopies.grows.limit⟩
  refine (h.grown_spares hram (fun w _ => ?_)
    fun sp w hsp => ?_).mono (fun _ _ hw => hw.2) fun _ _ hw => hw.2
  · rw [Spaces.find, hslot]
    rfl
  · rw [hslot] at hsp
    cases hsp

/-- Frames that were handed out and that nothing refers to. -/
theorem Owned.leaked (hg : Grows s.mach mach N)
    (hram : ∀ f, s.mach.pmm.used f = true → mach.ram f = s.mach.ram f) :
    ∃ own' extra', Owned A { s with mach := mach } own' extra' ∧
      (N = ∅ → own' = own ∧ extra' = extra) := by
  classical
  set own' : ℕ → Owner := fun f => if f ∈ N then .other else own f
  have hkeep : ∀ f, own f ≠ .free → own' f = own f ∧ mach.ram f = s.mach.ram f := fun f hf =>
    ⟨if_neg (hg.notMem_of_used ((h.used f).mpr hf)), hram f ((h.used f).mpr hf)⟩
  refine ⟨own', fun f => if f ∈ N then 1 else extra f, h.handed rfl rfl hg.sound (fun f => ?_)
    (fun f hf => ?_) (fun f hf _ => (hkeep f (by rw [hf]; nofun)).1.trans hf)
    fun c => .inl ⟨rfl, fun f => ⟨?_, fun hf => (hkeep f (by rw [hf]; nofun)).2⟩⟩, fun hN => ?_⟩
  · by_cases hN : f ∈ N
    · simp only [own', if_pos hN]
      exact ⟨⟨fun _ => nofun, fun _ => (hg.used f).mpr (.inr hN)⟩, nofun, nofun,
        fun _ => hg.taken f hN, fun _ => .inr (.inr rfl)⟩
    · simp only [own', if_neg hN]
      exact h.tallied_off hg hN (fun _ => rfl) fun _ => rfl
  · obtain ⟨hsame, hram⟩ := hkeep f (by rw [hf]; nofun)
    exact ⟨hsame.trans hf, hram⟩
  · by_cases hN : f ∈ N
    · simp [own', hN, h.free_of_unused (hg.fresh f hN)]
    · simp only [own', if_neg hN]
  · simp [own', hN]

theorem createContext_ends : Ends (createContext A) s fun r t =>
    (∃ e own' extra', r = .error e ∧ Owned A t own' extra' ∧ Spares A none' none' s t ∧
      t.slots = s.slots ∧ t.active = s.active ∧ t.mach.pmm.limit = s.mach.pmm.limit ∧
      (Balanced A → own' = own ∧ extra' = extra)) ∨
    (∃ c root own', r = .ok c ∧ s.slots c = none ∧ Turn A c none' none' s own t own' extra ∧
      t.slots c = some ⟨root, A.dynamicBase, []⟩ ∧
      A.trans t.mach.ram root = A.trans s.mach.ram s.kernelRoot) := by
  have hready := h.kernel.ready h
  refine Ends.read_bind ?_
  split
  · exact Ends.fail (.inl ⟨_, own, extra, rfl, h, .refl s, rfl, rfl, rfl, fun _ => ⟨rfl, rfl⟩⟩)
  · rename_i c hc
    have hslot : s.slots c = none := by
      have := List.find?_some hc
      simpa using this
    refine Ends.bind (createRoot_ends A s) (fun root t ht => ?_) fun e t ht => .inl ?_
    · obtain ⟨mach, rfl, ⟨hr, -⟩ | ⟨root', hr, hroot⟩⟩ := ht
      · cases hr
      · cases hr
        obtain ⟨N, hcopies⟩ := A.createRoot_some _ _ _ _ hready hroot
        refine Ends.modify_bind (Ends.ret (.inr ⟨c, root, _, rfl, hslot, h.created hslot hcopies,
          update_self _ _ _, hcopies.trans⟩))
    · obtain ⟨mach, rfl, ⟨-, hroot⟩ | ⟨root', hr, -⟩⟩ := ht
      · obtain ⟨N, hg, hram⟩ := A.createRoot_none _ _ _ hready hroot
        obtain ⟨own', extra', hnew, hnone⟩ := h.leaked hg hram
        refine ⟨e, own', extra', rfl, hnew, ?_, rfl, rfl, hg.limit, fun hbal => hnone ?_⟩
        · exact h.spares_of_ram fun f hf _ => hram f ((h.used f).mpr hf)
        · refine Set.eq_empty_iff_forall_notMem.mpr fun f hf => ?_
          have hused := (hg.used f).mpr (.inr hf)
          rw [(hbal _ _ _ hready hroot).1, hg.fresh f hf] at hused
          cases hused
      · cases hr

end Create

section Destroy

variable {mach : Machine} {next root : ℕ}

/-- The first loop of `vmm_destroy_context`: the slot keeps its mappings to the end, while those
that are left to go are `l`. -/
theorem dropMappings_ends (l : List Mapping)
    (h : Owned A (s.setSlot c (some ⟨root, next, l⟩)) own extra) :
    Ends (Act.each (dropMapping A root) l) s fun r t => r = .ok () ∧
      (∃ mach, t = { s with mach := mach }) ∧ ∃ own', Turn A c (all c) (all c)
        (s.setSlot c (some ⟨root, next, l⟩)) own (t.setSlot c (some ⟨root, next, []⟩)) own' extra := by
  induction l generalizing s own with
  | nil => exact Ends.ret ⟨rfl, ⟨s.mach, rfl⟩, own, .refl h⟩
  | cons m l ih =>
    have hslot : (s.setSlot c (some ⟨root, next, m :: l⟩)).slots c = some ⟨root, next, m :: l⟩ :=
      update_self _ _ _
    have hfits := h.spaces c _ hslot
    have hun := A.unmap_spec s.mach root m.virt (hfits.ready h)
      (hfits.slots m mem_cons_self)
    have hm : (⟨root, next, m :: l⟩ : Space).find m.virt = some m :=
      (find_eq_some hfits.keys).mpr ⟨mem_cons_self, rfl⟩
    set mach := (A.unmap s.mach root m.virt).2.freeFrame m.phys
    obtain ⟨own₁, hturn⟩ := h.leave_mapped hslot hun hm (Perm.refl _)
      (show setSlot { s with mach := mach } c (some ⟨root, next, l⟩) = _ by
        simp only [setSlot, update_idem, mach])
    have hdrop : Ends (dropMapping A root m) s fun r t =>
        r = .ok () ∧ t = { s with mach := mach } := by
      have hun' : Ends (onTables fun mach => A.unmap mach root m.virt) s fun _ t =>
          t = { s with mach := (A.unmap s.mach root m.virt).2 } := by rfl
      refine Ends.attempt_bind hun' fun r t ht => ?_
      rw [hfits.owned m mem_cons_self, ht]
      exact ⟨rfl, rfl⟩
    refine Ends.bind hdrop ?_ (by rintro e t ⟨⟨⟩, -⟩)
    rintro _ t ⟨-, ht⟩
    rw [ht]
    refine (ih hturn.owned).mono ?_
    rintro r u ⟨hr, ⟨mach', hu⟩, own', hrest⟩
    refine ⟨hr, ⟨mach', hu⟩, own', ?_⟩
    exact (hturn.mono (fun _ _ hw => hw.1) fun _ _ hw => hw.1).trans hrest

include h

/-- The frames of the tables of a context go, after all of its mappings went. -/
theorem Owned.destroyed (hslot : s.slots c = some ⟨root, next, []⟩)
    (hidle : ∀ cpu, s.active cpu ≠ some c) (hdrops : Drops s.mach mach (A.tables s.mach.ram root)) :
    ∃ own', Turn A c (all c) (all c) s own (setSlot { s with mach := mach } c none) own'
      extra ∧ ∀ f, own' f ≠ .table c := by
  classical
  have htables := (h.spaces c _ hslot).tables
  set own' : ℕ → Owner := fun f => if own f = .table c then .free else own f
  have hkeep : ∀ f, own f ≠ .table c → own' f = own f := fun f hf => if_neg hf
  have hgone : ∀ f, own' f ≠ .table c := by
    intro f hf
    by_cases htable : own f = .table c
    · simp [own', htable] at hf
    · exact htable ((hkeep f htable).symm.trans hf)
  have huses : ∀ f, uses (setSlot { s with mach := mach } c none) f = uses s f := by
    intro f
    have hset := uses_setSlot { s with mach := mach } c none f
    have hsame : uses { s with mach := mach } f = uses s f := rfl
    have hzero : usesIn (s.slots c) f = 0 := by rw [hslot]; rfl
    have hnone : usesIn none f = 0 := rfl
    simp only [hsame, hzero, hnone, Nat.add_zero] at hset
    exact hset
  refine ⟨own', ⟨h.handed rfl rfl hdrops.sound (fun f => ?_) (fun f hf => ?_) (fun f hf _ => ?_)
    fun d => ?_, fun f => ?_, ?_, fun d hd => update_of_ne hd _ _, rfl, hdrops.limit⟩, hgone⟩
  · rw [huses]
    by_cases hf : own f = .table c
    · have hunused : mach.pmm.used f ≠ true := fun hused =>
        ((hdrops.used f).mp hused).2 ((htables f).mp hf)
      have hspare := h.spare f
      simp only [hf, reduceCtorEq, or_self, imp_false, not_not] at hspare
      simp only [own', if_pos hf]
      exact ⟨⟨fun hused => absurd hused hunused, fun hne => absurd rfl hne⟩, False.elim, by simp,
        by simp, fun hne => absurd hspare hne⟩
    · have hmem : f ∉ A.tables s.mach.ram root := fun hmem => hf ((htables f).mpr hmem)
      rw [hkeep f hf]
      exact (h.tallied f).congr (Bool.eq_iff_iff.mpr ((hdrops.used f).trans (and_iff_left hmem)))
        (hdrops.kept f hmem) hdrops.limit (fun _ => rfl) fun _ => rfl
  · rw [hkeep f (by simp [hf])]
    exact ⟨hf, by simp only [setSlot, hdrops.ram]⟩
  · rw [hkeep f (by simp [hf]), hf]
  · by_cases hd : d = c
    · rw [hd]
      exact .inr (.inr ⟨update_self _ _ _, hgone, hidle⟩)
    · refine .inl ⟨update_of_ne hd _ _, fun f => ⟨?_, fun _ => by simp only [setSlot, hdrops.ram]⟩⟩
      by_cases hf : own f = .table c
      · simp only [own', if_pos hf, hf, reduceCtorEq, false_iff]
        exact fun heq => hd (Owner.table.inj heq).symm
      · rw [hkeep f hf]
  · by_cases hf : own f = .table c
    · simp only [own', if_pos hf]
      exact .inr ⟨.inr (.inr hf), .inl rfl⟩
    · exact .inl (hkeep f hf)
  · have hfind : ∀ d w, d ≠ c →
        (setSlot { s with mach := mach } c none).find d w = s.find d w := fun d w hd => by
      simp only [Spaces.find, setSlot, update_of_ne hd]
    refine ⟨hfind, fun d w hd => ?_, fun d sp w hsp hd => ?_, rfl, ?_⟩
    · rw [page, page, hfind d w hd]
      simp only [setSlot, hdrops.ram]
    · refine ⟨sp, (update_of_ne (hd w rfl) _ _).trans hsp, rfl, ?_⟩
      simp only [setSlot, hdrops.ram]
    · simp only [setSlot, hdrops.ram]

theorem destroyContext_ends (c : Context) : Ends (destroyContext A c) s fun r t => r = .ok () ∧
      ((t = s ∧ (s.slots c = none ∨ ∃ cpu, s.active cpu = some c)) ∨
        (t.slots = update s.slots c none ∧ (∀ cpu, s.active cpu ≠ some c) ∧
          ∃ own', Turn A c (all c) (all c) s own t own' extra ∧ ∀ f, own' f ≠ .table c)) := by
  unfold destroyContext
  refine Ends.read_bind ?_
  cases hslot : s.slots c with
  | none => exact Ends.ret ⟨rfl, .inl ⟨rfl, .inl rfl⟩⟩
  | some sp =>
    refine Ends.read_bind ?_
    split
    · rename_i hactive
      exact Ends.ret ⟨rfl, .inl ⟨rfl, .inr (by simpa using hactive)⟩⟩
    · rename_i hidle
      have hidle : ∀ cpu, s.active cpu ≠ some c := by simpa using hidle
      have hself : s.setSlot c (some ⟨sp.root, sp.nextFree, sp.mappings⟩) = s := by
        simp only [setSlot, ← hslot, update_eq_self]
      have hdrop : Ends (Act.each (dropMapping A sp.root) sp.mappings) s _ :=
        dropMappings_ends sp.mappings (hself.symm ▸ h)
      refine Ends.bind hdrop ?_ (by rintro e t ⟨⟨⟩, -⟩)
      rintro _ t ⟨-, ⟨mach, ht⟩, own', hturn⟩
      rw [hself] at hturn
      have hslot' : (t.setSlot c (some ⟨sp.root, sp.nextFree, []⟩)).slots c =
          some ⟨sp.root, sp.nextFree, []⟩ := update_self _ _ _
      have hfits := hturn.owned.spaces c _ hslot'
      have hroot : sp.root ≠ t.kernelRoot := by
        intro heq
        have htable := (hfits.tables sp.root).mpr (A.root_mem _ _)
        have hkernel := hturn.owned.kernel.tables t.kernelRoot (A.root_mem _ _)
        rw [heq, hkernel] at htable
        cases htable
      have hsole : ∀ f ∈ A.tables t.mach.ram sp.root,
          t.mach.pmm.refs f = 1 ∧ 0 < f ∧ f < t.mach.pmm.limit := fun f hf =>
        hturn.owned.sole f (by rw [(hfits.tables f).mpr hf]; trivial)
      have hdrops := A.destroyRoot_spec t.kernelRoot t.mach sp.root (hfits.ready hturn.owned)
        hroot hsole
      have hidle' : ∀ cpu, t.active cpu ≠ some c := by rw [ht]; exact hidle
      obtain ⟨own'', hgone, hnone⟩ := hturn.owned.destroyed hslot' hidle' hdrops
      refine Ends.modify_bind (Ends.modify ⟨rfl, .inr ⟨?_, hidle, own'', ?_, hnone⟩⟩)
      · simp only [setSlot, onMach, ht]
      · have hall := hturn.trans hgone
        simp only [setSlot, update_idem] at hall
        exact hall

end Destroy

end Tach.Ownership
