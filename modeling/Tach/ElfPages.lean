import Tach.Elf
import Tach.VmmSpecs

/-!
The memory that elf_load leaves. The pages of the loadable segments are mapped one after the other,
each of them once, and the bytes of the file are copied to them; what happens to the frames is
seen in any context, and what the pages hold in one whose frames no other page has.
-/

namespace Tach.Ownership

open Actions Frames KeyedLists Paging Vmm Processes Function List Spaces
open Sectors (Errno)

variable {A : Arch} {s t u : Spaces} {own own' own'' : ℕ → Owner} {extra : ℕ → ℕ} {c : Context}
variable {sp : Space} {m : Mapping} {f v p : ℕ} {fl : Flags} {l l' : List ℕ} {F : ℕ → ℕ}

def any : Context → ℕ → Prop := fun _ _ => True

/-- The context `c` gets the pages `l`, which it did not have. -/
structure Gains (A : Arch) (c : Context) (l : List ℕ) (s : Spaces) (own : ℕ → Owner) (t : Spaces)
    (own' : ℕ → Owner) (extra : ℕ → ℕ) : Prop where
  turn : Turn A c any any s own t own' extra
  slot : ∃ sp l, s.slots c = some sp ∧ t.slots c = some { sp with mappings := l }
  find : ∀ v, v ∉ l → t.find c v = s.find c v
  nodup : l.Nodup
  new : ∀ v ∈ l, s.find c v = none ∧ ∃ m, t.find c v = some m ∧ m.flags.user = true

namespace Gains

theorem refl (h : Owned A s own extra) (hslot : s.slots c = some sp) :
    Gains A c [] s own s own extra :=
  ⟨.refl h, ⟨sp, sp.mappings, hslot, hslot⟩, fun _ _ => rfl, nodup_nil, nofun⟩

variable (h : Gains A c l s own t own' extra)
include h

theorem mapped_new (hv : v ∈ l) : t.find c v ≠ none := by
  obtain ⟨-, m, hm, -⟩ := h.new v hv
  rw [hm]
  nofun

theorem mem (hs : s.find c v = none) (ht : t.find c v ≠ none) : v ∈ l := by
  by_contra hl
  exact ht ((h.find v hl).trans hs)

theorem turn_all (hst : Spares A (all c) (all c) s t) :
    Turn A c (all c) (all c) s own t own' extra :=
  ⟨h.turn.owned, h.turn.settled, hst, h.turn.slots, h.turn.active, h.turn.limit⟩

theorem mapped (hv : s.find c v ≠ none) : t.find c v ≠ none := by
  by_cases hl : v ∈ l
  · exact h.mapped_new hl
  · rwa [h.find v hl]

theorem trans (h' : Gains A c l' t own' u own'' extra) :
    Gains A c (l' ++ l) s own u own'' extra := by
  refine ⟨h.turn.trans h'.turn, ?_, fun v hv => ?_, ?_, fun v hv => ?_⟩
  · obtain ⟨sp, l₁, hs, ht⟩ := h.slot
    obtain ⟨sp', l₂, ht', hu⟩ := h'.slot
    rw [ht] at ht'
    cases ht'
    exact ⟨sp, l₂, hs, hu⟩
  · rw [h'.find v fun hl => hv (mem_append_left _ hl), h.find v fun hl => hv (mem_append_right _ hl)]
  · refine nodup_append.mpr ⟨h'.nodup, h.nodup, fun v hv w hw heq => ?_⟩
    exact h.mapped_new hw (heq ▸ (h'.new v hv).1)
  · by_cases hl : v ∈ l
    · obtain ⟨hnone, hsome⟩ := h.new v hl
      refine ⟨hnone, ?_⟩
      by_cases hl' : v ∈ l'
      · exact (h'.new v hl').2
      · rw [h'.find v hl']
        exact hsome
    · obtain ⟨hnone, hsome⟩ := h'.new v ((mem_append.mp hv).resolve_right hl)
      exact ⟨h.find v hl ▸ hnone, hsome⟩

end Gains

theorem Gains.of_same (hturn : Turn A c none' none' s own t own' extra)
    (hslots : t.slots = s.slots) (hslot : s.slots c = some sp) : Gains A c [] s own t own' extra :=
  ⟨hturn.mono nofun nofun, ⟨sp, sp.mappings, hslot, hslots ▸ hslot⟩,
    fun v _ => hturn.spares.find c v id, nodup_nil, nofun⟩

theorem Gains.of_enters (hturn : Turn A c (only c v) (only c v) s own t own' extra)
    (henters : Enters A c v p fl s t) (hnone : s.find c v = none) (hfl : fl.user = true) :
    Gains A c [v] s own t own' extra := by
  refine ⟨hturn.mono (fun _ _ _ => trivial) fun _ _ _ => trivial, henters.slot, fun w hw => ?_,
    nodup_singleton v, fun w hw => ?_⟩
  · exact hturn.spares.find c w fun hcw => hw (mem_singleton.mpr hcw.2)
  · rw [mem_singleton.mp hw]
    exact ⟨hnone, _, henters.find, hfl⟩

section Private

/-- No other page has a frame of the context `c`, whose pages hold the bytes `F`; there are zeros
where no page is. -/
structure Private (s : Spaces) (c : Context) (F : ℕ → ℕ) : Prop where
  alone : ∀ v m d w n, s.find c v = some m → s.find d w = some n → n.phys = m.phys → d = c ∧ w = v
  holds : ∀ v m, s.find c v = some m → ∀ i < pageSize, s.mach.ram m.phys i = F (v * pageSize + i)
  blank : ∀ a, s.find c (a / pageSize) = none → F a = 0

/-- The processor finds each page of `c` as it was mapped. -/
def Exact (A : Arch) (s : Spaces) (c : Context) : Prop :=
  ∀ sp v m, s.slots c = some sp → s.find c v = some m →
    A.trans s.mach.ram sp.root v = some (A.leaf m.phys m.flags)

/-- The processor finds no page of the kernel in the tables of `c`. -/
def UserOnly (A : Arch) (s : Spaces) (c : Context) : Prop :=
  ∀ sp w leaf, s.slots c = some sp → A.trans s.mach.ram sp.root w = some leaf → leaf.user = true

/-- The contents of the pages of `c` go from `F` to `F'`, and the pages `l` are new. -/
structure Follows (A : Arch) (c : Context) (l : List ℕ) (s t : Spaces) (F F' : ℕ → ℕ) : Prop where
  priv : Private s c F → Private t c F' ∧ Spares A (all c) (all c) s t
  exact : (∀ v ∈ l, A.address v) → (∀ v, s.find c v ≠ none → A.address v) → Exact A s c →
    Exact A t c
  user : UserOnly A s c → UserOnly A t c

theorem Private.spared {T : Context → ℕ → Prop} (h : Private s c F) (hst : Spares A none' T s t) :
    Private t c F := by
  have hfind : ∀ d w, t.find d w = s.find d w := fun d w => hst.find d w id
  refine ⟨fun v m d w n hm hn => ?_, fun v m hm i hi => ?_, fun a ha => ?_⟩
  · rw [hfind] at hm hn
    exact h.alone v m d w n hm hn
  · have hpage := hst.page c v id
    rw [page, page, hm, ← hfind, hm] at hpage
    rw [hfind] at hm
    rw [← h.holds v m hm i hi]
    exact congrFun (Option.some_inj.mp hpage) i
  · rw [hfind] at ha
    exact h.blank a ha

variable {W : Context → ℕ → Prop}

theorem Exact.spared (h : Exact A s c) (hst : Spares A W none' s t)
    (hslots : t.slots = s.slots) : Exact A t c := by
  intro sp v m hsp hm
  rw [Spaces.find, hslots, ← Spaces.find] at hm
  rw [hslots] at hsp
  obtain ⟨-, -, -, htrans⟩ := hst.trans c sp v hsp fun _ _ => id
  rw [htrans]
  exact h sp v m hsp hm

theorem UserOnly.not_covered (h : UserOnly A s c) (v : ℕ) : ¬Covered A s c v := by
  rintro ⟨sp, leaf, hslot, htrans, huser⟩
  rw [h sp v leaf hslot htrans] at huser
  cases huser

theorem UserOnly.spared (h : UserOnly A s c) (hst : Spares A W none' s t)
    (hslots : t.slots = s.slots) : UserOnly A t c := by
  intro sp w leaf hsp hleaf
  rw [hslots] at hsp
  obtain ⟨-, -, -, htrans⟩ := hst.trans c sp w hsp fun _ _ => id
  exact h sp w leaf hsp (htrans ▸ hleaf)

theorem Follows.refl (s : Spaces) (F : ℕ → ℕ) : Follows A c [] s s F F :=
  ⟨fun h => ⟨h, .refl s⟩, fun _ _ h => h, fun h => h⟩

theorem Follows.spared (hst : Spares A none' none' s t) (hslots : t.slots = s.slots)
    (F : ℕ → ℕ) : Follows A c [] s t F F :=
  ⟨fun h => ⟨h.spared hst, hst.mono nofun nofun⟩, fun _ _ h => h.spared hst hslots,
    fun h => h.spared hst hslots⟩

theorem Follows.trans {F' F'' : ℕ → ℕ} (h : Follows A c l s t F F')
    (h' : Follows A c l' t u F' F'') (hgains : Gains A c l s own t own' extra) :
    Follows A c (l' ++ l) s u F F'' := by
  refine ⟨fun hs => ?_, fun hl hs he => ?_, fun hs => h'.user (h.user hs)⟩
  · obtain ⟨ht, hst⟩ := h.priv hs
    obtain ⟨hu, htu⟩ := h'.priv ht
    exact ⟨hu, hst.trans' htu⟩
  · have hl₁ : ∀ v ∈ l, A.address v := fun v hv => hl v (mem_append_right _ hv)
    refine h'.exact (fun v hv => hl v (mem_append_left _ hv)) (fun v hv => ?_) (h.exact hl₁ hs he)
    by_cases hvl : v ∈ l
    · exact hl₁ v hvl
    · exact hs v (hgains.find v hvl ▸ hv)

variable (hturn : Turn A c (only c v) (only c v) s own t own' extra)
variable (henters : Enters A c v p fl s t)

include hturn henters

/-- The processor finds the other pages where it found them. -/
theorem Enters.elsewhere {w : ℕ} (hsp : t.slots c = some sp) (hw : A.seen w ≠ A.seen v) :
    ∃ sp₀, s.slots c = some sp₀ ∧ A.trans t.mach.ram sp.root w = A.trans s.mach.ram sp₀.root w := by
  obtain ⟨sp₀, l, hsp₀, -⟩ := henters.slot
  have hother : ∀ x, A.seen x = A.seen w → ¬only c v c x := fun x hx hcx => hw (hcx.2 ▸ hx.symm)
  obtain ⟨sp', hsp', hroot, htrans⟩ := hturn.spares.trans c sp₀ w hsp₀ hother
  rw [hsp] at hsp'
  cases hsp'
  exact ⟨sp₀, hsp₀, by rw [hroot, htrans]⟩

theorem Private.enters (h : Private s c F) (ho : Owned A s own extra) (hp : own p = .free)
    (hnone : s.find c v = none) (hzero : t.mach.ram p = fun _ => 0) : Private t c F := by
  have hother : ∀ d w, ¬only c v d w → ∀ n, t.find d w = some n →
      s.find d w = some n ∧ n.phys ≠ p ∧ t.mach.ram n.phys = s.mach.ram n.phys := by
    intro d w hdw n hn
    have hpage := hturn.spares.page d w hdw
    rw [page, page, hn] at hpage
    rw [hturn.spares.find d w hdw] at hn
    refine ⟨hn, fun heq => ?_, ?_⟩
    · have hdata := (ho.data_of_find hn).1
      rw [heq, hp] at hdata
      cases hdata
    · rw [hn] at hpage
      exact Option.some_inj.mp hpage
  refine ⟨fun w m d x n hm hn hphys => ?_, fun w m hm i hi => ?_, fun a ha => ?_⟩
  · by_cases hw : w = v
    · rw [hw, henters.find, Option.some_inj] at hm
      rw [← hm] at hphys
      by_contra hne
      have hdx : ¬only c v d x := fun hdx => hne (hw ▸ hdx)
      exact (hother d x hdx n hn).2.1 hphys
    · obtain ⟨hm', hmp, -⟩ := hother c w (fun hcw => hw hcw.2) m hm
      by_cases hdx : only c v d x
      · rw [hdx.1, hdx.2, henters.find, Option.some_inj] at hn
        rw [← hn] at hphys
        exact absurd hphys.symm hmp
      · exact h.alone w m d x n hm' (hother d x hdx n hn).1 hphys
  · by_cases hw : w = v
    · rw [hw, henters.find, Option.some_inj] at hm
      have hblank := h.blank (v * pageSize + i) (by
        rwa [Nat.mul_comm, Nat.mul_add_div (by decide), Nat.div_eq_of_lt hi, Nat.add_zero])
      rw [← hm, hw, hblank]
      exact congrFun hzero i
    · obtain ⟨hm', -, hram⟩ := hother c w (fun hcw => hw hcw.2) m hm
      rw [hram]
      exact h.holds w m hm' i hi
  · refine h.blank a ?_
    have hne : a / pageSize ≠ v := fun heq => by rw [heq, henters.find] at ha; cases ha
    rwa [hturn.spares.find c _ fun hcw => hne hcw.2] at ha

/-- Two addresses are never the same page to the processor. -/
theorem Exact.enters (h : Exact A s c) (hold : ∀ w, s.find c w ≠ none → A.address w)
    (hv : A.address v) : Exact A t c := by
  intro sp w m hsp hm
  by_cases hw : w = v
  · rw [hw] at hm ⊢
    rw [henters.find, Option.some_inj] at hm
    rw [← hm]
    exact henters.trans sp hsp v rfl
  · rw [hturn.spares.find c w fun hcw => hw hcw.2] at hm
    obtain ⟨sp₀, hsp₀, htrans⟩ := henters.elsewhere hturn hsp fun hseen =>
      hw (A.seen_inj w v (hold w (by rw [hm]; nofun)) hv hseen)
    rw [htrans]
    exact h sp₀ w m hsp₀ hm

theorem UserOnly.enters (h : UserOnly A s c) (hfl : fl.user = true) : UserOnly A t c := by
  intro sp w leaf hsp hleaf
  by_cases hw : A.seen w = A.seen v
  · rw [henters.trans sp hsp w hw, Option.some_inj] at hleaf
    rw [← hleaf, (A.leaf_frame p fl).2.2, hfl]
  · obtain ⟨sp₀, hsp₀, htrans⟩ := henters.elsewhere hturn hsp hw
    exact h sp₀ w leaf hsp₀ (htrans ▸ hleaf)

theorem Follows.enters (ho : Owned A s own extra) (hp : own p = .free) (hfl : fl.user = true)
    (hnone : s.find c v = none) (hzero : t.mach.ram p = fun _ => 0) (F : ℕ → ℕ) :
    Follows A c [v] s t F F :=
  ⟨fun h => ⟨h.enters hturn henters ho hp hnone hzero,
      hturn.spares.mono (fun _ _ hw => hw.1) fun _ _ hw => hw.1⟩,
    fun hl hs h => h.enters hturn henters hs (hl v (mem_singleton.mpr rfl)),
    fun h => h.enters hturn henters hfl⟩

end Private

section Pages

theorem Owned.resolve_eq_zero (h : Owned A s own extra) {a : ℕ} :
    s.resolve c a = 0 ↔ s.find c (a / pageSize) = none := by
  unfold resolve
  cases hm : s.find c (a / pageSize) with
  | none => simp
  | some m =>
    obtain ⟨-, -, hpos, -⟩ := h.data m.phys (h.data_of_find hm).1
    have hsize : 0 < m.phys * pageSize := Nat.mul_pos hpos (by decide)
    simp only [reduceCtorEq, iff_false]
    omega

/-- Why the loader cannot map the page `v`. -/
def Halts (A : Arch) (c : Context) (t : Spaces) (v : ℕ) : Prop :=
  v = 0 ∨ t.full c = true ∨ t.mach.pmm.freePages ≤ 1 ∨ Covered A t c v

/-- The frames that `n` new pages cost, or a failure after them. -/
def Costs (s t : Spaces) (n : ℕ) (e : Option Errno) : Prop :=
  s.mach.pmm.freePages ≤ t.mach.pmm.freePages + 4 * n + if e = none then 0 else 4

theorem Costs.trans {n n' : ℕ} {e : Option Errno} (h : Costs s t n none) (h' : Costs t u n' e) :
    Costs s u (n' + n) e := by
  unfold Costs at *
  simp only [if_true] at h
  omega

section

variable (hslot : s.slots c = some sp) (hnodup : l.Nodup) (hmapped : ∀ v ∈ l, s.find c v ≠ none)
include hslot hnodup hmapped

/-- There are as many entries in the mapping table as pages, or more. -/
theorem length_le_mappings : l.length ≤ sp.mappings.length := by
  have hsub : l ⊆ sp.mappings.map Mapping.virt := by
    intro v hv
    obtain ⟨m, hm⟩ := Option.ne_none_iff_exists'.mp (hmapped v hv)
    obtain ⟨hmem, hvirt⟩ := Owned.find_mem hslot hm
    exact mem_map.mpr ⟨m, hmem, hvirt⟩
  rw [← length_map (f := Mapping.virt)]
  exact (hnodup.subperm hsub).length_le

theorem full_of_many (hlength : maxMappings ≤ l.length) : s.full c = true := by
  simp only [full, hslot, decide_eq_true_eq]
  exact hlength.trans (length_le_mappings hslot hnodup hmapped)

end

/-- The pages `l` were mapped for the requests `R`, which are met in their order and up to an
error. An error that is not about one of the pages has the cause `B`. -/
structure Serves (A : Arch) (c : Context) (s t : Spaces) (R : List (ℕ × Bool)) (B : Prop)
    (l : List ℕ) (e : Option Errno) : Prop where
  order : ∀ v ∈ l, ∃ before after, R = before ++ (v, true) :: after ∧
    ∀ q ∈ before, q.1 ≠ v ∧ t.find c q.1 ≠ none
  done : e = none → ∀ q ∈ R, t.find c q.1 ≠ none
  halt : e ≠ none → (B ∧ ∀ q ∈ R, t.find c q.1 ≠ none) ∨ ∃ before q after,
    R = before ++ q :: after ∧ (∀ p ∈ before, t.find c p.1 ≠ none) ∧ t.find c q.1 = none ∧
    (q.2 = true → Halts A c t q.1)
  costs : Costs s t l.length e

variable {R R' : List (ℕ × Bool)} {B : Prop} {e e' : Option Errno}

theorem Serves.nil (hB : e ≠ none → B) : Serves A c s s [] B [] e := by
  refine ⟨nofun, fun _ _ => nofun, fun he => .inl ⟨hB he, nofun⟩, ?_⟩
  simp [Costs]

theorem Serves.single (hl : ∀ w ∈ l, w = v) (hdone : e = none → t.find c v ≠ none)
    (hhalt : e ≠ none → t.find c v = none ∧ Halts A c t v) (hcosts : Costs s t l.length e) :
    Serves A c s t [(v, true)] B l e := by
  refine ⟨fun w hw => ⟨[], [], by rw [hl w hw]; rfl, nofun⟩, fun he q hq => ?_,
    fun he => .inr ⟨[], (v, true), [], rfl, nofun, (hhalt he).1, fun _ => (hhalt he).2⟩, hcosts⟩
  rw [mem_singleton.mp hq]
  exact hdone he

/-- Requests that were met without an error come before others. -/
theorem Serves.append (h : Serves A c s t R B l none) (h' : Serves A c t u R' B l' e')
    (hgains : Gains A c l' t own' u own'' extra) : Serves A c s u (R ++ R') B (l' ++ l) e' := by
  have hfirst : ∀ q ∈ R, u.find c q.1 ≠ none := fun q hq => hgains.mapped (h.done rfl q hq)
  refine ⟨fun v hv => ?_, fun he q hq => ?_, fun he => ?_, ?_⟩
  · rcases mem_append.mp hv with hv | hv
    · obtain ⟨before, after, hR, hbefore⟩ := h'.order v hv
      refine ⟨R ++ before, after, by rw [hR, append_assoc], fun q hq => ?_⟩
      rcases mem_append.mp hq with hq | hq
      · refine ⟨fun heq => ?_, hfirst q hq⟩
        have hmapped := h.done rfl q hq
        rw [heq] at hmapped
        exact hmapped (hgains.new v hv).1
      · exact hbefore q hq
    · obtain ⟨before, after, hR, hbefore⟩ := h.order v hv
      refine ⟨before, after ++ R', by rw [hR, append_assoc, cons_append], fun q hq => ?_⟩
      exact ⟨(hbefore q hq).1, hgains.mapped (hbefore q hq).2⟩
  · rcases mem_append.mp hq with hq | hq
    · exact hfirst q hq
    · exact h'.done he q hq
  · rcases h'.halt he with ⟨hB, hall⟩ | ⟨before, q, after, hR, hbefore, hq⟩
    · exact .inl ⟨hB, fun q hq => (mem_append.mp hq).elim (hfirst q) (hall q)⟩
    · refine .inr ⟨R ++ before, q, after, by rw [hR, append_assoc], fun p hp => ?_, hq⟩
      exact (mem_append.mp hp).elim (hfirst p) (hbefore p)
  · rw [length_append]
    exact h.costs.trans h'.costs

/-- After an error the requests that follow are not met. -/
theorem Serves.stop (h : Serves A c s t R False l e) (he : e ≠ none) :
    Serves A c s t (R ++ R') B l e := by
  refine ⟨fun v hv => ?_, fun hnone => absurd hnone he, fun _ => ?_, h.costs⟩
  · obtain ⟨before, after, hR, hbefore⟩ := h.order v hv
    exact ⟨before, after ++ R', by rw [hR, append_assoc, cons_append], hbefore⟩
  · rcases h.halt he with ⟨hB, -⟩ | ⟨before, q, after, hR, hrest⟩
    · exact hB.elim
    · exact .inr ⟨before, q, after ++ R', by rw [hR, append_assoc, cons_append], hrest⟩

/-- The pages that `s` does not have are mapped with the flags `W`. -/
def Flagged (c : Context) (s t : Spaces) (W : ℕ → Option Flags) : Prop :=
  ∀ v, (t.find c v).map Mapping.flags = ((s.find c v).map Mapping.flags).or (W v)

theorem Flagged.trans {W W' : ℕ → Option Flags} (h : Flagged c s t W) (h' : Flagged c t u W') :
    Flagged c s u fun v => (W v).or (W' v) := fun v => by
  rw [h' v, h v, Option.or_assoc]

theorem Enters.flagged (henters : Enters A c v p fl s t)
    (hturn : Turn A c (only c v) (only c v) s own t own' extra) (hnone : s.find c v = none) :
    Flagged c s t fun w => if w = v then some fl else none := by
  intro w
  by_cases hw : w = v
  · simp [hw, henters.find, hnone]
  · simp only [hturn.spares.find c w fun hcw => hw hcw.2, hw, if_false, Option.or_none]

/-- The flags `fl` on the `n` pages from `page` on. -/
def spanFlags (fl : Flags) (page n v : ℕ) : Option Flags :=
  if page ≤ v ∧ v < page + n then some fl else none

theorem spanFlags_succ (fl : Flags) (page n : ℕ) : spanFlags fl page (n + 1) =
    fun v => (if v = page then some fl else none).or (spanFlags fl (page + 1) n v) := by
  funext v
  unfold spanFlags
  by_cases hv : v = page
  · simp [hv]
  · simp only [hv, if_false, Option.none_or]
    exact if_congr (by omega) rfl rfl

theorem loadPages_ends (hfl : fl.user = true) (n page : ℕ) (loaded : List ℕ)
    (h : Owned A s own extra) (hslot : s.slots c = some sp) (hnodup : loaded.Nodup)
    (hloaded : ∀ v ∈ loaded, s.find c v ≠ none) :
    Ends (loadPages A c fl n page loaded) s fun r t => ∃ own' l e, r = .ok (l ++ loaded, e) ∧
      Gains A c l s own t own' extra ∧
      Serves A c s t ((range' page n).map fun v => (v, true)) False l e ∧
      (e = none → Flagged c s t (spanFlags fl page n)) ∧ ∀ F, Follows A c l s t F F := by
  induction n generalizing s own sp page loaded with
  | zero =>
    refine Ends.ret ⟨own, [], none, rfl, .refl h hslot, .nil fun he => absurd rfl he, fun _ v => ?_,
      .refl s⟩
    rw [spanFlags, if_neg (by omega), Option.or_none]
  | succ n ih =>
    refine Ends.read_bind ?_
    have hzero := h.resolve_eq_zero (c := c) (a := page * pageSize)
    rw [Nat.mul_div_cancel page (by decide : 0 < pageSize)] at hzero
    split
    · rename_i hmapped
      refine (ih (page + 1) loaded h hslot hnodup hloaded).mono ?_
      rintro r t ⟨own', l, e, hr, hgains, hserves, hflagged, hfollows⟩
      have hold : s.find c page ≠ none := fun hnone => hmapped (hzero.mpr hnone)
      refine ⟨own', l, e, hr, hgains, ?_, fun he v => ?_, hfollows⟩
      · have hpage : Serves A c s s [(page, true)] False [] none :=
          .single (by simp) (fun _ => hold) (fun he => absurd rfl he) (by simp [Costs])
        have hnext := hpage.append hserves hgains
        rwa [append_nil] at hnext
      · rw [hflagged he v, spanFlags_succ]
        by_cases hv : v = page
        · obtain ⟨m, hm⟩ := Option.ne_none_iff_exists'.mp hold
          simp [hv, hm]
        · simp only [hv, if_false, Option.none_or]
    · rename_i hmapped
      have hnone := hzero.mp (not_not.mp hmapped)
      split
      · rename_i hmany
        have hfull := full_of_many hslot hnodup hloaded hmany
        have hpage : Serves A c s s [(page, true)] False [] (some .e2big) :=
          .single (by simp) (by simp) (fun _ => ⟨hnone, .inr (.inl hfull)⟩) (by simp [Costs])
        exact Ends.ret ⟨own, [], _, rfl, .refl h hslot, hpage.stop (by simp), (by simp), .refl s⟩
      · refine Ends.attempt_bind (vmmMapAllocated_fresh h hslot hnone fl) fun r t ht => ?_
        obtain ⟨hfew, own₁, ⟨e, rfl, hturn, hslots, hstuck⟩ |
          ⟨p, rfl, hfree, -, hturn, henters, hram⟩⟩ := ht
        · have hpage : Serves A c s t [(page, true)] False [] (some e) := by
            refine .single (by simp) (by simp) (fun _ => ⟨?_, ?_⟩) (by simp [Costs]; omega)
            · rw [hturn.spares.find c page id]
              exact hnone
            rcases hstuck with hv | ⟨-, hfull⟩ | hpages | hcovered
            · exact .inl hv
            · refine .inr (.inl ?_)
              rw [← hfull, full, full, hslots]
            · exact .inr (.inr (.inl hpages))
            · exact .inr (.inr (.inr (hcovered.spared hturn.spares fun _ => id)))
          exact Ends.ret ⟨own₁, [], some e, rfl, .of_same hturn hslots hslot, hpage.stop (by simp), (by simp),
            .spared hturn.spares hslots⟩
        · have hgains := Gains.of_enters hturn henters hnone hfl
          have hfollows := Follows.enters hturn henters h hfree hfl hnone hram
          obtain ⟨sp₀, l₀, -, hslot₁⟩ := henters.slot
          refine (ih (page + 1) (page :: loaded) hturn.owned hslot₁ ?_ fun v hv => ?_).mono ?_
          · exact nodup_cons.mpr ⟨fun hmem => hloaded page hmem hnone, hnodup⟩
          · rcases mem_cons.mp hv with rfl | hv
            · exact hgains.mapped_new (mem_singleton.mpr rfl)
            · exact hgains.mapped (hloaded v hv)
          · rintro r u ⟨own', l, e, hr, hgains', hserves, hflagged, hfollows'⟩
            have hpage : Serves A c s t [(page, true)] False [page] none :=
              .single (fun w hw => mem_singleton.mp hw)
                (fun _ => hgains.mapped_new (mem_singleton.mpr rfl)) (fun he => absurd rfl he)
                (by simpa [Costs] using hfew)
            refine ⟨own', l ++ [page], e, by rw [hr, append_assoc]; rfl, hgains.trans hgains',
              hpage.append hserves hgains', fun he => ?_,
              fun F => (hfollows F).trans (hfollows' F) hgains⟩
            rw [spanFlags_succ]
            exact Flagged.trans (henters.flagged hturn hnone) (hflagged he)

end Pages

/-- The bytes from `a` on are replaced. -/
def put (F : ℕ → ℕ) (a : ℕ) (bytes : List ℕ) (x : ℕ) : ℕ :=
  if a ≤ x then bytes.getD (x - a) (F x) else F x

theorem put_nil (F : ℕ → ℕ) (a : ℕ) : put F a [] = F := by
  funext x
  simp [put]

theorem put_append (F : ℕ → ℕ) (a : ℕ) (l l' : List ℕ) :
    put F a (l ++ l') = put (put F a l) (a + l.length) l' := by
  funext x
  unfold put
  by_cases hx : a ≤ x
  · by_cases hx' : a + l.length ≤ x
    · have hlen : l.length ≤ x - a := by omega
      simp only [hx, hx', if_true, getD_append_right _ _ _ _ hlen, getD_eq_default _ _ hlen]
      congr 1
      omega
    · simp only [hx, hx', if_true, if_false]
      exact getD_append _ _ _ _ (by omega)
  · have hx' : ¬a + l.length ≤ x := by omega
    simp only [hx, hx', if_false]

variable {bytes : List ℕ} {off : ℕ}

theorem put_of_lt {a x : ℕ} (h : x < a ∨ a + bytes.length ≤ x) : put F a bytes x = F x := by
  unfold put
  split
  · exact getD_eq_default _ _ (by omega)
  · rfl

/-- Within a page `memcpy` changes one frame. -/
theorem storeBytes_page (h : off + bytes.length ≤ pageSize) (mach : Machine) :
    storeBytes (f * pageSize + off) bytes mach = mach.setFrame f (put (mach.ram f) off bytes) := by
  have hram : (storeBytes (f * pageSize + off) bytes mach).ram =
      update mach.ram f (put (mach.ram f) off bytes) := by
    funext g i
    simp only [storeBytes]
    by_cases hg : g = f
    · rw [hg, update_self]
      by_cases hi : i < pageSize
      · simp only [hi, true_and, put, Nat.add_le_add_iff_left]
        congr 2
        omega
      · rw [if_neg fun hcond => hi hcond.1, put_of_lt (by omega)]
    · rw [update_of_ne hg]
      split
      · rename_i hcond
        refine getD_eq_default _ _ ?_
        have hgt : f < g := by
          by_contra hle
          have hlt : g + 1 ≤ f := by omega
          have hmul := Nat.mul_le_mul_right pageSize hlt
          rw [Nat.add_mul] at hmul
          omega
        have hmul := Nat.mul_le_mul_right pageSize (Nat.succ_le_of_lt hgt)
        rw [Nat.succ_mul] at hmul
        omega
      · rfl
  unfold Machine.setFrame
  rw [← hram]
  rfl

theorem put_shift (F : ℕ → ℕ) (b off : ℕ) (bytes : List ℕ) (i : ℕ) :
    put (fun i => F (b + i)) off bytes i = put F (b + off) bytes (b + i) := by
  simp only [put, Nat.add_le_add_iff_left, Nat.add_sub_add_left]

theorem Private.write (h : Private s c F) (ho : Owned A s own extra)
    (hm : s.find c v = some m) (hoff : off + bytes.length ≤ pageSize)
    (ht : t = s.onMach (storeBytes (m.phys * pageSize + off) bytes)) :
    Private t c (put F (v * pageSize + off) bytes) ∧ Spares A (all c) (all c) s t := by
  have hram : t.mach.ram = update s.mach.ram m.phys (put (s.mach.ram m.phys) off bytes) := by
    rw [ht, onMach, storeBytes_page hoff]
    rfl
  have hfind : ∀ d w, t.find d w = s.find d w := by
    rw [ht]
    exact fun _ _ => rfl
  have hother : ∀ w i, w ≠ v → i < pageSize →
      put F (v * pageSize + off) bytes (w * pageSize + i) = F (w * pageSize + i) := by
    intro w i hw hi
    refine put_of_lt ?_
    rcases Nat.lt_or_gt_of_ne hw with hlt | hgt
    · have hmul := Nat.mul_le_mul_right pageSize (Nat.succ_le_of_lt hlt)
      rw [Nat.succ_mul] at hmul
      omega
    · have hmul := Nat.mul_le_mul_right pageSize (Nat.succ_le_of_lt hgt)
      rw [Nat.succ_mul] at hmul
      omega
  refine ⟨⟨fun w n d x n' hn hn' => ?_, fun w n hn i hi => ?_, fun a ha => ?_⟩, ?_⟩
  · rw [hfind] at hn hn'
    exact h.alone w n d x n' hn hn'
  · rw [hfind] at hn
    by_cases hw : w = v
    · rw [hw, hm, Option.some_inj] at hn
      rw [hram, ← hn, update_self, hw, ← put_shift]
      unfold put
      rw [h.holds v m hm i hi]
    · have hne : n.phys ≠ m.phys := fun heq => hw (h.alone v m c w n hm hn heq).2
      rw [hram, update_of_ne hne, hother w i hw hi]
      exact h.holds w n hn i hi
  · rw [hfind] at ha
    have hne : a / pageSize ≠ v := fun heq => by rw [heq, hm] at ha; cases ha
    have hsplit : a = a / pageSize * pageSize + a % pageSize := (Nat.div_add_mod' a pageSize).symm
    rw [hsplit, hother _ _ hne (Nat.mod_lt _ (by decide)), ← hsplit]
    exact h.blank a ha
  · have hdata := (ho.data_of_find hm).1
    rw [ht]
    refine ho.spares_of_pages (fun f _ hf => ?_) fun d w hd => ?_
    · have hne : f ≠ m.phys := fun heq => hf (heq ▸ hdata)
      rw [storeBytes_page hoff]
      exact update_of_ne hne _ _
    · refine page_congr rfl fun n hn => ?_
      have hne : n.phys ≠ m.phys := fun heq => hd (h.alone v m d w n hm hn heq).1
      rw [storeBytes_page hoff]
      exact update_of_ne hne _ _

/-- A store to a frame of the mappings, in any page. -/
theorem Owned.write (h : Owned A s own extra) (hf : own f = .data)
    (hoff : off + bytes.length ≤ pageSize)
    (ht : t = s.onMach (storeBytes (f * pageSize + off) bytes)) :
    Owned A t own extra ∧ Spares A any none' s t := by
  have hstore : t = s.onMach fun mach => mach.setFrame f (put (s.mach.ram f) off bytes) := by
    rw [ht, onMach, onMach, storeBytes_page hoff]
  rw [hstore]
  refine ⟨h.fill hf _, h.spares_of_pages (fun g _ hg => ?_) fun d w hdw => absurd trivial hdw⟩
  have hne : g ≠ f := fun heq => hg (heq ▸ hf)
  exact update_of_ne hne _ _

theorem Gains.write (h : Owned A s own extra)
    (hslot : s.slots c = some sp) (hm : s.find c v = some m) (hoff : off + bytes.length ≤ pageSize)
    (ht : t = s.onMach (storeBytes (m.phys * pageSize + off) bytes)) :
    Gains A c [] s own t own extra ∧ ∀ F, Follows A c [] s t F (put F (v * pageSize + off) bytes) := by
  obtain ⟨hnew, hspares⟩ := h.write (h.data_of_find hm).1 hoff ht
  have hslots : t.slots = s.slots := by rw [ht]; rfl
  refine ⟨⟨⟨hnew, fun _ => .inl rfl, hspares.mono (fun _ _ _ => trivial) nofun, fun d _ => ?_, ?_, ?_⟩,
    ⟨sp, sp.mappings, hslot, ?_⟩, fun w _ => ?_, nodup_nil, nofun⟩, fun F => ⟨fun hs =>
    hs.write h hm hoff ht, fun _ _ he => he.spared hspares hslots,
    fun hu => hu.spared hspares hslots⟩⟩
  · rw [hslots]
  · rw [ht]
    rfl
  · rw [ht]
    rfl
  · rw [hslots]
    exact hslot
  · rw [Spaces.find, hslots]
    rfl

theorem loadBytes_ends (address : ℕ) (bytes : List ℕ) (h : Owned A s own extra)
    (hslot : s.slots c = some sp) : Ends (loadBytes c address bytes) s fun r t => ∃ e, r = .ok e ∧
      Gains A c [] s own t own extra ∧ t.slots = s.slots ∧ t.mach.pmm = s.mach.pmm ∧
      (e = none ↔ ∀ a, address ≤ a → a < address + bytes.length → s.find c (a / pageSize) ≠ none) ∧
      ∀ F, ∃ F', Follows A c [] s t F F' ∧ (e = none → F' = put F address bytes) := by
  induction hn : bytes.length using Nat.strong_induction_on generalizing s address bytes with
  | _ n ih =>
    subst hn
    cases bytes with
    | nil =>
      unfold loadBytes
      refine Ends.ret ⟨none, rfl, .refl h hslot, rfl, rfl, ?_, fun F => ⟨F, .refl s F, fun _ => ?_⟩⟩
      · exact ⟨fun _ a ha hlt => by simp at hlt; omega, fun _ => rfl⟩
      · rw [put_nil]
    | cons b rest =>
      unfold loadBytes
      refine Ends.read_bind ?_
      have hpos : 0 < chunkSize address (b :: rest).length := chunkSize_pos address (by simp)
      have hchunk : chunkSize address (b :: rest).length ≤ (b :: rest).length := Nat.min_le_right _ _
      have hpage : address % pageSize + chunkSize address (b :: rest).length ≤ pageSize := by
        have := Nat.mod_lt address (show 0 < pageSize by decide)
        unfold chunkSize
        omega
      generalize b :: rest = bytes at *
      have hsplit : address = address / pageSize * pageSize + address % pageSize :=
        (Nat.div_add_mod' address pageSize).symm
      cases hm : s.find c (address / pageSize) with
      | none =>
        rw [if_pos (h.resolve_eq_zero.mpr hm)]
        refine Ends.ret ⟨some .efault, rfl, .refl h hslot, rfl, rfl, ⟨nofun, fun hall => ?_⟩,
          fun F => ⟨F, .refl s F, nofun⟩⟩
        exact absurd hm (hall address le_rfl (by omega))
      | some m =>
        have hresolve : s.resolve c address = m.phys * pageSize + address % pageSize := by
          simp only [resolve, hm]
        have hne : s.resolve c address ≠ 0 := fun hzero => by
          rw [h.resolve_eq_zero, hm] at hzero
          cases hzero
        rw [if_neg hne, hresolve]
        set size := chunkSize address bytes.length
        have hoff : address % pageSize + (bytes.take size).length ≤ pageSize := by
          rw [length_take]
          omega
        obtain ⟨hgains, hfollows⟩ := Gains.write h hslot hm hoff rfl
        rw [← hsplit] at hfollows
        refine Ends.modify_bind ?_
        have hslots : (s.onMach (storeBytes (m.phys * pageSize + address % pageSize)
          (bytes.take size))).slots = s.slots := rfl
        have hpmm : (s.onMach (storeBytes (m.phys * pageSize + address % pageSize)
          (bytes.take size))).mach.pmm = s.mach.pmm := rfl
        generalize s.onMach (storeBytes _ (bytes.take size)) = t at hgains hfollows hslots hpmm ⊢
        have hfind : ∀ w, t.find c w = s.find c w := fun w => hgains.find w not_mem_nil
        refine (ih _ ?_ (address + size) (bytes.drop size) hgains.turn.owned
          (by rw [hslots]; exact hslot) rfl).mono ?_
        · rw [length_drop]
          omega
        · rintro r u ⟨e, hr, hgains', hslots', hpmm', hiff, hrest⟩
          refine ⟨e, hr, hgains.trans hgains', hslots'.trans hslots, hpmm'.trans hpmm,
            hiff.trans ?_, fun F => ?_⟩
          · simp only [hfind, length_drop]
            refine ⟨fun hall a ha hlt => ?_, fun hall a ha hlt => hall a (by omega) (by omega)⟩
            by_cases hfar : address + size ≤ a
            · exact hall a hfar (by omega)
            -- the rest of the chunk is in the page of its first byte
            · have hsame : a / pageSize = address / pageSize := by
                rw [Nat.div_eq_iff (by decide)]
                omega
              rw [hsame, hm]
              nofun
          · obtain ⟨F', hfollows', hput⟩ := hrest (put F address (bytes.take size))
            refine ⟨F', (hfollows F).trans hfollows' hgains, fun he => ?_⟩
            have happend := put_append F address (bytes.take size) (bytes.drop size)
            rw [length_take_of_le hchunk, take_append_drop] at happend
            rw [hput he, happend]

section Segments

variable (A) (image : Image) (bias : ℕ)

/-- The segment is not loaded because its range does not fit the address space. -/
def Wraps (g : Segment) : Prop :=
  segmentStart A bias g < bias ∨ 2 ^ A.bits ≤ segmentStart A bias g + g.memsz

instance : DecidablePred (Wraps A bias) := fun g =>
  inferInstanceAs (Decidable (segmentStart A bias g < bias ∨ _))

/-- The pages that the loader asks for, for one segment: those it maps and those it then writes
bytes to. -/
def segmentRequests (g : Segment) : List (ℕ × Bool) :=
  ((range' (segmentStart A bias g / pageSize)
      (segmentPageEnd A bias g - segmentStart A bias g / pageSize)).map fun v => (v, true)) ++
    (range (g.data image).length).map fun i => ((segmentStart A bias g + i) / pageSize, false)

def requests : List (Except Errno Segment) → List (ℕ × Bool)
  | [] => []
  | .error _ :: _ => []
  | .ok g :: rest =>
    if g.load = false ∨ g.memsz = 0 then requests rest
    else if Wraps A bias g then []
    else segmentRequests A image bias g ++ requests rest

/-- What the loader writes over `F`. -/
def written : List (Except Errno Segment) → (ℕ → ℕ) → ℕ → ℕ
  | [], F => F
  | .error _ :: _, F => F
  | .ok g :: rest, F =>
    if g.load = false ∨ g.memsz = 0 then written rest F
    else written rest (put F (segmentStart A bias g) (g.data image))

def segmentFlags (g : Segment) : ℕ → Option Flags :=
  spanFlags g.pageFlags (segmentStart A bias g / pageSize)
    (segmentPageEnd A bias g - segmentStart A bias g / pageSize)

def wanted : List (Except Errno Segment) → ℕ → Option Flags
  | [] => fun _ => none
  | .error _ :: _ => fun _ => none
  | .ok g :: rest =>
    if g.load = false ∨ g.memsz = 0 then wanted rest
    else fun v => (segmentFlags A bias g v).or (wanted rest v)

/-- The loader rejects the segments, whatever the state of the context. -/
def Rejects : List (Except Errno Segment) → Bool → Prop
  | [], loadable => loadable = false
  | .error _ :: _, _ => True
  | .ok g :: rest, loadable =>
    if g.load = false ∨ g.memsz = 0 then Rejects rest loadable
    else Wraps A bias g ∨ Rejects rest true

variable {A image bias} {R : List (ℕ × Bool)} {B : Prop} {e : Option Errno}

/-- The pages that bytes are written to are looked up one after the other. -/
theorem Serves.of_bytes {address n : ℕ}
    (he : e = none ↔ ∀ a, address ≤ a → a < address + n → t.find c (a / pageSize) ≠ none)
    (hcosts : Costs s t 0 e) :
    Serves A c s t ((range n).map fun i => ((address + i) / pageSize, false)) B [] e := by
  refine ⟨nofun, fun hnone q hq => ?_, fun hsome => .inr ?_, hcosts⟩
  · obtain ⟨i, hi, rfl⟩ := mem_map.mp hq
    exact he.mp hnone _ (by omega) (by have := mem_range.mp hi; omega)
  · have hex : ∃ i, i < n ∧ t.find c ((address + i) / pageSize) = none := by
      by_contra hall
      push Not at hall
      refine hsome (he.mpr fun a ha hlt => ?_)
      have hnext := hall (a - address) (by omega)
      rwa [Nat.add_sub_cancel' ha] at hnext
    classical
    obtain ⟨hlt, hnone⟩ := Nat.find_spec hex
    have hmin := fun i => @Nat.find_min _ _ hex i
    generalize Nat.find hex = k at hlt hnone hmin
    refine ⟨(range k).map fun i => ((address + i) / pageSize, false), (_, false),
      (range' (k + 1) (n - k - 1)).map fun i => ((address + i) / pageSize, false), ?_,
      fun q hq => ?_, hnone, nofun⟩
    · have hn : n = k + (n - k - 1 + 1) := by omega
      conv_lhs => rw [hn, range_eq_range', ← range'_append_1, map_append, range'_succ, map_cons]
      simp only [Nat.zero_add, ← range_eq_range']
    · obtain ⟨i, hi, rfl⟩ := mem_map.mp hq
      have hik := mem_range.mp hi
      exact fun hi => hmin i hik ⟨by omega, hi⟩

theorem Serves.weaken {B' : Prop} (h : Serves A c s t R B l e) (hB : B → B') :
    Serves A c s t R B' l e :=
  ⟨h.order, h.done, fun he => (h.halt he).imp_left fun hb => ⟨hB hb.1, hb.2⟩, h.costs⟩

/-- The pages loaded so far are mapped, each once. -/
theorem Gains.loaded {loaded : List ℕ} (h : Gains A c l s own t own' extra) (hnodup : loaded.Nodup)
    (hloaded : ∀ v ∈ loaded, s.find c v ≠ none) :
    (l ++ loaded).Nodup ∧ ∀ v ∈ l ++ loaded, t.find c v ≠ none := by
  refine ⟨nodup_append.mpr ⟨h.nodup, hnodup, fun v hv w hw heq => ?_⟩, fun v hv => ?_⟩
  · exact hloaded w hw (heq ▸ (h.new v hv).1)
  · exact (mem_append.mp hv).elim h.mapped_new fun hv => h.mapped (hloaded v hv)

/-- A round of the loop of `elf_load`. -/
theorem loadSegment_ends (g : Segment) (loaded : List ℕ) (h : Owned A s own extra)
    (hslot : s.slots c = some sp) (hnodup : loaded.Nodup)
    (hloaded : ∀ v ∈ loaded, s.find c v ≠ none) :
    Ends (loadSegment A image c bias g loaded) s fun r t => ∃ own' l e, r = .ok (l ++ loaded, e) ∧
      Gains A c l s own t own' extra ∧ (Wraps A bias g → t = s ∧ l = [] ∧ e ≠ none) ∧
      (¬Wraps A bias g → Serves A c s t (segmentRequests A image bias g) False l e) ∧
      (e = none → Flagged c s t (segmentFlags A bias g)) ∧ ∀ F, ∃ F', Follows A c l s t F F' ∧
        (e = none → F' = put F (segmentStart A bias g) (g.data image)) := by
  by_cases hwraps : Wraps A bias g
  · have hreject : Ends (loadSegment A image c bias g loaded) s fun r t =>
        r = .ok (loaded, some .eoverflow) ∧ t = s := by
      unfold loadSegment
      dsimp only
      split
      · exact Ends.ret ⟨rfl, rfl⟩
      · rename_i hlow
        rw [if_pos (hwraps.resolve_left hlow)]
        exact Ends.ret ⟨rfl, rfl⟩
    refine hreject.mono ?_
    rintro r t ⟨rfl, rfl⟩
    exact ⟨own, [], _, rfl, .refl h hslot, fun _ => ⟨rfl, rfl, nofun⟩,
      fun hfits => absurd hwraps hfits, nofun, fun F => ⟨F, .refl t F, nofun⟩⟩
  · unfold loadSegment
    rw [if_neg fun hlow => hwraps (.inl hlow), if_neg fun hhigh => hwraps (.inr hhigh)]
    refine Ends.bind (loadPages_ends (rfl) _ _ loaded h hslot
      hnodup hloaded) ?_ ?_
    · rintro r t ⟨own₁, l, e, hr, hgains, hpages, hflagged, hfollows⟩
      cases hr
      cases e with
      | some e =>
        exact Ends.ret ⟨own₁, l, some e, rfl, hgains, fun hw => absurd hw hwraps,
          fun _ => hpages.stop nofun, nofun, fun F => ⟨F, hfollows F, nofun⟩⟩
      | none =>
        obtain ⟨sp₀, l₀, -, hslot₁⟩ := hgains.slot
        refine Ends.bind (loadBytes_ends _ (g.data image) hgains.turn.owned hslot₁) ?_ ?_
        · rintro e u ⟨e', hr, hgains', hslots, hpmm, hiff, hrest⟩
          cases hr
          refine Ends.ret ⟨own₁, l, e, rfl, hgains.trans hgains', fun hw => absurd hw hwraps,
            fun _ => hpages.append (Serves.of_bytes ?_ ?_) hgains',
            fun _ v => ?_, fun F => ?_⟩
          · simp only [hgains'.find _ not_mem_nil]
            exact hiff
          · simp [Costs, hpmm]
          · rw [hgains'.find v not_mem_nil]
            exact hflagged rfl v
          · obtain ⟨F', hF', hput⟩ := hrest F
            exact ⟨F', (hfollows F).trans hF' hgains, hput⟩
        · rintro e u ⟨e', hr, -⟩
          cases hr
    · rintro e t ⟨_, _, _, hr, -⟩
      cases hr

/-- The loop of `elf_load`. -/
theorem loadSegments_ends (image : Image) (bias : ℕ) (segments : List (Except Errno Segment)) (loadable : Bool)
    (loaded : List ℕ) (h : Owned A s own extra) (hslot : s.slots c = some sp)
    (hnodup : loaded.Nodup) (hloaded : ∀ v ∈ loaded, s.find c v ≠ none) :
    Ends (loadSegments A image c bias segments loadable loaded) s fun r t => ∃ own' l e,
      r = .ok (l ++ loaded, e) ∧ Gains A c l s own t own' extra ∧
      Serves A c s t (requests A image bias segments) (Rejects A bias segments loadable) l e ∧
      (e = none → Flagged c s t (wanted A bias segments)) ∧ (∀ F, ∃ F', Follows A c l s t F F' ∧ (e = none → F' = written A image bias segments F)) ∧
      (e = none → ¬Rejects A bias segments loadable ∧ ∀ x ∈ segments, ∃ g, x = .ok g ∧
        (g.load = true → 0 < g.memsz → ¬Wraps A bias g)) := by
  induction segments generalizing s own sp loadable loaded with
  | nil =>
    refine Ends.ret ⟨own, [], _, rfl, .refl h hslot, .nil fun he => ?_,
      fun _ v => Option.or_none.symm, fun F => ⟨F, .refl s F, fun _ => rfl⟩, fun he => ⟨?_, nofun⟩⟩
    · cases loadable with
      | false => rfl
      | true => exact absurd rfl he
    · cases loadable with
      | false => cases he
      | true => nofun
  | cons x rest ih =>
    cases x with
    | error e =>
      exact Ends.ret ⟨own, [], some e, rfl, .refl h hslot, .nil fun _ => trivial,
        nofun, fun F => ⟨F, .refl s F, nofun⟩, nofun⟩
    | ok g =>
      unfold loadSegments requests written Rejects wanted
      split
      · rename_i hskip
        refine (ih loadable loaded h hslot hnodup hloaded).mono ?_
        rintro r t ⟨own', l, e, hr, hgains, hserves, hflagged, hfollows, hall⟩
        refine ⟨own', l, e, hr, hgains, hserves, hflagged, hfollows, fun he => ⟨(hall he).1, fun x hx => ?_⟩⟩
        rcases mem_cons.mp hx with rfl | hx
        · refine ⟨g, rfl, fun hload hmem => ?_⟩
          rcases hskip with hskip | hskip
          · rw [hload] at hskip
            cases hskip
          · omega
        · exact (hall he).2 x hx
      · refine Ends.bind (loadSegment_ends g loaded h hslot hnodup hloaded) ?_ ?_
        · rintro r t ⟨own₁, l, e, hr, hgains, hwraps, hserves, hflagged, hfollows⟩
          cases hr
          cases e with
          | some e =>
            refine Ends.ret ⟨own₁, l, some e, rfl, hgains, ?_, nofun, fun F => ?_, nofun⟩
            · split
              · rename_i hw
                obtain ⟨rfl, rfl, -⟩ := hwraps hw
                exact .nil fun _ => .inl hw
              · rename_i hw
                exact (hserves hw).stop nofun
            · obtain ⟨F', hF', -⟩ := hfollows F
              exact ⟨F', hF', nofun⟩
          | none =>
            have hfits : ¬Wraps A bias g := fun hw => (hwraps hw).2.2 rfl
            obtain ⟨sp₀, l₀, -, hslot₁⟩ := hgains.slot
            obtain ⟨hnodup', hloaded'⟩ := hgains.loaded hnodup hloaded
            refine (ih true (l ++ loaded) hgains.turn.owned hslot₁ hnodup' hloaded').mono ?_
            rintro r u ⟨own', l', e, hr, hgains', hserves', hflagged', hfollows', hall⟩
            refine ⟨own', l' ++ l, e, by rw [hr, append_assoc], hgains.trans hgains', ?_,
              fun he => (hflagged rfl).trans (hflagged' he), fun F => ?_, fun he => ⟨fun hrejects => ?_, fun x hx => ?_⟩⟩
            · rw [if_neg hfits]
              exact ((hserves hfits).weaken False.elim).append (hserves'.weaken .inr) hgains'
            · obtain ⟨F₁, hF₁, hput⟩ := hfollows F
              obtain ⟨F₂, hF₂, hwritten⟩ := hfollows' F₁
              refine ⟨F₂, hF₁.trans hF₂ hgains, fun he => ?_⟩
              rw [hwritten he, hput rfl]
            · exact hrejects.elim hfits (hall he).1
            · rcases mem_cons.mp hx with rfl | hx
              · exact ⟨g, rfl, fun _ _ => hfits⟩
              · exact (hall he).2 x hx
        · rintro e t ⟨_, _, _, hr, -⟩
          cases hr

end Segments

/-- The rollback of `elf_load`. -/
theorem unloadPages_ends (l : List ℕ) (h : Owned A s own extra) (hslot : s.slots c = some sp) :
    Ends (unloadPages A c l) s fun r t => r = .ok () ∧ ∃ own' l',
      Turn A c (all c) (all c) s own t own' extra ∧ t.slots c = some { sp with mappings := l' } ∧
      ∀ v, t.find c v = if v ∈ l then none else s.find c v := by
  induction l generalizing s own sp with
  | nil =>
    exact Ends.ret ⟨rfl, own, sp.mappings, .refl h, hslot, fun v => (if_neg not_mem_nil).symm⟩
  | cons w l ih =>
    have hround : Ends (do
        let _ ← Act.attempt (vmmUnmap A c w)
        pure () : Vm Unit) s fun r t => r = .ok () ∧ ∃ own' l',
          Turn A c (all c) (all c) s own t own' extra ∧
          t.slots c = some { sp with mappings := l' } ∧
          ∀ v, t.find c v = if v = w then none else s.find c v := by
      refine Ends.attempt_bind (vmmUnmap_ends h hslot w) ?_
      rintro r t ⟨own', l', hturn, hslot', hl, -⟩
      refine Ends.ret ⟨rfl, own', l', hturn.mono (fun _ _ hw => hw.1) fun _ _ hw => hw.1, hslot',
        fun v => ?_⟩
      simp only [Spaces.find, hslot, hslot', Option.bind_some]
      exact find_left (h.spaces c sp hslot).keys hl v
    refine Ends.bind hround ?_ fun e t ht => by cases ht.1
    rintro - t ⟨-, own₁, l₁, hturn, hslot₁, hfind⟩
    refine (ih hturn.owned hslot₁).mono ?_
    rintro r u ⟨hr, own', l', hturn', hslot', hfind'⟩
    refine ⟨hr, own', l', hturn.trans hturn', hslot', fun v => ?_⟩
    rw [hfind', hfind]
    by_cases hv : v = w
    · simp [hv]
    · simp [hv]

/-- How far the loop of `elf_load` came. -/
def Advances (A : Arch) (c : Context) (image : Image) (hd : Header) (s t : Spaces) (l : List ℕ)
    (e : Option Errno) : Prop :=
  Serves A c s t (requests A image (loadBias A hd) ((range hd.phnum).map (parseSegment A image hd)))
    (Rejects A (loadBias A hd) ((range hd.phnum).map (parseSegment A image hd)) false) l e

/-- `elf_load`. After an error the pages of the context are those from before. -/
theorem elfLoad_ends (image : Image) (h : Owned A s own extra) (hslot : s.slots c = some sp) :
    Ends (elfLoad A image c) s fun r t => ∃ own',
      (∃ e, r = .error e ∧ Gains A c [] s own t own' extra ∧
        (∀ F, Private s c F → Spares A (all c) (all c) s t) ∧
        ∀ hd, parseHeader A image = .ok hd → loadBias A hd ≤ (hd.entry + loadBias A hd) % 2 ^ A.bits →
          ∃ u own₁ l e', e' ≠ none ∧ Gains A c l s own u own₁ extra ∧
            Advances A c image hd s u l e' ∧ (UserOnly A s c → UserOnly A u c)) ∨
      ∃ hd l, parseHeader A image = .ok hd ∧ r = .ok ((hd.entry + loadBias A hd) % 2 ^ A.bits) ∧
        loadBias A hd ≤ (hd.entry + loadBias A hd) % 2 ^ A.bits ∧
        Gains A c l s own t own' extra ∧ Advances A c image hd s t l none ∧
        (∀ F, Follows A c l s t F (written A image (loadBias A hd)
          ((range hd.phnum).map (parseSegment A image hd)) F)) ∧
        Flagged c s t (wanted A (loadBias A hd) ((range hd.phnum).map (parseSegment A image hd))) ∧
        ¬Rejects A (loadBias A hd) ((range hd.phnum).map (parseSegment A image hd)) false ∧
        ∀ i < hd.phnum, ∃ g, parseSegment A image hd i = .ok g ∧
          (g.load = true → 0 < g.memsz → ¬Wraps A (loadBias A hd) g) := by
  unfold elfLoad
  cases hparse : parseHeader A image with
  | error e => exact Ends.fail ⟨own, .inl ⟨e, rfl, .refl h hslot, fun _ _ => .refl s, nofun⟩⟩
  | ok hd =>
    refine Ends.bind (loadSegments_ends image _ _ false [] h hslot nodup_nil nofun) ?_ ?_
    · rintro r t ⟨own₁, l, e, hr, hgains, hserves, hflagged, hfollows, hall⟩
      cases hr
      obtain ⟨sp₀, l₀, hsp₀, hslot₁⟩ := hgains.slot
      rw [hslot] at hsp₀
      cases hsp₀
      rw [append_nil]
      split
      · rename_i e' hfailed
        refine Ends.bind (unloadPages_ends l hgains.turn.owned hslot₁) ?_ fun e u hu => by cases hu.1
        rintro - u ⟨-, own', l', hturn, hslot', hfind⟩
        refine Ends.fail ⟨own', .inl ⟨e', rfl, ⟨?_, ⟨sp, l', hslot, hslot'⟩, fun v _ => ?_,
          nodup_nil, nofun⟩, fun F hF => ?_, ?_⟩⟩
        · exact hgains.turn.trans (hturn.mono (fun _ _ _ => trivial) fun _ _ _ => trivial)
        · rw [hfind]
          split
          · rename_i hv
            exact (hgains.new v hv).1.symm
          · rename_i hv
            exact hgains.find v hv
        · obtain ⟨F', hF', -⟩ := hfollows F
          exact (hF'.priv hF).2.trans' hturn.spares
        · rintro _ ⟨⟩ hle
          obtain ⟨F, hF, -⟩ := hfollows fun _ => 0
          refine ⟨t, own₁, l, e, fun he => ?_, hgains, hserves, hF.user⟩
          rw [he, if_neg fun hlt => Nat.not_lt.mpr hle hlt.2] at hfailed
          cases hfailed
      · rename_i hnone
        obtain ⟨rfl, hle⟩ : e = none ∧ loadBias A hd ≤ (hd.entry + loadBias A hd) % 2 ^ A.bits := by
          split_ifs at hnone with hcond
          exact ⟨hnone, Nat.not_lt.mp fun hlt => hcond ⟨hnone, hlt⟩⟩
        refine Ends.ret ⟨own₁, .inr ⟨hd, l, rfl, rfl, hle, hgains, hserves, fun F => ?_,
          hflagged rfl, (hall rfl).1, fun i hi => (hall rfl).2 _ (mem_map_of_mem (mem_range.mpr hi))⟩⟩
        obtain ⟨F', hF', hwritten⟩ := hfollows F
        exact hwritten rfl ▸ hF'
    · rintro e t ⟨_, _, _, hr, -⟩
      cases hr

end Tach.Ownership
