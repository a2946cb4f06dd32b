import Tach.Ownership

/-!
Operations on the tables of one context, seen from all of them. A change within the tables of a
context leaves the other contexts, the kernel and the contents of all pages alone; `Spares` says
which pages of which contexts an operation may have changed.
-/

namespace Tach.Ownership

open Frames KeyedLists Paging Vmm Function Spaces

open Classical in
/-- The frames `N` join the tables of a context. -/
noncomputable def claimed (own : ℕ → Owner) (c : Context) (N : Set ℕ) (f : ℕ) : Owner :=
  if f ∈ N then .table c else own f

section Claimed

variable {own : ℕ → Owner} {c : Context} {N : Set ℕ} {f : ℕ}

theorem claimed_mem (h : f ∈ N) : claimed own c N f = .table c := if_pos h

theorem claimed_notMem (h : f ∉ N) : claimed own c N f = own f := if_neg h

theorem claimed_iff {T : Set ℕ} (h : ∀ f, own f = .table c ↔ f ∈ T) :
    claimed own c N f = .table c ↔ f ∈ T ∪ N := by
  by_cases hN : f ∈ N
  · exact ⟨fun _ => .inr hN, fun _ => claimed_mem hN⟩
  · rw [claimed_notMem hN, h f]
    exact ⟨.inl, fun hf => hf.resolve_right hN⟩

@[simp] theorem claimed_empty : claimed own c ∅ = own := by
  funext f
  exact claimed_notMem (Set.notMem_empty f)

end Claimed

section Spared

def page (s : Spaces) (c : Context) (v : ℕ) : Option (ℕ → ℕ) :=
  (s.find c v).map fun m => s.mach.ram m.phys

theorem page_congr {s t : Spaces} {c : Context} {v : ℕ} (hfind : t.find c v = s.find c v)
    (hram : ∀ m, s.find c v = some m → t.mach.ram m.phys = s.mach.ram m.phys) :
    page t c v = page s c v := by
  rw [page, page, hfind]
  cases hm : s.find c v with
  | none => rfl
  | some m => exact congrArg some (hram m hm)

/-- From `s` to `t` only mappings and contents of the pages `W` change, and only translations of
the pages `T`. -/
structure Spares (A : Arch) (W T : Context → ℕ → Prop) (s t : Spaces) : Prop where
  find : ∀ c v, ¬W c v → t.find c v = s.find c v
  page : ∀ c v, ¬W c v → page t c v = page s c v
  trans : ∀ c sp w, s.slots c = some sp → (∀ v, A.seen v = A.seen w → ¬T c v) →
    ∃ sp', t.slots c = some sp' ∧ sp'.root = sp.root ∧
      A.trans t.mach.ram sp.root w = A.trans s.mach.ram sp.root w
  root : t.kernelRoot = s.kernelRoot
  kernel : A.trans t.mach.ram s.kernelRoot = A.trans s.mach.ram s.kernelRoot

variable {A : Arch} {W W' T T' : Context → ℕ → Prop} {s t u : Spaces}

theorem Spares.refl (s : Spaces) : Spares A W T s s :=
  ⟨fun _ _ _ => rfl, fun _ _ _ => rfl, fun _ sp _ hslot _ => ⟨sp, hslot, rfl, rfl⟩, rfl, rfl⟩

theorem Spares.trans' (h : Spares A W T s t) (h' : Spares A W T t u) : Spares A W T s u := by
  refine ⟨fun c v hv => ?_, fun c v hv => ?_, fun c sp w hslot hw => ?_, h'.root.trans h.root, ?_⟩
  · rw [h'.find c v hv, h.find c v hv]
  · rw [h'.page c v hv, h.page c v hv]
  · obtain ⟨sp₁, hslot₁, hroot₁, htrans₁⟩ := h.trans c sp w hslot hw
    obtain ⟨sp₂, hslot₂, hroot₂, htrans₂⟩ := h'.trans c sp₁ w hslot₁ hw
    rw [hroot₁] at hroot₂ htrans₂
    exact ⟨sp₂, hslot₂, hroot₂, htrans₂.trans htrans₁⟩
  · have hkernel := h'.kernel
    rw [h.root] at hkernel
    exact hkernel.trans h.kernel

theorem Spares.mono (h : Spares A W T s t) (hW : ∀ c v, W c v → W' c v)
    (hT : ∀ c v, T c v → T' c v) : Spares A W' T' s t :=
  ⟨fun c v hv => h.find c v fun hw => hv (hW c v hw),
    fun c v hv => h.page c v fun hw => hv (hW c v hw),
    fun c sp w hslot hw => h.trans c sp w hslot fun v hv hTv => hw v hv (hT c v hTv),
    h.root, h.kernel⟩

end Spared

variable {A : Arch} {s : Spaces} {own : ℕ → Owner} {extra extra' : ℕ → ℕ} {c : Context}
variable {sp sp' : Space} {m : Mapping} {f v root : ℕ} {mach : Machine} {N : Set ℕ}

namespace Owned

variable (h : Owned A s own extra)

include h

theorem claimed_of_used (hg : Grows s.mach mach N) (hf : own f ≠ .free) :
    claimed own c N f = own f :=
  claimed_notMem (hg.notMem_of_used ((h.used f).mpr hf))

/-- A frame of another owner keeps its contents. -/
theorem within_ram (htables : ∀ f, own f = .table c ↔ f ∈ A.tables s.mach.ram root)
    (hw : A.Within s.mach mach root N) (hf : own f ≠ .free) (hc : own f ≠ .table c) :
    mach.ram f = s.mach.ram f :=
  hw.off f (fun hmem => hc ((htables f).mpr hmem)) (hw.grows.notMem_of_used ((h.used f).mpr hf))

/-- The context `c` gets frames for its tables and other mappings; the frames of others keep their
contents. -/
theorem grown (hg : Grows s.mach mach N)
    (hram : ∀ f, own f ≠ .free → own f ≠ .table c → mach.ram f = s.mach.ram f)
    (hfits : Fits A mach.ram (claimed own c N) c sp')
    (hcount : ∀ f, own f = .data → usesIn (some sp') f + extra' f = usesIn (s.slots c) f + extra f)
    (hrest : ∀ f, own f ≠ .data → extra' f = extra f) :
    Owned A (setSlot { s with mach := mach } c (some sp')) (claimed own c N) extra' := by
  have hkeep : ∀ f, own f ≠ .free → claimed own c N f = own f := fun f hf =>
    h.claimed_of_used hg hf
  refine h.handed rfl rfl hg.sound (fun f => ?_) (fun f hf => ?_)
    (fun f hf _ => (hkeep f (by rw [hf]; nofun)).trans hf) fun d => ?_
  · by_cases hN : f ∈ N
    · rw [claimed_mem hN, hrest f (by rw [h.free_of_unused (hg.fresh f hN)]; nofun)]
      exact h.tallied_taken hg hN (o := .table c) trivial _
    · have huses := uses_setSlot { s with mach := mach } c (some sp') f
      have hsame : uses { s with mach := mach } f = uses s f := rfl
      simp only [hsame] at huses
      rw [claimed_notMem hN]
      refine h.tallied_off hg hN (fun hf => ?_) (hrest f)
      have := hcount f hf
      omega
  · rw [hkeep f (by rw [hf]; nofun)]
    exact ⟨hf, hram f (by rw [hf]; nofun) (by rw [hf]; nofun)⟩
  · by_cases hd : d = c
    · rw [hd]
      exact .inr (.inl ⟨sp', update_self _ _ _, hfits⟩)
    · refine .inl ⟨update_of_ne hd _ _, fun f => ⟨?_, fun hf => ?_⟩⟩
      · by_cases hN : f ∈ N
        · rw [claimed_mem hN, h.free_of_unused (hg.fresh f hN)]
          exact ⟨fun heq => absurd (Owner.table.inj heq).symm hd, nofun⟩
        · rw [claimed_notMem hN]
      · refine hram f (by rw [hf]; nofun) fun htable => hd ?_
        rw [hf] at htable
        exact Owner.table.inj htable

theorem data_of_find (hm : s.find c v = some m) : own m.phys = .data ∧ 0 < uses s m.phys := by
  cases hslot : s.slots c with
  | none => simp [Spaces.find, hslot] at hm
  | some sp =>
    have hmem := (find_mem hslot hm).1
    exact ⟨(h.spaces c sp hslot).data m hmem, uses_pos hslot hmem⟩

/-- A page keeps its contents with its mapping and its frame. -/
theorem page_eq {t : Spaces} (hfind : t.find c v = s.find c v)
    (hram : ∀ f, own f = .data → 0 < uses s f → t.mach.ram f = s.mach.ram f) :
    page t c v = page s c v :=
  page_congr hfind fun m hm => hram m.phys (h.data_of_find hm).1 (h.data_of_find hm).2

/-- Translations depend on the frames of the tables. -/
theorem trans_eq (hslot : s.slots c = some sp)
    (hram : ∀ f, own f = .table c → mach.ram f = s.mach.ram f) :
    A.trans mach.ram sp.root = A.trans s.mach.ram sp.root :=
  (A.congr s.mach.ram mach.ram sp.root fun f hf =>
    hram f (((h.spaces c sp hslot).tables f).mpr hf)).1

theorem trans_kernel (hram : ∀ f, own f = .kernel → mach.ram f = s.mach.ram f) :
    A.trans mach.ram s.kernelRoot = A.trans s.mach.ram s.kernelRoot :=
  (A.congr s.mach.ram mach.ram s.kernelRoot fun f hf => hram f (h.kernel.tables f hf)).1

/-- The pages and translations that stay when only the context `c` changes. -/
theorem grown_spares (hram : ∀ f, own f ≠ .free → own f ≠ .table c → mach.ram f = s.mach.ram f)
    {V U : ℕ → Prop} (hfind : ∀ w, ¬V w → sp'.find w = s.find c w)
    (htrans : ∀ sp w, s.slots c = some sp → (∀ v, A.seen v = A.seen w → ¬U v) → sp'.root = sp.root ∧ A.trans mach.ram sp.root w = A.trans s.mach.ram sp.root w) :
    Spares A (fun d v => d = c ∧ V v) (fun d v => d = c ∧ U v) s
      (setSlot { s with mach := mach } c (some sp')) := by
  have hfound : ∀ d w, ¬(d = c ∧ V w) →
      (setSlot { s with mach := mach } c (some sp')).find d w = s.find d w := by
    intro d w hdw
    by_cases hd : d = c
    · rw [hd, ← hfind w fun hV => hdw ⟨hd, hV⟩]
      simp only [Spaces.find, setSlot, update_self, Option.bind_some]
    · simp only [Spaces.find, setSlot, update_of_ne hd]
  refine ⟨hfound, fun d w hdw => ?_, fun d sp₁ w hslot₁ hw₁ => ?_, rfl, ?_⟩
  · refine h.page_eq (hfound d w hdw) fun f hf _ => ?_
    exact hram f (by simp [hf]) (by simp [hf])
  · by_cases hd : d = c
    · obtain ⟨hroot, hsame⟩ := htrans sp₁ w (hd ▸ hslot₁) fun v hv hU => hw₁ v hv ⟨hd, hU⟩
      exact ⟨sp', by simp only [hd, setSlot, update_self], hroot, hsame⟩
    · refine ⟨sp₁, by simpa only [setSlot, update_of_ne hd] using hslot₁, rfl, ?_⟩
      refine congrFun (h.trans_eq hslot₁ fun f hf => hram f (by simp [hf]) fun htable => hd ?_) w
      rw [hf] at htable
      exact Owner.table.inj htable
  · exact h.trans_kernel fun f hf => hram f (by simp [hf]) (by simp [hf])

/-- The pages that a change within the tables of a context leaves alone. -/
theorem within_spares (hslot : s.slots c = some sp) (hw : A.Within s.mach mach sp.root N)
    (hroot : sp'.root = sp.root) {V U : ℕ → Prop} (hfind : ∀ w, ¬V w → sp'.find w = sp.find w)
    (htrans : ∀ w, (∀ v, A.seen v = A.seen w → ¬U v) → A.trans mach.ram sp.root w = A.trans s.mach.ram sp.root w) :
    Spares A (fun d v => d = c ∧ V v) (fun d v => d = c ∧ U v) s
      (setSlot { s with mach := mach } c (some sp')) := by
  have htables := (h.spaces c sp hslot).tables
  refine h.grown_spares (fun _ hf hc => h.within_ram htables hw hf hc) (fun w hw => ?_)
    fun sp₁ w hslot₁ hw₁ => ?_
  · rw [hfind w hw, Spaces.find, hslot]
    rfl
  · rw [hslot] at hslot₁
    cases hslot₁
    exact ⟨hroot, htrans w hw₁⟩

end Owned

section Turns

/-- The owners among which an operation on a context moves frames. -/
def Loose (c : Context) (o : Owner) : Prop := o = .free ∨ o = .data ∨ o = .table c

/-- What an operation on the context `c` may do: it changes the pages `W`, the translations `T` and
the frames of `c`. -/
structure Turn (A : Arch) (c : Context) (W T : Context → ℕ → Prop) (s : Spaces)
    (own : ℕ → Owner) (t : Spaces) (own' : ℕ → Owner) (extra' : ℕ → ℕ) : Prop where
  owned : Owned A t own' extra'
  settled : ∀ f, own' f = own f ∨ Loose c (own f) ∧ Loose c (own' f)
  spares : Spares A W T s t
  slots : ∀ d, d ≠ c → t.slots d = s.slots d
  active : t.active = s.active
  limit : t.mach.pmm.limit = s.mach.pmm.limit

variable {W W' T T' : Context → ℕ → Prop} {t u : Spaces} {own' own'' : ℕ → Owner}
variable {extra'' : ℕ → ℕ}

namespace Turn

theorem refl (h : Owned A s own extra) : Turn A c W T s own s own extra :=
  ⟨h, fun _ => .inl rfl, .refl s, fun _ _ => rfl, rfl, rfl⟩

theorem trans (h : Turn A c W T s own t own' extra') (h' : Turn A c W T t own' u own'' extra'') :
    Turn A c W T s own u own'' extra'' := by
  refine ⟨h'.owned, fun f => ?_, h.spares.trans' h'.spares, fun d hd => ?_,
    h'.active.trans h.active, h'.limit.trans h.limit⟩
  · rcases h.settled f with hf | ⟨hl, hl'⟩
    · rw [← hf]
      exact h'.settled f
    · rcases h'.settled f with hf' | ⟨-, hl''⟩
      · exact .inr ⟨hl, hf' ▸ hl'⟩
      · exact .inr ⟨hl, hl''⟩
  · rw [h'.slots d hd, h.slots d hd]

theorem mono (h : Turn A c W T s own t own' extra') (hW : ∀ c v, W c v → W' c v)
    (hT : ∀ c v, T c v → T' c v) : Turn A c W' T' s own t own' extra' :=
  ⟨h.owned, h.settled, h.spares.mono hW hT, h.slots, h.active, h.limit⟩

end Turn

theorem loose_released (hf : own f = .data) (g : ℕ) :
    released s own f g = own g ∨ Loose c (own g) ∧ Loose c (released s own f g) := by
  by_cases hg : g = f
  · refine .inr ⟨.inr (.inl (hg ▸ hf)), ?_⟩
    rw [released, hg, update_self]
    split
    · exact .inl rfl
    · exact .inr (.inl rfl)
  · exact .inl (update_of_ne hg _ _)

variable (h : Owned A s own extra)

include h

/-- Frames that hold no table change their contents. -/
theorem Owned.spares_of_pages
    (hram : ∀ f, own f ≠ .free → own f ≠ .data → mach.ram f = s.mach.ram f)
    (hpage : ∀ d w, ¬W d w → page { s with mach := mach } d w = page s d w) :
    Spares A W T s { s with mach := mach } := by
  refine ⟨fun _ _ _ => rfl, hpage, fun d sp w hslot _ => ⟨sp, hslot, rfl, ?_⟩, rfl, ?_⟩
  · exact congrFun (h.trans_eq hslot fun f hf => hram f (by rw [hf]; nofun) (by rw [hf]; nofun)) w
  · exact h.trans_kernel fun f hf => hram f (by rw [hf]; nofun) (by rw [hf]; nofun)

/-- Frames that hold no table and no page change their contents. -/
theorem Owned.spares_of_ram
    (hram : ∀ f, own f ≠ .free → (own f = .data → 0 < uses s f) → mach.ram f = s.mach.ram f) :
    Spares A W T s { s with mach := mach } :=
  h.spares_of_pages (fun f hf hdata => hram f hf fun heq => absurd heq hdata) fun _ _ _ =>
    h.page_eq rfl fun f hf huses => hram f (by rw [hf]; nofun) fun _ => huses

/-- A frame is handed out for a page. -/
theorem Owned.turn_alloc {q : Pmm} (hq : s.mach.pmm.allocFrame = some (f, q)) :
    own f = .free ∧ Turn A c W T s own { s with mach := { s.mach with pmm := q } }
      (update own f .data) (update extra f 1) := by
  obtain ⟨hown, hnew⟩ := h.alloc hq
  refine ⟨hown, hnew, fun g => ?_, h.spares_of_ram fun _ _ _ => rfl, fun _ _ => rfl, rfl,
    (allocFrame_takes hq).limit⟩
  by_cases hg : g = f
  · rw [hg, update_self, hown]
    exact .inr ⟨.inl rfl, .inr (.inl rfl)⟩
  · exact .inl (update_of_ne hg _ _)

/-- Tables of a context get new frames. -/
theorem loose_claimed (hg : Grows s.mach mach N) (f : ℕ) :
    claimed own c N f = own f ∨ Loose c (own f) ∧ Loose c (claimed own c N f) := by
  by_cases hN : f ∈ N
  · refine .inr ⟨.inl (h.free_of_unused (hg.fresh f hN)), ?_⟩
    rw [claimed_mem hN]
    exact .inr (.inr rfl)
  · exact .inl (claimed_notMem hN)

/-- A frame that is in no page yet is filled. -/
theorem Owned.turn_fill (hf : own f = .data) (huses : uses s f = 0) (contents : ℕ → ℕ) :
    Turn A c W T s own (s.onMach fun m => m.setFrame f contents) own extra := by
  refine ⟨h.fill hf contents, fun _ => .inl rfl, h.spares_of_ram fun g _ hg => ?_, fun _ _ => rfl,
    rfl, rfl⟩
  have hgf : g ≠ f := by
    rintro rfl
    have := hg hf
    omega
  exact update_of_ne hgf _ _

/-- A reference that is in no table goes away. -/
theorem Owned.turn_free (hf : own f = .data) (hextra : 0 < extra f) :
    Turn A c W T s own (s.onMach fun m => m.freeFrame f) (released s own f)
      (update extra f (extra f - 1)) :=
  ⟨h.free hf hextra, loose_released hf, h.spares_of_ram fun _ _ _ => rfl, fun _ _ => rfl, rfl,
    freeFrame_limit _ _⟩

end Turns

section Entries

open List

variable {rest : List Mapping}

/-- What a change within its tables leaves of a space with the same mappings. -/
theorem Fits.within (hfits : Fits A s.mach.ram own c sp) (h : Owned A s own extra)
    (hw : A.Within s.mach mach sp.root N)
    (hleaves : ∀ w leaf, A.trans mach.ram sp.root w = some leaf → leaf.user = true →
      ∃ m ∈ sp.mappings, A.seen m.virt = A.seen w ∧ leaf = A.leaf m.phys m.flags) :
    Fits A mach.ram (claimed own c N) c sp := by
  refine ⟨hw.good, fun f => ?_, hfits.keys, hfits.room, hfits.low, hfits.owned, fun m hm => ?_,
    fun m hm => hw.slots _ (hfits.slots m hm), hleaves⟩
  · rw [hw.tables]
    exact claimed_iff hfits.tables
  · have hdata := hfits.data m hm
    rw [h.claimed_of_used hw.grows (by rw [hdata]; nofun), hdata]

/-- The entry of page `v` is another, or gone, and so is its mapping. -/
structure Edits (A : Arch) (s : Spaces) (own : ℕ → Owner) (sp : Space) (v : ℕ) (mach : Machine)
    (N : Set ℕ) (new : Option Mapping) (l rest : List Mapping) : Prop where
  within : A.Within s.mach mach sp.root N
  entry : ∀ m ∈ new, m.virt = v ∧ v ≠ 0 ∧ m.owned = true ∧ own m.phys = .data ∧
    A.hasSlot mach.ram sp.root v
  here : ∀ w, A.seen w = A.seen v →
    A.trans mach.ram sp.root w = new.map fun m => A.leaf m.phys m.flags
  others : ∀ w, A.seen w ≠ A.seen v → A.trans mach.ram sp.root w = A.trans s.mach.ram sp.root w
  before : sp.mappings ~ (sp.find v).toList ++ rest
  after : l ~ new.toList ++ rest
  room : l.length ≤ maxMappings

theorem Fits.edited {new : Option Mapping} {l : List Mapping} (hfits : Fits A s.mach.ram own c sp)
    (h : Owned A s own extra) (he : Edits A s own sp v mach N new l rest) :
    Fits A mach.ram (claimed own c N) c { sp with mappings := l } := by
  obtain ⟨hw, hnew, hhere, hothers, hbefore, hafter, hroom⟩ := he
  have hrest : ∀ m ∈ rest, m ∈ sp.mappings := fun m hm =>
    hbefore.mem_iff.mpr (mem_append_right _ hm)
  have hkeys := (hbefore.map Mapping.virt).nodup_iff.mp hfits.keys
  have hcases : ∀ m ∈ l, m ∈ new ∨ m ∈ sp.mappings := fun m hm =>
    (mem_append.mp (hafter.mem_iff.mp hm)).imp (by simp) (hrest m)
  refine ⟨hw.good, fun f => ?_, ?_, hroom, fun m hm => ?_, fun m hm => ?_, fun m hm => ?_,
    fun m hm => ?_, fun w leaf hleaf huser => ?_⟩
  · rw [hw.tables]
    exact claimed_iff hfits.tables
  · rw [(hafter.map Mapping.virt).nodup_iff]
    cases hold : sp.find v with
    | none =>
      rw [hold] at hkeys
      cases new with
      | none => exact hkeys
      | some n =>
        rw [Option.toList_some, singleton_append, map_cons, nodup_cons, (hnew n rfl).1]
        refine ⟨fun hv => ?_, hkeys⟩
        obtain ⟨m, hm, hvirt⟩ := mem_map.mp hv
        exact find_eq_none.mp hold m (hrest m hm) hvirt
    | some o =>
      rw [hold, Option.toList_some, singleton_append, map_cons, (mem_of_find hold).2] at hkeys
      cases new with
      | none => exact (nodup_cons.mp hkeys).2
      | some n =>
        rw [Option.toList_some, singleton_append, map_cons, (hnew n rfl).1]
        exact hkeys
  · rcases hcases m hm with hm | hm
    · rw [(hnew m hm).1]
      exact (hnew m hm).2.1
    · exact hfits.low m hm
  · rcases hcases m hm with hm | hm
    · exact (hnew m hm).2.2.1
    · exact hfits.owned m hm
  · have hdata : own m.phys = .data := by
      rcases hcases m hm with hm | hm
      · exact (hnew m hm).2.2.2.1
      · exact hfits.data m hm
    rw [h.claimed_of_used hw.grows (by rw [hdata]; nofun), hdata]
  · rcases hcases m hm with hm | hm
    · rw [(hnew m hm).1]
      exact (hnew m hm).2.2.2.2
    · exact hw.slots _ (hfits.slots m hm)
  · by_cases hseen : A.seen w = A.seen v
    · rw [hhere w hseen] at hleaf
      obtain ⟨n, hn, rfl⟩ := Option.map_eq_some_iff.mp hleaf
      refine ⟨n, hafter.mem_iff.mpr (mem_append_left _ (by simpa using hn)), ?_, rfl⟩
      rw [(hnew n hn).1, hseen]
    · rw [hothers w hseen] at hleaf
      obtain ⟨m, hm, hvirt, heq⟩ := hfits.leaves w leaf hleaf huser
      refine ⟨m, hafter.mem_iff.mpr (mem_append_right _ ?_), hvirt, heq⟩
      refine (mem_append.mp (hbefore.mem_iff.mp hm)).resolve_left fun hmem => hseen ?_
      rw [← hvirt, (mem_of_find (Option.mem_toList.mp hmem)).2]

end Entries

end Tach.Ownership
