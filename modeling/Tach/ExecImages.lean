import Tach.ElfBounds
import Tach.InitialStacks
import Tach.Rollbacks

/-!
The new address space of `process_exec_image_args` before it replaces the old one: the image, the
stack page and the arguments.
-/

namespace Tach.Ownership

open Actions KeyedLists Paging Vmm Processes Function List
open Sectors (Errno)

variable {A : Arch} {s t u : Spaces} {own own' : ℕ → Owner} {extra extra' : ℕ → ℕ}
variable {c : Context} {sp : Space} {image : Image} {f v : ℕ}

/-- No other context has a page in the frame `f`. -/
def Apart (s : Spaces) (c : Context) (f : ℕ) : Prop :=
  ∀ d w n, d ≠ c → s.find d w = some n → n.phys ≠ f

/-- The frame of a page that was just mapped. -/
theorem Turn.apart {p : ℕ} (hturn : Turn A c (only c v) (only c v) s own t own' extra')
    (h : Owned A s own extra) (hp : own p = .free) : Apart t c p := by
  intro d w n hd hn heq
  rw [hturn.spares.find d w fun hdw => hd hdw.1] at hn
  have hown := (h.data_of_find hn).1
  rw [heq, hp] at hown
  cases hown

/-- A frame of `c` alone is written to. -/
theorem Owned.turn_set (h : Owned A s own extra) (hf : own f = .data) (hapart : Apart s c f)
    (F : ℕ → ℕ) : Turn A c (all c) (all c) s own (s.onMach fun m => m.setFrame f F) own extra := by
  refine ⟨h.fill hf F, fun _ => .inl rfl, h.spares_of_pages (fun g _ hg => ?_) fun d w hd =>
    page_congr rfl fun n hn => ?_, fun _ _ => rfl, rfl, rfl⟩
  · have hne : g ≠ f := fun heq => hg (heq ▸ hf)
    exact update_of_ne hne _ _
  · exact update_of_ne (hapart d w n hd hn) _ _

section Loading

variable {R : List (ℕ × Bool)} {B : Prop} {l : List ℕ} {e : Option Errno}

/-- Requests that an empty context can serve: the pages are not the first one and not too many, and
those that bytes are written to are mapped before. -/
structure Servable (R : List (ℕ × Bool)) : Prop where
  pos : ∀ q ∈ R, q.1 ≠ 0
  known : ∀ v before after, R = before ++ (v, false) :: after → (v, true) ∈ before
  few : (R.map Prod.fst).dedup.length ≤ maxLoadedPages

/-- The file can be loaded to an empty context. -/
def Loads (A : Arch) (image : Image) : Prop :=
  ∃ hd, parseHeader A image = .ok hd ∧ loadBias A hd ≤ (hd.entry + loadBias A hd) % 2 ^ A.bits ∧
    ¬Rejects A (loadBias A hd) ((range hd.phnum).map (parseSegment A image hd)) false ∧
    Servable (imageRequests A image)

/-- The file has a segment with the page `v`. -/
def Asks (A : Arch) (image : Image) (v : ℕ) : Prop := (v, true) ∈ imageRequests A image

theorem Serves.servable (h : Serves A c s t R B l none) (hgains : Gains A c l s own t own' extra)
    (hempty : ∀ v, s.find c v = none) : Servable R := by
  have hdone : ∀ q ∈ R, q.1 ∈ l := fun q hq => hgains.mem (hempty q.1) (h.done rfl q hq)
  refine ⟨fun q hq => hgains.turn.owned.mapped_pos (h.done rfl q hq), fun v before after hR => ?_, ?_⟩
  · have hv := hdone (v, false) (hR ▸ mem_append_right _ mem_cons_self)
    obtain ⟨before', after', hR', hbefore'⟩ := h.order v hv
    rcases place_cases (hR.symm.trans hR') with heq | hmem | hmem
    · exact absurd (Prod.mk.inj heq).2 nofun
    · exact absurd rfl (hbefore' _ hmem).1
    · exact hmem
  · obtain ⟨sp, l', -, hslot⟩ := hgains.slot
    have hle := length_le_mappings hslot (nodup_dedup _) fun v hv => by
      obtain ⟨q, hq, rfl⟩ := mem_map.mp (mem_dedup.mp hv)
      exact h.done rfl q hq
    exact hle.trans (hgains.turn.owned.spaces c _ hslot).room

/-- An empty context on a machine with frames enough serves what it can serve. -/
theorem Servable.done (h : Servable R) (hs : Holding A c [] 4000 s) (hB : ¬B)
    (hserves : Serves A c s t R B l e) (hgains : Gains A c l s own t own' extra)
    (huser : UserOnly A t c) : e = none := by
  by_contra he
  have hempty : ∀ v, s.find c v = none := fun v =>
    not_not.mp fun hne => not_mem_nil ((hs.2.2.1 v).mp hne)
  have hfind : ∀ v, t.find c v ≠ none ↔ v ∈ l := fun v =>
    ⟨hgains.mem (hempty v), hgains.mapped_new⟩
  rcases hserves.halt he with ⟨hb, -⟩ | ⟨before, q, after, hR, hbefore, hnone, hhalts⟩
  · exact hB hb
  have hq : q ∈ R := hR ▸ mem_append_right _ mem_cons_self
  -- the page that is missing is one of the pages and not of those mapped so far
  have hlength : l.length < maxMappings := by
    have hnodup : (q.1 :: l).Nodup := nodup_cons.mpr ⟨fun hl => (hfind q.1).mpr hl hnone, hgains.nodup⟩
    have hsub : q.1 :: l ⊆ (R.map Prod.fst).dedup := by
      intro v hv
      rw [mem_dedup]
      rcases mem_cons.mp hv with rfl | hv
      · exact mem_map_of_mem hq
      · obtain ⟨before', after', hR', -⟩ := hserves.order v hv
        exact mem_map.mpr ⟨(v, true), hR' ▸ mem_append_right _ mem_cons_self, rfl⟩
    exact (hnodup.subperm hsub).length_le.trans h.few
  obtain ⟨sp, l', hslot, hslot'⟩ := hgains.slot
  have hcosts := hserves.costs
  have hmax : maxMappings = 512 := rfl
  have hholds : Holding A c l 2 t := by
    refine ⟨⟨own', extra, hgains.turn.owned⟩, by rw [hslot']; nofun, hfind, huser, ?_⟩
    have hpages := hs.2.2.2.2
    simp only [Costs, he, if_false] at hcosts
    omega
  cases hflag : q.2 with
  | false =>
    have hknown := h.known q.1 before after (by rw [hR, ← hflag])
    exact hbefore _ hknown hnone
  | true =>
    rcases hhalts hflag with hzero | hfull | hless | hcovered
    · exact h.pos q hq hzero
    · rw [hholds.not_full hlength] at hfull
      cases hfull
    · have := hholds.2.2.2.2
      omega
    · exact huser.not_covered _ hcovered

/-- A file that was loaded to an empty context could be loaded. -/
theorem elfLoad_loads (h : Owned A s own extra) (hslot : s.slots c = some sp)
    (hempty : sp.mappings = []) :
    Ends (elfLoad A image c) s fun r t => ∃ own', Turn A c (all c) (all c) s own t own' extra ∧
      (∃ sp', t.slots c = some sp') ∧
      ∀ entry, r = .ok entry → Loads A image ∧ ∀ v, t.find c v ≠ none → Asks A image v := by
  have hnone := find_of_empty hslot hempty
  have hprivate := private_of_empty hslot hempty
  refine (elfLoad_ends image h hslot).mono ?_
  rintro r t ⟨own', ⟨e, rfl, hgains, hspares, -⟩ | ⟨hd, l, hparse, rfl, hle, hgains, hserves,
    hfollows, -, hrejects, -⟩⟩
  · obtain ⟨sp', l', -, hslot'⟩ := hgains.slot
    exact ⟨own', hgains.turn_all (hspares _ hprivate), ⟨_, hslot'⟩, nofun⟩
  · obtain ⟨sp', l', -, hslot'⟩ := hgains.slot
    refine ⟨own', hgains.turn_all ((hfollows _).priv hprivate).2, ⟨_, hslot'⟩, fun _ _ => ⟨?_, ?_⟩⟩
    · refine ⟨hd, hparse, hle, hrejects, ?_⟩
      rw [imageRequests, hparse]
      exact hserves.servable hgains hnone
    · intro v hv
      obtain ⟨before, after, hR, -⟩ := hserves.order v (hgains.mem (hnone v) hv)
      simp only [Asks, imageRequests, hparse, hR]
      exact mem_append_right _ mem_cons_self

/-- Where there is room, a file that can be loaded is. -/
theorem Loads.elfLoad_ok (h : Loads A image) (hs : Holding A c [] 4000 s)
    (howned : Owned A s own extra) :
    Ends (elfLoad A image c) s fun r t => ∃ entry own', r = .ok entry ∧
      Turn A c (all c) (all c) s own t own' extra ∧ (∃ sp', t.slots c = some sp') ∧
      (∀ v, Asks A image v → t.find c v ≠ none) ∧ UserOnly A t c ∧ 1000 ≤ t.mach.pmm.freePages := by
  obtain ⟨-, hslot, hfind, huser, hpages⟩ := id hs
  obtain ⟨sp, hslot⟩ := Option.ne_none_iff_exists'.mp hslot
  obtain ⟨hd, hparse, hle, hrejects, hservable⟩ := h
  rw [imageRequests, hparse] at hservable
  refine (elfLoad_ends image howned hslot).mono ?_
  rintro r t ⟨own', ⟨e, rfl, -, -, hcause⟩ | ⟨hd', l, hparse', rfl, -, hgains, hserves, hfollows, -⟩⟩
  · obtain ⟨u, own₁, l, e', he', hgains, hserves, huser'⟩ := hcause hd hparse hle
    exact absurd (hservable.done hs hrejects hserves hgains (huser' huser)) he'
  · rw [hparse] at hparse'
    cases hparse'
    have hempty : sp.mappings = [] := by
      refine eq_nil_iff_forall_not_mem.mpr fun m hm => not_mem_nil ((hfind m.virt).mp fun hnone => ?_)
      rw [Spaces.find, hslot] at hnone
      exact KeyedLists.find_eq_none.mp hnone m hm rfl
    obtain ⟨sp', l', -, hslot'⟩ := hgains.slot
    have hcosts := hserves.costs
    have hfew : l.length ≤ 512 := by
      refine (length_le_mappings hslot' hgains.nodup fun v => hgains.mapped_new).trans ?_
      exact (hgains.turn.owned.spaces c _ hslot').room
    refine ⟨_, own', rfl, hgains.turn_all ((hfollows _).priv (private_of_empty hslot hempty)).2,
      ⟨_, hslot'⟩, fun v hv => ?_, (hfollows fun _ => 0).user huser, ?_⟩
    · rw [Asks, imageRequests, hparse] at hv
      exact hserves.done rfl _ hv
    · simp only [Costs, if_true] at hcosts
      omega

end Loading

end Tach.Ownership
