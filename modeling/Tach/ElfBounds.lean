import Tach.ElfImages

/-!
Where `elf_load` maps pages. The loader takes the addresses of a file as they are, so a page can
lie outside of user space; this depends on the file alone.
-/

namespace Tach.Ownership

open Actions Frames Paging Vmm Processes List
open Sectors (Errno)

variable {A : Arch} {s t : Spaces} {own : ℕ → Owner} {extra : ℕ → ℕ} {c : Context} {sp : Space}
variable {image : Image} {v : ℕ}

/-- `elf_load` up to its rollback. -/
def elfPages (A : Arch) (image : Image) (c : Context) : Vm Loaded :=
  match parseHeader A image with
  | .error e => pure ([], some e)
  | .ok h =>
    loadSegments A image c (loadBias A h) ((range h.phnum).map (parseSegment A image h)) false []

/-- `elf_load` maps the page `v`, for good or until its rollback. -/
def ElfMaps (A : Arch) (image : Image) (c : Context) (s : Spaces) (v : ℕ) : Prop :=
  s.find c v = none ∧ ((elfPages A image c s).state.find c v ≠ none ∨
    (elfLoad A image c s).state.find c v ≠ none)

variable (A) in
def InUser (v : ℕ) : Prop := ∀ a, a / pageSize = v → A.userStart ≤ a ∧ a < A.userEnd

/-- A page is asked for when there can be room for it, and not before. -/
def Reaches (R : List (ℕ × Bool)) (v : ℕ) : Prop :=
  v ≠ 0 ∧ ∃ before after, R = before ++ (v, true) :: after ∧
    (∀ q ∈ before, q.1 ≠ v ∧ q.1 ≠ 0) ∧ (before.map Prod.fst).dedup.length < maxLoadedPages

variable (A image) in
def imageRequests : List (ℕ × Bool) :=
  match parseHeader A image with
  | .error _ => []
  | .ok hd => requests A image (loadBias A hd) ((range hd.phnum).map (parseSegment A image hd))

variable (A image) in
def UserImage : Prop := ∀ v, Reaches (imageRequests A image) v → InUser A v

theorem Owned.mapped_pos (h : Owned A s own extra) (hv : s.find c v ≠ none) : v ≠ 0 := by
  obtain ⟨m, hm⟩ := Option.ne_none_iff_exists'.mp hv
  cases hslot : s.slots c with
  | none => simp [Spaces.find, hslot] at hm
  | some sp =>
    obtain ⟨hmem, rfl⟩ := Owned.find_mem hslot hm
    exact (h.spaces c sp hslot).low m hmem

theorem Owned.reaches {R before after : List (ℕ × Bool)} (h : Owned A t own extra)
    (hslot : t.slots c = some sp) (hv : t.find c v ≠ none) (hR : R = before ++ (v, true) :: after)
    (hbefore : ∀ q ∈ before, q.1 ≠ v ∧ t.find c q.1 ≠ none) : Reaches R v := by
  refine ⟨h.mapped_pos hv, before, after, hR,
    fun q hq => ⟨(hbefore q hq).1, h.mapped_pos (hbefore q hq).2⟩, ?_⟩
  have hnodup : (v :: (before.map Prod.fst).dedup).Nodup := by
    refine nodup_cons.mpr ⟨fun hmem => ?_, nodup_dedup _⟩
    obtain ⟨q, hq, rfl⟩ := mem_map.mp (mem_dedup.mp hmem)
    exact (hbefore q hq).1 rfl
  have hfew := length_le_mappings hslot hnodup fun w hw => by
    rcases mem_cons.mp hw with rfl | hw
    · exact hv
    · obtain ⟨q, hq, rfl⟩ := mem_map.mp (mem_dedup.mp hw)
      exact (hbefore q hq).2
  exact hfew.trans (h.spaces c sp hslot).room

variable {l : List ℕ} {n : ℕ} {own' : ℕ → Owner} {e : Option Errno}

theorem Gains.reaches {R : List (ℕ × Bool)} {B : Prop} (hgains : Gains A c l s own t own' extra) (hserves : Serves A c s t R B l e)
    (hnone : s.find c v = none) (hmapped : t.find c v ≠ none) : Reaches R v := by
  have hv : v ∈ l := not_not.mp fun hl => hmapped (hgains.find v hl ▸ hnone)
  obtain ⟨before, after, hR, hbefore⟩ := hserves.order v hv
  obtain ⟨sp, l', -, hslot⟩ := hgains.slot
  exact hgains.turn.owned.reaches hslot hmapped hR hbefore

/-- A context with the pages `l`, all for users, on a machine with `n` free frames or more. -/
def Holding (A : Arch) (c : Context) (l : List ℕ) (n : ℕ) (s : Spaces) : Prop :=
  (∃ own extra, Owned A s own extra) ∧ s.slots c ≠ none ∧ (∀ v, s.find c v ≠ none ↔ v ∈ l) ∧
    UserOnly A s c ∧ n ≤ s.mach.pmm.freePages

/-- A context that was just created, where the kernel has no page. -/
theorem holding_created (h : Owned A s own extra)
    (hkernel : ∀ w, A.trans s.mach.ram s.kernelRoot w = none)
    (hok : (createContext A s).result.toOption = some c)
    (hpages : n ≤ (createContext A s).state.mach.pmm.freePages) :
    Holding A c [] n (createContext A s).state := by
  obtain ⟨e, -, -, hr, -⟩ | ⟨d, root, own', hr, -, hturn, hslot, htrans⟩ := createContext_ends h
  · rw [hr] at hok
    cases hok
  · rw [hr] at hok
    rw [Option.some.inj hok] at hslot
    generalize (createContext A s).state = t at *
    refine ⟨⟨own', _, hturn.owned⟩, by rw [hslot]; nofun, fun v => ?_, fun sp w leaf hsp hleaf => ?_,
      hpages⟩
    · simp [Spaces.find, hslot, Space.find, KeyedLists.find]
    · rw [hslot, Option.some_inj] at hsp
      rw [← hsp, htrans, hkernel] at hleaf
      cases hleaf

theorem smallSpaces_trans (A : Arch) (n w : ℕ) :
    A.trans (smallSpaces n).mach.ram (smallSpaces n).kernelRoot w = none :=
  ((A.blank _ _ fun _ => rfl).2.2 w).1

theorem exists_holding_nil (hA : A = x86 ∨ A = i686) : ∃ s, Holding A 0 [] 4000 s := by
  have howned := owned_smallSpaces A (n := 4096) (by decide)
  refine ⟨_, holding_created howned (smallSpaces_trans A 4096) ?_ ?_⟩ <;>
    rcases hA with rfl | rfl <;> decide +kernel

theorem Holding.not_full (h : Holding A c l n s) (hl : l.length < maxMappings) :
    s.full c = false := by
  obtain ⟨⟨own, extra, howned⟩, hslot, hfind, -⟩ := h
  obtain ⟨sp, hslot⟩ := Option.ne_none_iff_exists'.mp hslot
  have hfits := howned.spaces c sp hslot
  have hsub : sp.mappings.map Mapping.virt ⊆ l := by
    intro v hv
    obtain ⟨m, hm, rfl⟩ := mem_map.mp hv
    refine (hfind m.virt).mp ?_
    rw [Spaces.find, hslot]
    exact fun hnone => KeyedLists.find_eq_none.mp hnone m hm rfl
  have hle := (hfits.keys.subperm hsub).length_le
  rw [length_map] at hle
  simp only [Spaces.full, hslot, decide_eq_false_iff_not]
  omega

theorem Holding.cons (h : Holding A c l (n + 4) s) (hv : v ≠ 0) (hnew : v ∉ l)
    (hl : l.length < maxMappings) (hn : 2 ≤ n) : ∃ t, Holding A c (v :: l) n t := by
  have hfull := h.not_full hl
  obtain ⟨⟨own, extra, howned⟩, hslot, hfind, huser, hpages⟩ := h
  obtain ⟨sp, hslot⟩ := Option.ne_none_iff_exists'.mp hslot
  have hnone : s.find c v = none := not_not.mp fun hne => hnew ((hfind v).mp hne)
  let fl : Flags := ⟨true, true, false, false, false⟩
  have hends := vmmMapAllocated_fresh howned hslot hnone fl
  refine ⟨(vmmMapAllocated A c v fl s).state, ?_⟩
  unfold Ends at hends
  generalize (vmmMapAllocated A c v fl s).result = r at hends
  generalize (vmmMapAllocated A c v fl s).state = t at hends
  obtain ⟨hfew, own', ⟨e, rfl, -, -, hstuck⟩ | ⟨p, -, -, -, hturn, henters, -⟩⟩ := hends
  · rcases hstuck with hzero | ⟨-, hfull'⟩ | hless | hcovered
    · exact absurd hzero hv
    · rw [hfull] at hfull'
      cases hfull'
    · omega
    · exact absurd hcovered (huser.not_covered v)
  · obtain ⟨sp', l', -, hslot'⟩ := henters.slot
    refine ⟨⟨own', extra, hturn.owned⟩, by rw [hslot']; nofun, fun w => ?_,
      huser.enters hturn henters rfl, by omega⟩
    by_cases hw : w = v
    · simp [hw, henters.find]
    · rw [hturn.spares.find c w fun hcw => hw hcw.2, hfind, mem_cons]
      simp [hw]

theorem exists_holding (hA : A = x86 ∨ A = i686) (hnodup : l.Nodup)
    (hpos : ∀ v ∈ l, v ≠ 0) (hl : l.length ≤ maxMappings) :
    ∃ s, Holding A 0 l (4000 - 4 * l.length) s := by
  induction l with
  | nil => exact exists_holding_nil hA
  | cons v l ih =>
    obtain ⟨hv, hnodup⟩ := nodup_cons.mp hnodup
    have hlt : l.length < 512 := hl
    obtain ⟨s, hs⟩ := ih hnodup (fun w hw => hpos w (mem_cons_of_mem v hw)) (Nat.le_of_lt hlt)
    have hn : 4000 - 4 * l.length = 4000 - 4 * (v :: l).length + 4 := by
      rw [length_cons]
      omega
    rw [hn] at hs
    exact hs.cons (hpos v mem_cons_self) hv hlt (by rw [length_cons]; omega)

/-- Of two places in a list, one is before the other, or they are the same. -/
theorem place_cases {α : Type} {a b : α} {l l' r r' : List α} (h : l ++ a :: r = l' ++ b :: r') :
    a = b ∨ a ∈ l' ∨ b ∈ l := by
  rcases append_eq_append_iff.mp h with ⟨z, hz, hcons⟩ | ⟨z, hz, hcons⟩
  · cases z with
    | nil => exact .inl (cons.inj hcons).1
    | cons d z =>
      refine .inr (.inl ?_)
      rw [hz, (cons.inj hcons).1]
      exact mem_append_right _ mem_cons_self
  · cases z with
    | nil => exact .inl (cons.inj hcons).1.symm
    | cons d z =>
      refine .inr (.inr ?_)
      rw [hz, (cons.inj hcons).1]
      exact mem_append_right _ mem_cons_self

/-- Where the pages before `v` are there already, the loader comes to `v` and maps it. -/
theorem Serves.mapped {R before after : List (ℕ × Bool)} {B : Prop} {l' : List ℕ} (h : Holding A c l 6 s)
    (hl : ∀ w, w ∈ l ↔ w ∈ before.map Prod.fst) (hlength : l.length < maxMappings) (hv : v ≠ 0)
    (hR : R = before ++ (v, true) :: after) (hserves : Serves A c s t R B l' e)
    (hgains : Gains A c l' s own t own' extra) (huser : UserOnly A t c) : t.find c v ≠ none := by
  have hmapped : ∀ q ∈ before, s.find c q.1 ≠ none := fun q hq =>
    (h.2.2.1 q.1).mpr ((hl q.1).mpr (mem_map_of_mem hq))
  intro hnone
  have hmem : (v, true) ∈ R := hR ▸ mem_append_right _ mem_cons_self
  -- nothing was mapped: a new page comes after `v`
  have hnil : l' = [] := by
    refine eq_nil_iff_forall_not_mem.mpr fun w hw => ?_
    obtain ⟨before', after', hR', hbefore'⟩ := hserves.order w hw
    rcases place_cases (hR.symm.trans hR') with heq | hbefore | hbefore
    · exact hgains.mapped_new hw ((Prod.mk.inj heq).1 ▸ hnone)
    · exact (hbefore' _ hbefore).2 hnone
    · exact hmapped _ hbefore (hgains.new w hw).1
  subst hnil
  have hsame : ∀ w, t.find c w = s.find c w := fun w => hgains.find w not_mem_nil
  have hcosts := hserves.costs
  by_cases he : e = none
  · exact hserves.done he _ hmem hnone
  rcases hserves.halt he with ⟨-, hall⟩ | ⟨before', q, after', hR', hbefore', hq, hhalts⟩
  · exact hall _ hmem hnone
  have hqv : q = (v, true) := by
    rcases place_cases (hR.symm.trans hR') with heq | hbefore | hbefore
    · exact heq.symm
    · exact absurd hnone (hbefore' _ hbefore)
    · exact absurd (hsame q.1 ▸ hq) (hmapped q hbefore)
  rw [hqv] at hhalts
  obtain ⟨sp, l', hslot, hslot'⟩ := hgains.slot
  have hholds : Holding A c l 2 t := by
    refine ⟨⟨own', extra, hgains.turn.owned⟩, by rw [hslot']; nofun, fun w => ?_, huser, ?_⟩
    · rw [hsame]
      exact h.2.2.1 w
    · have hpages := h.2.2.2.2
      simp only [Costs, length_nil, he, if_false] at hcosts
      omega
  rcases hhalts rfl with hzero | hfull | hless | hcovered
  · exact hv hzero
  · rw [hholds.not_full hlength] at hfull
    cases hfull
  · have := hholds.2.2.2.2
    omega
  · exact huser.not_covered v hcovered

/-- The pages that `elf_load` maps are for users, from whatever state it runs, exactly if those are
that the file asks for. -/
theorem elfLoad_user_iff (hA : A = x86 ∨ A = i686) (image : Image) :
    (∀ s own extra c sp, Owned A s own extra → s.slots c = some sp →
      ∀ v, ElfMaps A image c s v → InUser A v) ↔ UserImage A image := by
  constructor
  · intro hall v hreaches
    obtain ⟨hv, before, after, hR, hbefore, hlength⟩ := hreaches
    obtain ⟨s, hs⟩ := exists_holding hA (nodup_dedup _)
      (fun w hw => by
        obtain ⟨q, hq, rfl⟩ := mem_map.mp (mem_dedup.mp hw)
        exact (hbefore q hq).2) (Nat.le_of_lt hlength)
    have hlength' : (before.map Prod.fst).dedup.length < 512 := hlength
    obtain ⟨⟨own, extra, howned⟩, hslot, hfind, huser, hpages⟩ := hs
    have hs : Holding A 0 (before.map Prod.fst).dedup 6 s :=
      ⟨⟨own, extra, howned⟩, hslot, hfind, huser, by omega⟩
    obtain ⟨sp, hslot⟩ := Option.ne_none_iff_exists'.mp hslot
    refine hall s own extra 0 sp howned hslot v ⟨not_not.mp fun hne => ?_, .inl ?_⟩
    · obtain ⟨q, hq, hqv⟩ := mem_map.mp (mem_dedup.mp ((hfind v).mp hne))
      exact (hbefore q hq).1 hqv
    · unfold imageRequests at hR
      unfold elfPages
      cases hparse : parseHeader A image with
      | error e => simp [hparse] at hR
      | ok hd =>
        rw [hparse] at hR
        have hends := loadSegments_ends image (loadBias A hd)
          ((range hd.phnum).map (parseSegment A image hd)) false [] howned hslot nodup_nil nofun
        obtain ⟨own', l, e, -, hgains, hserves, -, hfollows, -⟩ := hends
        obtain ⟨F, hF, -⟩ := hfollows fun _ => 0
        exact hserves.mapped hs (fun w => mem_dedup) hlength hv hR hgains (hF.user huser)
  · intro himage s own extra c sp howned hslot v hmaps
    refine himage v ?_
    obtain ⟨hnone, hmapped | hmapped⟩ := hmaps
    · unfold elfPages at hmapped
      unfold imageRequests
      cases hparse : parseHeader A image with
      | error e =>
        rw [hparse] at hmapped
        exact absurd hnone hmapped
      | ok hd =>
        rw [hparse] at hmapped
        have hends := loadSegments_ends image (loadBias A hd)
          ((range hd.phnum).map (parseSegment A image hd)) false [] howned hslot nodup_nil nofun
        obtain ⟨own', l, e, -, hgains, hserves, -⟩ := hends
        exact hgains.reaches hserves hnone hmapped
    · have hends := elfLoad_ends image howned hslot
      obtain ⟨own', ⟨e, -, hgains, -⟩ | ⟨hd, l, hparse, -, -, hgains, hserves, -⟩⟩ := hends
      · rw [hgains.find v not_mem_nil] at hmapped
        exact absurd hnone hmapped
      · unfold imageRequests
        rw [hparse]
        exact hgains.reaches hserves hnone hmapped

theorem elfLoad_user_tinyImage :
    ElfMaps i686 tinyImage 0 smallContext 0x400 ∧ InUser i686 0x400 := by
  obtain ⟨own, extra, root, howned, hslot⟩ := owned_smallContext
  have hmapped : ((elfLoad i686 tinyImage 0 smallContext).state.find 0 0x400).isSome = true := by
    decide +kernel
  have hmaps : ElfMaps i686 tinyImage 0 smallContext 0x400 := by
    refine ⟨?_, .inr (Option.ne_none_iff_isSome.mpr hmapped)⟩
    simp [Spaces.find, hslot, Space.find, KeyedLists.find]
  refine ⟨hmaps, (elfLoad_user_iff (.inr rfl) tinyImage).mpr ?_ _ own extra 0 _ howned hslot _ hmaps⟩
  rintro v ⟨-, before, after, hR, -⟩
  have hpages : ∀ q ∈ imageRequests i686 tinyImage, q.1 = 0x400 := by decide +kernel
  have hv : v = 0x400 := hpages (v, true) (hR ▸ mem_append_right _ mem_cons_self)
  intro a ha
  rw [hv, Nat.div_eq_iff (by decide)] at ha
  exact ⟨ha.1, Nat.lt_of_le_of_lt ha.2 (by decide)⟩

def strayImage : Image := (tinyImage.set 62 0).set 63 0x80

theorem elfLoad_strayImage : ∃ own extra sp, Owned i686 smallContext own extra ∧
    smallContext.slots 0 = some sp ∧ (elfLoad i686 strayImage 0 smallContext).result.isOk = true ∧
    ElfMaps i686 strayImage 0 smallContext 0x80000 ∧ ¬InUser i686 0x80000 := by
  obtain ⟨own, extra, root, howned, hslot⟩ := owned_smallContext
  refine ⟨own, extra, _, howned, hslot, by decide +kernel, ⟨?_, .inr ?_⟩, fun huser => ?_⟩
  · simp [Spaces.find, hslot, Space.find, KeyedLists.find]
  · have hmapped : ((elfLoad i686 strayImage 0 smallContext).state.find 0 0x80000).isSome = true := by
      decide +kernel
    exact Option.ne_none_iff_isSome.mpr hmapped
  · exact absurd (huser 0x80000000 rfl).2 (by decide)

end Tach.Ownership
