import Tach.Targets

/-!
What a function that fails has to give back. If the contexts are as before and no reference is
left over, so are the owners of all frames, up to a kernel stack that was handed out meanwhile;
the number of free frames follows.
-/

variable {F : Finset ℕ}

namespace Tach.Frames

variable {p p' : Pmm} {f n run first count : ℕ}

/-- A run of free frames that starts on the alignment. -/
def IsRun (p : Pmm) (count alignment g : ℕ) : Prop :=
  g ≠ 0 ∧ alignment ∣ g ∧ ∀ i < count, p.used (g + i) = false

/-- What a search finds below `stop`: the lowest run, or none where there is none. -/
def Lowest (p : Pmm) (count alignment stop : ℕ) : Option ℕ → Prop
  | some g => IsRun p count alignment g ∧ ∀ g' < g, ¬IsRun p count alignment g'
  | none => ∀ g, g + count ≤ stop → ¬IsRun p count alignment g

theorem findRun_spec {k : ℕ} (hf : f ≠ 0) (hrun : run < count)
    (hfirst : run ≠ 0 → first + run = f ∧ IsRun p run (2 ^ k) first)
    (hnone : ∀ g, g + run < f → ¬IsRun p count (2 ^ k) g) :
    Lowest p count (2 ^ k) (f + n) (p.findRun count (2 ^ k) n f run first) := by
  induction n generalizing f run first with
  | zero => exact fun g hg => hnone g (by omega)
  | succ n ih =>
    rw [Pmm.findRun, Nat.and_two_pow_sub_one_eq_mod, Nat.add_comm n, ← Nat.add_assoc]
    split
    · rename_i hskip
      refine ih f.succ_ne_zero hrun (fun hne => absurd hskip.1 hne) fun g hg hgood => ?_
      obtain rfl | hlt : g = f ∨ g + run < f := by omega
      · exact hskip.2 (Nat.mod_eq_zero_of_dvd hgood.2.1)
      · exact hnone g hlt hgood
    rename_i hskip
    split
    · rename_i hused
      -- the run goes on with `f`, or starts there
      obtain ⟨hstart, hgood⟩ : (if run = 0 then f else first) + run = f ∧
          IsRun p (run + 1) (2 ^ k) (if run = 0 then f else first) := by
        by_cases hzero : run = 0
        · rw [if_pos hzero, hzero]
          refine ⟨rfl, hf, Nat.dvd_of_mod_eq_zero (not_not.mp fun h => hskip ⟨hzero, h⟩), ?_⟩
          intro i hi
          rwa [Nat.lt_one_iff.mp hi]
        · rw [if_neg hzero]
          obtain ⟨hstart, hne, hdvd, hfree⟩ := hfirst hzero
          refine ⟨hstart, hne, hdvd, fun i hi => ?_⟩
          obtain hi | rfl := Nat.lt_succ_iff_lt_or_eq.mp hi
          · exact hfree i hi
          · rwa [hstart]
      split
      · rename_i hcount
        rw [← hcount] at hnone ⊢
        exact ⟨hgood, fun g hg => hnone g (by omega)⟩
      · exact ih f.succ_ne_zero (by omega) (fun _ => ⟨by omega, hgood⟩)
          fun g hg => hnone g (by omega)
    · rename_i hused
      refine ih f.succ_ne_zero (by omega) (fun hne => absurd rfl hne) fun g hg hgood => ?_
      by_cases hlt : g + run < f
      · exact hnone g hlt hgood
      · have hfree := hgood.2.2 (f - g) (by omega)
        rw [Nat.add_sub_cancel' (by omega)] at hfree
        exact hused hfree

theorem allocAlignedPages_spec (p : Pmm) (k : ℕ) (hcount : count ≠ 0) :
    ∃ r, Lowest p count (2 ^ k) (1 + (p.limit - 1)) r ∧ p.allocAlignedPages count (2 ^ k) =
      r.map fun first => (first, p.takeRun first count) := by
  have hpow := Nat.two_pow_pos k
  refine ⟨p.findRun count (2 ^ k) (p.limit - 1) 1 0 0, findRun_spec Nat.one_ne_zero
    (Nat.pos_of_ne_zero hcount) (fun h => absurd rfl h) fun g hg hgood => hgood.1 (by omega), ?_⟩
  rw [Pmm.allocAlignedPages, if_neg (by omega)]
  split <;>
  · rename_i hfind
    rw [hfind]
    rfl

theorem allocPages_spec (h : p.allocPages n = some (first, p')) :
    p' = p.takeRun first n ∧ ∀ i < n, p.used (first + i) = false := by
  have hn : n ≠ 0 := by
    rintro rfl
    cases h
  obtain ⟨r, hlowest, hr⟩ := allocAlignedPages_spec p 0 hn
  obtain ⟨g, rfl, hg⟩ := Option.map_eq_some_iff.mp (hr.symm.trans h)
  cases hg
  exact ⟨rfl, hlowest.1.2.2⟩

/-- The free frames without those of `F`. -/
theorem freePages_of_used (hp : p.Counted) (hp' : p'.Counted)
    (hused : ∀ f, p'.used f = true ↔ p.used f = true ∨ f ∈ F) (hfree : ∀ f ∈ F, p.used f = false) :
    p'.freePages + F.card = p.freePages := by
  have hset : ((Finset.range maxFrames).filter fun f => p'.used f = false) ∪ F =
      (Finset.range maxFrames).filter fun f => p.used f = false := by
    ext f
    simp only [Finset.mem_union, Finset.mem_filter, Finset.mem_range, ← Bool.not_eq_true, hused]
    constructor
    · rintro (⟨hlt, hf⟩ | hf)
      · exact ⟨hlt, fun hu => hf (.inl hu)⟩
      · have hunused := hfree f hf
        exact ⟨hp.bound f hunused, by rw [hunused]; nofun⟩
    · rintro ⟨hlt, hf⟩
      by_cases hF : f ∈ F
      · exact .inr hF
      · exact .inl ⟨hlt, fun hu => hu.elim hf hF⟩
  have hdisjoint : Disjoint ((Finset.range maxFrames).filter fun f => p'.used f = false) F := by
    refine Finset.disjoint_left.mpr fun f hf hF => ?_
    rw [Finset.mem_filter, (hused f).mpr (.inr hF)] at hf
    exact absurd hf.2 nofun
  rw [hp'.count, hp.count, ← hset, Finset.card_union_of_disjoint hdisjoint]

theorem freePages_lt (hp : p.Counted) (hp' : p'.Counted)
    (hused : ∀ f, p.used f = true → p'.used f = true) (hf : p.used f = false)
    (hf' : p'.used f = true) : p'.freePages < p.freePages := by
  rw [hp.count, hp'.count]
  refine Finset.card_lt_card (Finset.ssubset_iff_of_subset (fun g hg => ?_) |>.mpr ⟨f, ?_, ?_⟩)
  · rw [Finset.mem_filter] at hg ⊢
    refine ⟨hg.1, Bool.of_not_eq_true fun hu => ?_⟩
    rw [hused g hu] at hg
    exact absurd hg.2 nofun
  · exact Finset.mem_filter.mpr ⟨Finset.mem_range.mpr (hp.bound f hf), hf⟩
  · rw [Finset.mem_filter, hf']
    exact fun hmem => absurd hmem.2 nofun

end Tach.Frames

namespace Tach.Paging

open Frames

variable {A : PageTables} {m₀ m : Machine} {k root : ℕ} {N : Set ℕ}

/-- A call on a root, which may fail. -/
inductive TableCall
  | map (v p : ℕ) (fl : Flags)
  | unmap (v : ℕ)

namespace TableCall

def run (A : PageTables) (root : ℕ) (m : Machine) : TableCall → Machine
  | map v p fl => (A.map m root v p fl).2
  | unmap v => (A.unmap m root v).2

/-- A page that is mapped is one that the allocator can manage. -/
def Physical : TableCall → Prop
  | map _ p _ => p < maxFrames
  | unmap _ => True

end TableCall

/-- The tables of a root are all that was taken since `m₀`. -/
structure Holding (A : PageTables) (m₀ m : Machine) (root : ℕ) : Prop where
  good : A.good m.ram root
  grows : Grows m₀ m (A.tables m.ram root)

namespace Holding

variable (h : Holding A m₀ m root)
include h

theorem ready : A.Ready m root :=
  ⟨h.grows.sound, h.good, fun f hf => (h.grows.used f).mpr (.inr hf)⟩

theorem within {m' : Machine} (hw : A.Within m m' root N) : Holding A m₀ m' root := by
  refine ⟨hw.good, ?_⟩
  rw [hw.tables]
  exact h.grows.trans hw.grows

theorem step {call : TableCall} (hcall : call.Physical) :
    Holding A m₀ (call.run A root m) root := by
  cases call with
  | map v p fl =>
    obtain ⟨N, hmaps⟩ := A.map_spec m root v p fl h.ready hcall
    exact h.within hmaps.within
  | unmap v =>
    by_cases hslot : A.hasSlot m.ram root v
    · exact h.within (A.unmap_spec m root v h.ready hslot).within
    · rw [TableCall.run, A.unmap_none m root v h.ready hslot]
      exact h

theorem run {calls : List TableCall} (hcalls : ∀ c ∈ calls, c.Physical) :
    Holding A m₀ (calls.foldl (TableCall.run A root) m) root := by
  induction calls generalizing m with
  | nil => exact h
  | cons c calls ih =>
    exact ih (h.step (hcalls c List.mem_cons_self)) fun d hd => hcalls d (List.mem_cons_of_mem c hd)

/-- Without its tables the machine has the free frames of before. -/
theorem destroyed (hs : m₀.pmm.Sound) (hne : root ≠ k) :
    (A.destroyRoot k m root).pmm.freePages = m₀.pmm.freePages := by
  have hdrops := A.destroyRoot_spec k m root h.ready hne fun f hf => by
    obtain ⟨-, hpos, hlt⟩ := hs.free f (h.grows.fresh f hf)
    exact ⟨h.grows.taken f hf, hpos, by rwa [h.grows.limit]⟩
  refine freePages_of_used hs.counted hdrops.sound.counted (F := ∅) (fun f => ?_) nofun
  rw [hdrops.used, h.grows.used]
  constructor
  · rintro ⟨hused | hf, hnot⟩
    · exact .inl hused
    · exact absurd hf hnot
  · rintro (hused | hf)
    · exact ⟨.inl hused, h.grows.notMem_of_used hused⟩
    · cases hf

end Holding

/-- The root of the kernel in frame 1 has two tables, and two frames are free. -/
def twoTables : Machine :=
  ⟨⟨fun f => decide (f < 4 ∨ 6 ≤ f), fun f => if f < 4 then 1 else 0, 6, 4, 2, 6⟩,
    fun f i => if f = 1 ∧ i < 2 then (i + 2) * 4096 + 3 else 0⟩

end Tach.Paging

namespace Tach.Ownership

open Frames Paging Vmm

variable {A : Arch} {s t : Spaces} {own own' : ℕ → Owner} {extra extra' : ℕ → ℕ}
variable {c : Context} {W T : Context → ℕ → Prop} {f i first n : ℕ} {mach : Machine}

/-- The architecture with an `arch_paging_create_root` that keeps no frame when it fails. -/
def balanced (A : Arch) : Arch :=
  { A with
    createRoot := fun k m =>
      match A.createRoot k m with
      | (none, _) => (none, m)
      | (some root, m') => (some root, m')
    createRoot_some := by
      intro k m root m' hready hroot
      refine A.createRoot_some k m root m' hready ?_
      split at hroot
      · cases hroot
      · rename_i heq
        rw [heq, hroot]
    createRoot_none := by
      intro k m m' hready hroot
      refine ⟨∅, ?_⟩
      split at hroot
      · cases hroot
        exact ⟨.refl hready.sound, fun _ _ => rfl⟩
      · cases hroot }

theorem balanced_balanced (A : Arch) : Balanced (balanced A) := by
  intro k m m' _ hroot
  simp only [balanced] at hroot
  split at hroot
  · cases hroot
    exact ⟨rfl, rfl⟩
  · cases hroot

/-- The frames from `first` on are handed out. -/
theorem grows_takeRun (m : Machine) (hs : m.pmm.Sound)
    (hfree : ∀ i < n, m.pmm.used (first + i) = false) :
    Grows m { m with pmm := m.pmm.takeRun first n } (Finset.Ico first (first + n)) := by
  induction n with
  | zero =>
    have hnone : ((Finset.Ico first (first + 0) : Finset ℕ) : Set ℕ) = ∅ := by simp
    rw [hnone]
    exact .refl hs
  | succ n ih =>
    have hbefore := ih fun i hi => hfree i (by omega)
    have hunused : (m.pmm.takeRun first n).used (first + n) = false := by
      refine Bool.of_not_eq_true fun hused => ?_
      rcases (hbefore.used (first + n)).mp hused with hused | hmem
      · rw [hfree n (by omega)] at hused
        cases hused
      · have := Finset.mem_Ico.mp hmem
        omega
    have hset : ((Finset.Ico first (first + (n + 1)) : Finset ℕ) : Set ℕ) =
        ((Finset.Ico first (first + n) : Finset ℕ) : Set ℕ) ∪ {first + n} := by
      ext f
      simp only [Finset.coe_Ico, Set.mem_Ico, Set.mem_union, Set.mem_singleton_iff]
      omega
    rw [hset]
    exact hbefore.trans (Grows.of_takes (takes_take hunused) hbefore.sound)

/-- The owners after the frames `F` became a stack. -/
def stacked (own : ℕ → Owner) (i : ℕ) (F : Finset ℕ) (f : ℕ) : Owner :=
  if f ∈ F then .stack i else own f

theorem Owned.granted (h : Owned A s own extra) (hg : Grows s.mach mach F)
    (hram : mach.ram = s.mach.ram) : Owned A { s with mach := mach } (stacked own i F) extra := by
  have hkeep : ∀ f, own f ≠ .free → stacked own i F f = own f := fun f hf =>
    if_neg (hg.notMem_of_used ((h.used f).mpr hf))
  refine h.handed rfl rfl hg.sound (fun f => ?_)
    (fun f hf => ⟨(hkeep f (by rw [hf]; nofun)).trans hf, by rw [hram]⟩)
    (fun f hf _ => (hkeep f (by rw [hf]; nofun)).trans hf)
    fun c => .inl ⟨rfl, fun f => ⟨?_, fun _ => by rw [hram]⟩⟩
  · by_cases hF : f ∈ F
    · simp only [stacked, if_pos hF]
      exact h.tallied_taken hg hF (o := .stack i) trivial _
    · simp only [stacked, if_neg hF]
      exact h.tallied_off hg hF (fun _ => rfl) fun _ => rfl
  · by_cases hF : f ∈ F
    · simp [stacked, hF, h.free_of_unused (hg.fresh f hF)]
    · simp only [stacked, if_neg hF]

/-- A frame that may have changed hands is back with its owner. -/
theorem Owned.restored (h : Owned A s own extra) (h' : Owned A t own' extra)
    (hslots : t.slots = s.slots) (hc : s.slots c = none)
    (hsettled : own' f = own f ∨ Loose c (own f) ∧ Loose c (own' f)) : own' f = own f := by
  have huses : uses t f = uses s f := by simp only [uses, hslots]
  have hdata : own' f = .data ↔ own f = .data := by
    refine ⟨fun hf => ?_, fun hf => ?_⟩
    · by_contra hne
      obtain ⟨hrefs, hpos, -⟩ := h'.data f hf
      rw [hrefs, huses, h.uses_eq_zero hne, Nat.zero_add] at hpos
      have hspare := h.spare f (by omega)
      rcases hsettled with heq | ⟨hloose, -⟩
      · exact hne (heq ▸ hf)
      · rcases hspare with ho | ho | ho
        · exact hne ho
        all_goals simp [Loose, ho] at hloose
    · by_contra hne
      obtain ⟨hrefs, hpos, -⟩ := h.data f hf
      rw [hrefs, ← huses, h'.uses_eq_zero hne, Nat.zero_add] at hpos
      have hspare := h'.spare f (by omega)
      rcases hsettled with heq | ⟨-, hloose⟩
      · exact hne (heq.trans hf)
      · rcases hspare with ho | ho | ho
        · exact hne ho
        all_goals simp [Loose, ho] at hloose
  rcases hsettled with heq | ⟨hloose, hloose'⟩
  · exact heq
  rcases hloose with ho | ho | ho
  · rcases hloose' with ho' | ho' | ho'
    · rw [ho, ho']
    · rw [hdata.mp ho'] at ho
      cases ho
    · exact absurd (hslots ▸ hc) (h'.vacant c f ho')
  · rw [ho, hdata.mpr ho]
  · exact absurd hc (h.vacant c f ho)

/-- The allocator is as before, but for a stack. -/
theorem Owned.freePages_stacked (h : Owned A s own extra)
    (h' : Owned A t (stacked own i F) extra) (hF : ∀ f ∈ F, own f = .free) :
    t.mach.pmm.freePages + F.card = s.mach.pmm.freePages := by
  refine freePages_of_used h.sound.counted h'.sound.counted (fun f => ?_) fun f hf => ?_
  · rw [h'.used, h.used]
    by_cases hf : f ∈ F
    · simp [stacked, hf]
    · simp [stacked, hf]
  · refine Bool.of_not_eq_true fun hused => ?_
    exact (h.used f).mp hused (hF f hf)

section Aside

variable {u : Spaces} {own'' : ℕ → Owner} {extra'' : ℕ → ℕ} {F : Finset ℕ}

/-- Work aside in a context `c` that was not used before, while the frames `F` became a stack. -/
structure Aside (A : Arch) (c : Context) (i : ℕ) (F : Finset ℕ) (s : Spaces) (own : ℕ → Owner)
    (t : Spaces) (own' : ℕ → Owner) (extra' : ℕ → ℕ) : Prop where
  owned : Owned A t own' extra'
  fresh : ∀ f ∈ F, own f = .free ∧ own' f = .stack i
  settled : ∀ f, f ∉ F → own' f = own f ∨ Loose c (own f) ∧ Loose c (own' f)
  spares : Spares A (all c) (all c) s t
  slots : ∀ d, d ≠ c → t.slots d = s.slots d
  active : t.active = s.active

theorem Aside.of_turn (h : Turn A c (all c) (all c) s own t own' extra') :
    Aside A c i ∅ s own t own' extra' :=
  ⟨h.owned, nofun, fun f _ => h.settled f, h.spares, h.slots, h.active⟩

theorem Aside.turn (h : Aside A c i F s own t own' extra')
    (h' : Turn A c (all c) (all c) t own' u own'' extra'') : Aside A c i F s own u own'' extra'' := by
  refine ⟨h'.owned, fun f hf => ⟨(h.fresh f hf).1, ?_⟩, fun f hf => ?_, h.spares.trans' h'.spares,
    fun d hd => (h'.slots d hd).trans (h.slots d hd), h'.active.trans h.active⟩
  · rcases h'.settled f with heq | ⟨hloose, -⟩
    · rw [heq, (h.fresh f hf).2]
    · simp [Loose, (h.fresh f hf).2] at hloose
  · rcases h.settled f hf with heq | ⟨hloose, hloose'⟩
    · rw [← heq]
      exact h'.settled f
    · rcases h'.settled f with heq' | ⟨-, hloose''⟩
      · rw [heq']
        exact .inr ⟨hloose, hloose'⟩
      · exact .inr ⟨hloose, hloose''⟩

/-- A frame that is free while other contexts are as before was free before. -/
theorem Turn.free_before (hturn : Turn A c W T s own t own' extra) (h : Owned A s own extra)
    (hc : s.slots c = none) (hf : own' f = .free) : own f = .free := by
  rcases hturn.settled f with heq | ⟨ho | ho | ho, -⟩
  · rw [← heq, hf]
  · exact ho
  · have hzero : uses t f = 0 := hturn.owned.uses_eq_zero (by rw [hf]; nofun)
    have hspare : extra f = 0 := by
      by_contra hne
      simpa [hf] using hturn.owned.spare f hne
    have hle : uses s f ≤ uses t f := by
      refine Finset.sum_le_sum fun d _ => ?_
      by_cases hd : d = c
      · rw [hd, hc]
        exact Nat.zero_le _
      · rw [hturn.slots d hd]
    obtain ⟨hrefs, hpos, -⟩ := h.data f ho
    omega
  · exact absurd hc (h.vacant c f ho)

/-- A frame of a page that was left over is not free any more. -/
theorem Turn.freePages_lt (hturn : Turn A c W T s own t own' extra') (h : Owned A s own extra)
    (hc : s.slots c = none) (hnone : ∀ f, own f ≠ .data) (hf : own f = .free) (hf' : extra' f ≠ 0) :
    t.mach.pmm.freePages < s.mach.pmm.freePages := by
  refine Frames.freePages_lt h.sound.counted hturn.owned.sound.counted (fun g hg => ?_) (f := f) ?_ ?_
  · have hg := (h.used g).mp hg
    rw [hturn.owned.used]
    rcases hturn.settled g with heq | ⟨ho | ho | ho, -⟩
    · rwa [heq]
    · exact absurd ho hg
    · exact absurd ho (hnone g)
    · exact absurd hc (h.vacant c g ho)
  · exact Bool.of_not_eq_true fun hu => (h.used f).mp hu hf
  · rw [hturn.owned.used]
    rcases hturn.owned.spare f hf' with ho | ho | ho
    all_goals
      rw [ho]
      nofun

theorem Turn.aside (hturn : Turn A c (all c) (all c) s own t own' extra) (h : Owned A s own extra)
    (hc : s.slots c = none) (hg : Grows t.mach mach F) (hram : mach.ram = t.mach.ram) :
    Aside A c i F s own { t with mach := mach } (stacked own' i F) extra := by
  refine ⟨hturn.owned.granted hg hram, fun f hf => ⟨?_, if_pos hf⟩, fun f hf => ?_,
    hturn.spares.trans' ?_, hturn.slots, hturn.active⟩
  · exact hturn.free_before h hc (hturn.owned.free_of_unused (hg.fresh f hf))
  · rw [stacked, if_neg hf]
    exact hturn.settled f
  · exact hturn.owned.spares_of_ram fun f _ _ => by rw [hram]

/-- Once the context is gone again, only the stack is left of it. -/
theorem Aside.restored (haside : Aside A c i F s own t own' extra) (h : Owned A s own extra)
    (hslots : t.slots = s.slots) (hc : s.slots c = none) : own' = stacked own i F := by
  funext f
  by_cases hf : f ∈ F
  · rw [stacked, if_pos hf, (haside.fresh f hf).2]
  · rw [stacked, if_neg hf]
    exact h.restored haside.owned hslots hc (haside.settled f hf)

end Aside

end Tach.Ownership
