import Tach.FramesInit
import Tach.Rollbacks

/-!
Runs of the frame allocator from `pmm_init` on, with the addresses that its callers pass. Beside the
allocator a ledger says how each frame stands with its callers; it knows the calls and their
results, not the reference counts.
-/

namespace Tach.Frames

open Function Paging

inductive Call
  | allocFrame
  | allocAlignedPages (count exponent : ℕ)
  | retainFrame (address : ℕ)
  | freeFrame (address : ℕ)
  | freePages (pages count : ℕ)

/-- A frame since it was last handed out: retained `k` times more than freed, or freed once more
than retained. -/
inductive Standing
  | reserved
  | held (k : ℕ)
  | returned

def Standing.retained : Standing → Standing
  | held k => held (k + 1)
  | x => x

def Standing.freed : Standing → Standing
  | held (k + 1) => held k
  | held 0 => returned
  | x => x

structure Ledger where
  pmm : Pmm
  standing : ℕ → Standing

/-- `pmm_free_frame` of an address. -/
def Pmm.freeAt (p : Pmm) (address : ℕ) : Pmm :=
  if address % pageSize = 0 then p.freeFrame (address / pageSize) else p

namespace Ledger

/-- The answer of an allocation of `count` frames. -/
def granted (w : Ledger) (count : ℕ) : Option (ℕ × Pmm) → Ledger
  | none => w
  | some (first, p) =>
    ⟨p, fun f => if first ≤ f ∧ f < first + count then .held 0 else w.standing f⟩

def retain (w : Ledger) (address : ℕ) : Ledger :=
  if address % pageSize = 0 then
    match w.pmm.retainFrame (address / pageSize) with
    | none => w
    | some p => ⟨p, update w.standing (address / pageSize) (w.standing (address / pageSize)).retained⟩
  else w

def free (w : Ledger) (address : ℕ) : Ledger :=
  ⟨w.pmm.freeAt address, if address % pageSize = 0 then
    update w.standing (address / pageSize) (w.standing (address / pageSize)).freed else w.standing⟩

/-- A call, on a target with addresses of `bits` bits. -/
def run (bits : ℕ) (w : Ledger) : Call → Ledger
  | .allocFrame => w.granted 1 w.pmm.allocFrame
  | .allocAlignedPages count exponent =>
    w.granted count (w.pmm.allocAlignedPages count (2 ^ exponent))
  | .retainFrame address => w.retain address
  | .freeFrame address => w.free address
  | .freePages pages count =>
    (List.range count).foldl (fun w i => w.free ((pages + i * pageSize) % 2 ^ bits)) w

/-- What the ledger says about a frame is so. -/
def Holds (p : Pmm) (f : ℕ) : Standing → Prop
  | .reserved => True
  | .held k => p.used f = true ∧ p.refs f = k + 1 ∧ f ≠ 0 ∧ f < p.limit
  | .returned => p.used f = false

structure Agrees (w : Ledger) : Prop where
  sound : w.pmm.Sound
  refs : ∀ f, w.pmm.refs f ≤ refSaturated
  holds : ∀ f, Holds w.pmm f (w.standing f)

variable {w : Ledger} {p q : Pmm} {f first count : ℕ} {x : Standing}

theorem Holds.congr (h : Holds p f x) (hused : q.used f = p.used f) (hrefs : q.refs f = p.refs f)
    (hlimit : q.limit = p.limit) : Holds q f x := by
  cases x with
  | reserved => trivial
  | held k => exact ⟨hused.trans h.1, hrefs.trans h.2.1, h.2.2.1, hlimit ▸ h.2.2.2⟩
  | returned => exact hused.trans h

theorem Agrees.granted {ram : ℕ → ℕ → ℕ} (h : w.Agrees)
    (hg : Grows ⟨w.pmm, ram⟩ ⟨p, ram⟩ (Finset.Ico first (first + count))) :
    (w.granted count (some (first, p))).Agrees := by
  refine ⟨hg.sound, fun f => ?_, fun f => ?_⟩
  · by_cases hmem : f ∈ Finset.Ico first (first + count)
    · exact (hg.taken f hmem).trans_le (by decide)
    · exact (hg.kept f hmem).trans_le (h.refs f)
  · change Holds p f (if _ then _ else _)
    split
    · rename_i hmem
      have hmem := Finset.mem_Ico.mpr hmem
      obtain ⟨-, hpos, hlt⟩ := h.sound.free f (hg.fresh f hmem)
      exact ⟨(hg.used f).mpr (.inr hmem), hg.taken f hmem, by omega, hlt.trans_eq hg.limit.symm⟩
    · rename_i hout
      have hmem : f ∉ (Finset.Ico first (first + count) : Set ℕ) := by simpa using hout
      refine (h.holds f).congr (Bool.eq_iff_iff.mpr ?_) (hg.kept f hmem) hg.limit
      exact (hg.used f).trans ⟨fun h => h.resolve_right hmem, .inl⟩

theorem Agrees.changed (h : w.Agrees) (hsound : p.Sound) (hlimit : p.limit = w.pmm.limit)
    (hother : ∀ g, g ≠ f → p.refs g = w.pmm.refs g ∧ p.used g = w.pmm.used g)
    (hrefs : p.refs f ≤ refSaturated) (hx : Holds p f x) :
    (⟨p, update w.standing f x⟩ : Ledger).Agrees := by
  refine ⟨hsound, fun g => ?_, fun g => ?_⟩
  · by_cases hg : g = f
    · rwa [hg]
    · exact (hother g hg).1.trans_le (h.refs g)
  · change Holds p g (update w.standing f x g)
    by_cases hg : g = f
    · rwa [hg, update_self]
    · rw [update_of_ne hg]
      exact (h.holds g).congr (hother g hg).2 (hother g hg).1 hlimit

theorem Agrees.retain (h : w.Agrees) (address : ℕ) : (w.retain address).Agrees := by
  unfold Ledger.retain
  split
  swap
  · exact h
  generalize address / pageSize = f
  split
  · exact h
  rename_i p hp
  unfold Pmm.retainFrame at hp
  split at hp
  · cases hp
  split at hp
  swap
  · cases hp
  rename_i hok
  cases hp
  have hmax := h.refs f
  refine h.changed ⟨fun g hg => ?_, h.sound.start, h.sound.limit, h.sound.counted.bound,
    h.sound.counted.count⟩ rfl (fun g hg => ⟨update_of_ne hg _ _, rfl⟩) ?_ ?_
  · have hne : g ≠ f := by
      rintro rfl
      rw [hok.1] at hg
      cases hg
    simp only [update_of_ne hne]
    exact h.sound.free g hg
  · simp only [update_self]
    omega
  · have hold := h.holds f
    generalize w.standing f = x at hold ⊢
    cases x with
    | reserved => trivial
    | held k => exact ⟨hold.1, (update_self f _ _).trans (congrArg _ hold.2.1), hold.2.2⟩
    | returned => exact hold

theorem freeFrame_idle (h : ¬(p.used f = true ∧ p.refs f ≠ 0 ∧ f ≠ 0 ∧ f < p.limit)) :
    p.freeFrame f = p := by
  unfold Pmm.freeFrame
  split
  · rfl
  · rename_i hrange
    exact if_neg fun hused => h ⟨hused.1, hused.2, by omega, by omega⟩

theorem Agrees.free (h : w.Agrees) (address : ℕ) : (w.free address).Agrees := by
  unfold Ledger.free Pmm.freeAt
  split
  swap
  · exact h
  generalize address / pageSize = f
  have hold := h.holds f
  by_cases hok : w.pmm.used f = true ∧ w.pmm.refs f ≠ 0 ∧ f ≠ 0 ∧ f < w.pmm.limit
  swap
  · rw [freeFrame_idle hok]
    refine h.changed h.sound rfl (fun _ _ => ⟨rfl, rfl⟩) (h.refs f) ?_
    generalize w.standing f = x at hold ⊢
    cases x with
    | reserved => trivial
    | held k => exact absurd ⟨hold.1, by rw [hold.2.1]; nofun, hold.2.2⟩ hok
    | returned => exact hold
  obtain ⟨hrefs, hused, hlimit⟩ := freeFrame_spec hok.2.2.1 hok.2.2.2 hok.1 hok.2.1
  refine h.changed (freeFrame_sound h.sound f) hlimit (fun g => freeFrame_other _) ?_ ?_
  · rw [hrefs, update_self]
    exact (Nat.sub_le _ _).trans (h.refs f)
  · generalize w.standing f = x at hold ⊢
    cases x with
    | reserved => trivial
    | held k =>
      cases k with
      | zero => simp [Standing.freed, Holds, hused, hold.2.1]
      | succ k => simp [Standing.freed, Holds, hused, hrefs, hold.2.1, hlimit, hok.2.2]
    | returned => exact absurd (hold.symm.trans hok.1) nofun

theorem Agrees.run (h : w.Agrees) (bits : ℕ) (c : Call) : (w.run bits c).Agrees := by
  cases c with
  | allocFrame =>
    rw [Ledger.run]
    cases halloc : w.pmm.allocFrame with
    | none => exact h
    | some r =>
      have hg : Grows ⟨w.pmm, 0⟩ ⟨r.2, 0⟩ {r.1} := .of_takes (allocFrame_takes halloc) h.sound
      rw [← Finset.coe_singleton, ← Nat.Ico_succ_singleton] at hg
      exact h.granted hg
  | allocAlignedPages count exponent =>
    rw [Ledger.run]
    by_cases hcount : count = 0
    · rwa [Pmm.allocAlignedPages, if_pos (.inl hcount)]
    obtain ⟨r, hlowest, hr⟩ := allocAlignedPages_spec w.pmm exponent hcount
    rw [hr]
    cases r with
    | none => exact h
    | some first => exact h.granted (Ownership.grows_takeRun ⟨w.pmm, 0⟩ h.sound hlowest.1.2.2)
  | retainFrame address => exact h.retain address
  | freeFrame address => exact h.free address
  | freePages pages count =>
    rw [Ledger.run]
    generalize List.range count = l
    induction l generalizing w with
    | nil => exact h
    | cons i l ih => exact ih (h.free _)

end Ledger

theorem pmmInit_sound (bits kernelStart kernelEnd : ℕ) (map : List Region) :
    (pmmInit bits kernelStart kernelEnd map).Sound := by
  have hmarked := pmmInit_marked bits kernelStart kernelEnd map
  have hlow : ∀ f, (pmmInit bits kernelStart kernelEnd map).used f = false →
      1 ≤ f ∧ f < (pmmInit bits kernelStart kernelEnd map).limit := by
    intro f hf
    obtain ⟨p, hlimit, -, hused, hinit⟩ := pmmInit_passes bits map f
    rw [hinit] at hf ⊢
    simp only [markRegionUsed_used, (markRegionUsed_keeps _ _ _).limit, hlimit, hused] at hf ⊢
    obtain ⟨⟨⟨⟨hlt, -⟩, hzero⟩, -⟩, -⟩ := hf
    refine ⟨Nat.pos_of_ne_zero ?_, hlt⟩
    rintro rfl
    exact hzero ⟨by decide, hlt⟩
  refine ⟨fun f hf => ⟨(hmarked.refs f).2 hf, hlow f hf⟩, hmarked.start.ge, ?_, hmarked.counted⟩
  obtain ⟨p, hlimit, -, -, hinit⟩ := pmmInit_passes bits map 0
  rw [hinit]
  simp only [(markRegionUsed_keeps _ _ _).limit, hlimit]
  exact Nat.min_le_right _ _

/-- What the calls answer is what the bitmap says. -/
structure Pmm.Exact (p : Pmm) : Prop where
  count : p.freePages = ((Finset.range p.limit).filter fun f => p.used f = false).card
  allocFrame : p.allocFrame = none ↔ ∀ f < p.limit, p.used f = true
  fresh : ∀ f p', p.allocFrame = some (f, p') → f ≠ 0 ∧ p.used f = false
  allocAlignedPages : ∀ count k, count ≠ 0 →
    Lowest p count (2 ^ k) p.limit ((p.allocAlignedPages count (2 ^ k)).map Prod.fst)
  idle : ∀ a, ¬(a % pageSize = 0 ∧ p.used (a / pageSize) = true) → p.freeAt a = p
  refs : ∀ f, p.refs f ≤ refSaturated

theorem Ledger.Agrees.exact {w : Ledger} (h : w.Agrees) : w.pmm.Exact where
  count := by
    refine h.sound.counted.count.trans (congrArg Finset.card ?_)
    ext f
    simp only [Finset.mem_filter, Finset.mem_range]
    refine and_congr_left fun hf => ⟨fun _ => (h.sound.free f hf).2.2, fun hlt => ?_⟩
    exact hlt.trans_le h.sound.limit
  allocFrame := by
    refine ⟨fun hnone f _ => allocFrame_none h.sound hnone, fun hused => ?_⟩
    by_contra hsome
    obtain ⟨⟨f, p⟩, hsome⟩ := Option.ne_none_iff_exists'.mp hsome
    have hfree := (allocFrame_takes hsome).free
    rw [hused f (h.sound.free f hfree).2.2] at hfree
    cases hfree
  fresh f p hsome := by
    have hfree := (allocFrame_takes hsome).free
    exact ⟨Nat.ne_of_gt (h.sound.free f hfree).2.1, hfree⟩
  allocAlignedPages count k hcount := by
    obtain ⟨r, hlowest, hr⟩ := allocAlignedPages_spec w.pmm k hcount
    rw [hr]
    cases r with
    | none => exact fun g hg => hlowest g (by omega)
    | some g => exact hlowest
  idle a ha := by
    unfold Pmm.freeAt
    split
    · rename_i haligned
      exact freeFrame_idle fun hused => ha ⟨haligned, hused.1⟩
    · rfl
  refs := h.refs

/-- The allocator after any calls, and what its callers know of its frames. -/
theorem allocator_exact (bits kernelStart kernelEnd : ℕ) (map : List Region) (calls : List Call) :
    let w := calls.foldl (Ledger.run bits) ⟨pmmInit bits kernelStart kernelEnd map, fun _ => .reserved⟩
    w.pmm.Exact ∧ ∀ f, Ledger.Holds w.pmm f (w.standing f) := by
  have hrun : ∀ w : Ledger, w.Agrees → (calls.foldl (Ledger.run bits) w).Agrees := by
    induction calls with
    | nil => exact fun w h => h
    | cons c calls ih => exact fun w h => ih _ (h.run bits c)
  have hstart : Ledger.Agrees ⟨pmmInit bits kernelStart kernelEnd map, fun _ => .reserved⟩ :=
    ⟨pmmInit_sound _ _ _ _, fun f => ((pmmInit_marked bits kernelStart kernelEnd map).refs f).1.trans
      (by decide), fun _ => trivial⟩
  exact ⟨(hrun _ hstart).exact, (hrun _ hstart).holds⟩

end Tach.Frames
