import Tach.Chains
import Tach.FatTable

/-!
What the sectors of a volume mean: the 28-bit entries of each copy of the table and the bytes
of each cluster. The areas do not overlap, so a write to one table entry changes that entry
alone and a write to a sector of a cluster changes no entry and no other cluster.
-/

namespace Tach.FatView

open Function ByteBlock Sectors FatData FatTable Chains

variable (g : Geom) (v : View)

def entryAt (base c : ℕ) : ℕ := entryBits ((v (base + c / 128)).le32 (c % 128 * 4))

/-- The 32 bits of entry `c` in copy `k` of the table. -/
def rawEntry (k c : ℕ) : ℕ := (v (g.fat0Lba + k * g.fatSize + c / 128)).le32 (c % 128 * 4)

/-- The entry of cluster `c` in copy `k` of the table; 0 outside of the table. -/
def fatCopy (k c : ℕ) : ℕ :=
  if k < g.numFats ∧ g.InRange c then entryAt v (g.fat0Lba + k * g.fatSize) c else 0

def fat : ℕ → ℕ := fatCopy g v g.fatActive

/-- Byte `i` of cluster `c`; 0 outside of the data area. -/
def cdata (c i : ℕ) : UInt8 :=
  if g.InRange c ∧ i < g.csize then v (g.clusterLba c + i / 512) (i % 512) else 0

/-- The copies agree, where the volume keeps several. -/
def Mirrored : Prop := g.mirror = true → ∀ k, k < g.numFats → fatCopy g v k = fat g v

def stepOf (f : ℕ → ℕ) (c : ℕ) : Link ℕ :=
  if g.InRange c then
    if eocMin ≤ f c then .last else if g.InRange (f c) then .to (f c) else .broken
  else .broken

def freeSet (f : ℕ → ℕ) : Finset ℕ := (Finset.Ico 2 (g.clusters + 2)).filter (fun c => f c = 0)

variable {g v} {c k j : ℕ}

/-- Quotient and remainder of a sum are unique. -/
private theorem quot_rem_inj {n q q' r r' : ℕ} (hr : r < n) (hr' : r' < n)
    (h : q * n + r = q' * n + r') : q = q' ∧ r = r' := by
  have hpos : 0 < n := by omega
  have hdiv := congrArg (· / n) h
  have hmod := congrArg (· % n) h
  simp only [Nat.mul_comm _ n, Nat.mul_add_div hpos, Nat.mul_add_mod, Nat.div_eq_of_lt hr,
    Nat.div_eq_of_lt hr', Nat.mod_eq_of_lt hr, Nat.mod_eq_of_lt hr', Nat.add_zero] at hdiv hmod
  exact ⟨hdiv, hmod⟩

theorem fat_eq (hc : g.InRange c) : fat g v c = entryAt v g.fatLba c := by
  rw [fat, fatCopy, if_pos ⟨g.active_lt, hc⟩, g.fatLba_eq]

theorem fat_of_not_inRange (hc : ¬ g.InRange c) : fat g v c = 0 := by
  rw [fat, fatCopy, if_neg (fun h => hc h.2)]

theorem spc_pos : 0 < g.spc := by
  rw [g.spc_eq]
  exact Nat.two_pow_pos _

theorem csize_pos : 0 < g.csize := Nat.mul_pos spc_pos (by decide)

theorem entries_pos : 0 < g.entriesPerCluster := by
  rw [g.entries_eq]
  exact Nat.mul_pos spc_pos (by decide)

section

variable (hc : g.InRange c)
include hc

theorem inRange_lt : c < 0x0FFFFFF7 := by
  have hle := g.clusters_le
  have hlt := hc.2
  simp only [maxClusters] at hle
  omega

theorem clusterLba_eq : g.clusterLba c = g.dataLba + (c - 2) * g.spc := by
  have hlt := inRange_lt hc
  have hge := hc.1
  have hu : u32 (c + 4294967294) = c - 2 := by
    simp only [u32]
    omega
  rw [Geom.clusterLba, hu, ← g.spc_eq]

theorem clusterLba_lt (hj : j < g.spc) : g.clusterLba c + j < g.total := by
  have hmul : (c - 2 + 1) * g.spc ≤ g.clusters * g.spc :=
    Nat.mul_le_mul_right _ (by have := hc.1; have := hc.2; omega)
  have hfit := g.data_fits
  rw [clusterLba_eq hc]
  rw [Nat.add_mul, Nat.one_mul] at hmul
  omega

theorem dataLba_le (j : ℕ) : g.dataLba ≤ g.clusterLba c + j := by
  rw [clusterLba_eq hc]
  omega

/-- A sector of the data area belongs to one cluster, at one place. -/
theorem clusterLba_inj {c' j' : ℕ} (hc' : g.InRange c')
    (hj : j < g.spc) (hj' : j' < g.spc) (h : g.clusterLba c + j = g.clusterLba c' + j') :
    c = c' ∧ j = j' := by
  rw [clusterLba_eq hc, clusterLba_eq hc'] at h
  obtain ⟨hq, hr⟩ : c - 2 = c' - 2 ∧ j = j' := quot_rem_inj hj hj' (by omega)
  have := hc.1
  have := hc'.1
  exact ⟨by omega, hr⟩

theorem row_lt : c / 128 < g.fatSize := by
  have hfit := g.fat_fits
  have hlt := hc.2
  omega

end

theorem fatSector_lt (hk : k < g.numFats) (hc : c / 128 < g.fatSize) :
    g.fat0Lba + k * g.fatSize + c / 128 < g.dataLba := by
  have hmul : (k + 1) * g.fatSize ≤ g.numFats * g.fatSize := Nat.mul_le_mul_right _ hk
  rw [g.data_eq]
  rw [Nat.add_mul, Nat.one_mul] at hmul
  omega

theorem fatSector_lt_total (hk : k < g.numFats) (hc : g.InRange c) :
    g.fat0Lba + k * g.fatSize + c / 128 < g.total := by
  have h := fatSector_lt hk (row_lt hc)
  have hfit := g.data_fits
  omega

theorem fatLba_lt_total (hc : g.InRange c) : g.fatLba + c / 128 < g.total := by
  rw [g.fatLba_eq]
  exact fatSector_lt_total g.active_lt hc

@[simp] theorem entryBits_zero : entryBits 0 = 0 := rfl

@[simp] theorem entryBits_eoc : entryBits eoc = eoc := rfl

theorem entryBits_inRange (hc : g.InRange c) : entryBits c = c :=
  Nat.mod_eq_of_lt (by have := inRange_lt hc; omega)

theorem entryBits_entryWith (old value : ℕ) : entryBits (entryWith old value) = entryBits value := by
  simp only [entryWith, entryBits]
  omega

theorem entryWith_twice (old x y : ℕ) : entryWith (entryWith old x) y = entryWith old y := by
  simp only [entryWith, entryBits]
  omega

theorem entryWith_lt {old : ℕ} (value : ℕ) (h : old < 4294967296) :
    entryWith old value < 4294967296 := by
  simp only [entryWith, entryBits]
  omega

/-- A table sector with the entry of `c` replaced. -/
def putEntry (d : Sector) (c x : ℕ) : Sector :=
  d.put32 (c % 128 * 4) (entryWith (d.le32 (c % 128 * 4)) x)

theorem putEntry_same (d : Sector) (c x : ℕ) :
    (putEntry d c x).le32 (c % 128 * 4) = entryWith (d.le32 (c % 128 * 4)) x := by
  have hlt := entryWith_lt x (d.le32_lt (c % 128 * 4))
  rw [putEntry, Block.le32_put32 d _ (by omega), Nat.mod_eq_of_lt hlt]

section Writes

variable {v' : View}

theorem fat_congr (h : ∀ lba, lba < g.dataLba → v' lba = v lba) : fat g v' = fat g v := by
  funext c
  unfold fat fatCopy
  split
  · rename_i hkc
    rw [entryAt, entryAt, h _ (fatSector_lt hkc.1 (row_lt hkc.2))]
  · rfl

theorem cdata_congr (h : g.InRange c → ∀ j, j < g.spc →
    v' (g.clusterLba c + j) = v (g.clusterLba c + j)) : cdata g v' c = cdata g v c := by
  funext i
  unfold cdata
  split
  · rename_i hi
    have hj : i / 512 < g.spc := Nat.div_lt_of_lt_mul (by rw [Nat.mul_comm]; exact hi.2)
    rw [h hi.1 _ hj]
  · rfl

theorem rawEntry_putEntry {k' c' : ℕ} (x : ℕ) (hc : c / 128 < g.fatSize)
    (hc' : c' / 128 < g.fatSize) : rawEntry g (update v (g.fat0Lba + k * g.fatSize + c / 128)
      (putEntry (v (g.fat0Lba + k * g.fatSize + c / 128)) c x)) k' c' =
    if k' = k ∧ c' = c then entryWith (rawEntry g v k c) x else rawEntry g v k' c' := by
  unfold rawEntry
  by_cases hsec : g.fat0Lba + k' * g.fatSize + c' / 128 = g.fat0Lba + k * g.fatSize + c / 128
  · obtain ⟨rfl, hdiv⟩ := quot_rem_inj hc' hc
      (show k' * g.fatSize + c' / 128 = k * g.fatSize + c / 128 by omega)
    rw [hsec, update_self]
    by_cases hcc : c' = c
    · rw [hcc, if_pos ⟨rfl, rfl⟩, putEntry_same]
    · rw [if_neg fun h => hcc h.2, putEntry, Block.le32_put32_of_disjoint _ _ (by omega)]
  · rw [update_of_ne hsec, if_neg]
    rintro ⟨rfl, rfl⟩
    exact hsec rfl

theorem fatCopy_putEntry (x : ℕ) (hk : k < g.numFats) (hc : g.InRange c) :
    fatCopy g (update v (g.fat0Lba + k * g.fatSize + c / 128)
      (putEntry (v (g.fat0Lba + k * g.fatSize + c / 128)) c x)) =
    update (fatCopy g v) k (update (fatCopy g v k) c (entryBits x)) := by
  have hput : ∀ k' c', fatCopy g (update v (g.fat0Lba + k * g.fatSize + c / 128)
      (putEntry (v (g.fat0Lba + k * g.fatSize + c / 128)) c x)) k' c' =
      if k' = k ∧ c' = c then entryBits x else fatCopy g v k' c' := by
    intro k' c'
    unfold fatCopy
    by_cases hr : k' < g.numFats ∧ g.InRange c'
    · rw [if_pos hr, if_pos hr]
      refine (congrArg entryBits (rawEntry_putEntry x (row_lt hc) (row_lt hr.2))).trans ?_
      split
      · exact entryBits_entryWith _ _
      · rfl
    · rw [if_neg hr, if_neg hr, if_neg]
      rintro ⟨rfl, rfl⟩
      exact hr ⟨hk, hc⟩
  funext k' c'
  rw [hput]
  by_cases hkk : k' = k
  · rw [hkk, update_self, update_apply]
    simp only [true_and]
  · rw [update_of_ne hkk, if_neg fun h => hkk h.1]

theorem cdata_update_fat (d : Sector) (hk : k < g.numFats) (hc : c / 128 < g.fatSize) :
    cdata g (update v (g.fat0Lba + k * g.fatSize + c / 128) d) = cdata g v := by
  funext c'
  refine cdata_congr fun hc' j _ => update_of_ne ?_ _ _
  have := fatSector_lt hk hc
  have := dataLba_le hc' j
  omega

theorem fat_update_data (d : Sector) (hc : g.InRange c) :
    fat g (update v (g.clusterLba c + j) d) = fat g v := by
  refine fat_congr fun lba hlba => update_of_ne ?_ _ _
  have := dataLba_le hc j
  omega

theorem cdata_update_data (d : Sector) (hc : g.InRange c) (hj : j < g.spc) :
    cdata g (update v (g.clusterLba c + j) d) = update (cdata g v) c
        (fun i => if i / 512 = j then d (i % 512) else cdata g v c i) := by
  funext c'
  by_cases hcc : c' = c
  · subst hcc
    rw [update_self]
    funext i
    by_cases hi : i < g.csize
    · have hdiv : i / 512 < g.spc := Nat.div_lt_of_lt_mul (by rw [Nat.mul_comm]; exact hi)
      rw [cdata, if_pos ⟨hc, hi⟩]
      by_cases hij : i / 512 = j
      · rw [if_pos hij, hij, update_self]
      · have hne : g.clusterLba c' + i / 512 ≠ g.clusterLba c' + j := by omega
        rw [if_neg hij, update_of_ne hne, cdata, if_pos ⟨hc, hi⟩]
    · have hij : i / 512 ≠ j := by
        intro h
        apply hi
        rw [Geom.csize]
        omega
      rw [if_neg hij, cdata, if_neg (fun h => hi h.2), cdata, if_neg (fun h => hi h.2)]
  · rw [update_of_ne hcc]
    refine cdata_congr fun hc' i hi => update_of_ne ?_ _ _
    intro heq
    exact hcc (clusterLba_inj hc' hc hi hj heq).1

end Writes

section Links

variable {f f' : ℕ → ℕ} {a c : ℕ} {l : List ℕ}

theorem inRange_of_step (h : stepOf g f c ≠ .broken) : g.InRange c := by
  by_contra hc
  exact h (if_neg hc)

theorem stepOf_congr (h : f' c = f c) : stepOf g f' c = stepOf g f c := by
  simp only [stepOf, h]

theorem stepOf_last (hc : g.InRange c) (h : eocMin ≤ f c) : stepOf g f c = .last := by
  rw [stepOf, if_pos hc, if_pos h]

theorem stepOf_to (hc : g.InRange c) (h : g.InRange (f c)) : stepOf g f c = .to (f c) := by
  have hlt := inRange_lt h
  rw [stepOf, if_pos hc, if_neg (by simp only [eocMin]; omega), if_pos h]

theorem eq_of_stepOf_to {b : ℕ} (h : stepOf g f c = .to b) : f c = b ∧ g.InRange b := by
  unfold stepOf at h
  split at h
  · split at h
    · cases h
    · split_ifs at h with hb
      cases h
      exact ⟨rfl, hb⟩
  · cases h

/-- A free cluster has no place on a chain. -/
theorem ne_zero_of_step (h : stepOf g f c ≠ .broken) : f c ≠ 0 := by
  intro h0
  have hc := inRange_of_step h
  apply h
  rw [stepOf, if_pos hc, if_neg (by rw [h0]; decide), if_neg]
  rw [h0]
  exact fun h => absurd h.1 (by decide)

variable (h : Chain (stepOf g f) a l)
include h

theorem chain_inRange (hc : c ∈ l) : g.InRange c :=
  inRange_of_step (h.step_ne_broken hc)

theorem chain_ne_zero (hc : c ∈ l) : f c ≠ 0 :=
  ne_zero_of_step (h.step_ne_broken hc)

theorem chain_congr (hf : ∀ x ∈ l, f' x = f x) :
    Chain (stepOf g f') a l := h.congr fun x hx => stepOf_congr (hf x hx)

end Links

section Free

variable {f : ℕ → ℕ} {c : ℕ}

theorem mem_freeSet : c ∈ freeSet g f ↔ g.InRange c ∧ f c = 0 := by
  simp only [freeSet, Finset.mem_filter, Finset.mem_Ico, Geom.InRange]

theorem freeSet_card_le : (freeSet g f).card ≤ g.clusters := by
  have h := Finset.card_filter_le (Finset.Ico 2 (g.clusters + 2)) (fun c => f c = 0)
  rw [Nat.card_Ico] at h
  exact h

theorem freeSet_alloc {x : ℕ} (hc : g.InRange c) (h0 : f c = 0) (hx : x ≠ 0) :
    (freeSet g (update f c x)).card + 1 = (freeSet g f).card := by
  have hmem : c ∈ freeSet g f := mem_freeSet.mpr ⟨hc, h0⟩
  have heq : freeSet g (update f c x) = (freeSet g f).erase c := by
    ext b
    rw [Finset.mem_erase, mem_freeSet, mem_freeSet]
    by_cases hb : b = c
    · subst hb
      simp [hx]
    · simp [hb]
  rw [heq, Finset.card_erase_add_one hmem]

theorem freeSet_free (hc : g.InRange c) (h0 : f c ≠ 0) :
    (freeSet g (update f c 0)).card = (freeSet g f).card + 1 := by
  have h := freeSet_alloc hc (update_self c 0 f) h0
  rw [update_idem, update_eq_self] at h
  exact h.symm

end Free

end Tach.FatView
