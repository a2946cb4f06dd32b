import Tach.DriverRules

/-!
What the functions on the allocation table do on a device without faults, one statement for each:
the link that `fat_next` finds, and the entries that `fat_put_copy` and `fat_set` change (`Put`).
-/

namespace Tach.FatSpecs

open Function Actions Sectors FatData FatTable FatView DriverRules Chains

variable {σ : Type} {V : Volume σ} {s t u : Fs σ}

def Counters (s t : Fs σ) : Prop :=
  ∃ a b d, t.vol = { s.vol with freeCount := a, nextFree := b, fsinfoDirty := d }

theorem Counters.of_eq (h : t.vol = s.vol) : Counters s t := ⟨_, _, _, h⟩

theorem Counters.trans (h : Counters s t) (h' : Counters t u) : Counters s u := by
  obtain ⟨a, b, d, ht⟩ := h
  obtain ⟨a', b', d', hu⟩ := h'
  exact ⟨a', b', d', by rw [hu, ht]⟩

/-- What a link of the table gives to `fat_next`. -/
def linkResult : Link ℕ → Except Errno (Option ℕ)
  | .last => .ok none
  | .to b => .ok (some b)
  | .broken => .error .eio

theorem reads_fatNext (v : View) (c : ℕ) :
    Reads V v (fatNext V c) (linkResult (stepOf V.toGeom (fat V.toGeom v) c)) := by
  by_cases hc : V.InRange c
  swap
  · have hcond : c < 2 ∨ V.clusters + 2 ≤ c := by
      by_contra h
      exact hc ⟨by omega, by omega⟩
    rw [fatNext, if_pos hcond, stepOf, if_neg hc]
    exact Reads.fail _
  have hcond : ¬ (c < 2 ∨ V.clusters + 2 ≤ c) := by
    have := hc.1
    have := hc.2
    omega
  have hval := fat_eq (v := v) hc
  rw [fatNext, if_neg hcond, stepOf, if_pos hc, hval]
  refine (Reads.readBuf _ (fatLba_lt_total hc)).bind_ok ?_
  change Reads V v (if eocMin ≤ entryAt v V.fatLba c then pure none
    else if entryAt v V.fatLba c < 2 ∨ V.clusters + 2 ≤ entryAt v V.fatLba c then Act.fail .eio
    else pure (some (entryAt v V.fatLba c))) _
  generalize entryAt v V.fatLba c = x
  split
  · exact Reads.ret _
  · split
    · rename_i hout
      rw [if_neg (by rintro ⟨h1, h2⟩; exact hout.elim (by omega) (by omega))]
      exact Reads.fail _
    · rename_i hin
      rw [if_pos ⟨by omega, by omega⟩]
      exact Reads.ret _

section Entry

def Kept (V : Volume σ) (k : ℕ) : Prop := V.mirror = true ∨ k = V.fatActive

/-- Entry `c` was set to `x` in the copies `K`, with its high bits kept, and no other entry and no
cluster differs. -/
structure Put (V : Volume σ) (K : ℕ → Prop) (c x : ℕ) (s t : Fs σ) : Prop where
  data : contents V t = contents V s
  entry : ∀ k, k < V.numFats → K k → raw V t k c = entryWith (raw V s k c) x
  other : ∀ k c', k < V.numFats → c' / 128 < V.fatSize → ¬(K k ∧ c' = c) →
    raw V t k c' = raw V s k c'

namespace Put

variable {K K' : ℕ → Prop} {c x : ℕ}

theorem of_same (h : Same V s t) : Put V (fun _ => False) c x s t :=
  ⟨h.contents_eq, fun _ _ => False.elim, fun _ _ _ _ _ => by rw [h.raw_eq]⟩

section

variable (h : Put V K c x s t)
include h

theorem congr (hK : ∀ k, k < V.numFats → (K' k ↔ K k)) : Put V K' c x s t :=
  ⟨h.data, fun k hk hk' => h.entry k hk ((hK k hk).mp hk'),
    fun k c' hk hc' hne => h.other k c' hk hc' fun h => hne ⟨(hK k hk).mpr h.1, h.2⟩⟩

theorem trans (h' : Put V K' c x t u) (hc : V.InRange c) : Put V (fun k => K k ∨ K' k) c x s u where
  data := h'.data.trans h.data
  entry k hk hor := by
    by_cases hk' : K' k
    · rw [h'.entry k hk hk']
      by_cases hkK : K k
      · rw [h.entry k hk hkK, entryWith_twice]
      · rw [h.other k c hk (row_lt hc) fun h => hkK h.1]
    · rw [h'.other k c hk (row_lt hc) fun h => hk' h.1, h.entry k hk (hor.resolve_right hk')]
  other k c' hk hc' hne := by
    rw [h'.other k c' hk hc' fun h => hne ⟨Or.inr h.1, h.2⟩,
      h.other k c' hk hc' fun h => hne ⟨Or.inl h.1, h.2⟩]

theorem table_other {c' : ℕ} (hc : c' ≠ c) : table V t c' = table V s c' := by
  unfold table fat fatCopy
  split
  · rename_i hr
    exact congrArg entryBits (h.other _ c' hr.1 (row_lt hr.2) fun h => hc h.2)
  · rfl

theorem table_self (hc : V.InRange c) (hK : K V.fatActive) : table V t c = entryBits x := by
  have hent := congrArg entryBits (h.entry _ V.active_lt hK)
  rw [entryBits_entryWith] at hent
  rw [table, fat, fatCopy, if_pos ⟨V.active_lt, hc⟩]
  exact hent

theorem table_eq (hc : V.InRange c) (hK : K V.fatActive) :
    table V t = update (table V s) c (entryBits x) := by
  funext c'
  by_cases hcc : c' = c
  · rw [hcc, update_self, h.table_self hc hK]
  · rw [update_of_ne hcc, h.table_other hcc]

end

/-- The buffer of a sector of copy `k` with the entry replaced. -/
theorem of_view {k : ℕ} (hk : k < V.numFats) (hc : V.InRange c)
    (h : V.view t = update (V.view s) (V.fat0Lba + k * V.fatSize + c / 128)
      (putEntry (V.view s (V.fat0Lba + k * V.fatSize + c / 128)) c x)) : Put V (· = k) c x s t := by
  refine ⟨?_, fun k' _ hkk => ?_, fun k' c' _ hc' hne => ?_⟩
  · rw [contents, h]
    exact cdata_update_fat _ hk (row_lt hc)
  · rw [raw, h, rawEntry_putEntry x (row_lt hc) (row_lt hc), if_pos ⟨hkk, rfl⟩, hkk]
    rfl
  · rw [raw, h, rawEntry_putEntry x (row_lt hc) hc', if_neg hne]
    rfl

end Put

variable {k c : ℕ}

theorem runs_fatPutCopy (x : ℕ) (hk : k < V.numFats) (hc : V.InRange c)
    (hrw : V.readonly = false) : Runs V.quiet (fatPutCopy V k c x) s fun r t =>
      r = .ok () ∧ t.vol = s.vol ∧ Put V (· = k) c x s t := by
  refine (runs_writeBuf (fun d => putEntry d c x) (fatSector_lt_total hk hc) hrw).mono ?_
  exact fun r t ht => ⟨ht.1, ht.2.1, Put.of_view hk hc ht.2.2⟩

/-- `fat_set` writes the entry to every copy that is kept. -/
theorem runs_fatSet (x : ℕ) (hc : V.InRange c) (hrw : V.readonly = false) :
    Runs V.quiet (fatSet V c x) s fun r t =>
      r = .ok () ∧ t.vol = s.vol ∧ Put V (Kept V) c x s t := by
  have hcond : ¬ (c < 2 ∨ V.clusters + 2 ≤ c) := by
    have := hc.1
    have := hc.2
    omega
  rw [fatSet, if_neg hcond]
  cases hmir : V.mirror with
  | false =>
    rw [if_pos rfl]
    refine (runs_fatPutCopy x V.active_lt hc hrw).mono fun r t ht => ⟨ht.1, ht.2.1, ?_⟩
    exact ht.2.2.congr fun k _ => by simp [Kept, hmir]
  | true =>
    rw [if_neg (by decide)]
    -- after `k` rounds the first `k` copies have the new entry
    refine (Runs.eachRange (I := fun k t => t.vol = s.vol ∧ Put V (· < k) c x s t)
      ⟨rfl, (Put.of_same (Same.refl s)).congr fun k _ => by simp⟩ ?_).mono ?_
    · rintro k t hk ⟨hvol, hput⟩
      refine (runs_fatPutCopy x hk hc hrw).mono fun r u hu => ⟨hu.1, hu.2.1.trans hvol, ?_⟩
      exact (hput.trans hu.2.2 hc).congr fun j _ => Nat.lt_succ_iff_lt_or_eq
    · rintro r t ⟨hr, hvol, hput⟩
      exact ⟨hr, hvol, hput.congr fun k hk => by simp [Kept, hmir, hk]⟩

end Entry

end Tach.FatSpecs
