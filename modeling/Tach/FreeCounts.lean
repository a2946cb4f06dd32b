import Tach.FatAlloc

/-!
The free counter of a volume. `cluster_free_chain` adds the number of clusters that its walk visited,
so that the counter stays right unless the walk ends at a cluster that is free already, as one that
it has freed itself.
-/

namespace Tach.FreeCounts

open Actions ByteBlock Sectors FatData FatTable FatView DriverRules FatSpecs FatAlloc

variable {σ : Type} {V : Volume σ} {s t : Fs σ} {g : Geom} {f : ℕ → ℕ} {budget cl first : ℕ}

/-- The walk from `cl`, which frees the clusters it visits, comes to a free one. -/
def RunsIntoFree (g : Geom) : ℕ → (ℕ → ℕ) → ℕ → Prop
  | 0, _, _ => False
  | budget + 1, f, cl => g.InRange cl ∧ (f cl = 0 ∨
      (g.InRange (f cl) ∧ RunsIntoFree g budget (Function.update f cl 0) (f cl)))

instance decRunsIntoFree (g : Geom) :
    (budget : ℕ) → (f : ℕ → ℕ) → (cl : ℕ) → Decidable (RunsIntoFree g budget f cl)
  | 0, _, _ => inferInstanceAs (Decidable False)
  | budget + 1, f, cl =>
    have := decRunsIntoFree g budget (Function.update f cl 0) (f cl)
    inferInstanceAs (Decidable (_ ∧ (_ ∨ (_ ∧ _))))

def freeIn (V : Volume σ) (s : Fs σ) : ℕ := (freeSet V.toGeom (table V s)).card

/-- The walk frees as many clusters as it counts, but for a last one that was free. -/
theorem runs_clusterFreeLoop (hrw : V.readonly = false) {freed lowest : ℕ} :
    Runs V.quiet (clusterFreeLoop V budget cl freed lowest) s fun r t => ∃ f, r = .ok f ∧
      t.vol = s.vol ∧ f.freed ≤ freed + budget ∧ f.freed + freeIn V s = freed + freeIn V t +
        if RunsIntoFree V.toGeom budget (table V s) cl then 1 else 0 := by
  induction budget generalizing s cl freed lowest with
  | zero => exact Runs.ret ⟨_, rfl, rfl, Nat.le_refl _, rfl⟩
  | succ budget ih =>
    rw [clusterFreeLoop]
    by_cases hc : V.InRange cl
    swap
    · rw [if_neg hc]
      exact Runs.ret ⟨_, rfl, rfl, Nat.le_add_right _ _, by rw [if_neg fun h => hc h.1]; rfl⟩
    rw [if_pos hc]
    refine (reads_fatNext (V.view s) cl).runs.attempt_bind ?_
    rintro link t ⟨rfl, hst⟩
    refine (runs_fatSet 0 hc hrw).attempt_bind ?_
    rintro _ u ⟨rfl, hvol, hput⟩
    have htable : table V u = Function.update (table V s) cl 0 := by
      rw [hput.table_eq hc (Or.inr rfl), hst.table_eq, entryBits_zero]
    have hvol' : u.vol = s.vol := hvol.trans hst.2
    by_cases h0 : table V s cl = 0
    · -- the cluster was free, so its link is broken and the walk ends here
      have hbroken : stepOf V.toGeom (fat V.toGeom (V.view s)) cl = .broken :=
        not_not.mp fun h => ne_zero_of_step h h0
      have hsame : freeIn V u = freeIn V s := by
        rw [freeIn, htable, ← h0, Function.update_eq_self, freeIn]
      rw [hbroken]
      refine Runs.ret ⟨_, rfl, hvol', by dsimp only; omega, ?_⟩
      rw [if_pos ⟨hc, Or.inl h0⟩, hsame]
      exact Nat.add_right_comm _ _ _
    have hmore : freeIn V u = freeIn V s + 1 := by
      rw [freeIn, htable, freeSet_free hc h0, freeIn]
    have hruns : RunsIntoFree V.toGeom (budget + 1) (table V s) cl ↔ V.InRange (table V s cl) ∧
          RunsIntoFree V.toGeom budget (table V u) (table V s cl) := by
      rw [htable]
      exact ⟨fun h => h.2.resolve_left h0, fun h => ⟨hc, Or.inr h⟩⟩
    have hstop : (∀ next, stepOf V.toGeom (table V s) cl ≠ .to next) → freed + 1 + freeIn V s =
        freed + freeIn V u + if RunsIntoFree V.toGeom (budget + 1) (table V s) cl then 1 else 0 := by
      intro hto
      rw [if_neg fun h => hto _ (stepOf_to hc (hruns.mp h).1), hmore]
      omega
    rcases hstep : stepOf V.toGeom (fat V.toGeom (V.view s)) cl with _ | next | _
    · exact Runs.ret ⟨_, rfl, hvol', by dsimp only; omega, hstop fun _ h => nomatch hstep.symm.trans h⟩
    rotate_left
    · exact Runs.ret ⟨_, rfl, hvol', by dsimp only; omega, hstop fun _ h => nomatch hstep.symm.trans h⟩
    · obtain ⟨hnext, hin⟩ := eq_of_stepOf_to hstep
      refine ih.mono fun r w hw => ?_
      obtain ⟨f, hr, hvolw, hle, hcount⟩ := hw
      refine ⟨f, hr, hvolw.trans hvol', by omega, ?_⟩
      have hiff : RunsIntoFree V.toGeom (budget + 1) (table V s) cl ↔
          RunsIntoFree V.toGeom budget (table V u) next := by
        rw [hruns, table, hnext]
        exact ⟨fun h => h.2, fun h => ⟨hin, h⟩⟩
      simp only [hiff]
      omega

theorem freeChain_count (first : ℕ) (hrw : V.readonly = false)
    (hcount : s.vol.freeCount = freeIn V s) :
    Runs V.quiet (clusterFreeChain V first) s fun _ t => t.vol.freeCount = min V.clusters
      (freeIn V t + if RunsIntoFree V.toGeom V.clusters (table V s) first then 1 else 0) := by
  refine (runs_clusterFreeLoop hrw).bind ?_ ?_
  swap
  · rintro e t ⟨f, hr, -⟩
    cases hr
  rintro f t ⟨f', hr, hvol, hle, hfreed⟩
  cases hr
  have hmax : V.clusters ≤ maxClusters := V.clusters_le
  have hbound : freeIn V s ≤ V.clusters := freeSet_card_le
  have hnote : (noteFree V f t.vol).freeCount = min V.clusters
      (freeIn V t + if RunsIntoFree V.toGeom V.clusters (table V s) first then 1 else 0) := by
    simp only [maxClusters] at hmax
    rw [show freeIn V t + _ = f.freed + freeIn V s by omega, noteFree]
    split
    · rename_i h0
      rw [hvol, hcount, h0]
      omega
    · simp only [hvol, hcount, unknown, u32]
      rw [if_neg (by omega), Nat.mod_eq_of_lt (by omega)]
      split <;> omega
  refine Runs.modify_bind id ?_
  cases f.error with
  | none => exact Runs.ret hnote
  | some e => exact Runs.fail hnote

theorem alloc_count (hrw : V.readonly = false) (hcount : s.vol.freeCount = freeIn V s) :
    Runs V.quiet (clusterAlloc V) s fun _ t => t.vol.freeCount = freeIn V t := by
  refine (runs_clusterAlloc hrw).mono fun r t ht => ?_
  rcases ht with ⟨c, -, h⟩ | ⟨-, hst, -⟩
  · have hmax : V.clusters ≤ maxClusters := V.clusters_le
    have hbound : freeIn V s ≤ V.clusters := freeSet_card_le
    have hfree : freeIn V t + 1 = freeIn V s := by
      rw [freeIn, h.table_eq, freeSet_alloc h.inRange h.free (by decide), freeIn]
    simp only [maxClusters] at hmax
    have hnot : ¬(s.vol.freeCount = unknown ∨ s.vol.freeCount = 0) := by
      simp only [unknown]
      omega
    rw [h.vol, noteAlloc]
    dsimp only
    rw [if_neg hnot]
    omega
  · rw [hst.2, hcount, freeIn, freeIn, hst.table_eq]

/-- A table in which cluster 2 is linked to the free cluster 3 and cluster 5 is a chain of its own. -/
def damaged : Sector := ((Block.zero 512).put32 8 3).put32 20 eoc

def damagedView : View := Smallest.image damaged fun _ => Block.zero 512

def onDamaged : Fs Memory.Mem :=
  ⟨⟨damagedView, []⟩, Smallest.mounted (freeSet Smallest.geom (fat Smallest.geom damagedView)).card 2⟩

end Tach.FreeCounts
