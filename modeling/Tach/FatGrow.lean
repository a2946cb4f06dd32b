import Tach.FatAlloc

/-!
Zeroing a cluster and `chain_grow`, which reserves a cluster and links it behind the last one of a
chain. `Grew` says what appending to a file does to the table: the chain may get longer by clusters
that were free, and no entry of another chain differs.
-/

namespace Tach.FatGrow

open Function List

open Actions Sectors FatData FatTable FatView DriverRules FatSpecs FatAlloc Chains

variable {σ : Type} {V : Volume σ} {s t u : Fs σ} {c prev : ℕ}

/-- Only the contents of cluster `c` differ. -/
structure OnlyCluster (V : Volume σ) (c : ℕ) (s t : Fs σ) : Prop where
  vol : t.vol = s.vol
  table : table V t = table V s
  data : ∀ c', c' ≠ c → contents V t c' = contents V s c'

theorem OnlyCluster.refl (s : Fs σ) : OnlyCluster V c s s := ⟨rfl, rfl, fun _ _ => rfl⟩

theorem OnlyCluster.trans (h : OnlyCluster V c s t) (h' : OnlyCluster V c t u) :
    OnlyCluster V c s u :=
  ⟨h'.vol.trans h.vol, h'.table.trans h.table, fun c' hc => (h'.data c' hc).trans (h.data c' hc)⟩

theorem OnlyCluster.of_sector {j : ℕ} {d : Sector} (hc : V.InRange c) (hj : j < V.spc)
    (hvol : t.vol = s.vol) (hv : V.view t = update (V.view s) (V.clusterLba c + j) d) :
    OnlyCluster V c s t := by
  refine ⟨hvol, ?_, fun c' hc' => ?_⟩
  · rw [DriverRules.table, hv, fat_update_data _ hc]
    rfl
  · rw [contents, hv, cdata_update_data _ hc hj, update_of_ne hc']
    rfl

theorem runs_clusterZero (hc : V.InRange c) (hrw : V.readonly = false) :
    Runs V.quiet (clusterZero V c) s fun r t => r = .ok () ∧ OnlyCluster V c s t := by
  refine Runs.eachRange (I := fun _ t => OnlyCluster V c s t) (OnlyCluster.refl s) fun k t hk ht => ?_
  refine (runs_bnew (clusterLba_lt hc hk) hrw).mono fun r u hu => ⟨hu.1, ht.trans ?_⟩
  exact OnlyCluster.of_sector hc hk hu.2.1 hu.2.2

/-- `chain_grow` reserved cluster `c` and linked it behind `prev`. -/
structure Grown (V : Volume σ) (prev c : ℕ) (s t : Fs σ) : Prop where
  inRange : V.InRange c
  free : table V s c = 0
  link : prev ≠ 0 → table V t prev = c
  fresh : table V t c = eoc
  other : ∀ c', c' ≠ c → c' ≠ prev → table V t c' = table V s c'
  data : ∀ c', c' ≠ c → contents V t c' = contents V s c'
  vol : Counters s t

/-- A reserved cluster is zeroed, if asked for, and linked behind `prev`, if there is one. -/
theorem runs_zeroAndLink (zero : Bool) (hrw : V.readonly = false) (hc : V.InRange c)
    (hprev : prev ≠ 0 → V.InRange prev) : Runs V.quiet (do
        if zero then clusterZero V c
        if prev ≠ 0 then fatSet V prev c) s fun r t => r = .ok () ∧ t.vol = s.vol ∧
      (prev ≠ 0 → table V t prev = c) ∧ (∀ c', c' ≠ prev → table V t c' = table V s c') ∧
      ∀ c', c' ≠ c → contents V t c' = contents V s c' := by
  have hlink : ∀ t, OnlyCluster V c s t → Runs V.quiet (if prev ≠ 0 then fatSet V prev c else pure ()) t
      fun r t => r = .ok () ∧ t.vol = s.vol ∧ (prev ≠ 0 → table V t prev = c) ∧
        (∀ c', c' ≠ prev → table V t c' = table V s c') ∧
        ∀ c', c' ≠ c → contents V t c' = contents V s c' := by
    intro t ht
    by_cases h0 : prev = 0
    · rw [if_neg (not_not.mpr h0)]
      exact Runs.ret ⟨rfl, ht.vol, fun h => absurd h0 h, fun c' _ => by rw [ht.table], ht.data⟩
    rw [if_pos h0]
    refine (runs_fatSet c (hprev h0) hrw).mono fun r u ⟨hr, hvol, hput⟩ =>
      ⟨hr, hvol.trans ht.vol, fun _ => ?_, fun c' hc' => ?_, fun c' hc' => ?_⟩
    · rw [hput.table_self (hprev h0) (Or.inr rfl), entryBits_inRange hc]
    · rw [hput.table_other hc', ht.table]
    · rw [hput.data, ht.data c' hc']
  cases zero with
  | false => exact hlink s (OnlyCluster.refl s)
  | true => exact (runs_clusterZero hc hrw).bind_ok hlink

/-- `chain_grow` behind a cluster in use, or of a new chain. -/
theorem runs_chainGrow (zero : Bool) (hrw : V.readonly = false)
    (hprev : prev ≠ 0 → V.InRange prev ∧ table V s prev ≠ 0) :
    Runs V.quiet (chainGrow V prev zero) s fun r t =>
      (∃ c, r = .ok c ∧ Grown V prev c s t) ∨ (r = .error .enospc ∧ Same V s t) := by
  refine (runs_clusterAlloc hrw).bind ?_ ?_
  swap
  · rintro e t (⟨c, hr, -⟩ | h)
    · cases hr
    · exact Or.inr ⟨h.1, h.2.1⟩
  rintro c t (⟨c', hr, hst⟩ | ⟨hr, -⟩)
  swap
  · cases hr
  cases hr
  have hne : c ≠ prev := by
    rintro rfl
    have := hst.inRange.1
    exact (hprev (by omega)).2 hst.free
  refine (runs_zeroAndLink zero hrw hst.inRange fun h => (hprev h).1).attempt_bind ?_
  rintro r u ⟨rfl, hvol, hlink, hother, hdata⟩
  refine Runs.ret (Or.inl ⟨c, rfl, hst.inRange, hst.free, hlink, ?_, fun c' hc hcp => ?_,
    fun c' hc => ?_, _, _, _, hvol.trans hst.vol⟩)
  · rw [hother c hne, hst.table_eq, update_self]
  · rw [hother c' hcp, hst.table_eq, update_of_ne hc]
  · rw [hdata c' hc, hst.put.data]

section Growth

variable {first : ℕ} {l new new' : List ℕ}

/-- The clusters `l` and then `new` are a chain, where those of `new` were free, and no entry of
other clusters differs. -/
structure Grew (V : Volume σ) (first : ℕ) (l new : List ℕ) (s t : Fs σ) : Prop where
  chain : Chain (stepOf V.toGeom (table V t)) first (l ++ new)
  fresh : ∀ c ∈ new, table V s c = 0
  other : ∀ c, c ∉ l ++ new → table V t c = table V s c
  vol : Counters s t

namespace Grew

theorem trans (h : Grew V first l new s t) (h' : Grew V first (l ++ new) new' t u) :
    Grew V first l (new ++ new') s u where
  chain := by
    rw [← append_assoc]
    exact h'.chain
  fresh c hc := by
    rcases mem_append.mp hc with hc | hc
    · exact h.fresh c hc
    · have h0 := h'.fresh c hc
      rw [← h.other c fun hmem => chain_ne_zero h.chain hmem h0, h0]
  other c hc := by
    rw [← append_assoc] at hc
    rw [h'.other c hc, h.other c fun hmem => hc (mem_append_left _ hmem)]
  vol := h.vol.trans h'.vol

theorem of_table (hch : Chain (stepOf V.toGeom (table V s)) first l) (hvol : t.vol = s.vol)
    (h : table V t = table V s) : Grew V first l [] s t := by
  refine ⟨?_, nofun, fun c _ => by rw [h], Counters.of_eq hvol⟩
  rwa [append_nil, h]

/-- The chain after `chain_grow` behind its last cluster. -/
theorem of_grown (hch : Chain (stepOf V.toGeom (table V s)) first l)
    (hlast : l.getLast? = some prev) (h : Grown V prev c s t) : Grew V first l [c] s t := by
  have hmem : prev ∈ l := mem_of_getLast? hlast
  have hin : V.InRange prev := chain_inRange hch hmem
  have hlink := h.link (by have := hin.1; omega)
  have hne : ∀ x ∈ l, x ≠ c := by
    rintro x hx rfl
    exact chain_ne_zero hch hx h.free
  refine ⟨?_, fun x hx => ?_, fun x hx => h.other x ?_ ?_, h.vol⟩
  · refine hch.snoc hlast ?_ (stepOf_last h.inRange (by rw [h.fresh]; decide)) fun x hx hxp =>
      stepOf_congr (h.other x (hne x hx) hxp)
    rw [stepOf_to hin (by rw [hlink]; exact h.inRange), hlink]
  · rw [mem_singleton.mp hx]
    exact h.free
  · rintro rfl
    exact hx (by simp)
  · rintro rfl
    exact hx (by simp [hmem])

/-- A chain of the one cluster that `chain_grow` reserved. -/
theorem of_first (h : Grown V 0 c s t) : Grew V c [] [c] s t := by
  refine ⟨Chain.last (stepOf_last h.inRange (by rw [h.fresh]; decide)), fun x hx => ?_,
    fun x hx => ?_, h.vol⟩
  · rw [mem_singleton.mp hx]
    exact h.free
  · by_cases h0 : x = 0
    · have hout : ¬ V.InRange x := fun hin => absurd hin.1 (by omega)
      rw [table, table, fat_of_not_inRange hout, fat_of_not_inRange hout]
    · exact h.other x (by simpa using hx) h0

end Grew

end Growth

end Tach.FatGrow
