import Tach.FatSpecs
import Tach.Smallest

/-!
Reserving a cluster with `cluster_alloc`. The circular search is a list of rounds, each through
entries of one sector of the table; together they look at every entry once, so that the search finds
a free cluster exactly if there is one.
-/

namespace Tach.FatAlloc

open Function List Actions ByteBlock Sectors FatData FatTable FatView DriverRules FatSpecs

variable {σ : Type} {V : Volume σ} {s t u : Fs σ}

/-- The scan of one sector reserves the first free entry it meets. -/
theorem reserveIn_cases (cl span : ℕ) (d : Sector) (hspan : cl % 128 + span ≤ 128) :
    (reserveIn cl (cl % 128) span d = (none, none) ∧
      ∀ c, cl ≤ c → c < cl + span → entryBits (d.le32 (c % 128 * 4)) ≠ 0) ∨
    ∃ c, cl ≤ c ∧ c < cl + span ∧ c / 128 = cl / 128 ∧ entryBits (d.le32 (c % 128 * 4)) = 0 ∧
      reserveIn cl (cl % 128) span d = (some c, some (putEntry d c eoc)) := by
  unfold reserveIn
  split
  · rename_i hfind
    refine Or.inl ⟨rfl, fun c hge hlt => ?_⟩
    have h := List.find?_eq_none.mp hfind (c - cl) (mem_range.mpr (by omega))
    have hidx : cl % 128 + (c - cl) = c % 128 := by omega
    rw [hidx] at h
    simpa using h
  · rename_i i hfind
    have hi : i < span := mem_range.mp (mem_of_find?_eq_some hfind)
    have h0 := List.find?_some hfind
    have hidx : cl % 128 + i = (cl + i) % 128 := by omega
    simp only [hidx, decide_eq_true_eq] at h0
    refine Or.inr ⟨cl + i, by omega, by omega, by omega, h0, ?_⟩
    rw [hidx]
    rfl

section Rounds

variable (g : Geom)

def rounds : ℕ → ℕ → ℕ → List (ℕ × ℕ)
  | 0, _, _ => []
  | fuel + 1, cl, remaining =>
    if remaining = 0 then []
    else
      let span := min (min (128 - cl % 128) remaining) (g.clusters + 2 - cl)
      (cl, span) :: rounds fuel (if g.clusters + 2 ≤ cl + span then 2 else cl + span)
        (remaining - span)

def entriesOf (l : List (ℕ × ℕ)) : List ℕ := l.flatMap fun round => List.range' round.1 round.2

/-- The search through these rounds, which reserves the first free cluster in the active copy. -/
def reserve (V : Volume σ) : List (ℕ × ℕ) → FatM σ ℕ
  | [] => Act.fail .enospc
  | (cl, span) :: rest => do
    match ← editBuf V (V.fatLba + cl / 128) (reserveIn cl (cl % 128) span) with
    | some found => do
      modifyVol (noteAlloc V found)
      pure found
    | none => reserve V rest

def mirrors : List ℕ := (List.range g.numFats).filter (· ≠ g.fatActive)

/-- The rest of `cluster_alloc` behind a search that found a cluster. -/
def mirrorAll (V : Volume σ) (found : ℕ) : FatM σ ℕ := do
  if V.mirror then clusterAllocMirror V found (mirrors V.toGeom)
  pure found

theorem clusterAllocLoop_eq (V : Volume σ) (fuel cl remaining : ℕ) :
    clusterAllocLoop V fuel cl remaining =
      reserve V (rounds V.toGeom fuel cl remaining) >>= mirrorAll V := by
  induction fuel generalizing cl remaining with
  | zero => rfl
  | succ fuel ih =>
    rw [clusterAllocLoop, rounds]
    split
    · rfl
    · rw [reserve, Act.bind_assoc]
      refine congrArg (Act.bind _) (funext fun found => ?_)
      cases found with
      | some found => rfl
      | none => exact ih _ _

/-- A round stays in one sector and among the clusters. -/
def Fits (round : ℕ × ℕ) : Prop :=
  g.InRange round.1 ∧ round.1 % 128 + round.2 ≤ 128 ∧ round.1 + round.2 ≤ g.clusters + 2

variable {g}

theorem rounds_fit {cl : ℕ} (fuel remaining : ℕ) (hcl : g.InRange cl) :
    ∀ round ∈ rounds g fuel cl remaining, Fits g round := by
  induction fuel generalizing cl remaining with
  | zero => exact nofun
  | succ fuel ih =>
    obtain ⟨h2, hlt⟩ := hcl
    rw [rounds]
    split
    · exact nofun
    · intro round hround
      rcases mem_cons.mp hround with rfl | hround
      · exact ⟨⟨h2, hlt⟩, by dsimp only; omega, by dsimp only; omega⟩
      · refine ih _ ?_ round hround
        split <;> exact ⟨by omega, by omega⟩

/-- The rounds go from the first cluster to the end of the table and on from its beginning. -/
theorem entriesOf_rounds {fuel cl remaining : ℕ} (hcl : g.InRange cl) (hfuel : remaining ≤ fuel)
    (hall : remaining ≤ g.clusters) : entriesOf (rounds g fuel cl remaining) =
      List.range' cl (min remaining (g.clusters + 2 - cl)) ++
        List.range' 2 (remaining - (g.clusters + 2 - cl)) := by
  induction fuel generalizing cl remaining with
  | zero =>
    obtain rfl : remaining = 0 := by omega
    simp [rounds, entriesOf]
  | succ fuel ih =>
    obtain ⟨h2, hlt⟩ := hcl
    rw [rounds]
    split
    · rename_i h0
      simp [h0, entriesOf]
    generalize hspan : min (min (128 - cl % 128) remaining) (g.clusters + 2 - cl) = span
    rw [entriesOf, flatMap_cons, ← entriesOf]
    by_cases hend : g.clusters + 2 ≤ cl + span
    · rw [if_pos hend, ih ⟨by omega, by omega⟩ (by omega) (by omega),
        show min (remaining - span) (g.clusters + 2 - 2) = remaining - (g.clusters + 2 - cl) by omega,
        show remaining - span - (g.clusters + 2 - 2) = 0 by omega,
        show min remaining (g.clusters + 2 - cl) = span by omega, List.range'_zero, append_nil]
    · rw [if_neg hend, ih ⟨by omega, by omega⟩ (by omega) (by omega), ← append_assoc,
        List.range'_append_1,
        show span + min (remaining - span) (g.clusters + 2 - (cl + span)) =
          min remaining (g.clusters + 2 - cl) by omega,
        show remaining - span - (g.clusters + 2 - (cl + span)) =
          remaining - (g.clusters + 2 - cl) by omega]

def searchFrom (g : Geom) (hint : ℕ) : List (ℕ × ℕ) :=
  rounds g g.clusters (if hint < 2 ∨ g.clusters + 2 ≤ hint then 2 else hint) g.clusters

theorem start_inRange (hint : ℕ) :
    g.InRange (if hint < 2 ∨ g.clusters + 2 ≤ hint then 2 else hint) := by
  have hge : minClusters ≤ g.clusters := g.clusters_ge
  simp only [minClusters] at hge
  split
  · exact ⟨by omega, by omega⟩
  · exact ⟨by omega, by omega⟩

theorem mem_searchFrom {hint c : ℕ} : c ∈ entriesOf (searchFrom g hint) ↔ g.InRange c := by
  have hin := start_inRange (g := g) hint
  have h2 := hin.1
  rw [searchFrom, entriesOf_rounds hin (Nat.le_refl _) (Nat.le_refl _), mem_append,
    mem_range'_1, mem_range'_1, Geom.InRange]
  omega

theorem nodup_searchFrom (hint : ℕ) : (entriesOf (searchFrom g hint)).Nodup := by
  have hin := start_inRange (g := g) hint
  rw [searchFrom, entriesOf_rounds hin (Nat.le_refl _) (Nat.le_refl _)]
  refine nodup_append.mpr ⟨nodup_range', nodup_range', fun a ha b hb => ?_⟩
  rw [mem_range'_1] at ha hb
  omega

end Rounds

section Alloc

variable {c : ℕ}

theorem runs_clusterAllocMirror (hc : V.InRange c) (hrw : V.readonly = false)
    (l : List ℕ) (hl : ∀ k ∈ l, k < V.numFats) :
    Runs V.quiet (clusterAllocMirror V c l) s fun r t =>
      r = .ok () ∧ t.vol = s.vol ∧ Put V (· ∈ l) c eoc s t := by
  induction l generalizing s with
  | nil => exact Runs.ret ⟨rfl, rfl, (Put.of_same (Same.refl s)).congr fun k _ => by simp⟩
  | cons k l ih =>
    refine (runs_fatPutCopy eoc (hl k mem_cons_self) hc hrw).attempt_bind ?_
    rintro r t ⟨rfl, hvol, hput⟩
    refine (ih fun j hj => hl j (mem_cons_of_mem _ hj)).mono fun r u hu => ?_
    exact ⟨hu.1, hu.2.1.trans hvol, (hput.trans hu.2.2 hc).congr fun j _ => mem_cons⟩

/-- The search found cluster `c` and marked it in the active copy. -/
structure Marked (V : Volume σ) (c : ℕ) (s t : Fs σ) : Prop where
  inRange : V.InRange c
  free : table V s c = 0
  put : Put V (· = V.fatActive) c eoc s t
  vol : t.vol = noteAlloc V c s.vol

theorem Marked.since (hst : Same V s t) (h : Marked V c t u) : Marked V c s u :=
  ⟨h.inRange, by rw [← hst.table_eq, h.free],
    (Put.trans (Put.of_same hst) h.put h.inRange).congr fun k _ => by simp,
    by rw [h.vol, hst.2]⟩

/-- One round of the search, on the view that it leaves. -/
theorem round_cases {cl span : ℕ} (hfits : Fits V.toGeom (cl, span)) (hvol : t.vol = s.vol)
    (hv : V.view t = (V.view s).edit (V.fatLba + cl / 128)
      (reserveIn cl (cl % 128) span (V.view s (V.fatLba + cl / 128))).2) :
    ((reserveIn cl (cl % 128) span (V.view s (V.fatLba + cl / 128))).1 = none ∧ Same V s t ∧
      ∀ c ∈ List.range' cl span, table V s c ≠ 0) ∨
    ∃ c, (reserveIn cl (cl % 128) span (V.view s (V.fatLba + cl / 128))).1 = some c ∧
      Marked V c s { t with vol := noteAlloc V c t.vol } := by
  obtain ⟨hcl, hspan, hend⟩ := hfits
  have hcl2 : 2 ≤ cl := hcl.1
  have hentry : ∀ c, cl ≤ c → c < cl + span → c / 128 = cl / 128 → V.InRange c ∧
      table V s c = entryBits ((V.view s (V.fatLba + cl / 128)).le32 (c % 128 * 4)) := by
    intro c hge hlt hdiv
    have hc : V.InRange c := ⟨by omega, by omega⟩
    have hval := fat_eq (v := V.view s) hc
    rw [entryAt, hdiv] at hval
    exact ⟨hc, hval⟩
  rcases reserveIn_cases cl span (V.view s (V.fatLba + cl / 128)) hspan with
    ⟨heq, hfull⟩ | ⟨c, hge, hlt, hdiv, h0, heq⟩
  · rw [heq] at hv ⊢
    refine Or.inl ⟨rfl, ⟨hv, hvol⟩, fun c hc => ?_⟩
    rw [mem_range'_1] at hc
    rw [(hentry c hc.1 hc.2 (by omega)).2]
    exact hfull c hc.1 hc.2
  · obtain ⟨hc, hval⟩ := hentry c hge hlt hdiv
    rw [heq] at hv ⊢
    rw [← hdiv, V.fatLba_eq] at hv
    have hput : Put V (· = V.fatActive) c eoc s t := Put.of_view V.active_lt hc hv
    exact Or.inr ⟨c, rfl, hc, hval.trans h0, ⟨hput.data, hput.entry, hput.other⟩, by rw [hvol]⟩

theorem runs_reserve (hrw : V.readonly = false) {l : List (ℕ × ℕ)}
    (hl : ∀ round ∈ l, Fits V.toGeom round) : Runs V.quiet (reserve V l) s fun r t =>
      (∃ c, r = .ok c ∧ Marked V c s t) ∨
      (r = .error .enospc ∧ Same V s t ∧ ∀ c ∈ entriesOf l, table V s c ≠ 0) := by
  induction l generalizing s with
  | nil => exact Runs.fail (Or.inr ⟨rfl, Same.refl s, nofun⟩)
  | cons round l ih =>
    obtain ⟨cl, span⟩ := round
    have hfits : Fits V.toGeom (cl, span) := hl _ mem_cons_self
    refine (runs_editBuf (reserveIn cl (cl % 128) span) (fatLba_lt_total hfits.1) hrw).bind_ok ?_
    rintro t ⟨hvol, hv⟩
    rcases round_cases hfits hvol hv with ⟨heq, hst, hfull⟩ | ⟨c, heq, hmarked⟩
    · -- nothing free in this sector: the search goes on behind it
      rw [heq]
      refine (ih fun round h => hl round (mem_cons_of_mem _ h)).mono fun r u hu => ?_
      rcases hu with ⟨c, hr, h⟩ | ⟨hr, htu, hnone⟩
      · exact Or.inl ⟨c, hr, h.since hst⟩
      · refine Or.inr ⟨hr, hst.trans htu, fun c hc => ?_⟩
        rw [entriesOf, flatMap_cons, mem_append] at hc
        rcases hc with hc | hc
        · exact hfull c hc
        · rw [← hst.table_eq]
          exact hnone c hc
    · rw [heq]
      exact Runs.modify_bind id (Runs.ret (Or.inl ⟨c, rfl, hmarked⟩))

/-- Cluster `c` was free and is a chain of its own now, in every copy that is kept. -/
structure Reserved (V : Volume σ) (c : ℕ) (s t : Fs σ) : Prop where
  inRange : V.InRange c
  free : table V s c = 0
  put : Put V (Kept V) c eoc s t
  vol : t.vol = noteAlloc V c s.vol

theorem Reserved.table_eq (h : Reserved V c s t) :
    table V t = update (table V s) c eoc := h.put.table_eq h.inRange (Or.inr rfl)

theorem runs_mirrorAll (hrw : V.readonly = false) (h : Marked V c s t) :
    Runs V.quiet (mirrorAll V c) t fun r u => r = .ok c ∧ Reserved V c s u := by
  unfold mirrorAll
  cases hmir : V.mirror with
  | false =>
    exact Runs.ret ⟨rfl, h.inRange, h.free, h.put.congr fun k _ => by simp [Kept, hmir], h.vol⟩
  | true =>
    refine (runs_clusterAllocMirror h.inRange hrw _ fun k hk => ?_).bind_ok fun u hu => ?_
    · exact mem_range.mp (mem_of_mem_filter hk)
    · refine Runs.ret ⟨rfl, h.inRange, h.free, (h.put.trans hu.2 h.inRange).congr fun k hk => ?_,
        hu.1.trans h.vol⟩
      by_cases hka : k = V.fatActive <;> simp [Kept, mirrors, hmir, hk, hka]

/-- What `cluster_alloc` does. -/
def AllocPost (V : Volume σ) (s : Fs σ) (r : Except Errno ℕ) (t : Fs σ) : Prop :=
  (∃ c, r = .ok c ∧ Reserved V c s t) ∨
  (r = .error .enospc ∧ Same V s t ∧ ∀ c, V.InRange c → table V s c ≠ 0)

theorem clusterAlloc_eq (hrw : V.readonly = false) : clusterAlloc V s =
    (reserve V (searchFrom V.toGeom s.vol.nextFree) >>= mirrorAll V) s := by
  rw [clusterAlloc, if_neg (by rw [hrw]; decide)]
  exact congrFun (clusterAllocLoop_eq V _ _ _) s

theorem runs_clusterAlloc (hrw : V.readonly = false) :
    Runs V.quiet (clusterAlloc V) s (AllocPost V s) := by
  have hfit := rounds_fit V.clusters V.clusters
    (start_inRange (g := V.toGeom) s.vol.nextFree)
  have hsearch : Runs V.quiet (reserve V (searchFrom V.toGeom s.vol.nextFree) >>= mirrorAll V) s
      (AllocPost V s) := by
    refine (runs_reserve hrw hfit).bind ?_ ?_
    · rintro c t (⟨c', hr, hmarked⟩ | ⟨hr, -⟩)
      · cases hr
        exact (runs_mirrorAll hrw hmarked).mono fun r u hu => Or.inl ⟨c, hu⟩
      · cases hr
    · rintro e t (⟨c, hr, -⟩ | ⟨hr, hst, hfull⟩)
      · cases hr
      · exact Or.inr ⟨hr, hst, fun c hc => hfull c (mem_searchFrom.mpr hc)⟩
  intro hq
  unfold Ends
  rw [clusterAlloc_eq hrw]
  exact hsearch hq

end Alloc

/-- `cluster_alloc` finds a free cluster exactly if there is one, marks it in every copy that is kept
and changes no other entry. Its rounds look at no entry twice. -/
theorem cluster_alloc_finds (V : Volume σ) (s : Fs σ) (hrw : V.readonly = false) (hq : V.quiet s) :
    ((clusterAlloc V s).result = .error .enospc ↔ ∀ c, V.InRange c → table V s c ≠ 0) ∧
    ((∃ c, V.InRange c ∧ table V s c = 0) → ∃ c, (clusterAlloc V s).result = .ok c ∧
      V.InRange c ∧ table V s c = 0 ∧ (∀ k, k < V.numFats → Kept V k →
        raw V (clusterAlloc V s).state k c = entryWith (raw V s k c) eoc) ∧
      ∀ k c', k < V.numFats → c' / 128 < V.fatSize → ¬(Kept V k ∧ c' = c) →
        raw V (clusterAlloc V s).state k c' = raw V s k c') ∧
    clusterAlloc V s = (reserve V (searchFrom V.toGeom s.vol.nextFree) >>= mirrorAll V) s ∧
      (entriesOf (searchFrom V.toGeom s.vol.nextFree)).Nodup := by
  have hpost : AllocPost V s (clusterAlloc V s).result (clusterAlloc V s).state :=
    (runs_clusterAlloc hrw hq).2
  refine ⟨?_, ?_, clusterAlloc_eq hrw, nodup_searchFrom _⟩
  · rcases hpost with ⟨c, hr, h⟩ | ⟨hr, -, hfull⟩
    · rw [hr]
      exact ⟨nofun, fun hfull => absurd h.free (hfull c h.inRange)⟩
    · exact ⟨fun _ => hfull, fun _ => hr⟩
  · rintro ⟨c', hc', hfree⟩
    rcases hpost with ⟨c, hr, h⟩ | ⟨-, -, hfull⟩
    · exact ⟨c, hr, h.inRange, h.free, h.put.entry, h.put.other⟩
    · exact absurd hfree (hfull c' hc')

/-- An empty table, whose first cluster is found. -/
theorem cluster_alloc_finds_first :
    let s : Fs Memory.Mem := ⟨⟨Smallest.image (Block.zero 512) fun _ => Block.zero 512, []⟩,
      Smallest.mounted 65525 2⟩
    ∃ c, (clusterAlloc Smallest.volume s).result = .ok c := by
  intro s
  have hquiet : Smallest.volume.quiet s := not_mem_nil
  obtain ⟨c, hc, -⟩ := (cluster_alloc_finds Smallest.volume s rfl hquiet).2.1
    ⟨2, ⟨by decide, by decide⟩, by decide +kernel⟩
  exact ⟨c, hc⟩

end Tach.FatAlloc
