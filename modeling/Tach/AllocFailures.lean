import Tach.FatAlloc

/-!
A device error in `cluster_alloc`, on a memory one of whose coming accesses fails. The undo frees the
entry of the active copy and counts one more free cluster. It leaves the copies that have got the
reservation before the error alone, and it counts up a counter that could not be counted down.
-/

namespace Tach.AllocFailures

open List Actions ByteBlock Sectors FatData FatTable FatView DriverRules FatSpecs FatAlloc Memory

def before (script : List Bool) : ℕ := (script.takeWhile (· = false)).length

section Accesses

variable {V : Volume Mem} {n : ℕ} {α : Type} {s : Fs Mem} {k c lba : ℕ}

variable (hV : V.layer = Memory.layer n)
include hV

/-- An access fails and changes nothing, or takes effect, as the script says. -/
theorem editBuf_cases (f : Sector → α × Option Sector) (hlba : lba < V.total) :
    ∃ r t, editBuf V lba f s = ⟨r, t, false⟩ ∧ t.io.script = s.io.script.tail ∧ t.vol = s.vol ∧
      ((s.io.script.head? = some true ∧ r = .error .eio ∧ V.view t = V.view s) ∨
        (s.io.script.head? ≠ some true ∧ r = .ok (f (V.view s lba)).1 ∧
          V.view t = (V.view s).edit lba (f (V.view s lba)).2)) := by
  have hview : ∀ t : Fs Mem, V.view t = t.io.data := by
    intro t
    rw [Volume.view, hV]
    rfl
  have hlt : lba < n := by
    have hfits := V.fits
    rw [hV] at hfits
    exact Nat.lt_of_lt_of_le hlba hfits
  unfold editBuf onBlk Act.zoom
  rw [hV]
  simp only [Memory.layer, Memory.withBuf, Memory.call, hview]
  by_cases hfail : s.io.script.head? = some true
  · rw [if_pos (Or.inr hfail)]
    exact ⟨_, _, rfl, rfl, rfl, Or.inl ⟨hfail, rfl, rfl⟩⟩
  · rw [if_neg (by simp [hlt, hfail])]
    exact ⟨_, _, rfl, rfl, rfl, Or.inr ⟨hfail, rfl, rfl⟩⟩

theorem fatPutCopy_cases (x : ℕ) (hk : k < V.numFats) (hc : V.InRange c) :
    ∃ r t, fatPutCopy V k c x s = ⟨r, t, false⟩ ∧ t.io.script = s.io.script.tail ∧ t.vol = s.vol ∧
      ((s.io.script.head? = some true ∧ r = .error .eio ∧ Same V s t) ∨
        (s.io.script.head? ≠ some true ∧ r = .ok () ∧ Put V (· = k) c x s t)) := by
  obtain ⟨r, t, hrun, hscript, hvol, hcase⟩ := editBuf_cases hV
    (fun d => ((), some (putEntry d c x))) (fatSector_lt_total hk hc)
  refine ⟨r, t, hrun, hscript, hvol, hcase.imp (fun h => ⟨h.1, h.2.1, h.2.2, hvol⟩) fun h => ?_⟩
  exact ⟨h.1, h.2.1, Put.of_view hk hc h.2.2⟩

/-- The search for a free cluster fails and changes nothing, or marks the cluster. -/
theorem reserve_cases {l : List (ℕ × ℕ)} (hl : ∀ round ∈ l, Fits V.toGeom round) :
    ∃ r t, reserve V l s = ⟨r, t, false⟩ ∧ t.io.script <:+ s.io.script ∧
      ((∃ e, r = .error e ∧ Same V s t) ∨ ∃ c, r = .ok c ∧ Marked V c s t) := by
  induction l generalizing s with
  | nil => exact ⟨_, _, rfl, suffix_refl _, Or.inl ⟨_, rfl, Same.refl s⟩⟩
  | cons round l ih =>
    obtain ⟨cl, span⟩ := round
    have hfits : Fits V.toGeom (cl, span) := hl _ mem_cons_self
    obtain ⟨r, t, hrun, hscript, hvol, hcase⟩ := editBuf_cases hV
      (reserveIn cl (cl % 128) span) (fatLba_lt_total hfits.1)
    have htail : t.io.script <:+ s.io.script := by
      rw [hscript]
      exact tail_suffix _
    rcases hcase with ⟨-, rfl, hv⟩ | ⟨-, rfl, hv⟩
    · exact ⟨_, _, Act.bind_of_error hrun, htail, Or.inl ⟨_, rfl, hv, hvol⟩⟩
    rw [reserve, Act.bind_of_ok hrun]
    rcases round_cases hfits hvol hv with ⟨heq, hst, -⟩ | ⟨c, heq, hmarked⟩
    · rw [heq]
      obtain ⟨r, u, hrest, hsuffix, hcase⟩ := ih fun round h =>
        hl round (mem_cons_of_mem _ h)
      dsimp only
      rw [hrest]
      refine ⟨r, u, rfl, hsuffix.trans htail, hcase.imp ?_ ?_⟩
      · rintro ⟨e, hr, htu⟩
        exact ⟨e, hr, hst.trans htu⟩
      · rintro ⟨c, hr, h⟩
        exact ⟨c, hr, h.since hst⟩
    · rw [heq]
      exact ⟨_, _, rfl, htail, Or.inr ⟨c, rfl, hmarked⟩⟩

/-- Writing the mirror copies succeeds, or it has written the copies in front of one that fails and
undone the reservation in the active copy alone. -/
theorem mirror_cases (hc : V.InRange c) {l : List ℕ}
    (hl : ∀ k ∈ l, k < V.numFats) (hone : s.io.script.count true ≤ 1) :
    ∃ r u, clusterAllocMirror V c l s = ⟨r, u, false⟩ ∧ (r = .ok () ∨ (true ∈ s.io.script ∧
      (∃ t, Put V (· ∈ l.take (before s.io.script)) c eoc s t ∧ Put V (· = V.fatActive) c 0 t u) ∧
      u.vol.freeCount = if s.vol.freeCount = unknown then s.vol.freeCount
        else u32 (s.vol.freeCount + 1))) := by
  induction l generalizing s with
  | nil => exact ⟨_, _, rfl, Or.inl rfl⟩
  | cons k l ih =>
    obtain ⟨r, t, hrun, hscript, hvol, hcase⟩ := fatPutCopy_cases hV eoc
      (hl k mem_cons_self) hc
    have hattempt : Act.attempt (fatPutCopy V k c eoc) s = ⟨.ok r, t, false⟩ := by
      rw [Act.attempt, hrun]
    rw [clusterAllocMirror, Act.bind_of_ok hattempt]
    rcases hcase with ⟨hhead, rfl, hst⟩ | ⟨hhead, rfl, hput⟩
    · -- this copy fails; the undo of the active one does not
      obtain ⟨rest, hrest⟩ : ∃ rest, s.io.script = true :: rest := List.head?_eq_some_iff.mp hhead
      have hnone : true ∉ rest := by
        rw [hrest, count_cons_self] at hone
        exact count_eq_zero.mp (by omega)
      obtain ⟨r, u, hundo, -, hvolu, ⟨hagain, -⟩ | ⟨-, -, hput⟩⟩ := fatPutCopy_cases
        hV 0 V.active_lt hc
      · rw [hscript, hrest] at hagain
        exact absurd (mem_of_mem_head? hagain) hnone
      have hundone : Act.attempt (fatPutCopy V V.fatActive c 0) t = ⟨.ok r, u, false⟩ := by
        rw [Act.attempt, hundo]
      dsimp only
      rw [Act.bind_of_ok hundone]
      refine ⟨_, _, rfl, Or.inr ⟨mem_of_mem_head? hhead, ⟨t, ?_, ?_⟩, ?_⟩⟩
      · rw [hrest]
        exact (Put.of_same hst).congr fun j _ => by simp [before]
      · exact ⟨hput.data, hput.entry, hput.other⟩
      · rw [← hvol, ← hvolu]
        rfl
    · have hone' : t.io.script.count true ≤ 1 := by
        rw [hscript]
        exact Nat.le_trans ((tail_sublist _).count_le _) hone
      obtain ⟨r, u, hrest, hcase⟩ := ih (fun j hj => hl j (mem_cons_of_mem _ hj)) hone'
      dsimp only
      rw [hrest]
      refine ⟨r, u, rfl, hcase.imp_right fun ⟨hmem, ⟨w, hcopies, hundo⟩, hcount⟩ => ?_⟩
      rw [hscript] at hmem hcopies
      obtain ⟨rest, hrest⟩ : ∃ rest, s.io.script = false :: rest := by
        cases hs : s.io.script with
        | nil => rw [hs] at hmem; cases hmem
        | cons b rest =>
          cases b with
          | true => rw [hs] at hhead; exact absurd rfl hhead
          | false => exact ⟨rest, rfl⟩
      rw [hvol] at hcount
      refine ⟨mem_of_mem_tail hmem, ⟨w, ?_, hundo⟩, hcount⟩
      rw [hrest] at hcopies ⊢
      exact (hput.trans hcopies hc).congr fun j _ => by simp [before]

end Accesses

section Claim

variable {σ : Type}

/-- All copies of the table and the free counter are the same. -/
def Unchanged (V : Volume σ) (s t : Fs σ) : Prop :=
  (∀ k c, k < V.numFats → c / 128 < V.fatSize → raw V t k c = raw V s k c) ∧
    t.vol.freeCount = s.vol.freeCount

/-- A reservation of which nothing is left once it is undone: the counter could be counted down, and
the copies written before the error had the end mark already. -/
def Harmless (V : Volume Mem) (s : Fs Mem) : Prop :=
  let search := reserve V (searchFrom V.toGeom s.vol.nextFree) s
  ∀ c, search.result = .ok c → s.vol.freeCount ≠ 0 ∧
    ∀ k ∈ (mirrors V.toGeom).take (before search.state.io.script),
      entryWith (raw V s k c) eoc = raw V s k c

theorem count_undone {x : ℕ} (hx : x < 4294967296) :
    ((if (if x = unknown ∨ x = 0 then x else x - 1) = unknown then
      (if x = unknown ∨ x = 0 then x else x - 1)
      else u32 ((if x = unknown ∨ x = 0 then x else x - 1) + 1)) = x) ↔ x ≠ 0 := by
  unfold unknown u32
  split_ifs <;> omega

theorem unchanged_iff {V : Volume σ} {s q t u : Fs σ} {c : ℕ} {l : List ℕ} (hmarked : Marked V c s q)
    (hl : ∀ k ∈ l, k < V.numFats ∧ k ≠ V.fatActive) (hcopies : Put V (· ∈ l) c eoc q t)
    (hundo : Put V (· = V.fatActive) c 0 t u) :
    (∀ k c', k < V.numFats → c' / 128 < V.fatSize → raw V u k c' = raw V s k c') ↔
      ∀ k ∈ l, entryWith (raw V s k c) eoc = raw V s k c := by
  have hrow := row_lt hmarked.inRange
  have hcopy : ∀ k ∈ l, raw V u k c = entryWith (raw V s k c) eoc := by
    intro k hk
    obtain ⟨hlt, hne⟩ := hl k hk
    rw [hundo.other k c hlt hrow fun h => hne h.1, hcopies.entry k hlt hk,
      hmarked.put.other k c hlt hrow fun h => hne h.1]
  refine ⟨fun h k hk => (hcopy k hk).symm.trans (h k c (hl k hk).1 hrow), fun h k c' hk hc' => ?_⟩
  by_cases hcc : c' = c
  swap
  · rw [hundo.other k c' hk hc' fun h => hcc h.2, hcopies.other k c' hk hc' fun h => hcc h.2,
      hmarked.put.other k c' hk hc' fun h => hcc h.2]
  subst hcc
  by_cases hkl : k ∈ l
  · rw [hcopy k hkl, h k hkl]
  by_cases hka : k = V.fatActive
  · have hfree : entryBits (raw V s V.fatActive c') = 0 := by
      have hval := hmarked.free
      rw [table, fat, fatCopy, if_pos ⟨V.active_lt, hmarked.inRange⟩] at hval
      exact hval
    rw [hundo.entry k hk hka, hcopies.other k c' hk hc' fun h => hkl h.1, hmarked.put.entry k hk hka,
      entryWith_twice, hka]
    unfold entryBits at hfree
    simp only [entryWith, entryBits]
    omega
  · rw [hundo.other k c' hk hc' fun h => hka h.1, hcopies.other k c' hk hc' fun h => hkl h.1,
      hmarked.put.other k c' hk hc' fun h => hka h.1]

/-- After an error in at most one access, `cluster_alloc` leaves the table and the counter as they
were exactly if its reservation was harmless. -/
theorem failed_alloc_unchanged_iff (V : Volume Mem) (n : ℕ) (hV : V.layer = Memory.layer n)
    (s : Fs Mem) (hone : s.io.script.count true ≤ 1) (hcount : s.vol.freeCount < 4294967296)
    (e : Errno) (herr : (clusterAlloc V s).result = .error e) :
    Unchanged V s (clusterAlloc V s).state ↔ Harmless V s := by
  have hrw : V.readonly = false := V.ro.trans (by rw [hV]; rfl)
  have hfits := rounds_fit V.clusters V.clusters
    (start_inRange (g := V.toGeom) s.vol.nextFree)
  obtain ⟨r, q, hsearch, hsuffix, hcase⟩ := reserve_cases hV hfits
  change reserve V (searchFrom V.toGeom s.vol.nextFree) s = _ at hsearch
  rw [clusterAlloc_eq hrw] at herr ⊢
  unfold Harmless
  rw [hsearch]
  rcases hcase with ⟨e', rfl, hst⟩ | ⟨c, rfl, hmarked⟩
  · rw [Act.bind_of_error hsearch]
    exact ⟨fun _ => by simp, fun _ => ⟨fun k c _ _ => by rw [hst.raw_eq], by rw [hst.2]⟩⟩
  rw [Act.bind_of_ok hsearch] at herr ⊢
  have hmirrors : ∀ k ∈ mirrors V.toGeom, k < V.numFats ∧ k ≠ V.fatActive := by
    intro k hk
    simpa [mirrors] using hk
  obtain ⟨r, u, hmirror, hcase⟩ := mirror_cases hV hmarked.inRange
    (fun k hk => (hmirrors k hk).1) (Nat.le_trans (hsuffix.sublist.count_le _) hone)
  unfold mirrorAll at herr ⊢
  cases hmir : V.mirror with
  | false =>
    rw [hmir] at herr
    cases herr
  | true =>
    rw [hmir, if_pos rfl] at herr
    rw [if_pos rfl]
    cases r with
    | ok =>
      rw [Act.bind_of_ok hmirror] at herr
      cases herr
    | error e' =>
      obtain ⟨-, ⟨t, hcopies, hundo⟩, hfree⟩ := hcase.resolve_left (by simp)
      rw [Act.bind_of_error hmirror, Unchanged,
        unchanged_iff hmarked (fun k hk => hmirrors k (mem_of_mem_take hk)) hcopies hundo,
        hfree, hmarked.vol]
      refine Iff.trans (and_congr_right fun _ => count_undone hcount) ?_
      exact ⟨fun h c' hc' => by cases hc'; exact ⟨h.2, h.1⟩, fun h => ⟨(h c rfl).2, (h c rfl).1⟩⟩

def emptyFs (script : List Bool) : Fs Mem :=
  ⟨⟨fun _ => Block.zero 512, script⟩, Smallest.mounted 65525 2⟩

/-- With two copies the second one is the first that can fail, and nothing is left. -/
theorem failed_alloc_unchanged_two_copies :
    (clusterAlloc Smallest.volume (emptyFs [false, true])).result = .error .eio ∧
      Unchanged Smallest.volume (emptyFs [false, true])
        (clusterAlloc Smallest.volume (emptyFs [false, true])).state := by
  have herr : (clusterAlloc Smallest.volume (emptyFs [false, true])).result = .error .eio := by
    decide +kernel
  refine ⟨herr, (failed_alloc_unchanged_iff Smallest.volume 66581 rfl (emptyFs [false, true])
    (by decide) (by decide) .eio herr).mpr fun c _ => ⟨by decide, ?_⟩⟩
  have hfirst : before (reserve Smallest.volume (searchFrom Smallest.geom 2)
      (emptyFs [false, true])).state.io.script = 0 := by decide +kernel
  intro k hk
  change k ∈ (mirrors Smallest.geom).take (before (reserve Smallest.volume
    (searchFrom Smallest.geom 2) (emptyFs [false, true])).state.io.script) at hk
  rw [hfirst] at hk
  cases hk

def threeCopies : Volume Mem :=
  { Smallest.geom with
    numFats := 3
    dataLba := 1568
    total := 67093
    active_lt := by decide
    data_eq := rfl
    data_fits := by decide
    layer := Memory.layer 67093
    fits := by decide
    ro := Smallest.volume.ro }

/-- When the third copy fails, the second one keeps the end mark of the reservation. -/
theorem failed_alloc_marks_second_copy :
    (clusterAlloc threeCopies (emptyFs [false, false, true])).result = .error .eio ∧
      ¬Unchanged threeCopies (emptyFs [false, false, true])
        (clusterAlloc threeCopies (emptyFs [false, false, true])).state := by
  refine ⟨by decide +kernel, fun h => ?_⟩
  have hentry := h.1 1 2 (by decide) (by decide)
  exact absurd hentry (by decide +kernel)

end Claim

end Tach.AllocFailures
