import Tach.FileRead

/-!
The cursor that `fat32_readdir` keeps in a directory node. It stands for the scan of the directory up
to the entry whose number is kept with it, so that a call that resumes there finds what a scan from
the start finds, for any indexes in any order and as long as the directory is not changed.
-/

namespace Tach.DirCursors

open Actions ByteBlock Sectors FatData FatTable FatView DriverRules FatSpecs Directory Files FileRead

variable {σ α β : Type} {V : Volume σ} {v v' : View} {first index n fuel : ℕ} {cur cur' : DirCur}

/-- Entry number `index` of a scan from this cursor on. -/
def nthEntry (V : Volume σ) : ℕ → DirCur → FatM σ (Option Info)
  | 0, cur => do
    let r ← dirNext V cur
    pure r.1
  | index + 1, cur => do
    let r ← dirNext V cur
    match r.1 with
    | none => pure none
    | some _ => nthEntry V index r.2

/-- Calls of `fat32_readdir` on one node, each with the state of the volume that it meets. -/
def readdirs (V : Volume σ) : List (ℕ × Fs σ) → Node → List (Except Errno (Option Info))
  | [], _ => []
  | (index, s) :: rest, n =>
    (fat32Readdir V index (s, n)).result :: readdirs V rest (fat32Readdir V index (s, n)).state.2

/-- The clusters of the chain from `first` on. -/
inductive OnChain (g : Geom) (f : ℕ → ℕ) (first : ℕ) : ℕ → Prop
  | start : g.InRange first → OnChain g f first first
  | next {c d : ℕ} : OnChain g f first c → stepOf g f c = .to d → OnChain g f first d

theorem OnChain.inRange {g : Geom} {f : ℕ → ℕ} {c : ℕ} (h : OnChain g f first c) : g.InRange c := by
  cases h with
  | start hc => exact hc
  | next _ hstep => exact (eq_of_stepOf_to hstep).2

/-- The directory from `first` on has the same clusters with the same contents. -/
structure SameDir (g : Geom) (first : ℕ) (v v' : View) : Prop where
  links : ∀ c, OnChain g (fat g v) first c → fat g v' c = fat g v c
  sectors : ∀ c j, OnChain g (fat g v) first c → j < g.spc →
    v' (g.clusterLba c + j) = v (g.clusterLba c + j)

/-- What `m` returns wherever the directory is the one in `v`. -/
def Looks (V : Volume σ) (v : View) (first : ℕ) (m : FatM σ α) (x : Except Errno α) : Prop :=
  ∀ v', SameDir V.toGeom first v v' → Reads V v' m x

namespace Looks

variable {m : FatM σ α} {f : α → FatM σ β} {y : Except Errno β}

theorem ret (a : α) : Looks V v first (pure a) (.ok a) := fun _ _ => Reads.ret a

theorem fail (e : Errno) : Looks V v first (Act.fail e : FatM σ α) (.error e) :=
  fun _ _ => Reads.fail e

theorem bind_ok {a : α} (h : Looks V v first m (.ok a)) (h' : Looks V v first (f a) y) :
    Looks V v first (m >>= f) y := fun v' hv => (h v' hv).bind_ok (h' v' hv)

theorem bind_error {e : Errno} (h : Looks V v first m (.error e)) :
    Looks V v first (m >>= f) (.error e) := fun v' hv => (h v' hv).bind_error

/-- What is returned at once is the value, wherever there is a state at all. -/
theorem of_ret {a : α} {x : Except Errno α} (h : Looks V v first (pure a) x)
    (h' : Looks V v first m (.ok a)) : Looks V v first m x := by
  intro v' hv s hs hq
  obtain rfl : .ok a = x := (h v' hv s hs hq).2.1
  exact h' v' hv s hs hq

end Looks

structure InDir (V : Volume σ) (v : View) (first : ℕ) (cur : DirCur) : Prop where
  cluster : cur.cluster = 0 ∨ OnChain V.toGeom (fat V.toGeom v) first cur.cluster
  pos : cur.pos < V.entriesPerCluster
  steps : cur.steps ≤ V.clusters

def slotsLeft (g : Geom) (cur : DirCur) : ℕ :=
  (g.clusters - cur.steps) * g.entriesPerCluster + (g.entriesPerCluster - cur.pos)

theorem slotsLeft_lt : slotsLeft V.toGeom cur < dirFuel V := by
  have hmul := Nat.mul_le_mul_right V.entriesPerCluster (Nat.sub_le V.clusters cur.steps)
  rw [slotsLeft, dirFuel, Nat.add_mul, Nat.one_mul]
  omega

theorem looks_curPeek (h : InDir V v first cur) (h0 : cur.cluster ≠ 0) :
    ∃ e, Looks V v first (curPeek V cur) (.ok (some e)) := by
  have hon := h.cluster.resolve_left h0
  have hpos := h.pos
  rw [V.entries_eq] at hpos
  have hsec : cur.pos / 16 < V.spc := by omega
  refine ⟨(v (V.clusterLba cur.cluster + cur.pos / 16)).window (cur.pos % 16 * 32) 32,
    fun v' hv => ?_⟩
  rw [← hv.sectors _ _ hon hsec, curPeek, if_neg h0]
  exact Reads.readBuf _ (clusterLba_lt hon.inRange hsec)

theorem looks_curAdvance (h : InDir V v first cur) (h0 : cur.cluster ≠ 0) :
    ∃ x, Looks V v first (curAdvance V cur) x ∧ ∀ cur', x = .ok cur' →
      InDir V v first cur' ∧ slotsLeft V.toGeom cur' < slotsLeft V.toGeom cur := by
  have hon := h.cluster.resolve_left h0
  have hpos := h.pos
  unfold curAdvance
  by_cases hin : cur.pos + 1 < V.entriesPerCluster
  · rw [if_pos hin]
    refine ⟨_, Looks.ret _, fun cur' hcur => ?_⟩
    cases hcur
    refine ⟨⟨h.cluster, hin, h.steps⟩, ?_⟩
    unfold slotsLeft
    dsimp only
    omega
  rw [if_neg hin]
  by_cases hloop : V.clusters < cur.steps + 1
  · rw [if_pos hloop]
    exact ⟨_, Looks.fail _, nofun⟩
  rw [if_neg hloop]
  have hnext : Looks V v first (fatNext V cur.cluster)
      (linkResult (stepOf V.toGeom (fat V.toGeom v) cur.cluster)) := by
    intro v' hv
    rw [← stepOf_congr (hv.links _ hon)]
    exact reads_fatNext v' cur.cluster
  have hleft : ∀ c, slotsLeft V.toGeom ⟨c, 0, cur.steps + 1⟩ < slotsLeft V.toGeom cur := by
    intro c
    have hmul : (V.clusters - cur.steps) * V.entriesPerCluster =
        (V.clusters - (cur.steps + 1)) * V.entriesPerCluster + V.entriesPerCluster := by
      rw [show V.clusters - cur.steps = V.clusters - (cur.steps + 1) + 1 by omega, Nat.add_mul,
        Nat.one_mul]
    unfold slotsLeft
    dsimp only
    omega
  rcases hstep : stepOf V.toGeom (fat V.toGeom v) cur.cluster with _ | d | _
  · rw [hstep] at hnext
    refine ⟨_, hnext.bind_ok (Looks.ret _), fun cur' hcur => ?_⟩
    cases hcur
    exact ⟨⟨Or.inl rfl, by dsimp only; omega, by dsimp only; omega⟩, hleft _⟩
  · rw [hstep] at hnext
    refine ⟨_, hnext.bind_ok (Looks.ret _), fun cur' hcur => ?_⟩
    cases hcur
    exact ⟨⟨Or.inr (hon.next hstep), by dsimp only; omega, by dsimp only; omega⟩, hleft _⟩
  · rw [hstep] at hnext
    exact ⟨_, hnext.bind_error, nofun⟩

/-- What the loop of `dir_next` ends in: an entry and a cursor behind it, or the end. -/
def NextPost (V : Volume σ) (v : View) (first : ℕ) (cur : DirCur)
    (x : Except Errno (Option Info × DirCur)) : Prop :=
  ∀ o cur', x = .ok (o, cur') → InDir V v first cur' ∧
    (o = none → cur'.cluster = 0) ∧ (o ≠ none → slotsLeft V.toGeom cur' < slotsLeft V.toGeom cur)

theorem looks_scanDir (st : LfnState) (h : InDir V v first cur)
    (hfuel : slotsLeft V.toGeom cur ≤ fuel) :
    ∃ x, Looks V v first (scanDir V visitNext (fun cur _ => (none, cur)) fuel cur st) x ∧
      NextPost V v first cur x := by
  induction fuel generalizing cur st with
  | zero =>
    have hpos := h.pos
    unfold slotsLeft at hfuel
    omega
  | succ fuel ih =>
    rw [scanDir]
    by_cases h0 : cur.cluster = 0
    · have hpeek : Looks V v first (curPeek V cur) (.ok none) := by
        rw [curPeek, if_pos h0]
        exact Looks.ret _
      refine ⟨_, hpeek.bind_ok (Looks.ret _), fun o cur' hx => ?_⟩
      cases hx
      exact ⟨h, fun _ => h0, fun hne => absurd rfl hne⟩
    obtain ⟨e, hpeek⟩ := looks_curPeek h h0
    obtain ⟨a, hadvance, hcur⟩ := looks_curAdvance h h0
    cases hvisit : visitNext cur e st with
    | stop b =>
      refine ⟨.ok b, hpeek.bind_ok (by simp only [hvisit]; exact Looks.ret b), fun o cur' hx => ?_⟩
      cases hx
      unfold visitNext at hvisit
      split at hvisit
      · cases hvisit
        exact ⟨⟨Or.inl rfl, h.pos, h.steps⟩, fun _ => rfl, fun hne => absurd rfl hne⟩
      · cases hvisit
      · cases hvisit
    | stopAfter f =>
      cases a with
      | error err =>
        refine ⟨.error err, hpeek.bind_ok ?_, nofun⟩
        simp only [hvisit]
        exact hadvance.bind_error
      | ok next =>
        refine ⟨.ok (f next), hpeek.bind_ok ?_, fun o cur' hx => ?_⟩
        · simp only [hvisit]
          exact hadvance.bind_ok (Looks.ret _)
        · unfold visitNext at hvisit
          split at hvisit
          · cases hvisit
          · cases hvisit
          · cases hvisit
            cases hx
            exact ⟨(hcur _ rfl).1, nofun, fun _ => (hcur _ rfl).2⟩
    | next st' =>
      cases a with
      | error err =>
        refine ⟨.error err, hpeek.bind_ok ?_, nofun⟩
        simp only [hvisit]
        exact hadvance.bind_error
      | ok next =>
        obtain ⟨hin, hlt⟩ := hcur _ rfl
        obtain ⟨x, hscan, hpost⟩ := ih st' hin (by omega)
        refine ⟨x, hpeek.bind_ok ?_, fun o cur' hx => ?_⟩
        · simp only [hvisit]
          exact hadvance.bind_ok hscan
        · obtain ⟨h1, h2, h3⟩ := hpost o cur' hx
          exact ⟨h1, h2, fun hne => Nat.lt_trans (h3 hne) hlt⟩

theorem looks_dirNext (h : InDir V v first cur) :
    ∃ x, Looks V v first (dirNext V cur) x ∧ NextPost V v first cur x :=
  looks_scanDir _ h (Nat.le_of_lt slotsLeft_lt)

/-- The cursor stands for a scan of `n` entries: what follows it is what follows them. -/
structure Stands (V : Volume σ) (v : View) (first : ℕ) (cur : DirCur) (n : ℕ) : Prop where
  inDir : InDir V v first cur
  same : ∀ i x, n ≤ i → Looks V v first (nthEntry V (i - n) cur) x →
    Looks V v first (nthEntry V i (curInit first)) x

theorem Stands.start (h : first = 0 ∨ V.InRange first) : Stands V v first (curInit first) 0 :=
  ⟨⟨h.imp_right OnChain.start, entries_pos, Nat.zero_le _⟩, fun _ _ _ hx => hx⟩

/-- An error, or the end, is what every later entry gives. -/
theorem nthEntry_of_error {e : Errno} (h : Looks V v first (dirNext V cur) (.error e)) (i : ℕ) :
    Looks V v first (nthEntry V i cur) (.error e) := by
  cases i with
  | zero => exact h.bind_error
  | succ i => exact h.bind_error

theorem nthEntry_of_end (h : Looks V v first (dirNext V cur) (.ok (none, cur'))) (i : ℕ) :
    Looks V v first (nthEntry V i cur) (.ok none) := by
  cases i with
  | zero => exact h.bind_ok (Looks.ret _)
  | succ i => exact h.bind_ok (Looks.ret _)

theorem Stands.step {e : Info} (h : Stands V v first cur n)
    (hnext : Looks V v first (dirNext V cur) (.ok (some e, cur'))) (hin : InDir V v first cur') :
    Stands V v first cur' (n + 1) := by
  refine ⟨hin, fun i x hi hx => h.same i x (by omega) ?_⟩
  rw [show i - n = i - (n + 1) + 1 by omega]
  exact hnext.bind_ok hx

theorem Stands.done (h : Stands V v first cur n)
    (hnext : Looks V v first (dirNext V cur) (.ok (none, cur'))) (hin : InDir V v first cur')
    (h0 : cur'.cluster = 0) : Stands V v first cur' n := by
  have hend : dirNext V cur' = pure (none, cur') := by
    rw [dirNext, dirFuel, scanDir, curPeek, if_pos h0]
    rfl
  have hnone : ∀ i, nthEntry V i cur' = pure none := by
    intro i
    cases i with
    | zero => rw [nthEntry, hend]; rfl
    | succ i => rw [nthEntry, hend]; rfl
  refine ⟨hin, fun i x hi hx => h.same i x hi ?_⟩
  rw [hnone] at hx
  exact hx.of_ret (nthEntry_of_end hnext _)

theorem looks_readdirLoop (h : Stands V v first cur n) (hn : n ≤ index)
    (hfuel : slotsLeft V.toGeom cur ≤ fuel) :
    ∃ y, Looks V v first (readdirLoop V index fuel cur n) y ∧
      Looks V v first (nthEntry V index (curInit first)) (y.map Prod.fst) ∧
      ∀ o cur' n', y = .ok (o, cur', n') → Stands V v first cur' n' := by
  induction fuel generalizing cur n with
  | zero =>
    have hpos := h.inDir.pos
    unfold slotsLeft at hfuel
    omega
  | succ fuel ih =>
    obtain ⟨x, hnext, hpost⟩ := looks_dirNext h.inDir
    rw [readdirLoop]
    rcases x with e | ⟨_ | e, cur'⟩
    · exact ⟨.error e, hnext.bind_error, h.same _ _ hn (nthEntry_of_error hnext _), nofun⟩
    · obtain ⟨hin, h0, -⟩ := hpost _ _ rfl
      refine ⟨.ok (none, cur', n), hnext.bind_ok (Looks.ret _),
        h.same _ _ hn (nthEntry_of_end hnext _), fun o c n' hy => ?_⟩
      cases hy
      exact h.done hnext hin (h0 rfl)
    · obtain ⟨hin, -, hlt⟩ := hpost _ _ rfl
      have hstands := h.step hnext hin
      by_cases heq : n = index
      · refine ⟨.ok (some e, cur', n + 1), hnext.bind_ok ?_, h.same _ _ hn ?_, fun o c n' hy => ?_⟩
        · dsimp only
          rw [if_pos heq]
          exact Looks.ret _
        · rw [heq, Nat.sub_self]
          exact hnext.bind_ok (Looks.ret _)
        · cases hy
          exact hstands
      · obtain ⟨y, hloop, hsame, hkept⟩ := ih hstands (by omega) (by have := hlt nofun; omega)
        refine ⟨y, hnext.bind_ok ?_, hsame, hkept⟩
        dsimp only
        rw [if_neg heq]
        exact hloop

/-- The cursor that a node keeps stands for the number it keeps with it. -/
def Kept (V : Volume σ) (v : View) (d : Node) : Prop :=
  d.rdValid = true → Stands V v d.info.firstCluster d.rdCur d.rdNext

theorem runs_fat32Readdir {s : Fs σ} {d : Node} (index : ℕ) (hdir : d.info.isDir = true)
    (hfirst : d.info.firstCluster = 0 ∨ V.InRange d.info.firstCluster) (hkept : Kept V v d)
    (hv : SameDir V.toGeom d.info.firstCluster v (V.view s)) :
    Runs (fun p => V.quiet p.1) (fat32Readdir V index) (s, d) fun r q =>
      q.2.info = d.info ∧ Kept V v q.2 ∧
        Looks V v d.info.firstCluster (nthEntry V index (curInit d.info.firstCluster)) r := by
  refine Runs.read_bind ?_
  dsimp only [id]
  rw [if_neg (by rw [hdir]; decide)]
  have hstands : Stands V v d.info.firstCluster
      (if d.rdValid ∧ d.rdNext ≤ index then d.rdCur else curInit d.info.firstCluster)
      (if d.rdValid ∧ d.rdNext ≤ index then d.rdNext else 0) ∧
      (if d.rdValid ∧ d.rdNext ≤ index then d.rdNext else 0) ≤ index := by
    split
    · rename_i h
      exact ⟨hkept h.1, h.2⟩
    · exact ⟨Stands.start hfirst, Nat.zero_le _⟩
  simp only [decide_eq_true_eq]
  obtain ⟨y, hloop, hsame, hnode⟩ := looks_readdirLoop hstands.1 hstands.2
    (Nat.le_of_lt slotsLeft_lt)
  refine (runs_onFs (hloop _ hv).runs).bind ?_ ?_
  · rintro ⟨o, cur', n'⟩ q ⟨u, rfl, hy, -⟩
    refine Runs.modify_bind id (Runs.ret ⟨rfl, fun _ => hnode _ _ _ hy.symm, ?_⟩)
    rw [← hy] at hsame
    exact hsame
  · rintro e q ⟨u, rfl, hy, -⟩
    rw [← hy] at hsame
    exact ⟨rfl, hkept, hsame⟩

/-- Every call on a directory node gives the entry that a scan from the start gives, whatever was
asked for before. -/
theorem readdir_like_fresh_scan (V : Volume σ) (v : View) (calls : List (ℕ × Fs σ)) (d : Node)
    (hdir : d.info.isDir = true) (hfresh : d.rdValid = false)
    (hfirst : d.info.firstCluster = 0 ∨ V.InRange d.info.firstCluster)
    (hcalls : ∀ call ∈ calls, V.quiet call.2 ∧
      SameDir V.toGeom d.info.firstCluster v (V.view call.2)) :
    readdirs V calls d = calls.map fun call =>
      (nthEntry V call.1 (curInit d.info.firstCluster) call.2).result := by
  have hkept : Kept V v d := fun h => absurd (hfresh.symm.trans h) nofun
  clear hfresh
  induction calls generalizing d with
  | nil => rfl
  | cons call calls ih =>
    obtain ⟨index, s⟩ := call
    obtain ⟨hquiet, hv⟩ := hcalls _ List.mem_cons_self
    obtain ⟨-, hinfo, hkept', hlooks⟩ :=
      runs_fat32Readdir index hdir hfirst hkept hv hquiet
    have hresult := (hlooks _ hv s rfl hquiet).2.1
    rw [readdirs, List.map_cons, ih _ (by rw [hinfo]; exact hdir) (by rw [hinfo]; exact hfirst)
      (by rw [hinfo]; exact fun call h => hcalls call (List.mem_cons_of_mem _ h)) hkept', hinfo]
    exact congrArg (· :: _) hresult.symm

def crowded : Fs Memory.Mem :=
  ⟨⟨Smallest.image ((Block.zero 512).put32 8 eoc) fun _ => Block.ofFn 512 fun _ => 65, []⟩,
    Smallest.mounted 65524 3⟩

def crowdedRoot : Node := ⟨⟨[], [], attrDir, 2, 0, 0, 0, 0, 0⟩, 0, 2, 0, ⟨0, 0, 0⟩, false, false⟩

theorem readdir_like_fresh_scan_crowded :
    readdirs Smallest.volume ([3, 1, 20, 1].map fun index => (index, crowded)) crowdedRoot =
      [3, 1, 20, 1].map fun index =>
        (nthEntry Smallest.volume index (curInit 2) crowded).result := by
  refine readdir_like_fresh_scan Smallest.volume (Smallest.volume.view crowded) _ crowdedRoot
    (by decide) rfl (Or.inr ⟨by decide, by decide⟩) fun call hcall => ?_
  obtain ⟨index, -, rfl⟩ := List.mem_map.mp hcall
  exact ⟨List.not_mem_nil, fun _ _ => rfl, fun _ _ _ _ => rfl⟩

end Tach.DirCursors
