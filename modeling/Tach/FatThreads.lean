import Tach.FatAlloc
import Tach.Interleaving

/-!
`cluster_alloc` and `cluster_free_chain` in several threads. A step is one access to a cached
sector of the table or one critical section of `vol->lock`, so the scan of a sector with its
reservation is atomic, and each copy of an entry is written in a step of its own. Calls to the
device do not fail here.

A thread owns the chains it was given. The list of chains is kept beside the program counter;
the program itself only follows the links it reads.

No cluster ever has two holders. The copies of the table need more: `cluster_free_chain`
clears an entry in the active copy first, so another thread may reserve the cluster and write
its end mark to the other copies before the first thread clears them there. When no
reservation takes a cluster that is still being cleared (`Undisturbed`), the copies agree
whenever all threads are idle.
-/

namespace Tach.FatThreads

open Function List Sectors ByteBlock FatData FatTable FatView FatSpecs FatAlloc Chains Interleaving

structure Shared where
  view : View
  vol : VolState

inductive Pc
  | idle
  | allocStart
  | allocScan (cl remaining : ℕ)
  /-- The copies that still miss the end mark of a reserved cluster. -/
  | allocMirror (found : ℕ) (copies : List ℕ)
  | freeAt (cl freed lowest : ℕ) (chain : List ℕ)
  /-- The copies in which the entry of `cl` is still to be cleared; `link` was read before. -/
  | freePut (cl : ℕ) (link : Except Errno (Option ℕ)) (copies : List ℕ) (freed lowest : ℕ)
      (rest : List ℕ)
  | freeDone (f : Freed)

structure Thread where
  pc : Pc
  owned : List (List ℕ)

/-- A call of `cluster_alloc`, a call of `cluster_free_chain` on an owned chain, or the next
step of the call under way. -/
inductive Choice
  | alloc
  | free (k : ℕ)
  | go

variable {σ : Type} (V : Volume σ)

/-- `fat_put_copy`. -/
def writeCopy (v : View) (k c x : ℕ) : View :=
  update v (V.fat0Lba + k * V.fatSize + c / 128)
    (putEntry (v (V.fat0Lba + k * V.fatSize + c / 128)) c x)

/-- The copies `fat_set` writes. -/
def kept : List ℕ := if V.mirror then List.range V.numFats else [V.fatActive]

/-- The copies `cluster_alloc` writes after the reservation. -/
def mirrors : List ℕ :=
  if V.mirror then (List.range V.numFats).filter (· ≠ V.fatActive) else []

def allocRound (cl remaining : ℕ) (s : Shared) : Shared × Pc :=
  if remaining = 0 then (s, .idle)
  else
    let span := min (min (128 - cl % 128) remaining) (V.clusters + 2 - cl)
    match reserveIn cl (cl % 128) span (s.view (V.fatLba + cl / 128)) with
    | (some found, some d) =>
      (⟨update s.view (V.fatLba + cl / 128) d, noteAlloc V found s.vol⟩,
        .allocMirror found (mirrors V))
    | _ => (s, .allocScan (if V.clusters + 2 ≤ cl + span then 2 else cl + span) (remaining - span))

/-- The head of the loop of `cluster_free_chain`, up to `fat_next`. -/
def freeRound (cl freed lowest : ℕ) (chain : List ℕ) (s : Shared) : Pc :=
  if V.InRange cl then
    if V.clusters ≤ freed then .freeDone ⟨freed, lowest, some .eio⟩
    else .freePut cl (linkResult (stepOf V.toGeom (fat V.toGeom s.view) cl)) (kept V) freed lowest
      chain.tail
  else .freeDone ⟨freed, lowest, none⟩

def freeNext (cl : ℕ) (link : Except Errno (Option ℕ)) (freed lowest : ℕ) (rest : List ℕ) : Pc :=
  match link with
  | .error e => .freeDone ⟨freed + 1, min cl lowest, some e⟩
  | .ok none => .freeDone ⟨freed + 1, min cl lowest, none⟩
  | .ok (some next) => .freeAt next (freed + 1) (min cl lowest) rest

def firstHint (hint : ℕ) : ℕ := if hint < 2 ∨ V.clusters + 2 ≤ hint then 2 else hint

def program : Program Choice Shared Thread
  | .alloc, s, ⟨.idle, o⟩ => some (s, ⟨if V.readonly then .idle else .allocStart, o⟩)
  | .free k, s, ⟨.idle, o⟩ =>
    match o[k]? with
    | some (cl :: l) => some (s, ⟨.freeAt cl 0 0xFFFFFFFF (cl :: l), o.eraseIdx k⟩)
    | _ => none
  | .go, s, ⟨.allocStart, o⟩ => some (s, ⟨.allocScan (firstHint V s.vol.nextFree) V.clusters, o⟩)
  | .go, s, ⟨.allocScan cl remaining, o⟩ =>
    some ((allocRound V cl remaining s).1, ⟨(allocRound V cl remaining s).2, o⟩)
  | .go, s, ⟨.allocMirror found (k :: ks), o⟩ =>
    some ({ s with view := writeCopy V s.view k found eoc }, ⟨.allocMirror found ks, o⟩)
  | .go, s, ⟨.allocMirror found [], o⟩ => some (s, ⟨.idle, [found] :: o⟩)
  | .go, s, ⟨.freeAt cl freed lowest chain, o⟩ =>
    some (s, ⟨freeRound V cl freed lowest chain s, o⟩)
  | .go, s, ⟨.freePut cl link (k :: ks) freed lowest rest, o⟩ =>
    some ({ s with view := writeCopy V s.view k cl 0 }, ⟨.freePut cl link ks freed lowest rest, o⟩)
  | .go, s, ⟨.freePut cl link [] freed lowest rest, o⟩ =>
    some (s, ⟨freeNext cl link freed lowest rest, o⟩)
  | .go, s, ⟨.freeDone f, o⟩ => some ({ s with vol := noteFree V f s.vol }, ⟨.idle, o⟩)
  | _, _, _ => none

/-- The clusters a call under way holds. While its chain is being freed a cluster is held until
the active copy is cleared. -/
def Pc.holds (g : Geom) : Pc → List ℕ
  | .allocMirror found _ => [found]
  | .freeAt _ _ _ chain => chain
  | .freePut cl _ ks _ _ rest => if g.fatActive ∈ ks then cl :: rest else rest
  | _ => []

def Thread.holds (g : Geom) (t : Thread) : List ℕ := t.pc.holds g ++ t.owned.flatten

/-- The active copy of the entry of `c` is written and copy `k` is still to get the value `x`. -/
def Pc.Due (g : Geom) : Pc → ℕ → ℕ → ℕ → Prop
  | .allocMirror found ks, k, c, x => c = found ∧ x = eoc ∧ k ∈ ks
  | .freePut cl _ ks _ _ _, k, c, x => c = cl ∧ x = 0 ∧ k ∈ ks ∧ g.fatActive ∉ ks
  | _, _, _, _ => False

def reserves (s : Shared) : Pc → Option ℕ
  | .allocScan cl remaining =>
    match (allocRound V cl remaining s).2 with
    | .allocMirror found _ => some found
    | _ => none
  | _ => none

variable {ι : Type*} {c k x : ℕ} {a : Choice}

/-- A reservation does not take a cluster another thread has cleared in the active copy and not
yet in all of them. -/
def Undisturbed (w : World ι Shared Thread) (i : ι) (_ : Choice) : Prop :=
  ∀ c, reserves V w.shared (w.thread i).pc = some c → ∀ j k x, ¬ (w.thread j).pc.Due V.toGeom k c x

/-- No cluster is in two hands, nor twice in one. -/
def NoneShared (g : Geom) (w : World ι Shared Thread) : Prop :=
  (∀ i, ((w.thread i).holds g).Nodup) ∧
    ∀ i j c, i ≠ j → c ∈ (w.thread i).holds g → c ∉ (w.thread j).holds g

def AllIdle (w : World ι Shared Thread) : Prop := ∀ i, (w.thread i).pc = .idle

/-- Idle threads with disjoint chains, on a volume whose copies agree. -/
structure Begins (w : World ι Shared Thread) : Prop where
  idle : AllIdle w
  chains : ∀ i, ∀ l ∈ (w.thread i).owned,
    ∃ a, Chain (stepOf V.toGeom (fat V.toGeom w.shared.view)) a l
  apart : NoneShared V.toGeom w
  agree : Mirrored V.toGeom w.shared.view

section Steps

variable {V} {s s' : Shared} {t t' : Thread}

/-- What is known about a thread, given the entries `f` of the active copy. -/
def Pc.Ok (V : Volume σ) (f : ℕ → ℕ) : Pc → Prop
  | .allocScan cl _ => V.InRange cl
  | .allocMirror found ks => V.InRange found ∧ f found = eoc ∧ ∀ k ∈ ks, k < V.numFats ∧ k ≠ V.fatActive
  | .freeAt cl _ _ chain => Chain (stepOf V.toGeom f) cl chain
  | .freePut cl link ks _ _ rest =>
    V.InRange cl ∧ (∀ k ∈ ks, k < V.numFats) ∧ (V.fatActive ∈ ks → f cl ≠ 0) ∧
      (V.fatActive ∈ ks → ks = kept V) ∧
      (link = .ok none ∧ rest = [] ∨ ∃ b, link = .ok (some b) ∧ Chain (stepOf V.toGeom f) b rest)
  | _ => True

/-- The steps of a thread, by what they do to the table. -/
inductive Move (V : Volume σ) (s : Shared) : Thread → Shared → Thread → Prop
  | call {o pc} (h : pc = .idle ∨ pc = .allocStart) :
      Move V s ⟨.idle, o⟩ s ⟨pc, o⟩
  | callFree {o k cl l} (h : o[k]? = some (cl :: l)) :
      Move V s ⟨.idle, o⟩ s ⟨.freeAt cl 0 0xFFFFFFFF (cl :: l), o.eraseIdx k⟩
  | scan {o pc cl n} (h : V.InRange cl)
      (hpc : pc = .allocStart ∨ ∃ cl' n', pc = .allocScan cl' n') :
      Move V s ⟨pc, o⟩ s ⟨.allocScan cl n, o⟩
  | giveUp {o cl n} : Move V s ⟨.allocScan cl n, o⟩ s ⟨.idle, o⟩
  | reserve {o cl n c} (hc : V.InRange c) (h0 : fat V.toGeom s.view c = 0)
      (hres : reserves V s (.allocScan cl n) = some c) :
      Move V s ⟨.allocScan cl n, o⟩ ⟨writeCopy V s.view V.fatActive c eoc, noteAlloc V c s.vol⟩
        ⟨.allocMirror c (mirrors V), o⟩
  | mirror {o c k ks} :
      Move V s ⟨.allocMirror c (k :: ks), o⟩ { s with view := writeCopy V s.view k c eoc }
        ⟨.allocMirror c ks, o⟩
  | handOut {o c} : Move V s ⟨.allocMirror c [], o⟩ s ⟨.idle, [c] :: o⟩
  | link {o cl n m chain} (hc : V.InRange cl) :
      Move V s ⟨.freeAt cl n m chain, o⟩ s
        ⟨.freePut cl (linkResult (stepOf V.toGeom (fat V.toGeom s.view) cl)) (kept V) n m chain.tail, o⟩
  | loopEnd {o cl n m chain f} :
      Move V s ⟨.freeAt cl n m chain, o⟩ s ⟨.freeDone f, o⟩
  | clear {o cl n m k link ks rest} :
      Move V s ⟨.freePut cl link (k :: ks) n m rest, o⟩ { s with view := writeCopy V s.view k cl 0 }
        ⟨.freePut cl link ks n m rest, o⟩
  | next {o cl n m b rest} :
      Move V s ⟨.freePut cl (.ok (some b)) [] n m rest, o⟩ s ⟨.freeAt b (n + 1) (min cl m) rest, o⟩
  | stop {o cl n m link rest f} : Move V s ⟨.freePut cl link [] n m rest, o⟩ s ⟨.freeDone f, o⟩
  | tally {o f} :
      Move V s ⟨.freeDone f, o⟩ { s with vol := noteFree V f s.vol } ⟨.idle, o⟩

theorem firstHint_inRange (hint : ℕ) : V.InRange (firstHint V hint) := by
  have hge := V.clusters_ge
  simp only [minClusters] at hge
  unfold firstHint
  split
  · exact ⟨by omega, by omega⟩
  · exact ⟨by omega, by omega⟩

/-- One round of the search goes on, gives up, or reserves a free cluster of the volume. -/
theorem allocRound_cases {cl n : ℕ} {o : List (List ℕ)} (hcl : V.InRange cl) :
    Move V s ⟨.allocScan cl n, o⟩ (allocRound V cl n s).1 ⟨(allocRound V cl n s).2, o⟩ := by
  have hres : reserves V s (.allocScan cl n) = match (allocRound V cl n s).2 with
    | .allocMirror found _ => some found
    | _ => none := rfl
  obtain ⟨h2, hlt⟩ := hcl
  unfold allocRound at hres ⊢
  by_cases hn : n = 0
  · rw [if_pos hn]
    exact .giveUp
  rw [if_neg hn] at hres ⊢
  generalize hspan : min (min (128 - cl % 128) n) (V.clusters + 2 - cl) = span at hres ⊢
  dsimp only at hres ⊢
  have hwithin : cl % 128 + span ≤ 128 := by omega
  rcases reserveIn_cases cl span (s.view (V.fatLba + cl / 128)) hwithin with
    ⟨heq, -⟩ | ⟨c, hge, hlt', hdiv, h0, heq⟩
  · rw [heq]
    refine .scan ?_ (.inr ⟨cl, n, rfl⟩)
    split <;> exact ⟨by omega, by omega⟩
  · rw [heq] at hres ⊢
    have hc : V.InRange c := ⟨by omega, by omega⟩
    have hfree : fat V.toGeom s.view c = 0 := by
      rw [fat_eq hc, entryAt, hdiv]
      exact h0
    have hview : update s.view (V.fatLba + cl / 128)
        (putEntry (s.view (V.fatLba + cl / 128)) c eoc) = writeCopy V s.view V.fatActive c eoc := by
      rw [writeCopy, V.fatLba_eq, hdiv]
    dsimp only
    rw [hview]
    exact .reserve hc hfree hres

theorem move_of_program (hok : t.pc.Ok V (fat V.toGeom s.view))
    (h : program V a s t = some (s', t')) : Move V s t s' t' := by
  obtain ⟨pc, o⟩ := t
  cases a with
  | alloc =>
    cases pc with
    | idle =>
      cases h
      apply Move.call
      split
      · exact .inl rfl
      · exact .inr rfl
    | _ => cases h
  | free k =>
    cases pc with
    | idle =>
      simp only [program] at h
      split at h
      · rename_i cl l hk
        cases h
        exact .callFree hk
      · cases h
    | _ => cases h
  | go =>
    cases pc with
    | idle => cases h
    | allocStart =>
      cases h
      exact .scan (firstHint_inRange _) (.inl rfl)
    | allocScan cl n =>
      cases h
      exact allocRound_cases hok
    | allocMirror c ks =>
      cases ks with
      | nil =>
        cases h
        exact .handOut
      | cons k ks =>
        cases h
        exact .mirror
    | freeAt cl n m chain =>
      cases h
      unfold freeRound
      split
      · split
        · exact .loopEnd
        · rename_i hc _
          exact .link hc
      · exact .loopEnd
    | freePut cl link ks n m rest =>
      cases ks with
      | nil =>
        cases h
        unfold freeNext
        split
        · exact .stop
        · exact .stop
        · exact .next
      | cons k ks =>
        cases h
        exact .clear
    | freeDone f =>
      cases h
      exact .tally

end Steps

section Holding

variable {V} {s s' : Shared} {t t' : Thread} {f f' : ℕ → ℕ} {v : View}

theorem fatCopy_writeCopy (x : ℕ) (hk : k < V.numFats) (hc : V.InRange c) :
    fatCopy V.toGeom (writeCopy V v k c x) = update (fatCopy V.toGeom v) k
        (update (fatCopy V.toGeom v k) c (entryBits x)) :=
  fatCopy_putEntry x hk hc

theorem fat_writeCopy_active (x : ℕ) (hc : V.InRange c) :
    fat V.toGeom (writeCopy V v V.fatActive c x) = update (fat V.toGeom v) c (entryBits x) := by
  unfold fat
  rw [fatCopy_writeCopy x V.active_lt hc, update_self]

theorem fat_writeCopy_other (x : ℕ) (hk : k < V.numFats) (hc : V.InRange c)
    (hne : k ≠ V.fatActive) : fat V.toGeom (writeCopy V v k c x) = fat V.toGeom v := by
  unfold fat
  rw [fatCopy_writeCopy x hk hc, update_of_ne hne.symm]

theorem kept_lt (h : k ∈ kept V) : k < V.numFats := by
  unfold kept at h
  split at h
  · exact mem_range.mp h
  · have hk : k = V.fatActive := by simpa using h
    rw [hk]
    exact V.active_lt

/-- The active copy is the first one `fat_set` writes. -/
theorem kept_head : ∃ tail, kept V = V.fatActive :: tail ∧ V.fatActive ∉ tail := by
  unfold kept
  split
  · rename_i hm
    have hact := V.mirror_active hm
    obtain ⟨n, hn⟩ : ∃ n, V.numFats = n + 1 := ⟨V.numFats - 1, by have := V.active_lt; omega⟩
    refine ⟨(List.range n).map Nat.succ, ?_, ?_⟩
    · rw [hn, range_succ_eq_map, hact]
    · rw [hact]
      simp
  · exact ⟨[], rfl, by simp⟩

theorem mirrors_lt (h : k ∈ mirrors V) : k < V.numFats ∧ k ≠ V.fatActive := by
  unfold mirrors at h
  split at h
  · simpa using h
  · cases h

def Thread.Ok (V : Volume σ) (f : ℕ → ℕ) (t : Thread) : Prop :=
  t.pc.Ok V f ∧ ∀ l ∈ t.owned, ∃ a, Chain (stepOf V.toGeom f) a l

/-- A thread holds no free cluster. -/
theorem Thread.Ok.used (h : t.Ok V f) (hc : c ∈ t.holds V.toGeom) : f c ≠ 0 := by
  obtain ⟨pc, o⟩ := t
  obtain ⟨hpc, hown⟩ := h
  rcases mem_append.mp hc with hc | hc
  · cases pc with
    | allocMirror found ks =>
      obtain ⟨-, heoc, -⟩ := hpc
      have hcf : c = found := by simpa [Pc.holds] using hc
      rw [hcf, heoc]
      decide
    | freeAt cl n m chain => exact chain_ne_zero hpc hc
    | freePut cl link ks n m rest =>
      obtain ⟨-, -, hne, -, hlink⟩ := hpc
      have hrest : c ∈ rest → f c ≠ 0 := by
        intro hmem
        rcases hlink with ⟨-, hnil⟩ | ⟨b, -, hch⟩
        · rw [hnil] at hmem
          cases hmem
        · exact chain_ne_zero hch hmem
      by_cases hact : V.fatActive ∈ ks
      · simp only [Pc.holds, if_pos hact, mem_cons] at hc
        rcases hc with hcl | hmem
        · rw [hcl]
          exact hne hact
        · exact hrest hmem
      · simp only [Pc.holds, if_neg hact] at hc
        exact hrest hc
    | _ => cases hc
  · obtain ⟨l, hl, hcl⟩ := mem_flatten.mp hc
    obtain ⟨a, hch⟩ := hown l hl
    exact chain_ne_zero hch hcl

/-- What is known about a thread depends on the entries of the clusters it holds. -/
theorem Thread.Ok.congr (h : t.Ok V f) (hf : ∀ c ∈ t.holds V.toGeom, f' c = f c) : t.Ok V f' := by
  obtain ⟨pc, o⟩ := t
  obtain ⟨hpc, hown⟩ := h
  have hpcs : ∀ c ∈ pc.holds V.toGeom, f' c = f c := fun c hc => hf c (mem_append_left _ hc)
  constructor
  · cases pc with
    | allocMirror found ks =>
      obtain ⟨hin, heoc, hks⟩ := hpc
      exact ⟨hin, by rw [hpcs found (by simp [Pc.holds]), heoc], hks⟩
    | freeAt cl n m chain => exact chain_congr hpc hpcs
    | freePut cl link ks n m rest =>
      obtain ⟨hin, hks, hne, hhead, hlink⟩ := hpc
      have hsub : ∀ c ∈ rest, f' c = f c := by
        intro c hc
        apply hpcs
        simp only [Pc.holds]
        split
        · exact mem_cons_of_mem _ hc
        · exact hc
      refine ⟨hin, hks, fun hact => ?_, hhead, hlink.imp id ?_⟩
      · rw [hpcs cl (by simp [Pc.holds, hact])]
        exact hne hact
      · intro ⟨b, hb, hch⟩
        exact ⟨b, hb, chain_congr hch hsub⟩
    | idle => exact hpc
    | allocStart => exact hpc
    | allocScan cl n => exact hpc
    | freeDone _ => exact hpc
  · intro l hl
    obtain ⟨a, hch⟩ := hown l hl
    refine ⟨a, chain_congr hch fun c hc => hf c ?_⟩
    exact mem_append_right _ (mem_flatten.mpr ⟨l, hl, hc⟩)

/-- What a step of a thread does to what it holds. Clusters it did not hold before were free,
and it changes entries of such clusters and of its own only. -/
structure Local (V : Volume σ) (s : Shared) (t : Thread) (s' : Shared) (t' : Thread) : Prop where
  ok : t'.Ok V (fat V.toGeom s'.view)
  nodup : (t'.holds V.toGeom).Nodup
  origin : ∀ c ∈ t'.holds V.toGeom, c ∈ t.holds V.toGeom ∨ fat V.toGeom s.view c = 0
  frame : ∀ c, c ∈ t.holds V.toGeom ∨ fat V.toGeom s.view c = 0 ∨
    fat V.toGeom s'.view c = fat V.toGeom s.view c

/-- A step that leaves the table alone and takes no cluster. -/
theorem Local.of_table (hf : fat V.toGeom s'.view = fat V.toGeom s.view)
    (hok : t'.Ok V (fat V.toGeom s.view)) (hnd : (t.holds V.toGeom).Nodup)
    (hsub : (t'.holds V.toGeom).Sublist (t.holds V.toGeom)) : Local V s t s' t' where
  ok := by rw [hf]; exact hok
  nodup := hnd.sublist hsub
  origin c hc := .inl (hsub.subset hc)
  frame c := .inr (.inr (by rw [hf]))

/-- A step that changes the entry of a cluster, which the thread gives up. -/
theorem Local.of_entry (hf : fat V.toGeom s'.view = update (fat V.toGeom s.view) c x)
    (hok : t'.Ok V (fat V.toGeom s.view)) (hnd : (t.holds V.toGeom).Nodup)
    (hholds : t.holds V.toGeom = c :: t'.holds V.toGeom) : Local V s t s' t' := by
  rw [hholds, nodup_cons] at hnd
  have hsame {c' : ℕ} (hne : c' ≠ c) : fat V.toGeom s'.view c' = fat V.toGeom s.view c' := by
    rw [hf, update_of_ne hne]
  refine ⟨hok.congr fun c' hc' => hsame fun heq => hnd.1 (heq ▸ hc'), hnd.2, fun c' hc' => ?_,
    fun c' => ?_⟩
  · rw [hholds]
    exact .inl (mem_cons_of_mem _ hc')
  · rw [hholds]
    by_cases hne : c' = c
    · exact .inl (hne ▸ mem_cons_self)
    · exact .inr (.inr (hsame hne))

open Local

theorem Move.local (h : Move V s t s' t') (hok : t.Ok V (fat V.toGeom s.view))
    (hnd : (t.holds V.toGeom).Nodup) : Local V s t s' t' := by
  obtain ⟨hpc, hown⟩ := id hok
  cases h with
  | call h =>
    rcases h with rfl | rfl <;> exact of_table rfl ⟨trivial, hown⟩ hnd (List.Sublist.refl _)
  | @callFree o k cl l h =>
    obtain ⟨hk, hget⟩ := List.getElem?_eq_some_iff.mp h
    have hmem : cl :: l ∈ o := hget ▸ getElem_mem hk
    have hperm : (cl :: l ++ (o.eraseIdx k).flatten).Perm o.flatten := by
      have hp := (getElem_cons_eraseIdx_perm hk).flatten
      rwa [hget, flatten_cons] at hp
    refine ⟨⟨?_, fun l' hl' => hown l' (mem_of_mem_eraseIdx hl')⟩, hperm.nodup_iff.mpr hnd,
      fun c hc => .inl (hperm.subset hc), fun c => .inr (.inr rfl)⟩
    obtain ⟨a, ha⟩ := hown _ hmem
    obtain ⟨tail, htail⟩ := ha.exists_cons
    have hac : cl = a := (List.cons.inj htail).1
    rw [← hac] at ha
    exact ha
  | scan h hpc' => exact of_table rfl ⟨h, hown⟩ hnd (sublist_append_right _ _)
  | giveUp => exact of_table rfl ⟨trivial, hown⟩ hnd (List.Sublist.refl _)
  | @reserve o cl n c hc h0 hres =>
    have hnot : c ∉ o.flatten := fun hmem => hok.used (mem_append_right _ hmem) h0
    have hf := fat_writeCopy_active (v := s.view) eoc hc
    have hsame {c' : ℕ} (hne : c' ≠ c) : fat V.toGeom (writeCopy V s.view V.fatActive c eoc) c' =
        fat V.toGeom s.view c' := by
      rw [hf, update_of_ne hne]
    have hkept := hok.congr fun c' hc' => hsame fun heq => hnot (heq ▸ hc')
    refine ⟨⟨⟨hc, ?_, fun k hk => mirrors_lt hk⟩, hkept.2⟩, nodup_cons.mpr ⟨hnot, hnd⟩,
      fun c' hc' => ?_, fun c' => ?_⟩
    · rw [hf, update_self]
      rfl
    · rcases mem_cons.mp hc' with heq | hmem
      · exact .inr (heq ▸ h0)
      · exact .inl hmem
    · by_cases hne : c' = c
      · exact .inr (.inl (hne ▸ h0))
      · exact .inr (.inr (hsame hne))
  | @mirror o c k ks =>
    obtain ⟨hin, heoc, hks⟩ := hpc
    obtain ⟨hk, hka⟩ := hks k (by simp)
    refine of_table (fat_writeCopy_other eoc hk hin hka) ⟨?_, hown⟩ hnd (List.Sublist.refl _)
    exact ⟨hin, heoc, fun j hj => hks j (mem_cons_of_mem _ hj)⟩
  | @handOut o c =>
    obtain ⟨hin, heoc, -⟩ := hpc
    refine of_table rfl ⟨trivial, ?_⟩ hnd (List.Sublist.refl _)
    intro l hl
    rcases mem_cons.mp hl with heq | hmem
    · refine ⟨c, heq ▸ Chain.last (stepOf_last hin ?_)⟩
      rw [heoc]
      decide
    · exact hown l hmem
  | @link o cl n m chain hc =>
    have hch : Chain (stepOf V.toGeom (fat V.toGeom s.view)) cl chain := hpc
    obtain ⟨tail, htail⟩ := hch.exists_cons
    have hact : V.fatActive ∈ kept V := by
      obtain ⟨tail, hkeep, -⟩ := kept_head
      rw [hkeep]
      simp
    refine of_table rfl ⟨?_, hown⟩ hnd ?_
    · refine ⟨hc, fun k hk => kept_lt hk, fun _ => chain_ne_zero hch hch.head_mem, fun _ => rfl, ?_⟩
      cases hch with
      | last hs => exact .inl ⟨by rw [hs]; rfl, rfl⟩
      | cons hs hl => exact .inr ⟨_, by rw [hs]; rfl, hl⟩
    · simp only [Thread.holds, Pc.holds, if_pos hact, htail, tail_cons]
      exact List.Sublist.refl _
  | @clear o cl n m k link ks rest =>
    obtain ⟨hin, hks, hne, hhead, hlink⟩ := hpc
    have hk := hks k (by simp)
    have hrest (hnot : V.fatActive ∉ ks) :
        Thread.Ok V (fat V.toGeom s.view) ⟨.freePut cl link ks n m rest, o⟩ :=
      ⟨⟨hin, fun j hj => hks j (mem_cons_of_mem _ hj), fun h => absurd h hnot,
        fun h => absurd h hnot, hlink⟩, hown⟩
    by_cases hact : V.fatActive ∈ k :: ks
    · -- the active copy is cleared: the cluster is no longer held
      obtain ⟨tail, hkeep, hnot⟩ := kept_head
      obtain ⟨rfl, rfl⟩ := List.cons.inj ((hhead hact).trans hkeep)
      refine of_entry (fat_writeCopy_active 0 hin) (hrest hnot) hnd ?_
      simp only [Thread.holds, Pc.holds, if_pos hact, if_neg hnot, cons_append]
    · -- a mirror copy
      rw [mem_cons, not_or] at hact
      refine of_table (fat_writeCopy_other 0 hk hin (Ne.symm hact.1)) (hrest hact.2) hnd ?_
      simp only [Thread.holds, Pc.holds, mem_cons, hact, or_self, if_false]
      exact List.Sublist.refl _
  | @next o cl n m b rest =>
    obtain ⟨-, -, -, -, hlink⟩ := hpc
    refine of_table rfl ⟨?_, hown⟩ hnd ?_
    · rcases hlink with ⟨hcon, -⟩ | ⟨b', hb, hch⟩
      · cases hcon
      · cases hb
        exact hch
    · simp only [Thread.holds, Pc.holds, not_mem_nil, if_false]
      exact List.Sublist.refl _
  | loopEnd | stop => exact of_table rfl ⟨trivial, hown⟩ hnd (sublist_append_right _ _)
  | tally => exact of_table rfl ⟨trivial, hown⟩ hnd (List.Sublist.refl _)

end Holding

section Worlds

variable {V} [DecidableEq ι] {w w' : World ι Shared Thread}

/-- Every thread is where it should be and no cluster is in two hands. -/
structure Apart (V : Volume σ) (w : World ι Shared Thread) : Prop where
  ok : ∀ i, (w.thread i).Ok V (fat V.toGeom w.shared.view)
  shared : NoneShared V.toGeom w

/-- A step is a move of one thread. -/
theorem Apart.move {i : ι} (h : Apart V w) (hs : w.step (program V) i a = some w') :
    ∃ s t, Move V w.shared (w.thread i) s t ∧ w' = w.put s i t := by
  obtain ⟨s, t, hp, hw⟩ := World.step_cases hs
  exact ⟨s, t, move_of_program (h.ok i).1 hp, hw⟩

theorem Apart.step {i : ι} (h : Apart V w) (hs : w.step (program V) i a = some w') :
    Apart V w' := by
  obtain ⟨s, t, hmove, rfl⟩ := h.move hs
  have hloc := hmove.local (h.ok i) (h.shared.1 i)
  -- what another thread holds is neither held by `i` nor free
  have hother : ∀ j, j ≠ i → ∀ c ∈ (w.thread j).holds V.toGeom,
      c ∉ (w.thread i).holds V.toGeom ∧ fat V.toGeom w.shared.view c ≠ 0 := by
    intro j hj c hc
    exact ⟨h.shared.2 j i c hj hc, (h.ok j).used hc⟩
  have hthread := w.put_cases s i t
  refine ⟨fun j => ?_, fun j => ?_, fun j k c hjk hj hk => hjk (World.put_unique
    (P := fun t : Thread => c ∈ t.holds V.toGeom) (fun j k hj hk => ?_) (fun hct j hj hc => ?_) j k hj hk)⟩
  · rcases hthread j with ⟨-, heq⟩ | ⟨hj, heq⟩ <;> rw [heq]
    · exact hloc.ok
    · refine (h.ok j).congr fun c hc => ?_
      obtain ⟨hnot, hne⟩ := hother j hj c hc
      exact ((hloc.frame c).resolve_left hnot).resolve_left hne
  · rcases hthread j with ⟨-, heq⟩ | ⟨-, heq⟩ <;> rw [heq]
    · exact hloc.nodup
    · exact h.shared.1 j
  · exact not_imp_comm.mp (h.shared.2 j k c · hj) (not_not.mpr hk)
  · obtain ⟨hnot, hne⟩ := hother j hj c hc
    exact (hloc.origin c hct).elim hnot hne

/-- Where a copy differs from the active one, a thread is about to write it; and what threads
are about to write is what the active copy holds. -/
structure Synced (V : Volume σ) (w : World ι Shared Thread) : Prop where
  apart : Apart V w
  agree : ∀ k c, k < V.numFats → fatCopy V.toGeom w.shared.view k c = fat V.toGeom w.shared.view c ∨
      ∃ i x, (w.thread i).pc.Due V.toGeom k c x
  due : ∀ i k c x, (w.thread i).pc.Due V.toGeom k c x → fat V.toGeom w.shared.view c = x

variable {i : ι} {s : Shared} {t old : Thread}

section

variable (h : Synced V w) (hap : Apart V (w.put s i t)) (hthread : w.thread i = old)
include h hap hthread

/-- Each copy of an entry agrees after the step, or is due, or is as it was. -/
theorem Synced.put
    (hagree : ∀ k c, k < V.numFats → fatCopy V.toGeom s.view k c = fat V.toGeom s.view c ∨
      (∃ x, t.pc.Due V.toGeom k c x) ∨
      fatCopy V.toGeom s.view k c = fatCopy V.toGeom w.shared.view k c ∧
        fat V.toGeom s.view c = fat V.toGeom w.shared.view c ∧
        ∀ x, old.pc.Due V.toGeom k c x → t.pc.Due V.toGeom k c x)
    (hdue : ∀ k c x, t.pc.Due V.toGeom k c x → fat V.toGeom s.view c = x)
    (hothers : ∀ j k c x, j ≠ i → (w.thread j).pc.Due V.toGeom k c x →
      fat V.toGeom s.view c = fat V.toGeom w.shared.view c) : Synced V (w.put s i t) := by
  have hcases := w.put_cases s i t
  refine ⟨hap, fun k c hk => ?_, fun j k c x hd => ?_⟩
  · rcases hagree k c hk with hsame | ⟨x, hd⟩ | ⟨hcopy, hfat, hkeep⟩
    · exact .inl hsame
    · exact .inr ⟨i, x, by rwa [World.put_self]⟩
    · simp only [World.put_shared, hcopy, hfat]
      refine (h.agree k c hk).imp id fun ⟨j, x, hd⟩ => ⟨j, x, ?_⟩
      rcases hcases j with ⟨rfl, heq⟩ | ⟨-, heq⟩
      · rw [heq]
        exact hkeep x (hthread ▸ hd)
      · rwa [heq]
  · rcases hcases j with ⟨-, heq⟩ | ⟨hj, heq⟩
    · exact hdue k c x (heq ▸ hd)
    · rw [heq] at hd
      exact (hothers j k c x hj hd).trans (h.due j k c x hd)

/-- A step that leaves all copies alone and what the thread is about to write. -/
theorem Synced.quiet (hview : s.view = w.shared.view)
    (hdue : ∀ k c x, t.pc.Due V.toGeom k c x ↔ old.pc.Due V.toGeom k c x) :
    Synced V (w.put s i t) := by
  refine h.put hap hthread (fun k c _ => .inr (.inr ?_)) (fun k c x hd => ?_) fun j k c x _ _ => ?_
  · rw [hview]
    exact ⟨rfl, rfl, fun x => (hdue k c x).mpr⟩
  · rw [hview]
    exact h.due i k c x (hthread ▸ (hdue k c x).mp hd)
  · rw [hview]

/-- A step that writes one of the copies that are due. -/
theorem Synced.write (hview : s.view = writeCopy V w.shared.view k c x) (hk : k < V.numFats) (hka : k ≠ V.fatActive)
    (hc : V.InRange c) (hbits : entryBits x = x) (hnow : old.pc.Due V.toGeom k c x)
    (hless : ∀ j b y, t.pc.Due V.toGeom j b y → old.pc.Due V.toGeom j b y)
    (hrest : ∀ j b y, old.pc.Due V.toGeom j b y → j = k ∧ b = c ∨ t.pc.Due V.toGeom j b y) :
    Synced V (w.put s i t) := by
  have hfat : fat V.toGeom s.view = fat V.toGeom w.shared.view := by
    rw [hview]
    exact fat_writeCopy_other x hk hc hka
  have hcopy := fatCopy_writeCopy (v := w.shared.view) x hk hc
  rw [← hview] at hcopy
  refine h.put hap hthread (fun j b _ => ?_) (fun j b y hd => ?_) fun _ _ _ _ _ _ => by rw [hfat]
  · by_cases hjb : j = k ∧ b = c
    · left
      rw [hfat, hjb.1, hjb.2, h.due i k c x (hthread ▸ hnow), hcopy, update_self, update_self, hbits]
    · refine .inr (.inr ⟨?_, by rw [hfat], fun y hd => (hrest j b y hd).resolve_left hjb⟩)
      rw [hcopy]
      by_cases hj : j = k
      · have hb : b ≠ c := fun hb => hjb ⟨hj, hb⟩
        rw [hj, update_self, update_of_ne hb]
      · rw [update_of_ne hj]
  · rw [hfat]
    exact h.due i j b y (hthread ▸ hless j b y hd)

/-- A step that changes an entry of the active copy, when no thread has that entry to write;
all other copies are due afterwards. -/
theorem Synced.change
    (hview : s.view = writeCopy V w.shared.view V.fatActive c x) (hc : V.InRange c)
    (hbits : entryBits x = x) (hfree : ∀ j k y, ¬ (w.thread j).pc.Due V.toGeom k c y)
    (hold : ∀ k b y, old.pc.Due V.toGeom k b y → t.pc.Due V.toGeom k b y)
    (hdue : ∀ k b y, t.pc.Due V.toGeom k b y → b = c ∧ y = x)
    (hall : ∀ k, k < V.numFats → k ≠ V.fatActive → t.pc.Due V.toGeom k c x) :
    Synced V (w.put s i t) := by
  have hfat : fat V.toGeom s.view = update (fat V.toGeom w.shared.view) c x := by
    rw [hview, fat_writeCopy_active x hc, hbits]
  refine h.put hap hthread (fun k b hk => ?_) (fun k b y hd => ?_) fun j k b y _ hd => ?_
  · by_cases hka : k = V.fatActive
    · left
      rw [hka]
      rfl
    by_cases hb : b = c
    · exact .inr (.inl ⟨x, hb ▸ hall k hk hka⟩)
    · refine .inr (.inr ⟨?_, by rw [hfat, update_of_ne hb], hold k b⟩)
      rw [hview, fatCopy_writeCopy x V.active_lt hc, update_of_ne hka]
  · obtain ⟨hb, hy⟩ := hdue k b y hd
    rw [hfat, hb, update_self, hy]
  · have hb : b ≠ c := fun hb => hfree j k y (hb ▸ hd)
    rw [hfat, update_of_ne hb]

end

theorem Synced.step (hm : V.mirror = true) (h : Synced V w) (hok : Undisturbed V w i a)
    (hs : w.step (program V) i a = some w') : Synced V w' := by
  have hap := h.apart.step hs
  obtain ⟨s, t, hmove, rfl⟩ := h.apart.move hs
  have hpc := (h.apart.ok i).1
  generalize hthread : w.thread i = old at hmove hpc
  cases hmove with
  | call hcall => rcases hcall with rfl | rfl <;> exact h.quiet hap hthread rfl fun _ _ _ => .rfl
  | scan hin hold =>
    rcases hold with rfl | ⟨cl, n, rfl⟩ <;> exact h.quiet hap hthread rfl fun _ _ _ => .rfl
  | callFree | giveUp | loopEnd | tally => exact h.quiet hap hthread rfl fun _ _ _ => .rfl
  | @reserve o cl n c hc h0 hres =>
    have hnone := hok c (by rw [hthread]; exact hres)
    refine h.change hap hthread rfl hc entryBits_eoc hnone nofun (fun k b y hd => ⟨hd.1, hd.2.1⟩) ?_
    intro k hk hka
    refine ⟨rfl, rfl, ?_⟩
    simp [mirrors, hm, hk, hka]
  | @mirror o c k ks =>
    obtain ⟨hin, -, hks⟩ := hpc
    obtain ⟨hk, hka⟩ := hks k (by simp)
    refine h.write hap hthread rfl hk hka hin entryBits_eoc ⟨rfl, rfl, by simp⟩
      (fun j b y hd => ⟨hd.1, hd.2.1, mem_cons_of_mem _ hd.2.2⟩) ?_
    rintro j b y ⟨hb, hy, hj⟩
    rcases mem_cons.mp hj with hj | hj
    · exact .inl ⟨hj, hb⟩
    · exact .inr ⟨hb, hy, hj⟩
  | handOut | next | stop => exact h.quiet hap hthread rfl fun k c x => by simp [Pc.Due]
  | @link o cl n m chain hc =>
    refine h.quiet hap hthread rfl fun k c x => ?_
    obtain ⟨tail, hkeep, -⟩ := kept_head (V := V)
    simp [Pc.Due, hkeep]
  | @clear o cl n m k link ks rest =>
    obtain ⟨hin, hks, hne, hkept, -⟩ := hpc
    have hk := hks k (by simp)
    by_cases hact : V.fatActive ∈ k :: ks
    · obtain ⟨tail, hkeep, hnot⟩ := kept_head
      have hwhole := hkept hact
      obtain ⟨rfl, rfl⟩ := List.cons.inj (hwhole.trans hkeep)
      have hheld : cl ∈ (w.thread i).holds V.toGeom := by
        rw [hthread]
        simp [Thread.holds, Pc.holds]
      refine h.change hap hthread rfl hin entryBits_zero ?_ (fun k' b y hd => absurd hact hd.2.2.2)
        (fun k' b y hd => ⟨hd.1, hd.2.1⟩) ?_
      · -- who has the entry to write holds the cluster, or the entry is cleared
        intro j k' y hd
        have hval := h.due j k' cl y hd
        by_cases hj : j = i
        · rw [hj, hthread] at hd
          exact hd.2.2.2 hact
        · generalize hjt : w.thread j = tj at hd
          obtain ⟨pcj, oj⟩ := tj
          cases pcj with
          | allocMirror found ks' =>
            apply h.apart.shared.2 i j cl (Ne.symm hj) hheld
            rw [hjt, hd.1]
            simp [Thread.holds, Pc.holds]
          | freePut cl' link' ks' n' m' rest' =>
            rw [hd.2.1] at hval
            exact hne hact hval
          | _ => cases hd
      · intro k' hk' hka'
        refine ⟨rfl, rfl, ?_, hnot⟩
        have hmem : k' ∈ kept V := by simp [kept, hm, hk']
        rw [← hwhole] at hmem
        exact (mem_cons.mp hmem).resolve_left hka'
    · have hka : k ≠ V.fatActive := fun hka => hact (by simp [hka])
      have hact' : V.fatActive ∉ ks := fun hmem => hact (mem_cons_of_mem _ hmem)
      refine h.write hap hthread rfl hk hka hin entryBits_zero ⟨rfl, rfl, by simp, hact⟩
        (fun j b y hd => ⟨hd.1, hd.2.1, mem_cons_of_mem _ hd.2.2.1, hact⟩) ?_
      rintro j b y ⟨hb, hy, hj, -⟩
      rcases mem_cons.mp hj with hj | hj
      · exact .inl ⟨hj, hb⟩
      · exact .inr ⟨hb, hy, hj, hact'⟩

omit [DecidableEq ι] in
theorem Begins.apart_world (h : Begins V w) : Apart V w := by
  refine ⟨fun i => ⟨?_, h.chains i⟩, h.apart⟩
  rw [h.idle i]
  trivial

omit [DecidableEq ι] in
theorem Begins.synced (hm : V.mirror = true) (h : Begins V w) : Synced V w := by
  refine ⟨h.apart_world, fun k c hk => .inl ?_, fun i k c x hd => ?_⟩
  · exact congrFun (h.agree hm k hk) c
  · rw [h.idle i] at hd
    cases hd

/-- Threads that allocate and free clusters of a mirrored volume never hold one cluster twice.
In a run in which no reservation takes a cluster that is still being cleared, all copies of
the table agree whenever no call is under way. -/
theorem fat_threads_apart_and_synced (hm : V.mirror = true) (h : Begins V w) :
    (∀ u, Runs (program V) (fun _ _ _ => True) w u → NoneShared V.toGeom u) ∧
      ∀ u, Runs (program V) (Undisturbed V) w u → AllIdle u → Mirrored V.toGeom u.shared.view := by
  constructor
  · intro u hrun
    have hap := hrun.invariant h.apart_world fun _ _ _ _ hi _ hs => hi.step hs
    exact hap.shared
  · intro u hrun hidle _ k hk
    have hsy := hrun.invariant (h.synced hm) fun _ _ _ _ hi hok hs => hi.step hm hok hs
    funext c
    refine (hsy.agree k c hk).resolve_right fun ⟨i, x, hd⟩ => ?_
    rw [hidle i] at hd
    exact hd

end Worlds

section Race

open Smallest

/-- Cluster 5 is a chain of its own, beside the root directory in cluster 2. -/
def raceTable : Sector := ((Block.zero 512).put32 8 eoc).put32 20 eoc

/-- Two idle threads, the first of which owns cluster 5, where the next search starts. -/
def raceStart : World (Fin 2) Shared Thread :=
  ⟨⟨image raceTable fun _ => Block.zero 512, mounted 65523 5⟩,
    fun i => ⟨.idle, if i = 0 then [[5]] else []⟩⟩

def raceSchedule : List (Fin 2 × Choice) :=
  [(0, .free 0), (0, .go), (0, .go), (1, .alloc), (1, .go), (1, .go), (1, .go), (1, .go),
    (0, .go), (0, .go), (0, .go)]

def Pc.isIdle : Pc → Bool
  | .idle => true
  | _ => false

theorem idle_of_isIdle {pc : Pc} (h : pc.isIdle = true) : pc = .idle := by
  cases pc with
  | idle => rfl
  | _ => cases h

theorem raceStart_begins : Begins volume raceStart := by
  have hentry : eocMin ≤ fat geom raceStart.shared.view 5 := by decide +kernel
  refine ⟨fun i => rfl, fun i l hl => ?_, ⟨fun i => ?_, fun i j c hij hi => ?_⟩, mirrored_image _ _⟩
  · have hl5 : l = [5] := by
      fin_cases i
      · simpa [raceStart] using hl
      · cases hl
    rw [hl5]
    exact ⟨5, .last (stepOf_last (by decide) hentry)⟩
  · fin_cases i <;> decide
  · fin_cases i
    · fin_cases j
      · exact absurd rfl hij
      · exact not_mem_nil
    · cases hi

/-- The first copy has the end mark of the second thread, the second copy the 0 of the first
thread, and nobody is going to write either. -/
theorem fat_threads_race : ∃ u, Begins volume raceStart ∧
    Runs (program volume) (fun _ _ _ => True) raceStart u ∧ AllIdle u ∧
    fatCopy geom u.shared.view 0 5 = eoc ∧ fatCopy geom u.shared.view 1 5 = 0 ∧
    ¬ Mirrored geom u.shared.view := by
  have hrun : ((raceStart.run (program volume) (fun _ _ _ => true) raceSchedule).map fun u =>
      ((u.thread 0).pc.isIdle, (u.thread 1).pc.isIdle, fatCopy geom u.shared.view 0 5,
        fatCopy geom u.shared.view 1 5)) = some (true, true, eoc, 0) := by decide +kernel
  obtain ⟨u, hu, hvals⟩ := Option.map_eq_some_iff.mp hrun
  simp only [Prod.mk.injEq] at hvals
  obtain ⟨hidle₀, hidle₁, h0, h1⟩ := hvals
  refine ⟨u, raceStart_begins, Runs.of_run (fun _ _ _ _ => trivial) hu, fun i => ?_, h0, h1, fun hm => ?_⟩
  · fin_cases i
    · exact idle_of_isIdle hidle₀
    · exact idle_of_isIdle hidle₁
  · have h := congrFun (hm rfl 1 (by decide)) 5
    rw [h1] at h
    have h' : fat geom u.shared.view 5 = eoc := h0
    rw [h'] at h
    exact absurd h (by decide)

/-- A test for `Undisturbed` with two threads: a scan meets no unfinished write at all. -/
def testUndisturbed (w : World (Fin 2) Shared Thread) (i : Fin 2) (_ : Choice) : Bool :=
  match (w.thread i).pc with
  | .allocScan _ _ => quiet (w.thread 0).pc && quiet (w.thread 1).pc
  | _ => true
where
  quiet : Pc → Bool
    | .allocMirror _ _ => false
    | .freePut _ _ _ _ _ _ => false
    | _ => true

theorem undisturbed_of_test (w : World (Fin 2) Shared Thread) (i : Fin 2) (a : Choice)
    (h : testUndisturbed w i a = true) : Undisturbed volume w i a := by
  have hquiet : ∀ {pc : Pc} {k c x : ℕ}, testUndisturbed.quiet pc = true → ¬ pc.Due geom k c x := by
    intro pc k c x hq hd
    cases pc with
    | allocMirror _ _ => cases hq
    | freePut _ _ _ _ _ _ => cases hq
    | _ => cases hd
  intro c hres j k x
  generalize hpc : (w.thread i).pc = pc at hres
  cases pc with
  | allocScan cl n =>
    simp only [testUndisturbed, hpc, Bool.and_eq_true] at h
    fin_cases j
    · exact hquiet h.1
    · exact hquiet h.2
  | _ => cases hres

/-- Thread 0 frees cluster 5 to the end before thread 1 reserves it: both copies agree. -/
theorem fat_threads_on_smallest : ∃ u, Runs (program volume) (Undisturbed volume) raceStart u ∧
    AllIdle u ∧ fatCopy geom u.shared.view 1 5 = eoc ∧ NoneShared geom u ∧
    Mirrored geom u.shared.view := by
  have hrun : ((raceStart.run (program volume) testUndisturbed
      [(0, .free 0), (0, .go), (0, .go), (0, .go), (0, .go), (1, .alloc), (1, .go), (0, .go),
        (1, .go), (1, .go), (1, .go)]).map fun u =>
      ((u.thread 0).pc.isIdle, (u.thread 1).pc.isIdle, fatCopy geom u.shared.view 1 5)) =
      some (true, true, eoc) := by decide +kernel
  obtain ⟨u, hu, hvals⟩ := Option.map_eq_some_iff.mp hrun
  simp only [Prod.mk.injEq] at hvals
  obtain ⟨hidle₀, hidle₁, h1⟩ := hvals
  have hruns : Runs (program volume) (Undisturbed volume) raceStart u :=
    Runs.of_run undisturbed_of_test hu
  have hidle : AllIdle u := by
    intro i
    fin_cases i
    · exact idle_of_isIdle hidle₀
    · exact idle_of_isIdle hidle₁
  obtain ⟨hshare, hsync⟩ := fat_threads_apart_and_synced rfl raceStart_begins
  exact ⟨u, hruns, hidle, h1, hshare u (hruns.mono fun _ _ _ _ => trivial), hsync u hruns hidle⟩

end Race

end Tach.FatThreads
