import Tach.TableTrees

/-!
Copies of trees of page tables, and how they are given back. The copy of a table is made entry
by entry: an entry that ends a walk as it is, a link with a copy of the tables below it
(`Copied`).
-/

namespace Tach.TableTrees

open Function List Frames Paging Radix Machine

namespace Coding

section Definitions

variable (C : Coding)

/-- The tree of level `k` at `d` is a copy of the one at `s`, in the frames `N`. -/
structure ClonesAt (m : Machine) (k s d : ℕ) (m' : Machine) (N : Set ℕ) : Prop where
  grows : Grows m m' N
  off : ∀ f, f ∉ N → m'.ram f = m.ram f
  fine : C.Fine m'.ram k d
  tables : C.format.tables m'.ram k d = N
  lookups : ∀ w, C.lookup m'.ram k d w = C.lookup m.ram k s w
  slots : ∀ w, (C.format.slot m'.ram k d w).isSome = (C.format.slot m.ram k s w).isSome

/-- What a copy does, also when it fails for lack of frames. -/
def CloneSpec (m : Machine) (k s : ℕ) : Option ℕ × Machine → Prop
  | (some d, m') => ∃ N, C.ClonesAt m k s d m' N
  | (none, m') => ∃ N, Grows m m' N ∧ ∀ f, m.pmm.used f = true → m'.ram f = m.ram f

/-- The first `i` entries of the table of level `k + 1` at `d` are copied. -/
structure Copied (m : Machine) (k s d i : ℕ) (m' : Machine) (N : Set ℕ) : Prop where
  grows : Grows m m' N
  off : ∀ f, f ∉ N → m'.ram f = m.ram f
  fine : C.Fine m'.ram (k + 1) d
  tables : C.format.tables m'.ram (k + 1) d = N
  done : ∀ w, C.format.index w (k + 1) < i →
    C.lookup m'.ram (k + 1) d w = C.lookup m.ram (k + 1) s w ∧
    (C.format.slot m'.ram (k + 1) d w).isSome = (C.format.slot m.ram (k + 1) s w).isSome
  rest : ∀ j, i ≤ j → m'.ram d j = 0

end Definitions

variable {C : Coding} {m m' m₁ n : Machine} {k t s d i j : ℕ} {N : Set ℕ} {ram : Ram}

/-- The copy of a table of level 0. -/
theorem clonesAt_zero {row : ℕ → ℕ} (hs : m.pmm.Sound) (halloc : m.allocZeroed = some (d, n))
    (hrow : ∀ j < C.format.arity, row j = m.ram s j) :
    C.ClonesAt m 0 s d (n.setFrame d row) {d} := by
  obtain ⟨hg, hram, -⟩ := allocZeroed_grows hs halloc
  refine ⟨⟨hg.fresh, hg.used, hg.taken, hg.kept, hg.limit, hg.sound⟩, fun f hf => ?_,
    fine_zero _ _, rfl, fun w => ?_, fun _ => rfl⟩
  · simp only [setFrame, update_of_ne (Set.mem_singleton_iff.not.mp hf), hram]
  · simp only [lookup, Format.entry, setFrame, update_self, hrow _ (index_lt C.format w 0)]

namespace Copied

section

variable (h : C.Copied m k s d i m' N)
include h

theorem mem : d ∈ N := h.tables ▸ root_mem_tables

theorem source (hheld : C.Held m (k + 1) s) :
    ∀ f ∈ C.format.tables m.ram (k + 1) s, m'.ram f = m.ram f :=
  fun f hf => h.off f (h.grows.notMem_of_used (hheld f hf))

/-- The frames of the copy are in use. -/
theorem held : C.Held m' (k + 1) d := by
  intro f hf
  rw [h.tables] at hf
  exact (h.grows.used f).mpr (.inr hf)

/-- An entry that ends a walk is copied as it is. -/
theorem stop (hF : C.Fine m.ram (k + 1) s) (hheld : C.Held m (k + 1) s) (hi : i < C.format.arity)
    (hno : C.format.link (m'.ram s i) = false) :
    C.Copied m k s d (i + 1) (m'.setWord d i (m'.ram s i)) N := by
  have hsrc : m'.ram s i = m.ram s i := congrFun (h.source hheld s root_mem_tables) i
  rw [hsrc] at hno ⊢
  set m'' := m'.setWord d i (m.ram s i) with hm''
  have hentry : m''.ram d i = m.ram s i := by simp [hm'', setWord]
  have hother : ∀ f, f ≠ d → m''.ram f = m'.ram f := fun f hf => by simp [hm'', setWord, hf]
  have hroot : ∀ j, j ≠ i → m''.ram d j = m'.ram d j :=
    fun j hj => by simp [hm'', setWord, hj]
  have hno' : C.format.link (m''.ram d i) = false := by
    rw [hentry]
    exact hno
  have hfalse : C.format.link (m''.ram d i) = true → False := by
    intro hyes
    rw [hno'] at hyes
    cases hyes
  have hB : Below C.format m'.ram m''.ram k d i := by
    refine ⟨fun j _ hj => hroot j hj, fun j hj _ hlj f hf => hother f fun heq => ?_,
      fun h => (hfalse h).elim, fun h => (hfalse h).elim, fun h => (hfalse h).elim⟩
    rw [heq] at hf
    exact (h.fine.tree.1 j hj hlj).1 hf
  have hold : C.format.link (m'.ram d i) = false := by
    rw [h.rest i le_rfl]
    exact C.zero_link
  refine ⟨⟨h.grows.fresh, h.grows.used, h.grows.taken, h.grows.kept, h.grows.limit,
    h.grows.sound⟩, fun f hf => ?_, ?_, ?_, fun w hw => ?_, fun j hj => ?_⟩
  · rw [hother f fun heq => hf (heq ▸ h.mem)]
    exact h.off f hf
  · refine h.fine.of_below hB (fun h => (hfalse h).elim) fun _ => ?_
    obtain ⟨w, hw, -⟩ := exists_index 0 k hi
    have hstop := hF.stops w
    rw [(walk_stop hw hno).1] at hstop
    rw [hentry]
    exact hstop
  · rw [← h.tables]
    ext f
    rw [hB.mem_tables hi]
    simp only [hno', Bool.false_eq_true, false_and, false_or, Format.tables, Set.mem_ofPred_eq]
    refine or_congr_right ⟨fun hf => ?_, fun hf => ?_⟩
    · obtain ⟨j, hj, -, hlj, hf⟩ := hf
      exact ⟨j, hj, hlj, hf⟩
    · obtain ⟨j, hj, hlj, hf⟩ := hf
      refine ⟨j, hj, fun hji => ?_, hlj, hf⟩
      rw [hji, hold] at hlj
      cases hlj
  · by_cases hwi : C.format.index w (k + 1) = i
    · rw [lookup_stop hwi hno', lookup_stop hwi hno, hentry, (walk_stop hwi hno').2.2,
        (walk_stop hwi hno).2.2]
      exact ⟨rfl, rfl⟩
    · rw [lookup_other hB hwi, (hB.walk_other hwi).2.2]
      exact h.done w (by omega)
  · rw [hroot j (by omega)]
    exact h.rest j (by omega)

/-- An absent entry is left out. -/
theorem skip (hheld : C.Held m (k + 1) s)
    (hno : C.format.link (m'.ram s i) = false) (habsent : C.present (m'.ram s i) = false) :
    C.Copied m k s d (i + 1) m' N := by
  have hsrc : m'.ram s i = m.ram s i := congrFun (h.source hheld s root_mem_tables) i
  rw [hsrc] at hno habsent
  have hzero := h.rest i le_rfl
  have hno' : C.format.link (m'.ram d i) = false := by
    rw [hzero]
    exact C.zero_link
  refine ⟨h.grows, h.off, h.fine, h.tables, fun w hw => ?_, fun j hj => h.rest j (by omega)⟩
  by_cases hwi : C.format.index w (k + 1) = i
  · rw [lookup_stop hwi hno', lookup_stop hwi hno, (walk_stop hwi hno').2.2,
      (walk_stop hwi hno).2.2, leafOf, leafOf, hzero, C.zero_present, habsent]
    exact ⟨rfl, rfl⟩
  · exact h.done w (by omega)

end

/-- A link is copied with a copy of the tables below it. -/
theorem linked {c word : ℕ} {N' : Set ℕ} (h : C.Copied m k s d i m₁ N)
    (hF : C.Fine m.ram (k + 1) s) (hheld : C.Held m (k + 1) s) (hi : i < C.format.arity)
    (hlink : C.format.link (m₁.ram s i) = true)
    (hc : C.ClonesAt m₁ k (C.format.child (m₁.ram s i)) c m' N')
    (hword : C.LinkWord c (C.user (m₁.ram s i)) word) :
    C.Copied m k s d (i + 1) (m'.setWord d i word) (N ∪ N') := by
  have hsrc : m₁.ram s i = m.ram s i := congrFun (h.source hheld s root_mem_tables) i
  set m'' := m'.setWord d i word with hm''
  have hentry : m''.ram d i = word := by simp [hm'']
  rw [hsrc] at hlink hword
  rw [← hentry] at hword
  obtain ⟨hlink', hchild, hwr, hx, hu⟩ := hword
  have hchildren : ∀ f ∈ C.format.tables m.ram k (C.format.child (m.ram s i)), m₁.ram f = m.ram f :=
    fun f hf => h.source hheld f (tables_child hi hlink hf)
  -- the new frames are apart from the copy made so far
  have hdN : d ∉ N' := hc.grows.notMem_of_used (h.held d root_mem_tables)
  have hN : Disjoint N' (C.format.tables m₁.ram (k + 1) d) := h.held.disjoint hc.grows
  have hother : ∀ f, f ≠ d → m''.ram f = m'.ram f := fun f hf => by simp [hm'', setWord, hf]
  have hroot : ∀ j, j ≠ i → m''.ram d j = m₁.ram d j := by
    intro j hj
    rw [← hc.off d hdN]
    simp [hm'', setWord, hj]
  have hcopy : ∀ f ∈ C.format.tables m'.ram k c, m''.ram f = m'.ram f := by
    intro f hf
    rw [hc.tables] at hf
    exact hother f fun heq => hdN (heq ▸ hf)
  have hfine : C.Fine m''.ram k c := hc.fine.congr hcopy
  have htab : C.format.tables m''.ram k c = N' := (tables_congr hcopy).trans hc.tables
  have hlookup : ∀ w, C.lookup m''.ram k c w = C.lookup m.ram k (C.format.child (m.ram s i)) w := by
    intro w
    rw [lookup_congr hcopy, hc.lookups, hsrc, lookup_congr hchildren]
  have hB : Below C.format m₁.ram m''.ram k d i := by
    refine h.fine.tree.below_new hN hroot (fun g hg hgN => ?_) ?_ ?_
    · rw [hother g hg, hc.off g hgN]
    · rw [hchild]
      exact hfine.tree
    · rw [hchild, htab]
  have hold : C.format.link (m₁.ram d i) = false := by
    rw [h.rest i le_rfl]
    exact C.zero_link
  have husers := (hF.link hi hlink).users
  have hgrows := h.grows.trans hc.grows
  refine ⟨⟨hgrows.fresh, hgrows.used, hgrows.taken, hgrows.kept, hgrows.limit, hgrows.sound⟩,
    fun f hf => ?_, ?_, ?_, fun w hwi => ?_, fun j hj => ?_⟩
  · rw [hother f fun heq => hf (.inl (heq ▸ h.mem)), hc.off f fun hN' => hf (.inr hN'),
      h.off f fun hN => hf (.inl hN)]
  · refine h.fine.of_below hB (fun _ => ?_) fun hno => ?_
    · refine ⟨by rw [hchild]; exact hfine, hwr, hx, fun w hwi l hl hlu => ?_⟩
      rw [hchild, hlookup] at hl
      exact hu (husers w hwi l hl hlu)
    · rw [hlink'] at hno
      cases hno
  · rw [← h.tables]
    refine tables_below hB hi hlink' ?_
    rw [hold, hchild, htab]
    simp only [Bool.false_eq_true, if_false, Set.empty_union]
  · by_cases heq : C.format.index w (k + 1) = i
    · rw [lookup_succ heq hlink', hchild, lookup_succ heq hlink, hlookup,
        (walk_succ heq hlink').2.2, (walk_succ heq hlink).2.2]
      refine ⟨rfl, ?_⟩
      rw [hchild, (walk_congr hcopy w).2.2, hc.slots, hsrc, (walk_congr hchildren w).2.2]
    · rw [lookup_other hB heq, (hB.walk_other heq).2.2]
      exact h.done w (by omega)
  · rw [hroot j (by omega)]
    exact h.rest j (by omega)

end Copied

theorem copied_start (hs : m.pmm.Sound) (halloc : m.allocZeroed = some (d, m₁)) :
    C.Copied m k s d 0 m₁ {d} := by
  obtain ⟨hg, hram, -⟩ := allocZeroed_grows hs halloc
  have htable : m₁.ram d = fun _ => 0 := by rw [hram, update_self]
  have hempty : ∀ j, C.format.link (m₁.ram d j) = false ∨ k + 1 = 0 := by
    intro j
    rw [htable]
    exact .inl C.zero_link
  refine ⟨hg, fun f hf => ?_, ?_, tables_last hempty, nofun, fun j _ => congrFun htable j⟩
  · rw [hram, update_of_ne hf]
  · refine ⟨tree_last hempty, fun v => ?_, fun v e he => ?_, fun v _ _ _ e he => ?_⟩
    · rw [(entry_last hempty v).1, htable]
      exact C.zero_stops _
    · rw [(entry_last hempty v).2] at he
      cases he
    · rw [(entry_last hempty v).2] at he
      cases he

/-- The frames below the first `n` entries of a table. -/
def firstTables (C : Coding) (ram : Ram) (k t n : ℕ) : Set ℕ :=
  {f | ∃ j < n, C.format.link (ram t j) = true ∧
    f ∈ C.format.tables ram k (C.format.child (ram t j))}

theorem firstTables_zero (ram : Ram) (k t : ℕ) : C.firstTables ram k t 0 = ∅ := by
  simp [firstTables]

theorem firstTables_link (hlink : C.format.link (ram t j) = true) : C.firstTables ram k t (j + 1) =
      C.firstTables ram k t j ∪ C.format.tables ram k (C.format.child (ram t j)) := by
  ext f
  constructor
  · intro hf
    obtain ⟨i, hi, hli, hfi⟩ := hf
    by_cases hij : i = j
    · rw [hij] at hfi
      exact .inr hfi
    · exact .inl ⟨i, by omega, hli, hfi⟩
  · intro hf
    obtain ⟨i, hi, hli, hfi⟩ | hf := hf
    · exact ⟨i, by omega, hli, hfi⟩
    · exact ⟨j, by omega, hlink, hf⟩

theorem firstTables_stop (hlink : C.format.link (ram t j) ≠ true) :
    C.firstTables ram k t (j + 1) = C.firstTables ram k t j := by
  ext f
  constructor
  · intro hf
    obtain ⟨i, hi, hli, hfi⟩ := hf
    refine ⟨i, ?_, hli, hfi⟩
    by_contra hij
    obtain rfl : i = j := by omega
    exact hlink hli
  · intro hf
    obtain ⟨i, hi, hli, hfi⟩ := hf
    exact ⟨i, by omega, hli, hfi⟩

theorem tables_eq_first (ram : Ram) (k t : ℕ) :
    C.format.tables ram (k + 1) t = C.firstTables ram k t C.format.arity ∪ {t} := by
  ext f
  simp only [Format.tables, firstTables, Set.mem_union, Set.mem_ofPred_eq,
    Set.mem_singleton_iff, or_comm]

def Single (m : Machine) (f : ℕ) : Prop :=
  m.pmm.used f = true ∧ m.pmm.refs f = 1 ∧ 0 < f ∧ f < m.pmm.limit

theorem Single.drops {S : Set ℕ} {f : ℕ} (h : Single m f) (hD : Drops m m' S) (hf : f ∉ S) :
    Single m' f :=
  ⟨(hD.used f).mpr ⟨h.1, hf⟩, (hD.kept f hf).trans h.2.1, h.2.2.1, hD.limit ▸ h.2.2.2⟩


variable {step : Machine → ℕ → Machine}

/-- A loop that gives back the tables below each entry. -/
theorem drops_entries (hT : C.format.Tree m.ram (k + 1) t)
    (hs : m.pmm.Sound) (hheld : ∀ f ∈ C.format.tables m.ram (k + 1) t, Single m f)
    (hlinked : ∀ n : Machine, ∀ j < C.format.arity, n.ram = m.ram → n.pmm.Sound →
      C.format.link (m.ram t j) = true →
      (∀ f ∈ C.format.tables m.ram k (C.format.child (m.ram t j)), Single n f) →
      Drops n (step n j) (C.format.tables m.ram k (C.format.child (m.ram t j))))
    (hstop : ∀ n : Machine, ∀ j < C.format.arity, n.ram = m.ram →
      C.format.link (m.ram t j) ≠ true → step n j = n) (hj : j ≤ C.format.arity) :
    Drops m ((List.range j).foldl step m) (C.firstTables m.ram k t j) := by
  induction j with
  | zero =>
    rw [firstTables_zero]
    exact Drops.refl hs
  | succ j ih =>
    have hD := ih (by omega)
    rw [range_succ, foldl_append, foldl_cons, foldl_nil]
    by_cases hlink : C.format.link (m.ram t j) = true
    · rw [firstTables_link hlink]
      refine hD.trans (hlinked _ j hj hD.ram hD.sound hlink fun f hf => ?_)
      refine (hheld f (tables_child hj hlink hf)).drops hD fun hmem => ?_
      -- the tables below the earlier entries are others
      obtain ⟨i, hi, hli, hfi⟩ := hmem
      exact hT.not_mem_other hj hlink (by omega) (by omega) hli hf hfi
    · rw [firstTables_stop hlink, hstop _ j hj hD.ram hlink]
      exact hD

/-- The loop over all entries, and then the table itself. -/
theorem drops_table (hT : C.format.Tree m.ram (k + 1) t)
    (hheld : ∀ f ∈ C.format.tables m.ram (k + 1) t, Single m f)
    (hD : Drops m ((List.range C.format.arity).foldl step m)
      (C.firstTables m.ram k t C.format.arity)) :
    Drops m (((List.range C.format.arity).foldl step m).freeFrame t)
      (C.format.tables m.ram (k + 1) t) := by
  have hnot : t ∉ C.firstTables m.ram k t C.format.arity := by
    intro hmem
    obtain ⟨j, hj, hlj, hfj⟩ := hmem
    exact (hT.1 j hj hlj).1 hfj
  obtain ⟨hused, hrefs, hpos, hlt⟩ := (hheld t root_mem_tables).drops hD hnot
  rw [tables_eq_first]
  exact hD.trans (Drops.free hD.sound hused hrefs hpos hlt)

section Views

variable {ram : Ram} {top root v p : ℕ} {fl : Flags} {leaf : ℕ → Flags → Leaf} {r : Result}

/-- What the processor finds: a page is writable, or a user page, or executable when every entry
of its walk says so. -/
def trans (C : Coding) (top : ℕ) (ram : Ram) (root v : ℕ) : Option Leaf :=
  let up := C.format.upper ram top root v
  (C.lookup ram top root v).map fun l =>
    { l with
      writable := l.writable && up.all C.writable
      user := l.user && up.all C.user
      executable := l.executable && up.all C.executable }

theorem trans_eq (hF : C.Fine ram top root) (v : ℕ) :
    C.trans top ram root v = C.lookup ram top root v := by
  rw [trans]
  cases hl : C.lookup ram top root v with
  | none => rfl
  | some l =>
    have hw : (C.format.upper ram top root v).all C.writable = true :=
      all_eq_true.mpr fun e he => (hF.links v e he).1
    have hx : (C.format.upper ram top root v).all C.executable = true :=
      all_eq_true.mpr fun e he => (hF.links v e he).2
    have hu : (l.user && (C.format.upper ram top root v).all C.user) = l.user := by
      cases hlu : l.user with
      | false => rfl
      | true => exact all_eq_true.mpr fun e he => hF.users v l hl hlu e he
    simp only [Option.map_some, hw, hx, hu, Bool.and_true]

/-- The views of the trees below tables of level `top`. -/
def views (C : Coding) (top : ℕ) (leaf : ℕ → Flags → Leaf) : Views where
  seen v := v % C.format.arity ^ (top + 1)
  trans := C.trans top
  hasSlot ram root v := (C.format.slot ram top root v).isSome = true
  tables ram root := C.format.tables ram top root
  good ram root := C.Fine ram top root
  leaf := leaf

theorem agree_iff (v w : ℕ) :
    C.format.Agree top v w ↔ w % C.format.arity ^ (top + 1) = v % C.format.arity ^ (top + 1) :=
  ⟨fun h => h.mod_eq.symm, fun h => Format.agree_of_mod_eq h.symm⟩

theorem views_congr (ram ram' : Ram) (root : ℕ)
    (h : ∀ f ∈ (C.views top leaf).tables ram root, ram' f = ram f) :
    (C.views top leaf).trans ram' root = (C.views top leaf).trans ram root ∧
      (C.views top leaf).hasSlot ram' root = (C.views top leaf).hasSlot ram root ∧
      (C.views top leaf).tables ram' root = (C.views top leaf).tables ram root ∧
      ((C.views top leaf).good ram root → (C.views top leaf).good ram' root) := by
  have hwalk : ∀ v, C.format.upper ram' top root v = C.format.upper ram top root v ∧
      C.format.slot ram' top root v = C.format.slot ram top root v := fun v => (walk_congr h v).2
  refine ⟨funext fun v => ?_, funext fun v => ?_, tables_congr h, fun hF => Fine.congr hF h⟩
  · change C.trans top ram' root v = C.trans top ram root v
    rw [trans, trans, lookup_congr h, (hwalk v).1]
  · change ((C.format.slot ram' top root v).isSome = true) =
      ((C.format.slot ram top root v).isSome = true)
    rw [(hwalk v).2]

theorem views_blank (htop : 0 < top) {root : ℕ} (h : ∀ i, ram root i = 0) :
    (C.views top leaf).good ram root ∧ (C.views top leaf).tables ram root = {root} ∧
      ∀ v, (C.views top leaf).trans ram root v = none ∧ ¬(C.views top leaf).hasSlot ram root v := by
  have hlink : ∀ j, C.format.link (ram root j) = false ∨ top = 0 := fun j =>
    .inl (by rw [h j]; exact C.zero_link)
  have hlookup : ∀ v, C.lookup ram top root v = none := by
    intro v
    rw [lookup_of_entry (entry_last hlink v).1, h, leafOf, C.zero_present]
    rfl
  have hgood : C.Fine ram top root := by
    refine ⟨tree_last hlink, fun v => ?_, fun v e he => ?_, fun v l hl => ?_⟩
    · rw [(entry_last hlink v).1, h]
      exact C.zero_stops top
    · rw [(entry_last hlink v).2] at he
      cases he
    · rw [hlookup v] at hl
      cases hl
  refine ⟨hgood, tables_last hlink, fun v => ⟨(trans_eq hgood v).trans (hlookup v), ?_⟩⟩
  obtain ⟨k, rfl⟩ := Nat.exists_eq_add_of_lt htop
  have hslot : C.format.slot ram (0 + k + 1) root v = none :=
    (walk_stop rfl ((hlink _).resolve_right (by simp))).2.2
  change ¬(C.format.slot ram (0 + k + 1) root v).isSome = true
  rw [hslot]
  exact Bool.false_ne_true

theorem MapsAt.maps (hF : C.Fine m.ram top root) (htop : top ≤ 3)
    (hM : C.MapsAt m top root v (leaf p fl) r N) : (C.views top leaf).Maps m root v p fl r N := by
  have hnew : ∀ w, C.trans top r.2.ram root w = C.lookup r.2.ram top root w := trans_eq hM.fine
  have hold : ∀ w, C.trans top m.ram root w = C.lookup m.ram top root w := trans_eq hF
  refine ⟨⟨hM.grows, hM.off, hM.fine, hM.tables, fun w hw => ?_⟩, fun w hw => ?_,
    fun hok => ⟨?_, fun w hw => ?_⟩, fun herr => funext fun w => ?_, fun hslot => ?_,
    hM.few.trans (by omega), fun herr => (hM.stuck herr).imp_right fun hl => ?_⟩
  · obtain ⟨u, hu⟩ := Option.isSome_iff_exists.mp hw
    exact Option.isSome_iff_exists.mpr ⟨u, hM.slots w u hu⟩
  · have hother := hM.others w fun hag => hw ((agree_iff v w).mp hag)
    exact (hnew w).trans (hother.trans (hold w).symm)
  · exact Option.isSome_iff_exists.mpr (hM.ok hok).1
  · exact (hnew w).trans ((hM.ok hok).2 w ((agree_iff v w).mpr hw))
  · exact (hnew w).trans ((hM.error herr w).trans (hold w).symm)
  · obtain ⟨u, hu⟩ := Option.isSome_iff_exists.mp hslot
    exact hM.again u hu
  · exact fun hnone => hl ((hold v).symm.trans hnone)

theorem slot_of_seen (ram : Ram) {v w : ℕ}
    (h : (C.views top leaf).seen v = (C.views top leaf).seen w)
    (hv : (C.views top leaf).hasSlot ram root v) : (C.views top leaf).hasSlot ram root w := by
  change (C.format.slot ram top root w).isSome = true
  rw [← (walk_agree ((agree_iff v w).mpr h.symm)).2.2]
  exact hv

/-- The entry of a page is cleared. -/
theorem unmaps_of_slot {u : ℕ} (hs : m.pmm.Sound) (hF : C.Fine m.ram top root)
    (hu : C.format.slot m.ram top root v = some u) :
    (C.views top leaf).Unmaps m root v (.ok (), m.setWord u (C.format.index v 0) 0) := by
  have hram : (m.setWord u (C.format.index v 0) 0).ram = writeAt C.format m.ram u v 0 := rfl
  obtain ⟨-, htab, -, hslots, -, -⟩ := hF.tree.writeAt hu 0
  obtain ⟨hF', hgone, hkept⟩ := hF.clear hu
  rw [← hram] at htab hslots hF' hgone hkept
  have hslots' : ∀ w, (C.views top leaf).hasSlot (m.setWord u (C.format.index v 0) 0).ram root w ↔
      (C.views top leaf).hasSlot m.ram root w := by
    intro w
    change (C.format.slot _ top root w).isSome = true ↔ (C.format.slot _ top root w).isSome = true
    rw [hslots]
  refine ⟨rfl, rfl, ⟨Grows.of_pmm_eq hs rfl, fun f hf _ => ?_, hF', ?_,
    fun w => (hslots' w).mpr⟩, fun w hw => ?_, fun w hw => ?_, fun w => (hslots' w).mp⟩
  · exact writeAt_of_ne fun hfu => hf (hfu ▸ slot_mem hu)
  · rw [Set.union_empty]
    exact htab
  · have hother := hkept w fun hag => hw ((agree_iff v w).mp hag)
    exact (trans_eq hF' w).trans (hother.trans (trans_eq hF w).symm)
  · exact (trans_eq hF' w).trans (hgone w ((agree_iff v w).mpr hw))

theorem ClonesAt.copies (hF : C.Fine m.ram top s) (hC : C.ClonesAt m top s d m' N) :
    (C.views top leaf).Copies m s d m' N := by
  refine ⟨hC.grows, hC.off, hC.fine, hC.tables, funext fun w => ?_, funext fun w => ?_⟩
  · exact (trans_eq hC.fine w).trans ((hC.lookups w).trans (trans_eq hF w).symm)
  · change ((C.format.slot m'.ram top d w).isSome = true) =
      ((C.format.slot m.ram top s w).isSome = true)
    rw [hC.slots w]

variable {r : Option ℕ × Machine}

theorem CloneSpec.copies (h : C.CloneSpec m top s r)
    (hF : C.Fine m.ram top s) (hr : r = (some d, m')) : ∃ N, (C.views top leaf).Copies m s d m' N := by
  subst hr
  exact h.imp fun _ hC => hC.copies hF

theorem CloneSpec.fails (h : C.CloneSpec m top s r)
    (hr : r = (none, m')) : ∃ N, Grows m m' N ∧ ∀ f, m.pmm.used f = true → m'.ram f = m.ram f := by
  subst hr
  exact h

end Views

end Coding

end Tach.TableTrees
