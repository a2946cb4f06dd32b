import Tach.Paging

/-!
Trees of page tables in which the last entry of a walk decides. A `Coding` says how the words of
the tables are read. A tree is `Fine` when no table is used twice, every link is writable and
allows execution, and a link above a user page is a user link. Mapping a page goes down the
tree: at each level the entry is made to link to a table (`Enters`), and a map in the table
below is a map in the tree (`MapsAt.lift`).
-/

namespace Tach.TableTrees

open List Frames Paging Radix Machine

/-- How the entries of page tables are read; `stops e k` tells the entries that may end a walk
at level `k`. -/
structure Coding where
  format : Format
  present : ℕ → Bool
  writable : ℕ → Bool
  user : ℕ → Bool
  executable : ℕ → Bool
  stops : ℕ → ℕ → Prop
  stops_lowest : ∀ e, stops e 0
  zero_link : format.link 0 = false
  zero_present : present 0 = false
  zero_stops : ∀ k, stops 0 k

namespace Coding

section Definitions

variable (C : Coding)

/-- What an entry of level `k` says of a page. -/
def leafOf (e k v : ℕ) : Option Leaf :=
  if C.present e then
    some ⟨C.format.child e + v % C.format.arity ^ k, C.writable e, C.user e, C.executable e⟩
  else none

def lookup (ram : Ram) (k t v : ℕ) : Option Leaf :=
  C.leafOf (C.format.entry ram k t v).1 (C.format.entry ram k t v).2 v

structure Fine (ram : Ram) (k t : ℕ) : Prop where
  tree : C.format.Tree ram k t
  stops : ∀ v, C.stops (C.format.entry ram k t v).1 (C.format.entry ram k t v).2
  links : ∀ v, ∀ e ∈ C.format.upper ram k t v, C.writable e = true ∧ C.executable e = true
  users : ∀ v l, C.lookup ram k t v = some l → l.user = true →
    ∀ e ∈ C.format.upper ram k t v, C.user e = true

/-- A link of a fine tree, and the table below it. -/
structure Links (ram : Ram) (k t i : ℕ) : Prop where
  fine : C.Fine ram k (C.format.child (ram t i))
  writable : C.writable (ram t i) = true
  executable : C.executable (ram t i) = true
  users : ∀ w, C.format.index w (k + 1) = i → ∀ l,
    C.lookup ram k (C.format.child (ram t i)) w = some l → l.user = true → C.user (ram t i) = true

/-- The entry `e` links to the table `f`, for a page that is a user page or not. -/
structure LinkWord (f : ℕ) (b : Bool) (e : ℕ) : Prop where
  link : C.format.link e = true
  child : C.format.child e = f
  writable : C.writable e = true
  executable : C.executable e = true
  user : b = true → C.user e = true

def Held (m : Machine) (k t : ℕ) : Prop := ∀ f ∈ C.format.tables m.ram k t, m.pmm.used f = true

/-- A map of page `v` from a table of level `k` on. -/
structure MapsAt (m : Machine) (k t v : ℕ) (l : Leaf) (r : Result) (N : Set ℕ) : Prop where
  grows : Grows m r.2 N
  off : ∀ f, f ∉ C.format.tables m.ram k t → f ∉ N → r.2.ram f = m.ram f
  fine : C.Fine r.2.ram k t
  tables : C.format.tables r.2.ram k t = C.format.tables m.ram k t ∪ N
  slots : ∀ w u, C.format.slot m.ram k t w = some u → C.format.slot r.2.ram k t w = some u
  others : ∀ w, ¬C.format.Agree k v w → C.lookup r.2.ram k t w = C.lookup m.ram k t w
  ok : r.1 = .ok () → (∃ u, C.format.slot r.2.ram k t v = some u) ∧
    ∀ w, C.format.Agree k v w → C.lookup r.2.ram k t w = some l
  error : r.1 ≠ .ok () → ∀ w, C.lookup r.2.ram k t w = C.lookup m.ram k t w
  again : ∀ u, C.format.slot m.ram k t v = some u → r.1 = .ok () ∧ N = ∅ ∧ r.2.pmm = m.pmm
  few : m.pmm.freePages ≤ r.2.pmm.freePages + k
  stuck : r.1 ≠ .ok () → r.2.pmm.freePages = 0 ∨ C.lookup m.ram k t v ≠ none

/-- Entry `i` now links to a table, for a page that is a user page or not, and no page is found
elsewhere than before. -/
structure Enters (m : Machine) (k t i : ℕ) (b : Bool) (m' : Machine) (N : Set ℕ) : Prop where
  grows : Grows m m' N
  off : ∀ f, f ≠ t → f ∉ N → m'.ram f = m.ram f
  fine : C.Fine m'.ram (k + 1) t
  tables : C.format.tables m'.ram (k + 1) t = C.format.tables m.ram (k + 1) t ∪ N
  slots : ∀ w u, C.format.slot m.ram (k + 1) t w = some u →
    C.format.slot m'.ram (k + 1) t w = some u
  lookups : ∀ w, C.lookup m'.ram (k + 1) t w = C.lookup m.ram (k + 1) t w
  link : C.format.link (m'.ram t i) = true
  forUser : b = true → C.user (m'.ram t i) = true
  again : C.format.link (m.ram t i) = true → N = ∅ ∧ m'.pmm = m.pmm
  few : m.pmm.freePages ≤ m'.pmm.freePages + 1

end Definitions

variable {C : Coding} {ram ram' : Ram} {m m' : Machine} {k t u v w i : ℕ} {l : Leaf} {b : Bool}
  {N : Set ℕ}

theorem lookup_of_entry {e j : ℕ} (h : C.format.entry ram k t v = (e, j)) :
    C.lookup ram k t v = C.leafOf e j v := by
  rw [lookup, h]

theorem lookup_succ (hw : C.format.index w (k + 1) = i) (hlink : C.format.link (ram t i) = true) :
    C.lookup ram (k + 1) t w = C.lookup ram k (C.format.child (ram t i)) w := by
  rw [lookup, (walk_succ hw hlink).1]
  rfl

theorem lookup_stop (hw : C.format.index w (k + 1) = i) (hlink : C.format.link (ram t i) = false) :
    C.lookup ram (k + 1) t w = C.leafOf (ram t i) (k + 1) w :=
  lookup_of_entry (walk_stop hw hlink).1

theorem lookup_congr (h : ∀ f ∈ C.format.tables ram k t, ram' f = ram f) (v : ℕ) :
    C.lookup ram' k t v = C.lookup ram k t v := by
  rw [lookup, (walk_congr h v).1]
  rfl

theorem Fine.congr (hF : C.Fine ram k t) (h : ∀ f ∈ C.format.tables ram k t, ram' f = ram f) :
    C.Fine ram' k t := by
  refine ⟨hF.tree.congr h, fun v => ?_, fun v => ?_, fun v l hl => ?_⟩
  · rw [(walk_congr h v).1]
    exact hF.stops v
  · rw [(walk_congr h v).2.1]
    exact hF.links v
  · rw [(walk_congr h v).2.1]
    rw [lookup_congr h] at hl
    exact hF.users v l hl

theorem lookup_agree (h : C.format.Agree k v w) : C.lookup ram k t v = C.lookup ram k t w := by
  have hentry : C.format.entry ram k t v = C.format.entry ram k t w := (walk_agree h).1
  have hdvd : C.format.arity ^ (C.format.entry ram k t w).2 ∣ C.format.arity ^ (k + 1) :=
    Nat.pow_dvd_pow C.format.arity (Nat.le_succ_of_le (entry_level_le w))
  have hmod : v % C.format.arity ^ (C.format.entry ram k t w).2 =
      w % C.format.arity ^ (C.format.entry ram k t w).2 := by
    rw [← Nat.mod_mod_of_dvd v hdvd, h.mod_eq, Nat.mod_mod_of_dvd w hdvd]
  rw [lookup, lookup, hentry, leafOf, hmod]
  rfl

theorem Fine.link (hF : C.Fine ram (k + 1) t) (hi : i < C.format.arity)
    (hlink : C.format.link (ram t i) = true) : C.Links ram k t i := by
  -- every walk below the link is the walk of a page whose index here is `i`
  have hpage : ∀ v, ∃ w, C.format.index w (k + 1) = i ∧ C.format.Agree k w v :=
    fun v => exists_index v k hi
  refine ⟨⟨(hF.tree.1 i hi hlink).2, fun v => ?_, fun v e he => ?_, fun v l hl hu e he => ?_⟩,
    ?_, ?_, fun w hw l hl hu => ?_⟩
  · obtain ⟨w, hw, hag⟩ := hpage v
    have hstop := hF.stops w
    rw [(walk_succ hw hlink).1, (walk_agree hag).1] at hstop
    exact hstop
  · obtain ⟨w, hw, hag⟩ := hpage v
    refine hF.links w e ?_
    rw [(walk_succ hw hlink).2.1, (walk_agree hag).2.1]
    exact mem_cons_of_mem _ he
  · obtain ⟨w, hw, hag⟩ := hpage v
    refine hF.users w l ?_ hu e ?_
    · rw [lookup_succ hw hlink, lookup_agree hag]
      exact hl
    · rw [(walk_succ hw hlink).2.1, (walk_agree hag).2.1]
      exact mem_cons_of_mem _ he
  · obtain ⟨w, hw, -⟩ := hpage 0
    refine (hF.links w (ram t i) ?_).1
    rw [(walk_succ hw hlink).2.1]
    exact mem_cons_self
  · obtain ⟨w, hw, -⟩ := hpage 0
    refine (hF.links w (ram t i) ?_).2
    rw [(walk_succ hw hlink).2.1]
    exact mem_cons_self
  · refine hF.users w l ?_ hu (ram t i) ?_
    · rw [lookup_succ hw hlink]
      exact hl
    · rw [(walk_succ hw hlink).2.1]
      exact mem_cons_self

/-- A fine tree in which the tables below one entry are replaced by fine ones. -/
theorem Fine.of_below (hF : C.Fine ram (k + 1) t) (hB : Below C.format ram ram' k t i)
    (hlinked : C.format.link (ram' t i) = true → C.Links ram' k t i)
    (hstop : C.format.link (ram' t i) = false → C.stops (ram' t i) (k + 1)) :
    C.Fine ram' (k + 1) t := by
  refine ⟨hB.tree_succ hF.tree, fun v => ?_, fun v e he => ?_, fun v l hl hu e he => ?_⟩
  · by_cases hv : C.format.index v (k + 1) = i
    · by_cases hlink : C.format.link (ram' t i) = true
      · rw [(walk_succ hv hlink).1]
        exact (hlinked hlink).fine.stops v
      · rw [(walk_stop hv (Bool.of_not_eq_true hlink)).1]
        exact hstop (Bool.of_not_eq_true hlink)
    · rw [(hB.walk_other hv).1]
      exact hF.stops v
  · by_cases hv : C.format.index v (k + 1) = i
    · by_cases hlink : C.format.link (ram' t i) = true
      · rw [(walk_succ hv hlink).2.1] at he
        obtain he | he := mem_cons.mp he
        · rw [he]
          exact ⟨(hlinked hlink).writable, (hlinked hlink).executable⟩
        · exact (hlinked hlink).fine.links v e he
      · rw [(walk_stop hv (Bool.of_not_eq_true hlink)).2.1] at he
        cases he
    · rw [(hB.walk_other hv).2.1] at he
      exact hF.links v e he
  · by_cases hv : C.format.index v (k + 1) = i
    · by_cases hlink : C.format.link (ram' t i) = true
      · rw [lookup_succ hv hlink] at hl
        rw [(walk_succ hv hlink).2.1] at he
        obtain he | he := mem_cons.mp he
        · rw [he]
          exact (hlinked hlink).users v hv l hl hu
        · exact (hlinked hlink).fine.users v l hl hu e he
      · rw [(walk_stop hv (Bool.of_not_eq_true hlink)).2.1] at he
        cases he
    · rw [lookup, (hB.walk_other hv).1] at hl
      rw [(hB.walk_other hv).2.1] at he
      exact hF.users v l hl hu e he

theorem lookup_other (hB : Below C.format ram ram' k t i) (hw : C.format.index w (k + 1) ≠ i) :
    C.lookup ram' (k + 1) t w = C.lookup ram (k + 1) t w := by
  rw [lookup, (hB.walk_other hw).1]
  rfl

theorem Held.disjoint (h : C.Held m k t) (hg : Grows m m' N) :
    Disjoint N (C.format.tables m.ram k t) :=
  Set.disjoint_left.mpr fun _ hf ht => hg.notMem_of_used (h _ ht) hf

/-- The tables of a tree after a change below entry `i`. -/
theorem tables_below {N : Set ℕ} (hB : Below C.format ram ram' k t i) (hi : i < C.format.arity)
    (hlink : C.format.link (ram' t i) = true)
    (hnew : C.format.tables ram' k (C.format.child (ram' t i)) =
      (if C.format.link (ram t i) then C.format.tables ram k (C.format.child (ram t i))
        else ∅) ∪ N) : C.format.tables ram' (k + 1) t = C.format.tables ram (k + 1) t ∪ N := by
  ext f
  rw [hB.mem_tables hi, Set.mem_union]
  simp only [hlink, true_and, hnew, Set.mem_union, Format.tables, Set.mem_ofPred_eq]
  by_cases hold : C.format.link (ram t i) = true
  · simp only [hold, if_true]
    constructor
    · intro hf
      obtain hf | (hf | hf) | ⟨j, hj, -, hlj, hf⟩ := hf
      · exact .inl (.inl hf)
      · exact .inl (.inr ⟨i, hi, hold, hf⟩)
      · exact .inr hf
      · exact .inl (.inr ⟨j, hj, hlj, hf⟩)
    · intro hf
      obtain (hf | ⟨j, hj, hlj, hf⟩) | hf := hf
      · exact .inl hf
      · by_cases hji : j = i
        · rw [hji] at hf
          exact .inr (.inl (.inl hf))
        · exact .inr (.inr ⟨j, hj, hji, hlj, hf⟩)
      · exact .inr (.inl (.inr hf))
  · simp only [hold, Bool.false_eq_true, if_false, Set.mem_empty_iff_false, false_or]
    constructor
    · intro hf
      obtain hf | hf | ⟨j, hj, -, hlj, hf⟩ := hf
      · exact .inl (.inl hf)
      · exact .inr hf
      · exact .inl (.inr ⟨j, hj, hlj, hf⟩)
    · intro hf
      obtain (hf | ⟨j, hj, hlj, hf⟩) | hf := hf
      · exact .inl hf
      · refine .inr (.inr ⟨j, hj, fun hji => hold ?_, hlj, hf⟩)
        rw [← hji]
        exact hlj
      · exact .inr (.inl hf)

/-- A map in the table below entry `i` is a map in the tree. -/
theorem MapsAt.lift {r : Result} (hF : C.Fine m.ram (k + 1) t) (hheld : C.Held m (k + 1) t)
    (hi : C.format.index v (k + 1) = i) (hlink : C.format.link (m.ram t i) = true)
    (hu : l.user = true → C.user (m.ram t i) = true)
    (h : C.MapsAt m k (C.format.child (m.ram t i)) v l r N) : C.MapsAt m (k + 1) t v l r N := by
  have hilt : i < C.format.arity := hi ▸ index_lt C.format v (k + 1)
  have hN := hheld.disjoint h.grows
  have hroot : r.2.ram t = m.ram t := by
    refine h.off t (hF.tree.1 i hilt hlink).1 fun ht => ?_
    exact Set.disjoint_left.mp hN ht root_mem_tables
  have hlink' : C.format.link (r.2.ram t i) = true := by
    rw [hroot]
    exact hlink
  have hB : Below C.format m.ram r.2.ram k t i := by
    refine hF.tree.below hilt hlink (fun j _ => congrFun hroot j) (by rw [hroot]) hN
      (fun f _ hf hfN => h.off f hf hfN) h.fine.tree ?_
    rw [h.tables]
  have hlookup : ∀ w, C.format.index w (k + 1) = i →
      C.lookup r.2.ram (k + 1) t w = C.lookup r.2.ram k (C.format.child (m.ram t i)) w := by
    intro w hw
    rw [lookup_succ hw hlink', hroot]
  have hother : ∀ w, ¬C.format.Agree (k + 1) v w →
      C.lookup r.2.ram (k + 1) t w = C.lookup m.ram (k + 1) t w := by
    intro w hw
    by_cases hwi : C.format.index w (k + 1) = i
    · rw [hlookup w hwi, lookup_succ hwi hlink]
      refine h.others w fun hag => hw fun j hj => ?_
      obtain hj | hj := Nat.lt_or_eq_of_le hj
      · exact hag j (by omega)
      · rw [hj, hi, hwi]
    · exact lookup_other hB hwi
  refine ⟨h.grows, fun f hf hfN => h.off f (fun hc => hf (tables_child hilt hlink hc)) hfN, ?_, ?_,
    fun w u hs => ?_, hother, fun hok => ?_, fun herr w => ?_, fun u hs => ?_,
    h.few.trans (by omega), fun herr => (h.stuck herr).imp_right fun hl => ?_⟩
  · refine hF.of_below hB (fun _ => ?_) fun hno => ?_
    · obtain ⟨-, hwr, hnx, husers⟩ := hF.link hilt hlink
      refine ⟨by rw [hroot]; exact h.fine, by rw [hroot]; exact hwr, by rw [hroot]; exact hnx,
        fun w hw l hl hlu => ?_⟩
      rw [hroot] at hl ⊢
      by_cases hag : C.format.Agree k v w
      · by_cases hok : r.1 = .ok ()
        · rw [(h.ok hok).2 w hag] at hl
          cases hl
          exact hu hlu
        · rw [h.error hok w] at hl
          exact husers w hw l hl hlu
      · rw [h.others w hag] at hl
        exact husers w hw l hl hlu
    · rw [hlink'] at hno
      cases hno
  · refine tables_below hB hilt hlink' ?_
    rw [hroot, hlink, if_pos rfl]
    exact h.tables
  · by_cases hw : C.format.index w (k + 1) = i
    · rw [(walk_succ hw hlink).2.2] at hs
      rw [(walk_succ hw hlink').2.2, hroot]
      exact h.slots w u hs
    · rw [(hB.walk_other hw).2.2]
      exact hs
  · obtain ⟨⟨u, hs⟩, hl⟩ := h.ok hok
    refine ⟨⟨u, ?_⟩, fun w hw => ?_⟩
    · rw [(walk_succ hi hlink').2.2, hroot]
      exact hs
    · rw [hlookup w ((hw (k + 1) le_rfl).symm.trans hi)]
      exact hl w fun j hj => hw j (by omega)
  · by_cases hwi : C.format.index w (k + 1) = i
    · rw [hlookup w hwi, lookup_succ hwi hlink]
      exact h.error herr w
    · exact lookup_other hB hwi
  · rw [(walk_succ hi hlink).2.2] at hs
    exact h.again u hs
  · rwa [lookup_succ hi hlink]

theorem Enters.maps {N' : Set ℕ} {r : Result} (h : C.Enters m k t i b m' N)
    (hi : C.format.index v (k + 1) = i) (h' : C.MapsAt m' (k + 1) t v l r N')
    (hfew : m'.pmm.freePages ≤ r.2.pmm.freePages + k) : C.MapsAt m (k + 1) t v l r (N ∪ N') := by
  refine ⟨h.grows.trans h'.grows, fun f hf hfN => ?_, h'.fine, ?_, fun w u hs => ?_,
    fun w hw => ?_, h'.ok, fun herr w => ?_, fun u hs => ?_, h.few.trans (by omega),
    fun herr => (h'.stuck herr).imp_right fun hl => ?_⟩
  · have hfN' : f ∉ N := fun hN => hfN (.inl hN)
    rw [h'.off f ?_ fun hN => hfN (.inr hN), h.off f (fun heq => hf (heq ▸ root_mem_tables)) hfN']
    rw [h.tables]
    exact fun hmem => hmem.elim hf hfN'
  · rw [h'.tables, h.tables, Set.union_assoc]
  · exact h'.slots w u (h.slots w u hs)
  · rw [h'.others w hw, h.lookups]
  · rw [h'.error herr, h.lookups]
  · have hlink : C.format.link (m.ram t i) = true := by
      by_contra hno
      rw [(walk_stop hi (Bool.of_not_eq_true hno)).2.2] at hs
      cases hs
    obtain ⟨hN, hpmm⟩ := h.again hlink
    obtain ⟨hok, hN', hpmm'⟩ := h'.again u (h.slots v u hs)
    rw [hN, hN', Set.union_empty]
    exact ⟨hok, rfl, hpmm'.trans hpmm⟩
  · rwa [← h.lookups]

/-- A table of level 0 is always in order. -/
theorem fine_zero (ram : Ram) (t : ℕ) : C.Fine ram 0 t :=
  ⟨trivial, fun _ => C.stops_lowest _, nofun, fun _ _ _ _ => nofun⟩

/-- The entry the walk ends at in a table without links. -/
theorem entry_last (h : ∀ j, C.format.link (ram t j) = false ∨ k = 0) (w : ℕ) :
    C.format.entry ram k t w = (ram t (C.format.index w k), k) ∧ C.format.upper ram k t w = [] := by
  cases k with
  | zero => exact ⟨rfl, rfl⟩
  | succ k =>
    obtain hlink | hzero := h (C.format.index w (k + 1))
    · exact ⟨(walk_stop rfl hlink).1, (walk_stop rfl hlink).2.1⟩
    · cases hzero

/-- A fresh frame becomes the table below entry `i`, with words that say the same of the pages
there as the entry did. -/
theorem Enters.of_fresh {f : ℕ} (hF : C.Fine m.ram (k + 1) t) (hheld : C.Held m (k + 1) t)
    (hi : i < C.format.arity) (hold : C.format.link (m.ram t i) = false) (hg : Grows m m' {f})
    (hfew : m.pmm.freePages ≤ m'.pmm.freePages + 1) (hroot : ∀ j, j ≠ i → m'.ram t j = m.ram t j)
    (hother : ∀ g, g ≠ t → g ≠ f → m'.ram g = m.ram g) (hword : C.LinkWord f b (m'.ram t i))
    (hempty : ∀ j, C.format.link (m'.ram f j) = false ∨ k = 0)
    (hstops : ∀ j, C.stops (m'.ram f j) k)
    (hsame : ∀ w, C.leafOf (m'.ram f (C.format.index w k)) k w = C.leafOf (m.ram t i) (k + 1) w)
    (husers : C.present (m.ram t i) = true → C.user (m.ram t i) = true →
      C.user (m'.ram t i) = true) : C.Enters m k t i b m' {f} := by
  obtain ⟨hlink, hchild, hwr, hx, hu⟩ := hword
  have hfresh : f ∉ C.format.tables m.ram (k + 1) t :=
    fun hf => hg.notMem_of_used (hheld f hf) rfl
  have hB : Below C.format m.ram m'.ram k t i := by
    refine hF.tree.below_new (Set.disjoint_singleton_left.mpr hfresh) hroot hother ?_ ?_
    · rw [hchild]
      exact tree_last hempty
    · rw [hchild, tables_last hempty]
  have hlook : ∀ w, C.lookup m'.ram k f w = C.leafOf (m.ram t i) (k + 1) w := by
    intro w
    rw [lookup_of_entry (entry_last hempty w).1]
    exact hsame w
  have hlookups : ∀ w, C.lookup m'.ram (k + 1) t w = C.lookup m.ram (k + 1) t w := by
    intro w
    by_cases hw : C.format.index w (k + 1) = i
    · rw [lookup_succ hw hlink, lookup_stop hw hold, hchild]
      exact hlook w
    · exact lookup_other hB hw
  refine ⟨hg, fun g hgt hgf => hother g hgt hgf, ?_, ?_, fun w u hs => ?_, hlookups, hlink, hu,
    fun h => ?_, hfew⟩
  · refine hF.of_below hB (fun _ => ?_) fun hno => ?_
    · have hfine : C.Fine m'.ram k f := by
        refine ⟨?_, fun v => ?_, fun v e he => ?_, fun v l _ _ e he => ?_⟩
        · exact tree_last hempty
        · rw [(entry_last hempty v).1]
          exact hstops _
        · rw [(entry_last hempty v).2] at he
          cases he
        · rw [(entry_last hempty v).2] at he
          cases he
      refine ⟨by rw [hchild]; exact hfine, hwr, hx, fun w _ l hl hlu => ?_⟩
      rw [hchild, hlook w, leafOf] at hl
      split_ifs at hl with hp
      cases hl
      exact husers hp hlu
    · rw [hlink] at hno
      cases hno
  · refine tables_below hB hi hlink ?_
    rw [hold, hchild]
    simp only [Bool.false_eq_true, if_false, Set.empty_union]
    exact tables_last hempty
  · by_cases hw : C.format.index w (k + 1) = i
    · rw [(walk_stop hw hold).2.2] at hs
      cases hs
    · rw [(hB.walk_other hw).2.2]
      exact hs
  · rw [hold] at h
    cases h

variable {word : ℕ}

/-- An absent entry gets an empty table. -/
theorem enters_absent {f : ℕ} (hF : C.Fine m.ram (k + 1) t) (hheld : C.Held m (k + 1) t)
    (hs : m.pmm.Sound) (hi : i < C.format.arity) (habsent : C.present (m.ram t i) = false)
    (hold : C.format.link (m.ram t i) = false) (halloc : m.allocZeroed = some (f, m'))
    (hword : C.LinkWord f b word) : C.Enters m k t i b (m'.setWord t i word) {f} := by
  obtain ⟨hg, hram, -, hfew⟩ := allocZeroed_grows hs halloc
  have hft : f ≠ t := fun heq => hg.notMem_of_used (hheld t root_mem_tables) (heq ▸ rfl)
  have htable : (m'.setWord t i word).ram f = fun _ => 0 := by
    simp [setWord, hft, hram]
  refine Enters.of_fresh hF hheld hi hold ?_ hfew (fun j hj => ?_) (fun g hgt hgf => ?_) ?_ ?_ ?_
    ?_ fun hp => ?_
  · exact ⟨hg.fresh, hg.used, hg.taken, hg.kept, hg.limit, hg.sound⟩
  · simp [setWord, hj, hram, hft.symm]
  · simp [setWord, hgt, hgf, hram]
  · rw [setWord_ram_self]
    exact hword
  · rw [htable]
    exact fun _ => .inl C.zero_link
  · rw [htable]
    exact fun _ => C.zero_stops k
  · intro w
    rw [htable, leafOf, leafOf, C.zero_present, habsent]
    rfl
  · rw [habsent] at hp
    cases hp

/-- A link that is there gets the flags of the new page. -/
theorem enters_linked (hF : C.Fine m.ram (k + 1) t) (hs : m.pmm.Sound)
    (hi : i < C.format.arity) (hlink : C.format.link (m.ram t i) = true)
    (hword : C.LinkWord (C.format.child (m.ram t i)) b word)
    (huser : C.user (m.ram t i) = true → C.user word = true) :
    C.Enters m k t i b (m.setWord t i word) ∅ := by
  obtain ⟨hfine, -, -, husers⟩ := hF.link hi hlink
  set m' := m.setWord t i word with hm'
  have hentry : m'.ram t i = word := by simp [hm']
  have hother : ∀ f, f ≠ t → m'.ram f = m.ram f := fun f hf => by simp [hm', setWord, hf]
  have hroot : ∀ j, j ≠ i → m'.ram t j = m.ram t j := fun j hj => by simp [hm', setWord, hj]
  rw [← hentry] at hword huser
  obtain ⟨hlink', hchild, hwr, hx, hu⟩ := hword
  -- the tables below do not include the one that is written
  have hbelow : ∀ f ∈ C.format.tables m.ram k (C.format.child (m.ram t i)), m'.ram f = m.ram f := by
    intro f hf
    refine hother f fun heq => ?_
    rw [heq] at hf
    exact (hF.tree.1 i hi hlink).1 hf
  have htab := tables_congr hbelow
  have hB : Below C.format m.ram m'.ram k t i := by
    refine hF.tree.below hi hlink hroot hchild (Set.empty_disjoint _)
      (fun f hf _ _ => hother f hf) (hfine.tree.congr hbelow) ?_
    rw [htab]
    exact Set.subset_union_left
  refine ⟨Grows.of_pmm_eq hs rfl, fun f hf _ => hother f hf, ?_, ?_, fun w u hslot => ?_,
    fun w => ?_, hlink', hu, fun _ => ⟨rfl, rfl⟩, Nat.le_succ _⟩
  · refine hF.of_below hB (fun _ => ?_) fun hno => ?_
    · refine ⟨by rw [hchild]; exact hfine.congr hbelow, hwr, hx, fun w hwi l hl hlu => ?_⟩
      rw [hchild, lookup_congr hbelow] at hl
      exact huser (husers w hwi l hl hlu)
    · rw [hlink'] at hno
      cases hno
  · refine tables_below hB hi hlink' ?_
    rw [hchild, htab, hlink, if_pos rfl, Set.union_empty]
  · by_cases hwi : C.format.index w (k + 1) = i
    · rw [(walk_succ hwi hlink).2.2] at hslot
      rw [(walk_succ hwi hlink').2.2, hchild, (walk_congr hbelow w).2.2]
      exact hslot
    · rw [(hB.walk_other hwi).2.2]
      exact hslot
  · by_cases hwi : C.format.index w (k + 1) = i
    · rw [lookup_succ hwi hlink', lookup_succ hwi hlink, hchild, lookup_congr hbelow]
    · exact lookup_other hB hwi

/-- The entry of the page is written. -/
theorem mapsAt_zero (hs : m.pmm.Sound) (v : ℕ) (hword : ∀ w, C.leafOf word 0 w = some l) :
    C.MapsAt m 0 t v l (.ok (), m.setWord t (C.format.index v 0) word) ∅ := by
  have hram : (m.setWord t (C.format.index v 0) word).ram = writeAt C.format m.ram t v word := rfl
  obtain ⟨-, htab, -, -, hsame, hother⟩ :=
    Format.Tree.writeAt (show C.format.Tree m.ram 0 t from trivial) rfl word
  rw [← hram] at htab hsame hother
  refine ⟨Grows.of_pmm_eq hs rfl, fun f hf _ => writeAt_of_ne hf, fine_zero _ _, ?_,
    fun _ _ h => h, fun w hw => ?_, fun _ => ⟨⟨t, rfl⟩, fun w hag => ?_⟩, fun h => absurd rfl h,
    fun _ _ => ⟨rfl, rfl, rfl⟩, le_rfl, fun h => absurd rfl h⟩
  · rw [Set.union_empty]
    exact htab
  · rw [lookup, hother w hw]
    rfl
  · rw [lookup_of_entry (hsame w hag)]
    exact hword w

/-- Nothing is changed if the walk cannot go on. -/
theorem mapsAt_stuck {e : Sectors.Errno} (hF : C.Fine m.ram (k + 1) t) (hs : m.pmm.Sound)
    (hno : C.format.link (m.ram t (C.format.index v (k + 1))) = false)
    (hcause : m.pmm.freePages = 0 ∨ C.lookup m.ram (k + 1) t v ≠ none) :
    C.MapsAt m (k + 1) t v l (.error e, m) ∅ := by
  refine ⟨Grows.refl hs, fun _ _ _ => rfl, hF, (Set.union_empty _).symm, fun _ _ h => h,
    fun _ _ => rfl, nofun, fun _ _ => rfl, fun u hu => ?_, Nat.le_add_right _ _, fun _ => hcause⟩
  rw [(walk_stop rfl hno).2.2] at hu
  cases hu

/-- What an absent entry of level 0 leaves of a tree. -/
theorem Fine.clear (hF : C.Fine ram k t) (hslot : C.format.slot ram k t v = some u) :
    C.Fine (writeAt C.format ram u v 0) k t ∧
      (∀ w, C.format.Agree k v w → C.lookup (writeAt C.format ram u v 0) k t w = none) ∧
      ∀ w, ¬C.format.Agree k v w →
        C.lookup (writeAt C.format ram u v 0) k t w = C.lookup ram k t w := by
  obtain ⟨htree, -, hupper, -, hsame, hother⟩ := hF.tree.writeAt hslot 0
  have hgone : ∀ w, C.format.Agree k v w → C.lookup (writeAt C.format ram u v 0) k t w = none := by
    intro w hw
    rw [lookup_of_entry (hsame w hw), leafOf, C.zero_present]
    rfl
  have hkept : ∀ w, ¬C.format.Agree k v w →
      C.lookup (writeAt C.format ram u v 0) k t w = C.lookup ram k t w := by
    intro w hw
    rw [lookup, hother w hw]
    rfl
  refine ⟨⟨htree, fun w => ?_, fun w => ?_, fun w l hl hu => ?_⟩, hgone, hkept⟩
  · by_cases hw : C.format.Agree k v w
    · rw [hsame w hw]
      exact C.stops_lowest 0
    · rw [hother w hw]
      exact hF.stops w
  · rw [hupper]
    exact hF.links w
  · rw [hupper]
    by_cases hw : C.format.Agree k v w
    · rw [hgone w hw] at hl
      cases hl
    · rw [hkept w hw] at hl
      exact hF.users w l hl hu

end Coding

end Tach.TableTrees
