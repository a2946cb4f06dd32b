import Mathlib

/-!
Radix trees of tables in a word-addressed memory. A table is an array of words in a frame; the
index of a page at level `k` is a digit of its number, with level 0 the lowest digit. An entry
of an upper level links to a table of the level below or ends the walk; an entry of level 0
always ends it.

`Tree` says that no table is used twice. Then a write to one entry concerns only the pages
whose walk comes by that entry, and a change of the tables below one entry leaves the tables
below the others alone.
-/

namespace Tach.Radix

abbrev Ram := ℕ → ℕ → ℕ

/-- `bits` bits of a page number are one index; `link` tells the entries that point to a
table, in the frame `child`. -/
structure Format where
  bits : ℕ
  link : ℕ → Bool
  child : ℕ → ℕ

namespace Format

variable (F : Format)

def arity : ℕ := 2 ^ F.bits

def index (v k : ℕ) : ℕ := v / F.arity ^ k % F.arity

/-- The two pages have the same walk in every table of level `k`. -/
def Agree (k v w : ℕ) : Prop := ∀ j ≤ k, F.index v j = F.index w j

variable (ram : Ram)

/-- The entry the walk from a table of level `k` ends at, and its level. -/
def entry : ℕ → ℕ → ℕ → ℕ × ℕ
  | 0, t, v => (ram t (F.index v 0), 0)
  | k + 1, t, v =>
    let e := ram t (F.index v (k + 1))
    if F.link e then entry k (F.child e) v else (e, k + 1)

def upper : ℕ → ℕ → ℕ → List ℕ
  | 0, _, _ => []
  | k + 1, t, v =>
    let e := ram t (F.index v (k + 1))
    if F.link e then e :: upper k (F.child e) v else []

def slot : ℕ → ℕ → ℕ → Option ℕ
  | 0, t, _ => some t
  | k + 1, t, v =>
    let e := ram t (F.index v (k + 1))
    if F.link e then slot k (F.child e) v else none

/-- The frames of the tables below and including a table of level `k`. -/
def tables : ℕ → ℕ → Set ℕ
  | 0, t => {t}
  | k + 1, t =>
    {f | f = t ∨ ∃ i < F.arity, F.link (ram t i) = true ∧ f ∈ tables k (F.child (ram t i))}

def Tree : ℕ → ℕ → Prop
  | 0, _ => True
  | k + 1, t =>
    (∀ i < F.arity, F.link (ram t i) = true →
      t ∉ F.tables ram k (F.child (ram t i)) ∧ Tree k (F.child (ram t i))) ∧
    ∀ i < F.arity, ∀ j < F.arity, i ≠ j → F.link (ram t i) = true → F.link (ram t j) = true →
      Disjoint (F.tables ram k (F.child (ram t i))) (F.tables ram k (F.child (ram t j)))

end Format

variable {F : Format} {ram ram' : Ram} {k t u v w i f j : ℕ} {N : Set ℕ}

theorem arity_pos (F : Format) : 0 < F.arity := Nat.two_pow_pos F.bits

theorem index_lt (F : Format) (v k : ℕ) : F.index v k < F.arity := Nat.mod_lt _ (arity_pos F)

theorem root_mem_tables : t ∈ F.tables ram k t := by
  cases k with
  | zero => rfl
  | succ k => exact .inl rfl

theorem tables_child (hi : i < F.arity) (h : F.link (ram t i) = true) :
    F.tables ram k (F.child (ram t i)) ⊆ F.tables ram (k + 1) t :=
  fun _ hf => .inr ⟨i, hi, h, hf⟩

theorem slot_mem (h : F.slot ram k t v = some u) : u ∈ F.tables ram k t := by
  induction k generalizing t with
  | zero =>
    cases h
    exact root_mem_tables
  | succ k ih =>
    simp only [Format.slot] at h
    split_ifs at h with hlink
    exact tables_child (index_lt F v (k + 1)) hlink (ih h)

/-- What a walk sees depends on the tables alone. -/
theorem tables_congr (h : ∀ f ∈ F.tables ram k t, ram' f = ram f) :
    F.tables ram' k t = F.tables ram k t := by
  induction k generalizing t with
  | zero => rfl
  | succ k ih =>
    have ht := h t root_mem_tables
    have hchild : ∀ i < F.arity, F.link (ram t i) = true →
        F.tables ram' k (F.child (ram t i)) = F.tables ram k (F.child (ram t i)) := by
      intro i hi hlink
      exact ih fun f hf => h f (tables_child hi hlink hf)
    ext f
    simp only [Format.tables, ht, Set.mem_ofPred_eq]
    refine or_congr_right ⟨?_, ?_⟩
    · intro hf
      obtain ⟨i, hi, hlink, hf⟩ := hf
      exact ⟨i, hi, hlink, hchild i hi hlink ▸ hf⟩
    · intro hf
      obtain ⟨i, hi, hlink, hf⟩ := hf
      exact ⟨i, hi, hlink, (hchild i hi hlink).symm ▸ hf⟩

theorem walk_congr (h : ∀ f ∈ F.tables ram k t, ram' f = ram f) (v : ℕ) :
    F.entry ram' k t v = F.entry ram k t v ∧ F.upper ram' k t v = F.upper ram k t v ∧
      F.slot ram' k t v = F.slot ram k t v := by
  induction k generalizing t with
  | zero =>
    simp only [Format.entry, Format.upper, Format.slot, h t root_mem_tables, and_self]
  | succ k ih =>
    simp only [Format.entry, Format.upper, Format.slot, h t root_mem_tables]
    by_cases hlink : F.link (ram t (F.index v (k + 1))) = true
    · obtain ⟨he, hu, hs⟩ := ih fun f hf => h f (tables_child (index_lt F v (k + 1)) hlink hf)
      simp only [hlink, if_true, he, hu, hs, and_self]
    · simp only [hlink, Bool.false_eq_true, if_false, and_self]

theorem Format.Tree.congr (hT : F.Tree ram k t) (h : ∀ f ∈ F.tables ram k t, ram' f = ram f) :
    F.Tree ram' k t := by
  induction k generalizing t with
  | zero => trivial
  | succ k ih =>
    have ht := h t root_mem_tables
    have hchild : ∀ i < F.arity, F.link (ram t i) = true →
        ∀ f ∈ F.tables ram k (F.child (ram t i)), ram' f = ram f :=
      fun i hi hlink f hf => h f (tables_child hi hlink hf)
    refine ⟨fun i hi hlink => ?_, fun i hi j hj hne hli hlj => ?_⟩
    · rw [ht] at hlink ⊢
      obtain ⟨hnot, hsub⟩ := hT.1 i hi hlink
      rw [tables_congr (hchild i hi hlink)]
      exact ⟨hnot, ih hsub (hchild i hi hlink)⟩
    · rw [ht] at hli hlj ⊢
      rw [tables_congr (hchild i hi hli), tables_congr (hchild j hj hlj)]
      exact hT.2 i hi j hj hne hli hlj

/-- The tables of a tree below entry `i` change, the others stay: what is needed of the new
tables below entry `i`. -/
structure Below (F : Format) (ram ram' : Ram) (k t i : ℕ) : Prop where
  root : ∀ j < F.arity, j ≠ i → ram' t j = ram t j
  others : ∀ j < F.arity, j ≠ i → F.link (ram t j) = true →
    ∀ f ∈ F.tables ram k (F.child (ram t j)), ram' f = ram f
  tree : F.link (ram' t i) = true → F.Tree ram' k (F.child (ram' t i))
  notMem : F.link (ram' t i) = true → t ∉ F.tables ram' k (F.child (ram' t i))
  disjoint : F.link (ram' t i) = true → ∀ j < F.arity, j ≠ i → F.link (ram t j) = true →
    Disjoint (F.tables ram' k (F.child (ram' t i))) (F.tables ram k (F.child (ram t j)))

namespace Below

variable (h : Below F ram ram' k t i)
include h

theorem child_tables (hj : j < F.arity) (hne : j ≠ i) (hlink : F.link (ram' t j) = true) :
    F.link (ram t j) = true ∧ F.child (ram' t j) = F.child (ram t j) ∧
      F.tables ram' k (F.child (ram' t j)) = F.tables ram k (F.child (ram t j)) := by
  rw [h.root j hj hne] at hlink ⊢
  exact ⟨hlink, rfl, tables_congr (h.others j hj hne hlink)⟩

theorem tree_succ (hT : F.Tree ram (k + 1) t) : F.Tree ram' (k + 1) t := by
  refine ⟨fun j hj hlink => ?_, fun j hj l hl hne hlj hll => ?_⟩
  · by_cases hji : j = i
    · rw [hji] at hlink ⊢
      exact ⟨h.notMem hlink, h.tree hlink⟩
    · obtain ⟨hold, hchild, htab⟩ := h.child_tables hj hji hlink
      rw [htab]
      refine ⟨(hT.1 j hj hold).1, ?_⟩
      rw [hchild]
      exact (hT.1 j hj hold).2.congr (h.others j hj hji hold)
  · by_cases hji : j = i
    · rw [hji] at hlj hne ⊢
      obtain ⟨hold, -, htab⟩ := h.child_tables hl hne.symm hll
      rw [htab]
      exact h.disjoint hlj l hl hne.symm hold
    · obtain ⟨hold, -, htab⟩ := h.child_tables hj hji hlj
      rw [htab]
      by_cases hli : l = i
      · rw [hli] at hll ⊢
        exact (h.disjoint hll j hj hji hold).symm
      · obtain ⟨hold', -, htab'⟩ := h.child_tables hl hli hll
        rw [htab']
        exact hT.2 j hj l hl hne hold hold'

/-- The pages below another entry are walked as before. -/
theorem walk_other {w : ℕ} (hw : F.index w (k + 1) ≠ i) :
    F.entry ram' (k + 1) t w = F.entry ram (k + 1) t w ∧
      F.upper ram' (k + 1) t w = F.upper ram (k + 1) t w ∧
      F.slot ram' (k + 1) t w = F.slot ram (k + 1) t w := by
  have hroot := h.root _ (index_lt F w (k + 1)) hw
  simp only [Format.entry, Format.upper, Format.slot, hroot]
  by_cases hlink : F.link (ram t (F.index w (k + 1))) = true
  · obtain ⟨he, hu, hs⟩ := walk_congr (h.others _ (index_lt F w (k + 1)) hw hlink) w
    simp only [hlink, if_true, he, hu, hs, and_self]
  · simp only [hlink, Bool.false_eq_true, if_false, and_self]

theorem mem_tables (hi : i < F.arity) : f ∈ F.tables ram' (k + 1) t ↔
    f = t ∨ (F.link (ram' t i) = true ∧ f ∈ F.tables ram' k (F.child (ram' t i))) ∨
      ∃ j < F.arity, j ≠ i ∧ F.link (ram t j) = true ∧ f ∈ F.tables ram k (F.child (ram t j)) := by
  refine or_congr_right ⟨fun hf => ?_, fun hf => ?_⟩
  · obtain ⟨j, hj, hlink, hf⟩ := hf
    by_cases hji : j = i
    · rw [hji] at hlink hf
      exact .inl ⟨hlink, hf⟩
    · obtain ⟨hold, -, htab⟩ := h.child_tables hj hji hlink
      exact .inr ⟨j, hj, hji, hold, htab ▸ hf⟩
  · obtain ⟨hlink, hf⟩ | ⟨j, hj, hji, hlink, hf⟩ := hf
    · exact ⟨i, hi, hlink, hf⟩
    · refine ⟨j, hj, ?_, ?_⟩
      · rw [h.root j hj hji]
        exact hlink
      · rw [h.root j hj hji, tables_congr (h.others j hj hji hlink)]
        exact hf

end Below

/-- The frames below the entries other than `i`. -/
theorem Format.Tree.not_mem_other (hT : F.Tree ram (k + 1) t) (hi : i < F.arity)
    (hlink : F.link (ram t i) = true) (hj : j < F.arity) (hne : j ≠ i)
    (hlj : F.link (ram t j) = true) (hf : f ∈ F.tables ram k (F.child (ram t i))) :
    f ∉ F.tables ram k (F.child (ram t j)) :=
  fun hf' => Set.disjoint_left.mp (hT.2 i hi j hj hne.symm hlink hlj) hf hf'

/-- The tables below a linked entry change, and may be joined by frames `N` that were no tables
of the tree. -/
theorem Format.Tree.below (hT : F.Tree ram (k + 1) t) (hi : i < F.arity)
    (hlink : F.link (ram t i) = true) (hroot : ∀ j, j ≠ i → ram' t j = ram t j)
    (hchild : F.child (ram' t i) = F.child (ram t i)) (hN : Disjoint N (F.tables ram (k + 1) t))
    (hother : ∀ f, f ≠ t → f ∉ F.tables ram k (F.child (ram t i)) → f ∉ N → ram' f = ram f)
    (htree : F.Tree ram' k (F.child (ram t i)))
    (htab : F.tables ram' k (F.child (ram t i)) ⊆ F.tables ram k (F.child (ram t i)) ∪ N) :
    Below F ram ram' k t i := by
  have hnew : ∀ f ∈ F.tables ram' k (F.child (ram t i)), f ≠ t ∧
      ∀ j < F.arity, j ≠ i → F.link (ram t j) = true → f ∉ F.tables ram k (F.child (ram t j)) := by
    intro f hf
    obtain hf | hf := htab hf
    · refine ⟨fun heq => (hT.1 i hi hlink).1 (heq ▸ hf), fun j hj hne hlj => ?_⟩
      exact hT.not_mem_other hi hlink hj hne hlj hf
    · have hnot := Set.disjoint_left.mp hN hf
      refine ⟨fun heq => hnot (heq ▸ root_mem_tables), fun j hj _ hlj hfj => ?_⟩
      exact hnot (tables_child hj hlj hfj)
  refine ⟨fun j _ hne => hroot j hne, fun j hj hne hlj f hf => ?_, fun _ => ?_, fun _ hmem => ?_,
    fun _ j hj hne hlj => ?_⟩
  · refine hother f (fun heq => ?_) (fun hfi => ?_) (fun hfN => ?_)
    · exact (hT.1 j hj hlj).1 (heq ▸ hf)
    · exact hT.not_mem_other hi hlink hj hne hlj hfi hf
    · exact Set.disjoint_left.mp hN hfN (tables_child hj hlj hf)
  · rw [hchild]
    exact htree
  · rw [hchild] at hmem
    exact (hnew t hmem).1 rfl
  · rw [hchild]
    exact Set.disjoint_left.mpr fun f hf => (hnew f hf).2 j hj hne hlj

/-- Tables that were no tables of the tree come below an entry. -/
theorem Format.Tree.below_new (hT : F.Tree ram (k + 1) t)
    (hN : Disjoint N (F.tables ram (k + 1) t)) (hroot : ∀ j, j ≠ i → ram' t j = ram t j)
    (hother : ∀ g, g ≠ t → g ∉ N → ram' g = ram g) (htree : F.Tree ram' k (F.child (ram' t i)))
    (htab : F.tables ram' k (F.child (ram' t i)) ⊆ N) : Below F ram ram' k t i := by
  have hnot : ∀ f ∈ N, f ∉ F.tables ram (k + 1) t := fun f hf => Set.disjoint_left.mp hN hf
  refine ⟨fun j _ hne => hroot j hne, fun j hj hji hlj g hg => ?_, fun _ => htree, fun _ hmem => ?_,
    fun _ j hj hji hlj => Set.disjoint_left.mpr fun f hf hfj => ?_⟩
  · refine hother g (fun heq => (hT.1 j hj hlj).1 (heq ▸ hg)) fun hgN => ?_
    exact hnot g hgN (tables_child hj hlj hg)
  · exact hnot t (htab hmem) root_mem_tables
  · exact hnot f (htab hf) (tables_child hj hlj hfj)

/-- The only table below a table without links. -/
theorem tables_last (h : ∀ j, F.link (ram t j) = false ∨ k = 0) : F.tables ram k t = {t} := by
  cases k with
  | zero => rfl
  | succ k =>
    ext g
    simp only [Format.tables, Set.mem_ofPred_eq, Set.mem_singleton_iff, or_iff_left_iff_imp]
    intro hg
    obtain ⟨j, -, hlink, -⟩ := hg
    obtain h | h := h j
    · rw [hlink] at h
      cases h
    · cases h

theorem tree_last (h : ∀ j, F.link (ram t j) = false ∨ k = 0) : F.Tree ram k t := by
  cases k with
  | zero => trivial
  | succ k =>
    have hno : ∀ j, F.link (ram t j) ≠ true := by
      intro j hlink
      obtain h | h := h j
      · rw [hlink] at h
        cases h
      · cases h
    exact ⟨fun j _ hlink => absurd hlink (hno j), fun j _ l _ _ hlink => absurd hlink (hno j)⟩

theorem walk_succ (hw : F.index w (k + 1) = i) (hlink : F.link (ram t i) = true) :
    F.entry ram (k + 1) t w = F.entry ram k (F.child (ram t i)) w ∧
      F.upper ram (k + 1) t w = ram t i :: F.upper ram k (F.child (ram t i)) w ∧
      F.slot ram (k + 1) t w = F.slot ram k (F.child (ram t i)) w := by
  simp only [Format.entry, Format.upper, Format.slot, hw, hlink, if_true, and_self]

theorem walk_stop (hw : F.index w (k + 1) = i) (hlink : F.link (ram t i) = false) :
    F.entry ram (k + 1) t w = (ram t i, k + 1) ∧ F.upper ram (k + 1) t w = [] ∧
      F.slot ram (k + 1) t w = none := by
  simp only [Format.entry, Format.upper, Format.slot, hw, hlink, Bool.false_eq_true, if_false,
    and_self]

/-- A write to the entry of page `v` at level 0. -/
def writeAt (F : Format) (ram : Ram) (u v x : ℕ) : Ram :=
  Function.update ram u (Function.update (ram u) (F.index v 0) x)

theorem writeAt_of_ne {x : ℕ} (h : f ≠ u) : writeAt F ram u v x f = ram f :=
  Function.update_of_ne h _ _

/-- It concerns this page alone. -/
theorem Format.Tree.writeAt (hT : F.Tree ram k t) (hs : F.slot ram k t v = some u) (x : ℕ) :
    F.Tree (writeAt F ram u v x) k t ∧ F.tables (writeAt F ram u v x) k t = F.tables ram k t ∧
    (∀ w, F.upper (writeAt F ram u v x) k t w = F.upper ram k t w) ∧
    (∀ w, F.slot (writeAt F ram u v x) k t w = F.slot ram k t w) ∧
    (∀ w, F.Agree k v w → F.entry (writeAt F ram u v x) k t w = (x, 0)) ∧
    ∀ w, ¬F.Agree k v w → F.entry (writeAt F ram u v x) k t w = F.entry ram k t w := by
  induction k generalizing t with
  | zero =>
    cases hs
    refine ⟨trivial, rfl, fun _ => rfl, fun _ => rfl, fun w hw => ?_, fun w hw => ?_⟩
    · simp only [Format.entry, Radix.writeAt, Function.update_self, ← hw 0 le_rfl]
    · have hne : F.index w 0 ≠ F.index v 0 := by
        intro heq
        refine hw fun j hj => ?_
        rw [Nat.le_zero.mp hj]
        exact heq.symm
      simp only [Format.entry, Radix.writeAt, Function.update_self, Function.update_of_ne hne]
  | succ k ih =>
    set i := F.index v (k + 1) with hi
    have hlink : F.link (ram t i) = true := by
      by_contra hno
      rw [(walk_stop hi.symm (Bool.of_not_eq_true hno)).2.2] at hs
      cases hs
    have hilt : i < F.arity := index_lt F v (k + 1)
    rw [(walk_succ hi.symm hlink).2.2] at hs
    obtain ⟨hnot, hsub⟩ := hT.1 i hilt hlink
    obtain ⟨htree, htab, hupper, hslot, hsame, hother⟩ := ih hsub hs
    have hut : u ≠ t := by
      intro heq
      rw [heq] at hs
      exact hnot (slot_mem hs)
    have hrt : Radix.writeAt F ram u v x t = ram t := writeAt_of_ne hut.symm
    have hlink' : F.link (Radix.writeAt F ram u v x t i) = true := by
      rw [hrt]
      exact hlink
    have hbelow : Below F ram (Radix.writeAt F ram u v x) k t i := by
      refine hT.below hilt hlink (fun j _ => congrFun hrt j)
        (by rw [hrt]) (Set.empty_disjoint _) (fun f _ hf _ => ?_) htree
        (by simp only [htab, Set.union_empty, subset_refl])
      exact writeAt_of_ne fun heq => hf (heq ▸ slot_mem hs)
    refine ⟨hbelow.tree_succ hT, ?_, fun w => ?_, fun w => ?_, fun w hw => ?_, fun w hw => ?_⟩
    · ext f
      rw [hbelow.mem_tables hilt, hrt, htab]
      refine or_congr_right ⟨fun hf => ?_, fun hf => ?_⟩
      · obtain ⟨-, hf⟩ | ⟨j, hj, -, hlj, hf⟩ := hf
        · exact ⟨i, hilt, hlink, hf⟩
        · exact ⟨j, hj, hlj, hf⟩
      · obtain ⟨j, hj, hlj, hf⟩ := hf
        by_cases hji : j = i
        · exact .inl ⟨hlink, hji ▸ hf⟩
        · exact .inr ⟨j, hj, hji, hlj, hf⟩
    · by_cases hw : F.index w (k + 1) = i
      · rw [(walk_succ hw hlink').2.1, (walk_succ hw hlink).2.1, hrt, hupper]
      · exact (hbelow.walk_other hw).2.1
    · by_cases hw : F.index w (k + 1) = i
      · rw [(walk_succ hw hlink').2.2, (walk_succ hw hlink).2.2, hrt, hslot]
      · exact (hbelow.walk_other hw).2.2
    · have hwi : F.index w (k + 1) = i := (hw (k + 1) le_rfl).symm
      rw [(walk_succ hwi hlink').1, hrt]
      exact hsame w fun j hj => hw j (by omega)
    · by_cases hwi : F.index w (k + 1) = i
      · rw [(walk_succ hwi hlink').1, (walk_succ hwi hlink).1, hrt]
        refine hother w fun hag => hw fun j hj => ?_
        obtain hj | hj := Nat.lt_or_eq_of_le hj
        · exact hag j (by omega)
        · rw [hj]
          exact hwi.symm
      · exact (hbelow.walk_other hwi).1

/-- The digits of a page number determine it. -/
theorem Format.Agree.mod_eq (h : F.Agree k v w) :
    v % F.arity ^ (k + 1) = w % F.arity ^ (k + 1) := by
  induction k with
  | zero =>
    have h0 := h 0 le_rfl
    simpa [Format.index] using h0
  | succ k ih =>
    have hlow := ih fun j hj => h j (by omega)
    have htop : v / F.arity ^ (k + 1) % F.arity = w / F.arity ^ (k + 1) % F.arity :=
      h (k + 1) le_rfl
    rw [Nat.pow_succ, Nat.mod_mul, Nat.mod_mul, hlow, htop]

theorem Format.agree_of_mod_eq (h : v % F.arity ^ (k + 1) = w % F.arity ^ (k + 1)) :
    F.Agree k v w := by
  intro j hj
  have hdvd : F.arity ^ (j + 1) ∣ F.arity ^ (k + 1) := Nat.pow_dvd_pow _ (by omega)
  have hmod : v % F.arity ^ (j + 1) = w % F.arity ^ (j + 1) := by
    rw [← Nat.mod_mod_of_dvd v hdvd, h, Nat.mod_mod_of_dvd w hdvd]
  have hdigit : ∀ x, F.index x j = x % F.arity ^ (j + 1) / F.arity ^ j := by
    intro x
    rw [Nat.pow_succ, Nat.mod_mul_right_div_self]
    rfl
  rw [hdigit, hdigit, hmod]

theorem walk_agree (h : F.Agree k v w) :
    F.entry ram k t v = F.entry ram k t w ∧ F.upper ram k t v = F.upper ram k t w ∧
      F.slot ram k t v = F.slot ram k t w := by
  induction k generalizing t with
  | zero => simp only [Format.entry, Format.upper, Format.slot, h 0 le_rfl, and_self]
  | succ k ih =>
    simp only [Format.entry, Format.upper, Format.slot, h (k + 1) le_rfl]
    split
    · obtain ⟨he, hu, hs⟩ := ih
        fun j hj => h j (by omega)
      exact ⟨he, by rw [hu], hs⟩
    · exact ⟨rfl, rfl, rfl⟩

/-- Some page below entry `i` has the walk of `v` further down. -/
theorem exists_index (v k : ℕ) (hi : i < F.arity) : ∃ w, F.index w (k + 1) = i ∧ F.Agree k w v := by
  have hpos : 0 < F.arity ^ (k + 1) := Nat.pow_pos (arity_pos F)
  have hlt := Nat.mod_lt v hpos
  refine ⟨v % F.arity ^ (k + 1) + F.arity ^ (k + 1) * i, ?_, Format.agree_of_mod_eq ?_⟩
  · rw [Format.index, Nat.add_mul_div_left _ _ hpos, Nat.div_eq_of_lt hlt, Nat.zero_add,
      Nat.mod_eq_of_lt hi]
  · rw [Nat.add_mul_mod_self_left, Nat.mod_mod]

theorem entry_level_le (v : ℕ) : (F.entry ram k t v).2 ≤ k := by
  induction k generalizing t with
  | zero => exact Nat.le_refl 0
  | succ k ih =>
    simp only [Format.entry]
    split
    · exact Nat.le_succ_of_le ih
    · exact Nat.le_refl _

end Tach.Radix
