import Tach.TableCopies

/-!
The page tables of arch/i686/paging.c: a directory (level 1) of 1024 links to page tables
(level 0). There are no large pages and no bit against execution. The root of a process is made
from a copy of every page table of the kernel's directory.
-/

namespace Tach.PagingI686

open Function List Frames Paging Radix TableTrees Coding

def present (e : ℕ) : Bool := e.testBit 0

def writable (e : ℕ) : Bool := e.testBit 1

def user (e : ℕ) : Bool := e.testBit 2

/-- The frame `e & X86_ADDR_MASK`. -/
def frameOf (e : ℕ) : ℕ := e / 2 ^ 12 % 2 ^ 20

def tableFlags (fl : Flags) : ℕ := if fl.user then 7 else 3

def nativeFlags (fl : Flags) : ℕ :=
  1 ||| (if fl.writable then 2 else 0) ||| (if fl.user then 4 else 0) |||
    (if fl.nocache then 16 else 0)

def format : Format := ⟨10, present, frameOf⟩

@[reducible] def coding : Coding where
  format := format
  present := present
  writable := writable
  user := user
  executable _ := true
  stops _ _ := True
  stops_lowest _ := trivial
  zero_link := rfl
  zero_present := rfl
  zero_stops _ := trivial

/-- The entry `i` of the directory in `arch_paging_map`. -/
def enter (m : Machine) (root i : ℕ) (fl : Flags) : Result :=
  let e := m.ram root i
  if present e = false then
    match m.allocZeroed with
    | none => (.error .enomem, m)
    | some (f, m') => (.ok (), m'.setWord root i (f * 2 ^ 12 ||| tableFlags fl))
  else (.ok (), m.setWord root i (e ||| tableFlags fl))

/-- `arch_paging_map`. -/
def map (m : Machine) (root v p : ℕ) (fl : Flags) : Result :=
  match enter m root (format.index v 1) fl with
  | (.error err, m') => (.error err, m')
  | (.ok (), m') =>
    (.ok (), m'.setWord (frameOf (m'.ram root (format.index v 1))) (format.index v 0)
      (p % 2 ^ 20 * 2 ^ 12 ||| nativeFlags fl))

/-- `arch_paging_unmap`. -/
def unmap (m : Machine) (root v : ℕ) : Result :=
  let e := m.ram root (format.index v 1)
  if present e = false then (.error .enoent, m)
  else (.ok (), m.setWord (frameOf e) (format.index v 0) 0)

/-- The loop of `arch_paging_create_root` from entry `i` on, `n` entries. -/
def copyTables (kernelRoot root : ℕ) : ℕ → ℕ → Machine → Bool × Machine
  | 0, _, m => (true, m)
  | n + 1, i, m =>
    let e := m.ram kernelRoot i
    if present e = false then copyTables kernelRoot root n (i + 1) m
    else
      match m.allocZeroed with
      | none => (false, m)
      | some (table, m₁) =>
        copyTables kernelRoot root n (i + 1)
          ((m₁.setFrame table (m₁.ram (frameOf e))).setWord root i
            (table * 2 ^ 12 ||| e % 2 ^ 12))

/-- `arch_paging_create_root`. What was copied before a failed allocation is not given back. -/
def createRoot (kernelRoot : ℕ) (m : Machine) : Option ℕ × Machine :=
  match m.allocZeroed with
  | none => (none, m)
  | some (root, m₁) =>
    match copyTables kernelRoot root 1024 0 m₁ with
    | (true, m') => (some root, m')
    | (false, m') => (none, m')

/-- `arch_paging_destroy_root`. -/
def destroyRoot (kernelRoot : ℕ) (m : Machine) (root : ℕ) : Machine :=
  if root = 0 ∨ root = kernelRoot then m
  else
    ((List.range 1024).foldl (fun m i =>
      let e := m.ram root i
      if present e then m.freeFrame (frameOf e) else m) m).freeFrame root

section WordFacts

variable {e f : ℕ}

theorem arity_eq : format.arity = 1024 := rfl

theorem frameOf_or {t : ℕ} (ht : t < 2 ^ 12) : frameOf (e ||| t) = frameOf e := by
  rw [frameOf, Nat.or_div_two_pow, Nat.div_eq_of_lt ht, Nat.or_zero]
  rfl

theorem frameOf_mul (hf : f < 2 ^ 20) : frameOf (f * 2 ^ 12) = f := by
  rw [frameOf, Nat.mul_div_cancel _ (by omega), Nat.mod_eq_of_lt hf]

theorem testBit_mul_low (f : ℕ) {j : ℕ} (hj : j < 12) : (f * 2 ^ 12).testBit j = false := by
  rw [Nat.testBit_mul_two_pow]
  simp only [Nat.not_le.mpr hj, decide_false, Bool.false_and]

theorem testBit_tableFlags (fl : Flags) : tableFlags fl < 2 ^ 12 ∧
    (tableFlags fl).testBit 0 = true ∧ (tableFlags fl).testBit 1 = true ∧
    (tableFlags fl).testBit 2 = fl.user := by
  unfold tableFlags
  cases fl.user <;> decide

/-- A word becomes a link by the flags of a table. -/
theorem linkWord_or (e : ℕ) (fl : Flags) :
    coding.LinkWord (frameOf e) fl.user (e ||| tableFlags fl) := by
  obtain ⟨hlt, h0, h1, h2⟩ := testBit_tableFlags fl
  refine ⟨?_, frameOf_or hlt, ?_, rfl, fun hu => ?_⟩
  · exact (Nat.testBit_or e _ 0).trans (by rw [h0, Bool.or_true])
  · exact (Nat.testBit_or e _ 1).trans (by rw [h1, Bool.or_true])
  · exact (Nat.testBit_or e _ 2).trans (by rw [h2, hu, Bool.or_true])

theorem linkWord_table (hf : f < 2 ^ 20) (fl : Flags) :
    coding.LinkWord f fl.user (f * 2 ^ 12 ||| tableFlags fl) := by
  have hword := linkWord_or (f * 2 ^ 12) fl
  rw [frameOf_mul hf] at hword
  exact hword

/-- The link to the copy of a table keeps its flags. -/
theorem linkWord_copy {ram : Ram} {t i : ℕ} (hf : f < 2 ^ 20) (h : coding.Links ram 0 t i)
    (hlink : format.link (ram t i) = true) :
    coding.LinkWord f (user (ram t i)) (f * 2 ^ 12 ||| ram t i % 2 ^ 12) := by
  have hbit : ∀ j < 12, (f * 2 ^ 12 ||| ram t i % 2 ^ 12).testBit j = (ram t i).testBit j := by
    intro j hj
    rw [Nat.testBit_or, testBit_mul_low f hj, Nat.testBit_mod_two_pow]
    simp only [hj, decide_true, Bool.true_and, Bool.false_or]
  refine ⟨(hbit 0 (by omega)).trans hlink, ?_, (hbit 1 (by omega)).trans h.writable, rfl,
    fun hu => (hbit 2 (by omega)).trans hu⟩
  exact (frameOf_or (Nat.mod_lt _ (by omega))).trans (frameOf_mul hf)

theorem testBit_nativeFlags (fl : Flags) : nativeFlags fl < 2 ^ 12 ∧
    (nativeFlags fl).testBit 0 = true ∧ (nativeFlags fl).testBit 1 = fl.writable ∧
    (nativeFlags fl).testBit 2 = fl.user := by
  unfold nativeFlags
  cases fl.writable <;> cases fl.user <;> cases fl.nocache <;> decide

theorem leafOf_word (hf : f < 2 ^ 20) (fl : Flags) (w : ℕ) :
    coding.leafOf (f % 2 ^ 20 * 2 ^ 12 ||| nativeFlags fl) 0 w =
      some ⟨f, fl.writable, fl.user, true⟩ := by
  obtain ⟨hlt, h0, h1, h2⟩ := testBit_nativeFlags fl
  rw [Nat.mod_eq_of_lt hf]
  set word := f * 2 ^ 12 ||| nativeFlags fl with hword
  have hbit : ∀ j < 12, word.testBit j = (nativeFlags fl).testBit j := by
    intro j hj
    rw [hword, Nat.testBit_or, testBit_mul_low f hj, Bool.false_or]
  have hp : present word = true := (hbit 0 (by omega)).trans h0
  have hw : writable word = fl.writable := (hbit 1 (by omega)).trans h1
  have hu : user word = fl.user := (hbit 2 (by omega)).trans h2
  have hfr : frameOf word = f := (frameOf_or hlt).trans (frameOf_mul hf)
  change (if present word then some (⟨frameOf word + w % 1024 ^ 0, _, _, _⟩ : Leaf) else none) = _
  rw [hp, hfr, if_pos rfl, Nat.pow_zero, Nat.mod_one, Nat.add_zero]
  exact congrArg some (by rw [← hw, ← hu])

end WordFacts

section Operations

variable {m m' n : Machine} {root d v p i k : ℕ} {fl : Flags} {N : Set ℕ}

theorem enter_spec (fl : Flags) (hF : coding.Fine m.ram 1 root) (hheld : coding.Held m 1 root)
    (hs : m.pmm.Sound) (hi : i < 1024) :
    (∃ N m', enter m root i fl = (.ok (), m') ∧ coding.Enters m 0 root i fl.user m' N) ∨
      enter m root i fl = (.error .enomem, m) ∧ format.link (m.ram root i) = false ∧
        m.pmm.freePages = 0 := by
  unfold enter
  by_cases habsent : present (m.ram root i) = false
  · rw [if_pos habsent]
    cases halloc : m.allocZeroed with
    | none => exact .inr ⟨rfl, habsent, allocZeroed_none hs halloc⟩
    | some fm =>
      have hf20 := (allocZeroed_grows hs halloc).2.2.1
      exact .inl ⟨_, _, rfl, enters_absent hF hheld hs hi habsent habsent halloc
        (linkWord_table hf20 fl)⟩
  · rw [if_neg habsent]
    have hlink : format.link (m.ram root i) = true := Bool.of_not_eq_false habsent
    refine .inl ⟨_, _, rfl, enters_linked hF hs hi hlink (linkWord_or _ fl) fun hu => ?_⟩
    exact (Nat.testBit_or _ _ 2).trans (by rw [show (m.ram root i).testBit 2 = true from hu]; rfl)

theorem map_mapsAt (v : ℕ) (fl : Flags) (hF : coding.Fine m.ram 1 root)
    (hheld : coding.Held m 1 root) (hs : m.pmm.Sound) (hp : p < 2 ^ 20) :
    ∃ N, coding.MapsAt m 1 root v ⟨p, fl.writable, fl.user, true⟩ (map m root v p fl) N := by
  unfold map
  obtain ⟨N, m', hm', hE⟩ | ⟨herr, hno, hzero⟩ := enter_spec fl hF hheld hs (index_lt format v 1)
  · rw [hm']
    have hheld' : coding.Held m' 1 root := by
      intro f hf
      rw [hE.tables] at hf
      exact (hE.grows.used f).mpr (hf.imp_left (hheld f))
    have hzero := mapsAt_zero (t := frameOf (m'.ram root (format.index v 1)))
      hE.grows.sound v fun w => leafOf_word hp fl w
    exact ⟨N ∪ ∅, hE.maps rfl (hzero.lift hE.fine hheld' rfl hE.link hE.forUser) hzero.few⟩
  · rw [herr]
    exact ⟨∅, mapsAt_stuck hF hs hno (.inl hzero)⟩

theorem unmap_eq (m : Machine) (root v : ℕ) : unmap m root v = match format.slot m.ram 1 root v with
      | some u => (.ok (), m.setWord u (format.index v 0) 0) | none => (.error .enoent, m) := by
  unfold unmap
  by_cases habsent : present (m.ram root (format.index v 1)) = false
  · rw [if_pos habsent, (walk_stop rfl habsent).2.2]
  · rw [if_neg habsent, (walk_succ rfl (Bool.of_not_eq_false habsent)).2.2]
    rfl

theorem copyTables_spec {j : ℕ} (hF : coding.Fine m.ram 1 k) (hheld : coding.Held m 1 k)
    (hj : i + j = 1024) (h : coding.Copied m 0 k d i n N) :
    (∃ m' N', copyTables k d j i n = (true, m') ∧ coding.Copied m 0 k d 1024 m' N') ∨
      ∃ m' N', copyTables k d j i n = (false, m') ∧ Grows m m' N' ∧
        ∀ f, m.pmm.used f = true → m'.ram f = m.ram f := by
  induction j generalizing i n N with
  | zero =>
    obtain rfl : i = 1024 := by omega
    exact .inl ⟨n, N, rfl, h⟩
  | succ j ih =>
    have hi : i < 1024 := by omega
    rw [copyTables]
    by_cases habsent : present (n.ram k i) = false
    · rw [if_pos habsent]
      exact ih (by omega) (h.skip hheld habsent habsent)
    · rw [if_neg habsent]
      have hlink : format.link (n.ram k i) = true := Bool.of_not_eq_false habsent
      have hsrc := h.source hheld
      have hL := (hF.congr hsrc).link hi hlink
      have hused : n.pmm.used (frameOf (n.ram k i)) = true := by
        have hmem := tables_child (k := 0) hi hlink root_mem_tables
        rw [tables_congr hsrc] at hmem
        exact h.grows.used_mono (hheld _ hmem)
      cases halloc : n.allocZeroed with
      | none =>
        refine .inr ⟨n, N, rfl, h.grows, fun f hf => h.off f (h.grows.notMem_of_used hf)⟩
      | some tn =>
        obtain ⟨table, n₁⟩ := tn
        obtain ⟨hg, hram, hlt, -⟩ := allocZeroed_grows h.grows.sound halloc
        have hne : frameOf (n.ram k i) ≠ table := fun heq => hg.notMem_of_used hused heq
        have hrow : ∀ j < coding.format.arity, n₁.ram (frameOf (n.ram k i)) j =
            n.ram (frameOf (n.ram k i)) j := fun _ _ => by rw [hram, update_of_ne hne]
        have hcopy := clonesAt_zero h.grows.sound halloc hrow
        exact ih (by omega) (h.linked hF hheld hi hlink hcopy (linkWord_copy hlt hL hlink))

theorem createRoot_spec (hF : coding.Fine m.ram 1 k) (hheld : coding.Held m 1 k)
    (hs : m.pmm.Sound) : coding.CloneSpec m 1 k (createRoot k m) := by
  unfold createRoot
  cases halloc : m.allocZeroed with
  | none => exact ⟨∅, Grows.refl hs, fun _ _ => rfl⟩
  | some dm =>
    obtain ⟨m', N, hloop, hC⟩ | ⟨m', N, hloop, hg, hram⟩ :=
      copyTables_spec (j := 1024) hF hheld rfl (copied_start hs halloc)
    · simp only [hloop]
      exact ⟨N, hC.grows, hC.off, hC.fine, hC.tables, fun w => (hC.done w (index_lt format w 1)).1,
        fun w => (hC.done w (index_lt format w 1)).2⟩
    · simp only [hloop]
      exact ⟨N, hg, hram⟩

theorem destroyRoot_drops (hne : root ≠ k) (hT : format.Tree m.ram 1 root) (hs : m.pmm.Sound)
    (hheld : ∀ f ∈ format.tables m.ram 1 root, Coding.Single m f) :
    Drops m (destroyRoot k m root) (format.tables m.ram 1 root) := by
  have hroot := hheld root root_mem_tables
  rw [destroyRoot, if_neg (by have := hroot.2.2.1; omega)]
  refine drops_table (C := coding) hT hheld ?_
  refine drops_entries hT hs hheld (fun n j hj hram hsn hlink hsingle => ?_)
    (fun n j hj hram hno => ?_) le_rfl
  · rw [hram, if_pos (show present (m.ram root j) = true from hlink)]
    obtain ⟨hused, hrefs, hpos, hlt⟩ := hsingle (frameOf (m.ram root j)) rfl
    exact Drops.free hsn hused hrefs hpos hlt
  · rw [hram, if_neg (show ¬present (m.ram root j) = true from hno)]

end Operations

section Laws

variable {v : ℕ}

def views : Views := coding.views 1 fun p fl => ⟨p, fl.writable, fl.user, true⟩

def i686Tables : PageTables where
  toViews := views
  address v := v < 2 ^ 20
  seen_inj v w hv hw h := by
    rwa [show views.seen v = v from Nat.mod_eq_of_lt hv,
      show views.seen w = w from Nat.mod_eq_of_lt hw] at h
  createRoot := createRoot
  destroyRoot := destroyRoot
  map := map
  unmap := unmap
  root_mem _ _ := root_mem_tables
  congr := Coding.views_congr
  slot_seen ram _ _ _ := Coding.slot_of_seen ram
  blank _ _ := Coding.views_blank (by decide)
  leaf_frame _ _ := ⟨rfl, rfl, rfl⟩
  map_spec _ _ v _ fl h hp := by
    obtain ⟨N, hM⟩ := map_mapsAt v fl h.good h.used h.sound hp
    exact ⟨N, Coding.MapsAt.maps h.good (by decide) hM⟩
  unmap_spec _ _ _ h hslot := by
    obtain ⟨u, hu⟩ := Option.isSome_iff_exists.mp hslot
    rw [unmap_eq, hu]
    exact Coding.unmaps_of_slot h.sound h.good hu
  unmap_none _ _ _ _ hslot := by
    rw [unmap_eq, Option.not_isSome_iff_eq_none.mp hslot]
  createRoot_some _ _ _ _ h hc := (createRoot_spec h.good h.used h.sound).copies h.good hc
  createRoot_none _ _ _ h hc := (createRoot_spec h.good h.used h.sound).fails hc
  destroyRoot_spec _ _ _ h hne hsingle :=
    destroyRoot_drops hne (Coding.Fine.tree h.good) h.sound
      fun f hf => ⟨h.used f hf, hsingle f hf⟩

end Laws

end Tach.PagingI686
