import Tach.TableCopies

/-!
The page tables of arch/x86_64/paging.c: four levels of 512 entries, numbered here from 3 (the
PML4) to 0 (the page table). An entry of an upper level links to a table, or is absent, or maps
a large page. Mapping a page below a large page of level 1 first splits that page.
-/

namespace Tach.PagingX86

open Frames Paging Radix TableTrees

def present (e : ℕ) : Bool := e.testBit 0

def writable (e : ℕ) : Bool := e.testBit 1

def user (e : ℕ) : Bool := e.testBit 2

def huge (e : ℕ) : Bool := e.testBit 7

def nx (e : ℕ) : Bool := e.testBit 63

/-- The frame `e & X86_ADDR_MASK`. -/
def frameOf (e : ℕ) : ℕ := e / 2 ^ 12 % 2 ^ 40

/-- `e & ~X86_ADDR_MASK`. -/
def restOf (e : ℕ) : ℕ := e % 2 ^ 12 + e / 2 ^ 52 % 2 ^ 12 * 2 ^ 52

def tableFlags (fl : Flags) : ℕ := if fl.user then 7 else 3

def nativeFlags (fl : Flags) : ℕ :=
  1 ||| (if fl.writable then 2 else 0) ||| (if fl.user then 4 else 0) |||
    (if fl.nocache then 16 else 0) ||| (if fl.executable then 0 else 2 ^ 63)

def format : Format := ⟨9, fun e => present e && !huge e, frameOf⟩

/-- An entry that ends a walk above level 0 is absent or maps an aligned large page, not in
the PML4. -/
def Stops (e k : ℕ) : Prop :=
  k ≠ 0 → (present e = true → k ≠ 3 ∧ frameOf e % 512 = 0) ∧ (present e = false → huge e = false)

@[reducible] def coding : Coding where
  format := format
  present := present
  writable := writable
  user := user
  executable e := !nx e
  stops := Stops
  stops_lowest _ h := absurd rfl h
  zero_link := rfl
  zero_present := rfl
  zero_stops _ _ := ⟨fun h => absurd h (by decide), fun _ => rfl⟩

def split2mPage (m : Machine) (directory index : ℕ) : Result :=
  let old := m.ram directory index
  match m.allocZeroed with
  | none => (.error .enomem, m)
  | some (table, m₁) =>
    let base := old / 2 ^ 21 % 2 ^ 31 * 2 ^ 21
    let flags := old % 2 ^ 21 + old / 2 ^ 52 % 2 ^ 12 * 2 ^ 52
    let flags := if huge flags then flags - 2 ^ 7 else flags
    let m₂ := m₁.setFrame table fun i =>
      if i < 512 then (base + i * 2 ^ 12 + flags) % 2 ^ 64 else 0
    (.ok (), m₂.setWord directory index
      (table * 2 ^ 12 ||| 3 ||| if user old then 4 else 0))

/-- The entry `i` of a table of `arch_paging_map`, at one of the upper levels. -/
def enter (m : Machine) (table i level : ℕ) (fl : Flags) : Result :=
  let e := m.ram table i
  if level = 1 ∧ huge e then
    match split2mPage m table i with
    | (.error err, m') => (.error err, m')
    | (.ok (), m') => (.ok (), m'.setWord table i (m'.ram table i ||| tableFlags fl))
  else if present e = false then
    match m.allocZeroed with
    | none => (.error .enomem, m)
    | some (f, m') => (.ok (), m'.setWord table i (f * 2 ^ 12 ||| tableFlags fl))
  else if level = 2 ∧ huge e then (.error .enotsup, m)
  else (.ok (), m.setWord table i (e ||| tableFlags fl))

/-- `arch_paging_map` from a table of level `k` on. -/
def mapAt (v p : ℕ) (fl : Flags) : ℕ → Machine → ℕ → Result
  | 0, m, pt =>
    (.ok (), m.setWord pt (format.index v 0) (p % 2 ^ 40 * 2 ^ 12 ||| nativeFlags fl))
  | k + 1, m, table =>
    match enter m table (format.index v (k + 1)) (k + 1) fl with
    | (.error err, m') => (.error err, m')
    | (.ok (), m') => mapAt v p fl k m' (frameOf (m'.ram table (format.index v (k + 1))))

/-- `arch_paging_map`. -/
def map (m : Machine) (root v p : ℕ) (fl : Flags) : Result := mapAt v p fl 3 m root

/-- `arch_paging_unmap` from a table of level `k` on; the entries of the PML4 are not checked
for large pages. -/
def unmapAt (v : ℕ) : ℕ → Machine → ℕ → Result
  | 0, m, pt => (.ok (), m.setWord pt (format.index v 0) 0)
  | k + 1, m, table =>
    let e := m.ram table (format.index v (k + 1))
    if present e = false ∨ (k + 1 ≠ 3 ∧ huge e = true) then (.error .enoent, m)
    else unmapAt v k m (frameOf e)

/-- `arch_paging_unmap`. -/
def unmap (m : Machine) (root v : ℕ) : Result := unmapAt v 3 m root

/-- The loop of `clone_level` from entry `i` on, `n` entries. -/
def cloneEntries (child : Machine → ℕ → Option ℕ × Machine) (lowest : Bool)
    (source destination : ℕ) : ℕ → ℕ → Machine → Bool × Machine
  | 0, _, m => (true, m)
  | n + 1, i, m =>
    let e := m.ram source i
    if present e = false ∨ lowest ∨ huge e then
      cloneEntries child lowest source destination n (i + 1) (m.setWord destination i e)
    else
      match child m (frameOf e) with
      | (none, m') => (false, m')
      | (some c, m') =>
        cloneEntries child lowest source destination n (i + 1)
          (m'.setWord destination i (c % 2 ^ 40 * 2 ^ 12 + restOf e))

def cloneLevel : ℕ → Machine → ℕ → Option ℕ × Machine
  | k, m, source =>
    match m.allocZeroed with
    | none => (none, m)
    | some (destination, m₁) =>
      let copied :=
        match k with
        | 0 => cloneEntries (fun m _ => (none, m)) true source destination 512 0 m₁
        | k + 1 => cloneEntries (cloneLevel k) false source destination 512 0 m₁
      if copied.1 then (some destination, copied.2)
      else (none, copied.2.freeFrame destination)

/-- `arch_paging_create_root`. -/
def createRoot (kernelRoot : ℕ) (m : Machine) : Option ℕ × Machine := cloneLevel 3 m kernelRoot

def destroyLevel : ℕ → Machine → ℕ → Machine
  | 0, m, table => if table = 0 then m else m.freeFrame table
  | k + 1, m, table =>
    if table = 0 then m
    else
      ((List.range 512).foldl (fun m i =>
        let e := m.ram table i
        if present e && !huge e then destroyLevel k m (frameOf e) else m) m).freeFrame table

/-- `arch_paging_destroy_root`. -/
def destroyRoot (kernelRoot : ℕ) (m : Machine) (root : ℕ) : Machine :=
  if root ≠ 0 ∧ root ≠ kernelRoot then destroyLevel 3 m root else m

section WordFacts

variable {e f j : ℕ} {fl : Flags}

theorem format_link (e : ℕ) : format.link e = (present e && !huge e) := rfl

theorem link_iff : format.link e = true ↔ present e = true ∧ huge e = false := by
  rw [format_link]
  cases present e <;> cases huge e <;> simp

theorem arity_eq : format.arity = 512 := rfl

/-- Flags in the low twelve bits do not touch the frame. -/
theorem frameOf_or {t : ℕ} (ht : t < 2 ^ 12) : frameOf (e ||| t) = frameOf e := by
  rw [frameOf, Nat.or_div_two_pow, Nat.div_eq_of_lt ht, Nat.or_zero]
  rfl

theorem frameOf_mul (hf : f < 2 ^ 40) : frameOf (f * 2 ^ 12) = f := by
  rw [frameOf, Nat.mul_div_cancel _ (by omega), Nat.mod_eq_of_lt hf]

theorem testBit_mul_low (f : ℕ) (hj : j < 12) : (f * 2 ^ 12).testBit j = false := by
  rw [Nat.testBit_mul_two_pow]
  simp only [Nat.not_le.mpr hj, decide_false, Bool.false_and]

theorem tableFlags_lt (fl : Flags) : tableFlags fl < 2 ^ 12 := by
  unfold tableFlags
  split <;> omega

theorem testBit_tableFlags (fl : Flags) : (tableFlags fl).testBit 0 = true ∧
    (tableFlags fl).testBit 1 = true ∧ (tableFlags fl).testBit 2 = fl.user ∧
    (tableFlags fl).testBit 7 = false ∧ (tableFlags fl).testBit 63 = false := by
  unfold tableFlags
  cases fl.user <;> decide

/-- The flags of a link are joined by those of the new page. -/
theorem or_tableFlags (e : ℕ) (fl : Flags) :
    present (e ||| tableFlags fl) = true ∧ writable (e ||| tableFlags fl) = true ∧
      user (e ||| tableFlags fl) = (user e || fl.user) ∧
      huge (e ||| tableFlags fl) = huge e ∧ nx (e ||| tableFlags fl) = nx e ∧
      frameOf (e ||| tableFlags fl) = frameOf e := by
  obtain ⟨h0, h1, h2, h7, h63⟩ := testBit_tableFlags fl
  simp only [present, writable, user, huge, nx, Nat.testBit_or, h0, h1, h2, h7, h63, Bool.or_true,
    Bool.or_false, frameOf_or (tableFlags_lt fl), and_self]

theorem mul_flags (hf : f < 2 ^ 40) : present (f * 2 ^ 12) = false ∧ user (f * 2 ^ 12) = false ∧
    huge (f * 2 ^ 12) = false ∧ nx (f * 2 ^ 12) = false ∧ frameOf (f * 2 ^ 12) = f := by
  refine ⟨testBit_mul_low f (by omega), testBit_mul_low f (by omega),
    testBit_mul_low f (by omega), ?_, frameOf_mul hf⟩
  rw [nx, Nat.testBit_mul_two_pow, Nat.testBit_lt_two_pow]
  · rfl
  · exact hf.trans (by omega)

/-- A word that is no large page becomes a link by the flags of a table. -/
theorem linkWord_or (hh : huge e = false) (hn : nx e = false) (fl : Flags) :
    coding.LinkWord (frameOf e) fl.user (e ||| tableFlags fl) := by
  obtain ⟨hp, hw, hu, hh', hn', hfr⟩ := or_tableFlags e fl
  refine ⟨link_iff.mpr ⟨hp, hh'.trans hh⟩, hfr, hw, ?_, fun h => ?_⟩
  · change (!nx (e ||| tableFlags fl)) = true
    rw [hn', hn]
    rfl
  · change user (e ||| tableFlags fl) = true
    rw [hu, h, Bool.or_true]

theorem linkWord_table (hf : f < 2 ^ 40) (fl : Flags) :
    coding.LinkWord f fl.user (f * 2 ^ 12 ||| tableFlags fl) := by
  obtain ⟨-, -, hh, hn, hfr⟩ := mul_flags hf
  have hword := linkWord_or hh hn fl
  rw [hfr] at hword
  exact hword

theorem testBit_nativeFlags (fl : Flags) : (nativeFlags fl).testBit 0 = true ∧
    (nativeFlags fl).testBit 1 = fl.writable ∧ (nativeFlags fl).testBit 2 = fl.user ∧
    (nativeFlags fl).testBit 63 = !fl.executable ∧ nativeFlags fl / 2 ^ 12 % 2 ^ 40 = 0 := by
  unfold nativeFlags
  cases fl.writable <;> cases fl.user <;> cases fl.nocache <;> cases fl.executable <;> decide

theorem leaf_word (hf : f < 2 ^ 40) (fl : Flags) :
    present (f % 2 ^ 40 * 2 ^ 12 ||| nativeFlags fl) = true ∧
      writable (f % 2 ^ 40 * 2 ^ 12 ||| nativeFlags fl) = fl.writable ∧
      user (f % 2 ^ 40 * 2 ^ 12 ||| nativeFlags fl) = fl.user ∧
      nx (f % 2 ^ 40 * 2 ^ 12 ||| nativeFlags fl) = !fl.executable ∧
      frameOf (f % 2 ^ 40 * 2 ^ 12 ||| nativeFlags fl) = f := by
  rw [Nat.mod_eq_of_lt hf]
  obtain ⟨h0, h1, h2, h63, hz⟩ := testBit_nativeFlags fl
  have hlow : ∀ j < 12, (f * 2 ^ 12).testBit j = false := fun j hj => testBit_mul_low f hj
  have hnx : (f * 2 ^ 12).testBit 63 = false := (mul_flags hf).2.2.2.1
  refine ⟨?_, ?_, ?_, ?_, ?_⟩
  · simp only [present, Nat.testBit_or, h0, Bool.or_true]
  · simp only [writable, Nat.testBit_or, h1, hlow 1 (by omega), Bool.false_or]
  · simp only [user, Nat.testBit_or, h2, hlow 2 (by omega), Bool.false_or]
  · simp only [nx, Nat.testBit_or, h63, hnx, Bool.false_or]
  · rw [frameOf, Nat.or_div_two_pow, Nat.or_mod_two_pow, hz, Nat.or_zero]
    exact frameOf_mul hf

/-- A link to the copy of a table keeps its flags. -/
theorem copy_word (hf : f < 2 ^ 40) (e : ℕ) : present (f % 2 ^ 40 * 2 ^ 12 + restOf e) = present e ∧
      writable (f % 2 ^ 40 * 2 ^ 12 + restOf e) = writable e ∧
      user (f % 2 ^ 40 * 2 ^ 12 + restOf e) = user e ∧
      huge (f % 2 ^ 40 * 2 ^ 12 + restOf e) = huge e ∧ nx (f % 2 ^ 40 * 2 ^ 12 + restOf e) = nx e ∧
      frameOf (f % 2 ^ 40 * 2 ^ 12 + restOf e) = f := by
  rw [Nat.mod_eq_of_lt hf]
  simp only [present, writable, user, huge, nx, frameOf, restOf, Nat.testBit_eq_decide_div_mod_eq,
    decide_eq_decide]
  refine ⟨?_, ?_, ?_, ?_, ?_, ?_⟩ <;> omega

/-- An entry of the table that replaces a large page. -/
theorem split_word (e i : ℕ) (hi : i < 512) (halign : frameOf e % 512 = 0)
    {flags w : ℕ} (hflags : flags = e % 2 ^ 21 + e / 2 ^ 52 % 2 ^ 12 * 2 ^ 52)
    (hw : w = (e / 2 ^ 21 % 2 ^ 31 * 2 ^ 21 + i * 2 ^ 12 +
      if huge flags then flags - 2 ^ 7 else flags) % 2 ^ 64) :
    present w = present e ∧ writable w = writable e ∧ user w = user e ∧ nx w = nx e ∧
      frameOf w = frameOf e + i := by
  simp only [present, writable, user, huge, nx, frameOf, Nat.testBit_eq_decide_div_mod_eq,
    decide_eq_decide, decide_eq_true_eq] at halign hw ⊢
  split at hw <;> refine ⟨?_, ?_, ?_, ?_, ?_⟩ <;> omega

theorem split_link (hf : f < 2 ^ 40) (e : ℕ) {w : ℕ}
    (hw : w = f * 2 ^ 12 ||| 3 ||| if user e then 4 else 0) :
    user w = user e ∧ huge w = false ∧ nx w = false ∧ frameOf w = f := by
  obtain ⟨-, hu, hh, hn, hfr⟩ := mul_flags hf
  have hfr3 : frameOf (f * 2 ^ 12 ||| 3) = f := (frameOf_or (by decide)).trans hfr
  simp only [user, huge, nx] at hu hh hn
  rw [hw]
  cases hue : user e with
  | true =>
    refine ⟨?_, ?_, ?_, (frameOf_or (by decide)).trans hfr3⟩ <;>
      simp only [if_true, user, huge, nx, Nat.testBit_or, hu, hh, hn] <;> decide
  | false =>
    refine ⟨?_, ?_, ?_, (frameOf_or (by decide)).trans hfr3⟩ <;>
      simp only [Bool.false_eq_true, if_false, user, huge, nx, Nat.testBit_or, hu, hh, hn] <;>
      decide

theorem leafOf_eq (e k v : ℕ) : coding.leafOf e k v =
    if present e then some ⟨frameOf e + v % 512 ^ k, writable e, user e, !nx e⟩ else none := rfl

theorem leafOf_word (hf : f < 2 ^ 40) (fl : Flags) (w : ℕ) :
    coding.leafOf (f % 2 ^ 40 * 2 ^ 12 ||| nativeFlags fl) 0 w =
      some ⟨f, fl.writable, fl.user, fl.executable⟩ := by
  obtain ⟨hp, hw, hu, hn, hfr⟩ := leaf_word hf fl
  rw [leafOf_eq, hp, hw, hu, hn, hfr, if_pos rfl, Nat.pow_zero, Nat.mod_one, Nat.add_zero,
    Bool.not_not]

theorem linkWord_copy {ram : Ram} {k t i : ℕ} (hf : f < 2 ^ 40) (h : coding.Links ram k t i)
    (hlink : format.link (ram t i) = true) :
    coding.LinkWord f (user (ram t i)) (f % 2 ^ 40 * 2 ^ 12 + restOf (ram t i)) := by
  obtain ⟨hp, hw, hu, hh, hn, hfr⟩ := copy_word hf (ram t i)
  obtain ⟨hpres, hhuge⟩ := link_iff.mp hlink
  refine ⟨link_iff.mpr ⟨hp.trans hpres, hh.trans hhuge⟩, hfr, hw.trans h.writable, ?_, fun hb => ?_⟩
  · change (!nx _) = true
    rw [hn]
    exact h.executable
  · exact hu.trans hb

end WordFacts

end Tach.PagingX86
