import Tach.KeyedLists
import Tach.OpenCalls

/-!
The counts of open files against the descriptors. Every function on descriptors changes the slots
that refer to a vnode and the vnode's count alike, and so does every call that comes to its end
through them. `sys_open` does not when it finds no free slot: it closes the vnode without releasing
it, where `sys_chdir` and `vfs_stat` call `vfs_release`. While every process that opens a file has
a free slot, the counts are exact.
-/

namespace Tach.OpenCalls

open Function List State

open Sectors (Errno)

variable {ι ν : Type*} {n m : ℕ} {target : Target ν} {vol : ν}

section Counts

variable [DecidableEq ν]

def refersTo (o : Option (Vnode ν m)) (x : Vnode ν m) : ℕ := if o = some x then 1 else 0

def held (t : Option (Table ν n m)) (x : Vnode ν m) : ℕ :=
  match t with
  | none => 0
  | some t => ∑ fd, refersTo (t fd) x

def slots [Fintype ι] (s : State ι ν n m) (x : Vnode ν m) : ℕ := ∑ i, held (s.tables i) x

variable {s : State ι ν n m} {x y : Vnode ν m} {l : List FatVnode}

def openIn (l : List FatVnode) (id : ℕ) : ℕ :=
  ((l.find? fun fv => fv.id = id).map FatVnode.opens).getD 0

/-- The addresses differ, and every vnode of the list is open. -/
structure Listed (l : List FatVnode) : Prop where
  nodup : (l.map FatVnode.id).Nodup
  pos : ∀ fv ∈ l, 0 < fv.opens

section Lists

variable {l : List FatVnode} {id id' : ℕ} {f : FatVnode → FatVnode} {fv : FatVnode}

theorem find_map (hf : ∀ fv, (f fv).id = fv.id) (l : List FatVnode) (id : ℕ) :
    (l.map f).find? (fun fv => fv.id = id) = (l.find? fun fv => fv.id = id).map f := by
  rw [find?_map]
  congr 2
  funext fv
  simp only [Function.comp, hf]

theorem Listed.find (h : Listed l) (hfv : fv ∈ l) : l.find? (fun x => x.id = fv.id) = some fv :=
  (KeyedLists.find_eq_some h.nodup).mpr ⟨hfv, rfl⟩

theorem Listed.openIn (h : Listed l) (hfv : fv ∈ l) : openIn l fv.id = fv.opens := by
  rw [OpenCalls.openIn, h.find hfv]
  rfl

theorem openIn_map (g : ℕ → ℕ) (l : List FatVnode) (id id' : ℕ) :
    openIn (l.map fun fv => if fv.id = id then { fv with opens := g fv.opens } else fv) id' =
      if id = id' ∧ (l.find? fun fv => fv.id = id').isSome then g (openIn l id')
      else openIn l id' := by
  rw [openIn, find_map (by intro fv; split_ifs <;> rfl)]
  cases hfind : l.find? fun fv => fv.id = id' with
  | none => simp [openIn, hfind]
  | some fv =>
    have hid : fv.id = id' := by simpa using find?_some hfind
    by_cases h : id = id'
    · simp [openIn, hfind, h, hid]
    · have hne : fv.id ≠ id := fun hfv => h (hfv.symm.trans hid)
      simp [openIn, hfind, h, hne]

theorem find_of_pos (h : 0 < openIn l id) : (l.find? fun fv => fv.id = id).isSome := by
  unfold openIn at h
  cases hfind : l.find? fun fv => fv.id = id with
  | none => simp [hfind] at h
  | some fv => rfl

theorem openIn_bump (hpos : 0 < openIn l id) (id' : ℕ) :
    openIn (bump id l) id' = openIn l id' + if id = id' then 1 else 0 := by
  rw [bump, openIn_map fun k => k + 1]
  by_cases h : id = id'
  · subst h
    simp [find_of_pos hpos]
  · simp [h]

theorem openIn_unbump (l : List FatVnode) (id id' : ℕ) :
    openIn (unbump id l) id' = openIn l id' - if id = id' then 1 else 0 := by
  unfold unbump
  split
  · rename_i hfind
    by_cases h : id = id'
    · subst h
      simp [openIn, hfind]
    · simp [h]
  · rename_i fv hfind
    split_ifs with hone h
    · -- the last one: the vnode is off the list
      subst h
      have hone' : openIn l id = 1 := by simp [openIn, hfind, hone]
      have hoff : (l.filter fun fv => fv.id ≠ id).find? (fun fv => fv.id = id) = none := by
        simp
      rw [hone', openIn, hoff]
      rfl
    · have hsame : (l.filter fun fv => fv.id ≠ id).find? (fun fv => fv.id = id') =
          l.find? fun fv => fv.id = id' := by
        rw [find?_filter]
        congr 1
        funext fv
        by_cases hid : fv.id = id'
        · simp [hid, Ne.symm h]
        · simp [hid]
      rw [openIn, hsame, Nat.sub_zero, openIn]
    · rename_i h
      subst h
      rw [openIn_map fun k => k - 1, if_pos ⟨rfl, by simp [hfind]⟩]
    · rename_i h
      rw [openIn_map fun k => k - 1, if_neg fun h' => h h'.1, Nat.sub_zero]

theorem Listed.map (h : Listed l) (hf : ∀ fv, (f fv).id = fv.id) (hpos : ∀ fv ∈ l, 0 < (f fv).opens) :
    Listed (l.map f) := by
  refine ⟨?_, ?_⟩
  · rw [map_map]
    convert h.nodup using 2
    funext fv
    exact hf fv
  · simpa using hpos

theorem Listed.bump (h : Listed l) (id : ℕ) : Listed (bump id l) := by
  refine h.map (by intro fv; split_ifs <;> rfl) fun fv hfv => ?_
  split_ifs
  · exact Nat.succ_pos _
  · exact h.pos fv hfv

theorem Listed.unbump (h : Listed l) (id : ℕ) : Listed (unbump id l) := by
  unfold OpenCalls.unbump
  split
  · exact h
  · rename_i fv hfind
    split_ifs with hone
    · exact ⟨h.nodup.sublist (filter_sublist.map _), fun fv' hfv => h.pos fv' (mem_of_mem_filter hfv)⟩
    · refine h.map (by intro fv; split_ifs <;> rfl) fun fv' hfv => ?_
      split_ifs with hid
      · have hfv' := h.find hfv
        rw [hid, hfind] at hfv'
        cases hfv'
        have := h.pos fv hfv
        show 0 < fv.opens - 1
        omega
      · exact h.pos fv' hfv

end Lists

theorem refersTo_some (x y : Vnode ν m) : refersTo (some x) y = if x = y then 1 else 0 := by
  simp [refersTo]

@[simp] theorem refersTo_none (y : Vnode ν m) : refersTo none y = 0 := rfl

@[simp] theorem retain_tables (s : State ι ν n m) (x : Vnode ν m) :
    (retain s x).tables = s.tables := by
  cases x <;> rfl

@[simp] theorem release_tables (s : State ι ν n m) (x : Vnode ν m) :
    (release s x).tables = s.tables := by
  cases x <;> rfl

omit [DecidableEq ν] in
theorem opens_setFile {i : Fin m} (g : TmpFile → TmpFile) (hy : y ≠ .tmp i) :
    (s.setFile i ((s.files i).map g)).opens y = s.opens y := by
  cases y with
  | plain => rfl
  | tmp j =>
    have hj : j ≠ i := fun h => hy (by rw [h])
    simp [opens, setFile, hj]
  | fat => rfl

theorem opens_setList (hy : ∀ id, y ≠ .fat vol id) : (s.setList vol l).opens y = s.opens y := by
  cases y with
  | plain => rfl
  | tmp j => rfl
  | fat vol' id =>
    have hvol : vol' ≠ vol := fun h => hy id (by rw [h])
    simp [opens, setList, hvol]

theorem opens_setList_self (vol : ν) (l : List FatVnode) (id : ℕ) :
    (s.setList vol l).opens (.fat vol id) = openIn l id := by
  simp [opens, setList, openIn]

omit [DecidableEq ν] in
theorem opens_fat (s : State ι ν n m) (vol : ν) (id : ℕ) :
    s.opens (.fat vol id) = openIn (s.openList vol) id := rfl

theorem opens_retain (hx : x ≠ .plain → 0 < s.opens x) (hy : y ≠ .plain) :
    (retain s x).opens y = s.opens y + refersTo (some x) y := by
  rw [refersTo_some]
  cases x with
  | plain =>
    rw [if_neg (Ne.symm hy)]
    rfl
  | tmp i =>
    have hx := hx nofun
    by_cases hy : y = .tmp i
    · subst hy
      obtain ⟨f, hf⟩ : ∃ f, s.files i = some f := by
        cases hf : s.files i with
        | none => simp [opens, hf] at hx
        | some f => exact ⟨f, rfl⟩
      simp [retain, opens, setFile, hf]
    · rw [if_neg (Ne.symm hy), retain, opens_setFile _ hy, Nat.add_zero]
  | fat vol id =>
    by_cases hy : ∃ id', y = .fat vol id'
    · obtain ⟨id', rfl⟩ := hy
      rw [retain, opens_setList_self, openIn_bump (hx nofun), opens_fat]
      simp
    · push Not at hy
      rw [if_neg (Ne.symm (hy id)), retain, opens_setList hy, Nat.add_zero]

theorem opens_release (s : State ι ν n m) (x : Vnode ν m) (hy : y ≠ .plain) :
    (release s x).opens y = s.opens y - refersTo (some x) y := by
  rw [refersTo_some]
  cases x with
  | plain =>
    rw [if_neg (Ne.symm hy)]
    rfl
  | tmp i =>
    by_cases hy : y = .tmp i
    · subst hy
      cases hf : s.files i with
      | none => simp [release, opens, setFile, hf]
      | some f => simp [release, opens, setFile, hf]
    · rw [if_neg (Ne.symm hy), release, opens_setFile _ hy, Nat.sub_zero]
  | fat vol id =>
    by_cases hy : ∃ id', y = .fat vol id'
    · obtain ⟨id', rfl⟩ := hy
      rw [release, opens_setList_self, openIn_unbump, opens_fat]
      simp
    · push Not at hy
      rw [if_neg (Ne.symm (hy id)), release, opens_setList hy, Nat.sub_zero]

variable (h : ∀ vol, Listed (s.openList vol))
include h

theorem listed_setList {vol' : ν}
    (hl : Listed l) (vol : ν) : Listed ((s.setList vol' l).openList vol) := by
  by_cases hvol : vol = vol'
  · simpa [setList, hvol] using hl
  · simpa [setList, hvol] using h vol

theorem listed_retain (x : Vnode ν m) (vol : ν) : Listed ((retain s x).openList vol) := by
  cases x with
  | fat vol' id => exact listed_setList h ((h vol').bump id) vol
  | _ => exact h vol

theorem listed_release (x : Vnode ν m) (vol : ν) : Listed ((release s x).openList vol) := by
  cases x with
  | fat vol' id => exact listed_setList h ((h vol').unbump id) vol
  | _ => exact h vol

end Counts

section Slots

variable {s : State ι ν n m} {i j : ι} {fd : Fin n}

theorem slot_congr {s' : State ι ν n m} (h : s'.tables = s.tables) : s'.slot i fd = s.slot i fd := by
  rw [slot, slot, h]

variable [DecidableEq ι] {i' : ι} {fd' : Fin n}

theorem slot_setSlot_of_ne (o : Option (Vnode ν m)) (h : ¬(i' = i ∧ fd' = fd)) :
    (s.setSlot i fd o).slot i' fd' = s.slot i' fd' := by
  simp only [slot, setSlot]
  by_cases hi : i' = i
  · subst hi
    have hfd : fd' ≠ fd := fun hfd => h ⟨rfl, hfd⟩
    rw [update_self]
    cases s.tables i' with
    | none => rfl
    | some t => simp [hfd]
  · rw [update_of_ne hi]

theorem slot_setSlot_none : (s.setSlot i fd none).slot i fd = none := by
  simp only [slot, setSlot, update_self]
  cases s.tables i with
  | none => rfl
  | some t => simp

theorem setSlot_tables_none (o : Option (Vnode ν m)) :
    (s.setSlot i fd o).tables i' = none ↔ s.tables i' = none := by
  simp only [setSlot]
  by_cases hi : i' = i
  · subst hi
    simp
  · rw [update_of_ne hi]

variable [DecidableEq ν]

theorem slot_fdPut :
    (fdPut s i fd).slot i' fd' = if i' = i ∧ fd' = fd then none else s.slot i' fd' := by
  unfold fdPut
  split
  · rename_i hslot
    split_ifs with h
    · rw [h.1, h.2, hslot]
    · rfl
  · rw [slot_congr (release_tables _ _)]
    split_ifs with h
    · rw [h.1, h.2, slot_setSlot_none]
    · exact slot_setSlot_of_ne none h

theorem fdPut_tables_none : (fdPut s i fd).tables i' = none ↔ s.tables i' = none := by
  unfold fdPut
  split
  · rfl
  · rw [release_tables, setSlot_tables_none]

theorem slot_fdCopy_of_ne {old new : Fin n} (h : ¬(i' = j ∧ fd' = new)) :
    (fdCopy s i j old new).slot i' fd' = s.slot i' fd' := by
  unfold fdCopy
  split
  · rfl
  · rw [slot_congr (retain_tables _ _), slot_setSlot_of_ne _ h]

theorem fdCopy_tables_none {old new : Fin n} :
    (fdCopy s i j old new).tables i' = none ↔ s.tables i' = none := by
  unfold fdCopy
  split
  · rfl
  · rw [retain_tables, setSlot_tables_none]

end Slots

section Invariant

variable [DecidableEq ν] [Fintype ι]

/-- Every count is the number of slots, and the lists of open vnodes are in order. -/
structure Exact (s : State ι ν n m) : Prop where
  counts : ∀ x, x ≠ .plain → s.opens x = slots s x
  listed : ∀ vol, Listed (s.openList vol)

variable {s : State ι ν n m} {x y : Vnode ν m} {i j : ι} {fd : Fin n}

theorem slots_congr {t : State ι ν n m} (h : t.tables = s.tables) : slots t x = slots s x := by
  rw [slots, h]
  rfl

theorem pos_of_slot (hs : s.slot i fd = some x) : 0 < slots s x := by
  obtain ⟨t, ht, hfd⟩ := Option.bind_eq_some_iff.mp hs
  have hone : refersTo (t fd) x = 1 := by simp [refersTo, hfd]
  have hheld : refersTo (t fd) x ≤ held (s.tables i) x := by
    rw [ht]
    exact Finset.single_le_sum (f := fun fd => refersTo (t fd) x) (fun _ _ => Nat.zero_le _)
      (Finset.mem_univ fd)
  have hsum : held (s.tables i) x ≤ slots s x :=
    Finset.single_le_sum (f := fun i => held (s.tables i) x) (fun _ _ => Nat.zero_le _)
      (Finset.mem_univ i)
  omega

variable [DecidableEq ι]

theorem slots_setSlot (hi : s.tables i ≠ none) (fd : Fin n) (o : Option (Vnode ν m)) (x : Vnode ν m) :
    slots (s.setSlot i fd o) x + refersTo (s.slot i fd) x = slots s x + refersTo o x := by
  obtain ⟨t, ht⟩ := Option.ne_none_iff_exists'.mp hi
  have hsum := Interleaving.sum_update (fun t => held t x) s.tables i
    (some (update t fd o))
  have hheld : held (some (update t fd o)) x + refersTo (t fd) x =
      held (some t) x + refersTo o x := Interleaving.sum_update (fun o => refersTo o x) t fd o
  simp only [slots, setSlot, slot, ht, Option.map_some, Option.bind_some] at hsum ⊢
  omega

namespace Exact

theorem fdPut (h : Exact s) (i : ι) (fd : Fin n) : Exact (fdPut s i fd) := by
  unfold OpenCalls.fdPut
  split
  · exact h
  · rename_i x hslot
    have hi : s.tables i ≠ none := fun hi => by simp [slot, hi] at hslot
    refine ⟨fun y hy => ?_, listed_release (s := s.setSlot i fd none) h.listed x⟩
    have hslots := slots_setSlot hi fd none y
    rw [hslot, refersTo_none] at hslots
    have hcount := h.counts y hy
    rw [opens_release _ x hy, slots_congr (release_tables _ _)]
    change s.opens y - _ = _
    omega

theorem fdCopy (h : Exact s) (hj : s.tables j ≠ none) {old new : Fin n}
    (hnew : s.slot j new = none) (i : ι) : Exact (fdCopy s i j old new) := by
  unfold OpenCalls.fdCopy
  split
  · exact h
  · rename_i x hslot
    refine ⟨fun y hy => ?_, listed_retain (s := s.setSlot j new (some x)) h.listed x⟩
    have hslots := slots_setSlot hj new (some x) y
    rw [hnew, refersTo_none] at hslots
    have hcount := h.counts y hy
    have hpos (hx : x ≠ .plain) : 0 < (s.setSlot j new (some x)).opens x := by
      change 0 < s.opens x
      rw [h.counts x hx]
      exact pos_of_slot hslot
    rw [opens_retain hpos hy, slots_congr (retain_tables _ _)]
    change s.opens y + _ = _
    omega

/-- A table that no slot of is used comes or goes. -/
theorem setTable (h : Exact s) {t : Option (Table ν n m)} (hold : ∀ x, held (s.tables j) x = 0)
    (hnew : ∀ x, held t x = 0) : Exact { s with tables := update s.tables j t } := by
  refine ⟨fun y hy => ?_, h.listed⟩
  have hsum := Interleaving.sum_update (fun t => held t y) s.tables j t
  have hcount := h.counts y hy
  have := hold y
  have := hnew y
  change s.opens y = _
  simp only [slots] at hcount hsum ⊢
  omega

end Exact

namespace Exact

/-- The loop of `fd_table_clone`. -/
theorem copyAll (h : Exact s) (hj : s.tables j ≠ none) {l : List (Fin n)} (hl : l.Nodup)
    (hfree : ∀ fd ∈ l, s.slot j fd = none) (i : ι) :
    Exact (l.foldl (fun s fd => OpenCalls.fdCopy s i j fd fd) s) := by
  induction l generalizing s with
  | nil => exact h
  | cons fd l ih =>
    obtain ⟨hfd, hl⟩ := nodup_cons.mp hl
    refine ih (h.fdCopy hj (hfree fd mem_cons_self) i) ?_ hl fun fd' hfd' => ?_
    · rwa [ne_eq, fdCopy_tables_none]
    · rw [slot_fdCopy_of_ne (show ¬(j = j ∧ fd' = fd) from fun hne => hfd (hne.2 ▸ hfd'))]
      exact hfree fd' (mem_cons_of_mem _ hfd')

theorem fdTableClone (h : Exact s) (hj : s.tables j = none) (i : ι) : Exact (fdTableClone s i j) := by
  have hempty (x : Vnode ν m) : held (some fun _ : Fin n => none) x = 0 := by
    simp [held]
  refine (h.setTable (by intro x; rw [hj]; rfl) hempty).copyAll ?_ (nodup_finRange n) ?_ i
  · simp
  · intro fd _
    simp [slot]

/-- The loop of `fd_table_destroy`. -/
theorem putAll (h : Exact s) (i : ι) (l : List (Fin n)) :
    Exact (l.foldl (fun s fd => OpenCalls.fdPut s i fd) s) ∧
      ∀ fd ∈ l, (l.foldl (fun s fd => OpenCalls.fdPut s i fd) s).slot i fd = none := by
  have hkeep (l : List (Fin n)) (s : State ι ν n m) (fd : Fin n) (hs : s.slot i fd = none) :
      (l.foldl (fun s fd => OpenCalls.fdPut s i fd) s).slot i fd = none := by
    induction l generalizing s with
    | nil => exact hs
    | cons fd' l ih =>
      refine ih _ ?_
      rw [slot_fdPut]
      split_ifs
      · rfl
      · exact hs
  induction l generalizing s with
  | nil => exact ⟨h, fun fd hfd => absurd hfd not_mem_nil⟩
  | cons fd l ih =>
    obtain ⟨hexact, hslots⟩ := ih (h.fdPut i fd)
    refine ⟨hexact, fun fd' hfd' => ?_⟩
    rcases mem_cons.mp hfd' with rfl | hmem
    · exact hkeep l _ fd' (by rw [slot_fdPut, if_pos ⟨rfl, rfl⟩])
    · exact hslots fd' hmem

theorem fdTableDestroy (h : Exact s) (i : ι) : Exact (fdTableDestroy s i) := by
  obtain ⟨hexact, hslots⟩ := h.putAll i (finRange n)
  refine hexact.setTable (fun x => ?_) fun x => rfl
  cases ht : ((finRange n).foldl (fun s fd => OpenCalls.fdPut s i fd) s).tables i with
  | none => rfl
  | some t =>
    refine Finset.sum_eq_zero fun fd _ => ?_
    have hslot := hslots fd (mem_finRange fd)
    rw [slot, ht, Option.bind_some] at hslot
    rw [hslot, refersTo_none]

end Exact

end Invariant

section Opening

/-- `tmpfs_lookup` finds a file or creates one, which nobody has open. -/
theorem tmpfsLookup_cases (s : State ι ν n m) (name : List UInt8) (flags : ℕ) :
    (∃ e, tmpfsLookup s name flags = (s, .error e)) ∨
      ∃ i t, tmpfsLookup s name flags = (t, .ok i) ∧ t.files i ≠ none ∧ t.tables = s.tables ∧
        t.openList = s.openList ∧ ∀ y, t.opens y = s.opens y := by
  simp only [tmpfsLookup]
  split
  · exact .inl ⟨_, rfl⟩
  · split
    · rename_i i hfind
      refine .inr ⟨i, s, rfl, fun hnone => ?_, rfl, rfl, fun _ => rfl⟩
      have := find?_some hfind
      simp [hnone] at this
    · split_ifs
      · split
        · rename_i i hfind
          have hfree : s.files i = none := by simpa using find?_some hfind
          refine .inr ⟨i, _, rfl, by simp [setFile], rfl, rfl, fun y => ?_⟩
          cases y with
          | plain => rfl
          | tmp j =>
            by_cases hj : j = i
            · subst hj
              simp [opens, setFile, hfree]
            · simp [opens, setFile, hj]
          | fat => rfl
        · exact .inl ⟨_, rfl⟩
      · exact .inl ⟨_, rfl⟩

variable [DecidableEq ν] {s t : State ι ν n m} {r : Except Errno (Vnode ν m)}

/-- What an opening gives: a vnode that counts one more, or nothing. -/
def given (r : Except Errno (Vnode ν m)) (y : Vnode ν m) : ℕ :=
  match r with
  | .ok x => refersTo (some x) y
  | .error _ => 0

/-- An opening leaves the descriptors alone and counts what it gives. -/
structure Opens (s t : State ι ν n m) (r : Except Errno (Vnode ν m)) : Prop where
  tables : t.tables = s.tables
  listed : ∀ vol, Listed (t.openList vol)
  counts : ∀ y, y ≠ .plain → t.opens y = s.opens y + given r y

variable (h : ∀ vol, Listed (s.openList vol))
include h

theorem Opens.failed (e : Errno) : Opens s s (.error e) :=
  ⟨rfl, h, fun _ _ => rfl⟩

theorem opens_tmpfs (name : List UInt8) (flags : ℕ) :
    Opens s (vfsOpenErr s flags (.tmp name)).1 (vfsOpenErr s flags (.tmp name)).2 := by
  rcases tmpfsLookup_cases s name flags with ⟨e, hr⟩ | ⟨i, t, hr, hfile, htables, hlist, hcounts⟩
  · simp only [vfsOpenErr, hr]
    exact .failed h e
  · simp only [vfsOpenErr, hr]
    refine ⟨htables, fun vol => ?_, fun y _ => ?_⟩
    · change Listed (t.openList vol)
      rw [hlist]
      exact h vol
    · by_cases hi : y = .tmp i
      · subst hi
        obtain ⟨f, hf⟩ := Option.ne_none_iff_exists'.mp hfile
        rw [← hcounts]
        simp [given, refersTo_some, opens, setFile, hf]
      · rw [opens_setFile _ hi, hcounts, given, refersTo_some, if_neg (Ne.symm hi), Nat.add_zero]

/-- The vnode of an entry, shared or new, counts one more. -/
theorem opens_share (vol : ν) (info : FatData.Info) {new : ℕ}
    (hnew : ∀ fv ∈ s.openList vol, fv.id ≠ new) :
    Opens s (share s vol info new).1 (.ok (.fat vol (share s vol info new).2.id)) := by
  have hset {l : List FatVnode} {id : ℕ} (hl : Listed l)
      (hin : ∀ id', openIn l id' = openIn (s.openList vol) id' + if id = id' then 1 else 0) :
      Opens s (s.setList vol l) (.ok (.fat vol id)) := by
    refine ⟨rfl, listed_setList h hl, fun y _ => ?_⟩
    by_cases hy : ∃ id', y = .fat vol id'
    · obtain ⟨id', rfl⟩ := hy
      rw [opens_setList_self, hin, opens_fat]
      simp [given, refersTo_some]
    · push Not at hy
      rw [opens_setList hy, given, refersTo_some, if_neg (Ne.symm (hy id)), Nat.add_zero]
  unfold share
  split
  · rename_i fv hfind
    have hmem := mem_of_find?_eq_some hfind
    refine hset ((h vol).bump fv.id) (openIn_bump ?_)
    rw [(h vol).openIn hmem]
    exact (h vol).pos fv hmem
  · refine hset ⟨?_, ?_⟩ fun id' => ?_
    · rw [map_cons, nodup_cons]
      exact ⟨by simpa using hnew, (h vol).nodup⟩
    · intro fv hfv
      rcases mem_cons.mp hfv with rfl | hfv
      · exact Nat.one_pos
      · exact (h vol).pos fv hfv
    · by_cases hid : new = id'
      · subst hid
        have hnone : (s.openList vol).find? (fun fv => fv.id = new) = none := by
          simpa using hnew
        simp [openIn, hnone]
      · simp [openIn, hid]

theorem opens_fat32 {answer : FatAnswer} (hfresh : (Target.fat vol answer).fresh s) (flags : ℕ) :
    Opens s (fat32VnodeOpen s vol flags answer).1 (fat32VnodeOpen s vol flags answer).2 := by
  simp only [fat32VnodeOpen]
  split
  · exact .failed h _
  · rename_i info _
    split
    · exact .failed h _
    · exact .failed h _
    · rename_i new _ hnew
      have hshare := opens_share h vol info.1 (by
        simpa [Target.fresh, hnew] using hfresh)
      split
      · split
        · -- the file could not be truncated, and the count is taken back
          dsimp only
          refine ⟨?_, listed_release hshare.listed _, fun y hy => ?_⟩
          · rw [release_tables, hshare.tables]
          · have hcounts := hshare.counts y hy
            rw [opens_release _ _ hy]
            simp only [given] at hcounts ⊢
            omega
        · exact hshare
      · exact hshare

theorem opens_vfsOpenErr (hfresh : target.fresh s) (flags : ℕ) :
    Opens s (vfsOpenErr s flags target).1 (vfsOpenErr s flags target).2 := by
  cases target with
  | plain found =>
    cases found with
    | error e => exact .failed h e
    | ok =>
      refine ⟨rfl, h, fun y hy => ?_⟩
      simp [vfsOpenErr, given, refersTo_some, Ne.symm hy]
  | tmp name => exact opens_tmpfs h name flags
  | fat vol answer => exact opens_fat32 h hfresh flags

end Opening

section Calls

def Target.counted : Target ν → Bool
  | .plain _ => false
  | .tmp _ => true
  | .fat _ _ => true

/-- A process that opens such a file has a slot for it. -/
def Roomy (s : State ι ν n m) (a : ι × Call ι ν) : Prop :=
  match a.2 with
  | .open target _ => target.counted → ∃ fd, s.slot a.1 fd = none
  | _ => True

instance (s : State ι ν n m) (a : ι × Call ι ν) : Decidable (Roomy s a) :=
  match a with
  | (i, .open target _) =>
    inferInstanceAs (Decidable (target.counted = true → ∃ fd, s.slot i fd = none))
  | (_, .close _) | (_, .dup _) | (_, .dup2 _ _) | (_, .stat _) | (_, .chdir _ _)
  | (_, .unlink _) | (_, .fork _ _) | (_, .execve) | (_, .exit) => .isTrue trivial

variable {t : Table ν n m}

theorem firstFree_none (h : firstFree t = none) (fd : Fin n) : t fd ≠ none := by
  have := find?_eq_none.mp h fd (mem_finRange fd)
  simpa using this

theorem firstFree_some {fd : Fin n} (h : firstFree t = some fd) : t fd = none := by
  simpa using find?_some h

theorem tmpfsUnlink_busy {s : State ι ν n m} {name : List UInt8}
    (h : (tmpfsUnlink s name).2 = .error .ebusy) :
    ∃ i f, s.files i = some f ∧ f.name = name ∧ s.opens (.tmp i) ≠ 0 := by
  unfold tmpfsUnlink at h
  split at h <;> rename_i hname
  · cases h
    exact absurd hname (by unfold checkName; split_ifs <;> simp)
  · split at h
    · cases h
    · rename_i i hfind
      split_ifs at h with hopen
      have hany := find?_some hfind
      cases hf : s.files i with
      | none => simp [hf] at hany
      | some f => exact ⟨i, f, hf, by simpa [hf] using hany, hopen⟩

variable [DecidableEq ν] [Fintype ι] {s : State ι ν n m}

def Victim.refersTo (s : State ι ν n m) (x : Vnode ν m) : Victim ν → Prop
  | .plain => False
  | .tmp name => ∃ i f, x = .tmp i ∧ s.files i = some f ∧ f.name = name
  | .fat vol _ found _ => ∃ info fv, found = .ok info ∧ fv ∈ s.openList vol ∧
      VnodeThreads.sameEntry fv.info info = true ∧ x = .fat vol fv.id

namespace Exact

theorem lookAt (h : Exact s) (hfresh : target.fresh s) : Exact (lookAt s target).1 := by
  have hopens := opens_vfsOpenErr h.listed hfresh 0
  unfold OpenCalls.lookAt
  split <;> rename_i hr <;> rw [hr] at hopens <;> dsimp only at hopens
  · exact ⟨fun y hy => by rw [hopens.counts y hy, slots_congr hopens.tables, h.counts y hy]; rfl, hopens.listed⟩
  · rename_i u x
    refine ⟨fun y hy => ?_, listed_release hopens.listed x⟩
    have hcounts := hopens.counts y hy
    have hexact := h.counts y hy
    rw [opens_release _ x hy, slots_congr ((release_tables _ _).trans hopens.tables)]
    simp only [given] at hcounts
    omega

theorem vfsUnlink (h : Exact s) (victim : Victim ν) : Exact (vfsUnlink s victim).1 := by
  cases victim with
  | plain => exact h
  | tmp name =>
    have hunlink : Exact (tmpfsUnlink s name).1 := by
      unfold tmpfsUnlink
      split
      · exact h
      · split
        · exact h
        · rename_i i _
          split_ifs with hopen
          · exact h
          · refine ⟨fun y hy => ?_, h.listed⟩
            change (s.setFile i none).opens y = OpenCalls.slots s y
            rw [← h.counts y hy]
            cases y with
            | plain => rfl
            | tmp j =>
              by_cases hj : j = i
              · subst hj
                rw [not_not.mp hopen]
                simp [opens, setFile]
              · simp [opens, setFile, hj]
            | fat => rfl
    unfold OpenCalls.vfsUnlink
    dsimp only
    split <;> rename_i hr <;> rw [hr] at hunlink <;> exact hunlink
  | fat vol readonly found deleted => exact h

/-- `-EBUSY` comes from an open file. -/
theorem busy (h : Exact s) {victim : Victim ν} (hbusy : (OpenCalls.vfsUnlink s victim).2 = .error .busy) :
    ∃ x, victim.refersTo s x ∧ 0 < OpenCalls.slots s x := by
  cases victim with
  | plain => cases hbusy
  | tmp name =>
    have hunlink : (tmpfsUnlink s name).2 = .error .ebusy := by
      simp only [OpenCalls.vfsUnlink] at hbusy
      split at hbusy <;> rename_i hr
      · rw [hr]
      · rename_i r _
        cases r <;> cases hbusy
    obtain ⟨i, f, hf, hname, hopen⟩ := tmpfsUnlink_busy hunlink
    refine ⟨.tmp i, ⟨i, f, rfl, hf, hname⟩, ?_⟩
    rw [← h.counts _ (by simp)]
    omega
  | fat vol readonly found deleted =>
    simp only [OpenCalls.vfsUnlink, fat32Unlink] at hbusy
    split_ifs at hbusy
    · cases hbusy
    split at hbusy
    · cases hbusy
    · rename_i info
      split_ifs at hbusy with hdir hro hroot hopen
      · cases hbusy
      · cases hbusy
      · exact absurd (info.2 hroot) hdir
      · obtain ⟨fv, hfv⟩ := Option.isSome_iff_exists.mp hopen
        have hmem := mem_of_find?_eq_some hfv
        refine ⟨.fat vol fv.id, ⟨info, fv, rfl, hmem, by simpa using find?_some hfv, rfl⟩, ?_⟩
        rw [← h.counts _ (by simp), opens_fat, (h.listed vol).openIn hmem]
        exact (h.listed vol).pos fv hmem
      · cases deleted <;> cases hbusy

variable [DecidableEq ι] {i : ι}

variable (h : Exact s)
include h

theorem sysOpen (ht : s.tables i = some t) (hfresh : target.fresh s)
    (hroom : target.counted → ∃ fd, s.slot i fd = none) (flags : ℕ) :
    Exact (sysOpen s i t target flags).1 := by
  have hslot (fd : Fin n) : s.slot i fd = t fd := by rw [slot, ht, Option.bind_some]
  have hopens := opens_vfsOpenErr h.listed hfresh flags
  unfold OpenCalls.sysOpen
  split
  · rename_i u e hr
    rw [hr] at hopens
    exact ⟨fun y hy => by rw [hopens.counts y hy, slots_congr hopens.tables, h.counts y hy]; rfl, hopens.listed⟩
  · rename_i u x hr
    split
    · rename_i hfull
      cases target with
      | plain found =>
        cases found with
        | error e => cases hr
        | ok => cases hr; exact h
      | tmp | fat =>
        obtain ⟨fd, hfd⟩ := hroom rfl
        exact absurd ((hslot fd).symm.trans hfd) (firstFree_none hfull fd)
    · rename_i fd hfd
      rw [hr] at hopens
      dsimp only at hopens
      have hi : u.tables i ≠ none := by simp [hopens.tables, ht]
      have hfree : u.slot i fd = none := by
        rw [slot_congr hopens.tables, hslot, firstFree_some hfd]
      refine ⟨fun y hy => ?_, hopens.listed⟩
      have hset := slots_setSlot hi fd (some x) y
      have hcounts := hopens.counts y hy
      have hslots := slots_congr (x := y) hopens.tables
      have hexact := h.counts y hy
      rw [hfree, refersTo_none] at hset
      change u.opens y = OpenCalls.slots (u.setSlot i fd (some x)) y
      simp only [given] at hcounts
      omega

theorem sysDup (ht : s.tables i = some t) (old : ℕ) : Exact (sysDup s i t old).1 := by
  unfold OpenCalls.sysDup
  split
  · exact h
  · exact h
  · rename_i hnew
    refine h.fdCopy (by simp [ht]) ?_ i
    rw [slot, ht, Option.bind_some, firstFree_some hnew]

theorem sysDup2 (ht : s.tables i = some t) (old new : ℕ) : Exact (sysDup2 s i t old new).1 := by
  unfold OpenCalls.sysDup2
  split
  · exact h
  · split_ifs
    · exact h
    · refine (h.fdPut i _).fdCopy ?_ ?_ i
      · rw [ne_eq, fdPut_tables_none]
        simp [ht]
      · rw [slot_fdPut, if_pos ⟨rfl, rfl⟩]
    · exact h

theorem sysClose (i : ι) (t : Table ν n m) (fd : ℕ) : Exact (sysClose s i t fd).1 := by
  unfold OpenCalls.sysClose
  split
  · exact h
  · exact h.fdPut i _

theorem forkTable {j : ι} (hj : s.tables j = none) (outcome : ForkEnd) :
    Exact (forkTable s i j outcome).1 := by
  cases outcome with
  | noTable => exact h
  | undone => exact (h.fdTableClone hj i).fdTableDestroy j
  | born => exact h.fdTableClone hj i

theorem next {a : ι × Call ι ν} {u : State ι ν n m} {e : List (Except Refusal Unit)}
    (hroom : Roomy s a) (hnext : next s a = some (u, e)) : Exact u := by
  obtain ⟨t, ht, hexec⟩ := Option.bind_eq_some_iff.mp hnext
  obtain ⟨r, hr, heq⟩ := Option.map_eq_some_iff.mp hexec
  cases heq
  obtain ⟨i, call⟩ := a
  cases call with
  | «open» target flags =>
    simp only [exec] at hr
    split_ifs at hr with hfresh
    cases hr
    exact h.sysOpen ht hfresh hroom flags
  | close fd => cases hr; exact h.sysClose i t fd
  | dup old => cases hr; exact h.sysDup ht old
  | dup2 old new => cases hr; exact h.sysDup2 ht old new
  | stat target =>
    simp only [exec] at hr
    split_ifs at hr with hfresh
    cases hr
    exact h.lookAt hfresh
  | chdir target isDir =>
    by_cases hfresh : target.fresh s
    · rw [exec, if_pos hfresh] at hr
      cases hr
      exact h.lookAt hfresh
    · rw [exec, if_neg hfresh] at hr
      cases hr
  | unlink victim => cases hr; exact h.vfsUnlink victim
  | fork child outcome =>
    simp only [exec] at hr
    split_ifs at hr with hnone
    cases hr
    exact h.forkTable (by simpa using hnone) outcome
  | execve => cases hr; exact h
  | exit => cases hr; exact h.fdTableDestroy i

end Exact

/-- No file is open; the processes have descriptors without hooks. -/
def State.init (runs : ι → Bool) (consoles : ι → Fin n → Bool) : State ι ν n m where
  files _ := none
  openList _ := []
  tables i := if runs i then some fun fd => if consoles i fd then some .plain else none else none

theorem exact_init (runs : ι → Bool) (consoles : ι → Fin n → Bool) :
    Exact (init runs consoles : State ι ν n m) := by
  refine ⟨fun x hx => ?_, fun vol => ⟨nodup_nil, by simp [init]⟩⟩
  have hslots : slots (init runs consoles : State ι ν n m) x = 0 := by
    refine Finset.sum_eq_zero fun i _ => ?_
    simp only [init]
    split_ifs
    · refine Finset.sum_eq_zero fun fd _ => ?_
      dsimp only
      split_ifs
      · rw [refersTo_some, if_neg (Ne.symm hx)]
      · rfl
    · rfl
  rw [hslots]
  cases x <;> rfl

variable [DecidableEq ι]

abbrev Run (ok : State ι ν n m → ι × Call ι ν → Prop) := Histories.Run next ok

theorem Run.exact {runs : ι → Bool} {consoles : ι → Fin n → Bool} {l : List (Except Refusal Unit)}
    (hrun : Run Roomy (init runs consoles) l s) : Exact s :=
  hrun.invariant (I := fun _ s => Exact s) (exact_init runs consoles)
    fun _ _ _ _ _ hu hroom hnext => hu.next hroom hnext

/-- While every process that opens a file has a slot for it, the count of every file is the number
of descriptors that refer to it, and only an open file is busy. -/
theorem open_counts_exact {runs : ι → Bool} {consoles : ι → Fin n → Bool}
    {l : List (Except Refusal Unit)} (hrun : Run Roomy (State.init runs consoles) l s) :
    (∀ x, x ≠ .plain → s.opens x = slots s x) ∧ ∀ victim, (vfsUnlink s victim).2 = .error .busy →
        ∃ x, victim.refersTo s x ∧ 0 < slots s x :=
  ⟨(Run.exact hrun).counts, fun _ => (Run.exact hrun).busy⟩

/-- A process creates a file, copies its descriptor and forks; its child closes one of its own. -/
theorem open_counts_exact_forked :
    ∃ l s, Run Roomy (State.init (fun i : Fin 2 => decide (i = 0)) fun _ (fd : Fin 4) =>
        decide (fd = 0) : State (Fin 2) Unit 4 2) l s ∧
      slots s (.tmp 0) = 3 ∧ s.opens (.tmp 0) = 3 := by
  obtain ⟨l, s, hrun, hslots⟩ : ∃ l s, Run Roomy (State.init (fun i => decide (i = 0))
      fun _ (fd : Fin 4) => decide (fd = 0) : State (Fin 2) Unit 4 2) l s ∧
      slots s (.tmp 0) = 3 :=
    ⟨_, _, Histories.Run.of_exec (fun u a => decide (Roomy u a))
      (fun _ _ h => of_decide_eq_true h)
      [(0, .open (.tmp [0x61]) 0x201), (0, .dup 1), (0, .fork 1 .born), (1, .close 2)] rfl,
      by decide +kernel⟩
  refine ⟨l, s, hrun, hslots, ?_⟩
  rw [(open_counts_exact hrun).1 _ (by simp), hslots]

/-- A process whose table is full opens a file: the call fails, the file counts as open although no
descriptor refers to it, and it cannot be unlinked. -/
theorem open_count_leaks :
    ∃ l s, Run (fun _ _ => True) (State.init (fun _ : Unit => true) fun _ (_ : Fin 256) => true :
        State Unit Unit 256 1) l s ∧
      l = [.error (.other .emfile)] ∧ slots s (.tmp 0) = 0 ∧ s.opens (.tmp 0) = 1 ∧
      (vfsUnlink s (.tmp [0x61])).2 = .error .busy :=
  ⟨_, _, Histories.Run.of_exec (fun _ _ => true) (fun _ _ _ => trivial)
    [((), .open (.tmp [0x61]) 0x201)] rfl,
    by decide +kernel, by decide +kernel, by decide +kernel, by decide +kernel⟩

end Calls

end Tach.OpenCalls
