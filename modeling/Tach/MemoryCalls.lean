import Tach.Faults

/-!
`sys_mmap` and `sys_munmap` over whole runs: the calls of a process stay within its address space.
-/

namespace Tach.Processes

open Actions Function Ownership Paging Vmm Spaces

variable {A : Arch} {c : Context} {p : Process} {s : System}

/-- A step within the address space `c`: every frame still has its owner, the pages and tables of
other address spaces are as they were, and no reference that is in no table is given up. -/
def Confined (A : Arch) (c : Context) (s t : Spaces) : Prop :=
  ∀ own extra sp, Owned A s own extra → s.slots c = some sp → (∃ sp', t.slots c = some sp') ∧
    ∃ own' extra', Turn A c (all c) (all c) s own t own' extra' ∧ ∀ f, extra f ≤ extra' f

instance confined_preorder (A : Arch) (c : Context) : IsPreorder Spaces (Confined A c) where
  refl _ own extra sp h hslot := ⟨⟨sp, hslot⟩, own, extra, .refl h, fun _ => le_rfl⟩
  trans s t u hst htu own extra sp h hslot := by
    obtain ⟨⟨sp', hslot'⟩, own', extra', hturn, hle⟩ := hst own extra sp h hslot
    obtain ⟨hslot'', own'', extra'', hturn', hle'⟩ := htu own' extra' sp' hturn.owned hslot'
    exact ⟨hslot'', own'', extra'', hturn.trans hturn', fun f => (hle f).trans (hle' f)⟩

theorem only_all {v : ℕ} : ∀ d w, only c v d w → all c d w := fun _ _ hw => hw.1

theorem steps_vmmUnmap (v : ℕ) : Steps (Confined A c) (vmmUnmap A c v) := by
  intro s own extra sp h hslot
  obtain ⟨own', l, hturn, hslot', -⟩ := vmmUnmap_ends h hslot v
  exact ⟨⟨_, hslot'⟩, own', extra, hturn.mono only_all only_all, fun _ => le_rfl⟩

theorem steps_vmmMapAllocated (v : ℕ) (fl : Flags) :
    Steps (Confined A c) (vmmMapAllocated A c v fl) := by
  intro s own extra sp h hslot
  obtain ⟨-, own', ⟨e, -, hturn, hslots, -⟩ | ⟨q, -, -, -, hturn, henters, -⟩⟩ :=
    vmmMapAllocated_ends h hslot v fl
  · exact ⟨⟨sp, hslots ▸ hslot⟩, own', extra, hturn.mono (fun _ _ => False.elim)
      fun _ _ => False.elim, fun _ => le_rfl⟩
  · obtain ⟨_, l, -, hslot'⟩ := henters.slot
    exact ⟨⟨_, hslot'⟩, own', _, hturn.mono only_all only_all, fun _ => Nat.le_add_right _ _⟩

/-- Where `vmm_alloc_page` begins its search is in no table. -/
theorem confined_nextFree (s : Spaces) (next : ℕ) :
    Confined A c s (s.onSpace c fun sp => { sp with nextFree := next }) := by
  intro own extra sp h hslot
  have hnew : s.onSpace c (fun sp => { sp with nextFree := next }) =
      setSlot { s with mach := s.mach } c (some { sp with nextFree := next }) := by
    simp [onSpace, hslot]
  have hempty : claimed own c ∅ = own := claimed_empty
  rw [hnew]
  refine ⟨⟨_, update_self ..⟩, own, extra, ⟨?_, fun _ => .inl rfl, ?_,
    fun d hd => update_of_ne hd _ _, rfl, rfl⟩, fun _ => le_rfl⟩
  · rw [← hempty]
    exact h.grown (Grows.refl h.sound) (fun _ _ _ => rfl)
      (by rw [hempty]; exact { h.spaces c sp hslot with }) (fun f _ => by rw [hslot]; rfl)
      fun _ _ => rfl
  · exact (h.grown_spares (V := fun _ => True) (U := fun _ => True) (fun _ _ _ => rfl)
      (fun _ hw => (hw trivial).elim) fun _ w _ hw => (hw w rfl trivial).elim).mono
      (fun _ _ => And.left) fun _ _ => And.left

theorem steps_unmapDown (base n : ℕ) : Steps (Confined A c) (unmapDown A c base n) := by
  induction n with
  | zero => exact Steps.ret ()
  | succ n ih => exact (steps_vmmUnmap _).attempt.bind fun _ => ih

theorem steps_mapPages (base : ℕ) (fl : Flags) (n mapped : ℕ) :
    Steps (Confined A c) (mapPages A c base fl n mapped) := by
  induction n generalizing mapped with
  | zero => exact Steps.ret ()
  | succ n ih =>
    refine (steps_vmmMapAllocated _ fl).attempt.bind fun r => ?_
    cases r with
    | error e => exact (steps_unmapDown base mapped).bind fun _ => Steps.fail _
    | ok q => exact ih (mapped + 1)

theorem steps_unmapUp (base n : ℕ) : Steps (Confined A c) (unmapUp A c base n) := by
  unfold unmapUp
  induction List.range n with
  | nil => exact Steps.ret ()
  | cons i l ih => exact ((steps_vmmUnmap _).attempt.bind fun _ => Steps.ret ()).bind fun _ => ih

theorem steps_mmapAnywhere (pages : ℕ) (fl : Flags) :
    Steps (Confined A c) (mmapAnywhere A c pages fl) := by
  refine Steps.bind (Steps.read_bind fun v => (steps_vmmMapAllocated v fl).attempt.bind fun r => ?_)
    fun base => (steps_mapPages base fl _ 1).bind fun _ => Steps.ret _
  cases r with
  | error e => exact Steps.fail _
  | ok q => exact (Steps.modify fun s => confined_nextFree s _).bind fun _ => Steps.ret v

theorem steps_mmapFixed (base pages : ℕ) (fl : Flags) :
    Steps (Confined A c) (mmapFixed A c base pages fl) :=
  (Steps.fail _).ite (Steps.read_bind fun _ => (Steps.fail _).ite
    ((steps_mapPages base fl pages 0).bind fun _ => Steps.ret _))

inductive MemoryCall
  | mmap (address length protection : ℕ)
  | munmap (address length : ℕ)

def MemoryCall.perform (A : Arch) (s : System) : MemoryCall → System
  | .mmap address length protection => (sysMmap A address length protection s).state
  | .munmap address length => (sysMunmap A address length s).state

def Within (A : Arch) (c : Context) (s t : System) : Prop :=
  ∃ u, t = { s with spaces := u } ∧ Confined A c s.spaces u

theorem perform_within (hp : s.currentProcess = some p) (call : MemoryCall) :
    Within A p.mm s (call.perform A s) := by
  have hsame : Within A p.mm s s := ⟨_, rfl, refl _⟩
  cases call with
  | mmap address length protection =>
    change Ends (sysMmap A address length protection) s fun _ => Within A p.mm s
    refine Ends.read_bind ?_
    rw [hp]
    dsimp only
    split_ifs
    · exact hsame
    · exact hsame
    · exact hsame
    · exact ⟨_, rfl, steps_mmapAnywhere _ _ _⟩
    · exact ⟨_, rfl, steps_mmapFixed _ _ _ _⟩
  | munmap address length =>
    change Ends (sysMunmap A address length) s fun _ => Within A p.mm s
    refine Ends.read_bind ?_
    rw [hp]
    dsimp only
    split_ifs
    · exact hsame
    · exact hsame
    · exact ⟨_, rfl, steps_unmapUp _ _ _⟩

end Tach.Processes
