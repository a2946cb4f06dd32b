import Tach.ElfPages
import Tach.Processes
import Tach.Targets

/-!
Page faults of user programs: what `vmm_handle_fault` leaves in the tables of the process when it
reports success, and whether the processor then permits the access that faulted.
-/

namespace Tach.Ownership

open Actions Frames Function Paging Processes Vmm

variable {A : Arch} {s t : Spaces} {own : ℕ → Owner} {extra : ℕ → ℕ} {c : Context} {sp : Space}
variable {m : Mapping} {v p : ℕ} {fl : Flags}

/-- The tables of a context have a page with these flags. -/
def Shows (A : Arch) (s : Spaces) (c : Context) (v : ℕ) (fl : Flags) : Prop :=
  ∃ sp p, s.slots c = some sp ∧ A.trans s.mach.ram sp.root v = some (A.leaf p fl)

theorem Shows.changed (h : Shows A s c v fl) (f : Mapping → Mapping) :
    Shows A (Spaces.onSpace c (Space.change v f) s) c v fl := by
  obtain ⟨sp, p, hslot, htrans⟩ := h
  exact ⟨sp.change v f, p, by simp [Spaces.onSpace, Spaces.setSlot, hslot], htrans⟩

theorem onTables_shows (h : Owned A s own extra) (hslot : s.slots c = some sp) (hp : own p = .data)
    (v : ℕ) (fl : Flags) : Ends (onTables fun mach => A.map mach (s.root c) v p fl) s fun r t =>
      r = .ok () → Shows A t c v fl := by
  obtain ⟨-, -, -, hlimit⟩ := h.data p hp
  obtain ⟨N, hmaps⟩ := A.map_spec s.mach sp.root v p fl ((h.spaces c sp hslot).ready h)
    (by have := h.sound.limit; omega)
  have hroot : s.root c = sp.root := by simp [Spaces.root, hslot]
  refine (onTables_root hroot fun m root => A.map m root v p fl).mono ?_
  rintro r t ⟨hr, rfl⟩ hok
  exact ⟨sp, p, hslot, (hmaps.ok (hr.symm.trans hok)).2 v rfl⟩

/-- `break_cow`: the page is writable, in its frame or in a copy of it. -/
theorem breakCow_shows (h : Owned A s own extra) (hslot : s.slots c = some sp)
    (hm : s.find c v = some m) : Ends (breakCow A c v) s fun r t => r = .ok () →
      Shows A t c v { m.flags with writable := true, cow := false } := by
  refine Ends.read_bind ?_
  rw [hm]
  dsimp only
  split
  · exact Ends.fail nofun
  refine Ends.read_bind (Ends.read_bind ?_)
  split
  · refine Ends.bind (onTables_shows h hslot (h.data_of_find hm).1 v _) (fun _ t ht => ?_)
      fun _ _ _ => nofun
    exact Ends.modify fun _ => (ht rfl).changed _
  · refine Ends.bind (allocFrame_ends s) (fun f t ht => ?_) fun _ _ _ => nofun
    rcases ht with ⟨hr, -⟩ | ⟨_, q, hr, hq, rfl⟩ <;> cases hr
    have hfilled := (h.alloc hq).2.fill (update_self ..) (s.mach.ram m.phys)
    refine Ends.read_bind (Ends.modify_bind ?_)
    refine Ends.attempt_bind (onTables_shows hfilled hslot (update_self ..) v _) fun r t ht => ?_
    cases r with
    | error e => exact Ends.modify_bind (Ends.fail nofun)
    | ok _ => exact Ends.modify_bind (Ends.modify fun _ => (ht rfl).changed _)

end Tach.Ownership

namespace Tach.Processes

open Actions Frames Ownership Paging Vmm

/-- What a user program does to a page. -/
inductive Access
  | read
  | write
  | fetch
  deriving DecidableEq

/-- The processor permits an access of a user program. -/
def Permits (A : Arch) (s : Spaces) (c : Context) (v : ℕ) (a : Access) : Prop :=
  ∃ sp leaf, s.slots c = some sp ∧ A.trans s.mach.ram sp.root v = some leaf ∧ leaf.user = true ∧
    (a = .write → leaf.writable = true) ∧ (a = .fetch → leaf.executable = true)

/-- The process that runs, with its address space: the processor finds its pages as they were
mapped, and they are for users. -/
structure Runs (A : Arch) (s : System) (p : Process) : Prop where
  current : ∃ pid, s.running = some pid ∧ s.procs pid = some p
  owned : ∃ own extra, Owned A s.spaces own extra
  slot : s.spaces.slots p.mm ≠ none
  exact : Exact A s.spaces p.mm
  user : ∀ v m, s.spaces.find p.mm v = some m → m.flags.user = true

variable {A : Arch} {s : System} {p : Process}

/-- `vmm_handle_fault`: the page is there, and writable if that was asked for. A new page is not
executable. -/
theorem handleFault_shows (h : Runs A s p) (address : ℕ) (isWrite : Bool) :
    Ends (handleFault A address isWrite) s fun r t => r = .ok () → ∃ fl,
      Shows A t.spaces p.mm (address / pageSize) fl ∧ fl.user = true ∧
      (isWrite = true → fl.writable = true) ∧ (fl.executable = true ↔ ∃ m,
        s.spaces.find p.mm (address / pageSize) = some m ∧ m.flags.executable = true) := by
  obtain ⟨⟨pid, hrun, hp⟩, ⟨own, extra, howned⟩, hslot, hexact, huser⟩ := h
  obtain ⟨sp, hslot⟩ := Option.ne_none_iff_exists'.mp hslot
  have hcurrent : s.currentProcess = some p := by simp [System.currentProcess, hrun, hp]
  refine Ends.read_bind (Ends.read_bind ?_)
  rw [hrun, hcurrent]
  dsimp only
  split
  · exact Ends.fail nofun
  refine Ends.read_bind ?_
  generalize hv : address / pageSize = v
  have hpage : v * pageSize / pageSize = v := Nat.mul_div_cancel v (by decide)
  have hzero := howned.resolve_eq_zero (c := p.mm) (a := v * pageSize)
  rw [hpage] at hzero
  cases hm : s.spaces.find p.mm v with
  | some m =>
    rw [if_pos fun hnone => by rw [hzero, hm] at hnone; cases hnone]
    refine Ends.read_bind ?_
    have hflags : s.spaces.getFlags p.mm (v * pageSize) = m.flags := by
      simp only [Spaces.getFlags, hpage, hm]
    rw [hflags]
    split
    · refine (vm_ends (breakCow_shows howned hslot hm)).mono ?_
      rintro r t ⟨u, rfl, hshows⟩ hok
      exact ⟨_, hshows hok, huser v m hm, fun _ => rfl, by simp⟩
    · split
      · exact Ends.fail nofun
      · rename_i hwrite
        refine Ends.ret fun _ => ⟨m.flags, ⟨sp, m.phys, hslot, hexact sp v m hslot hm⟩,
          huser v m hm, fun hw => ?_, by simp⟩
        simpa [hw] using hwrite
  | none =>
    have hfresh : Ends (vm (vmmMapAllocated A p.mm v userData)) s fun r t =>
        (∃ q, r = .ok q) → Shows A t.spaces p.mm v userData := by
      refine (vm_ends (vmmMapAllocated_fresh howned hslot hm userData)).mono ?_
      rintro r t ⟨u, rfl, -, own', ⟨e, rfl, -⟩ | ⟨q, rfl, -, -, -, henters, -⟩⟩ ⟨x, hx⟩
      · cases hx
      · obtain ⟨sp', l, -, hslot'⟩ := henters.slot
        exact ⟨_, q, hslot', henters.trans _ hslot' v rfl⟩
    rw [if_neg (not_not.mpr (hzero.mpr hm))]
    split
    · refine Ends.bind hfresh (fun q t ht => ?_) fun _ _ _ => nofun
      exact Ends.modify fun _ => ⟨userData, ht ⟨q, rfl⟩, rfl, fun _ => rfl, by simp [userData]⟩
    · split
      · refine Ends.bind hfresh (fun q t ht => ?_) fun _ _ _ => nofun
        exact Ends.ret fun _ => ⟨userData, ht ⟨q, rfl⟩, rfl, fun _ => rfl, by simp [userData]⟩
      · exact Ends.fail nofun

/-- After a fault that was handled the access is permitted, unless it fetches an instruction from a
page that is not executable. -/
theorem handled_fault_permits_iff (s : System) (p : Process) (h : Runs x86 s p) (address : ℕ)
    (a : Access) : Ends (handleFault x86 address (a = .write)) s fun r t => r = .ok () →
      (Permits x86 t.spaces p.mm (address / pageSize) a ↔ (a = .fetch → ∃ m,
        s.spaces.find p.mm (address / pageSize) = some m ∧ m.flags.executable = true)) := by
  refine (handleFault_shows h address (a = .write)).mono fun r t hshows hok => ?_
  obtain ⟨fl, ⟨sp, q, hslot, htrans⟩, huser, hwritable, hexecutable⟩ := hshows hok
  rw [← hexecutable]
  constructor
  · rintro ⟨sp', leaf, hslot', htrans', -, -, hfetch⟩ ha
    rw [hslot] at hslot'
    cases hslot'
    rw [htrans] at htrans'
    cases htrans'
    exact hfetch ha
  · intro hfetch
    exact ⟨sp, _, hslot, htrans, huser, fun ha => hwritable (decide_eq_true ha), hfetch⟩

/-- A user process with an empty address space and one page of heap at 0x500000. -/
def heapUser : Process :=
  { freshProcess 1 0 [] 0 ⟨0, Descriptors.tablePoolSize_pos⟩ with
    userMode := true, brkStart := 0x500000, brkEnd := 0x501000 }

def heapProcess (spaces : Spaces) : System :=
  { smallSystem 64 with
    spaces := spaces, procs := fun _ => some heapUser, current := fun _ => some 0 }

theorem runs_heapProcess {spaces : Spaces} {own : ℕ → Owner} {extra : ℕ → ℕ} {root next : ℕ}
    (howned : Owned x86 spaces own extra) (hslot : spaces.slots 0 = some ⟨root, next, []⟩) :
    Runs x86 (heapProcess spaces) heapUser := by
  have hnone (v : ℕ) : spaces.find 0 v = none := by
    simp [Spaces.find, hslot, Space.find, KeyedLists.find]
  refine ⟨⟨0, rfl, rfl⟩, ⟨own, extra, howned⟩, fun h => ?_, fun sp v m _ hm => ?_, fun v m hm => ?_⟩
  · cases hslot.symm.trans h
  · cases (hnone v).symm.trans hm
  · cases (hnone v).symm.trans hm

theorem heapProcess_write : Permits x86 (handleFault x86 0x500000 true
    (heapProcess (createContext x86 (smallSpaces 64)).state)).state.spaces 0 0x500 .write := by
  have hisOk : (handleFault x86 0x500000 true
      (heapProcess (createContext x86 (smallSpaces 64)).state)).result.isOk = true := by
    decide +kernel
  obtain ⟨own, extra, root, howned, hslot⟩ := owned_createContext x86 (by decide +kernel)
  have hruns := runs_heapProcess howned hslot
  generalize (createContext x86 (smallSpaces 64)).state = spaces at hisOk hruns ⊢
  refine (handled_fault_permits_iff _ heapUser hruns 0x500000 .write ?_).mpr nofun
  cases h : (handleFault x86 0x500000 true (heapProcess spaces)).result with
  | ok _ => exact h
  | error _ => simp [h, Except.isOk, Except.toBool] at hisOk

/-- An instruction at 0x500000 faults again and again. -/
theorem heapProcess_fetch :
    let t := handleFault x86 0x500000 false (heapProcess (createContext x86 (smallSpaces 64)).state)
    t.result.isOk = true ∧ (x86.trans t.state.spaces.mach.ram (t.state.spaces.root 0) 0x500).map
      Leaf.executable = some false := by
  decide +kernel

end Tach.Processes
