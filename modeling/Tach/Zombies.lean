import Tach.Continuations

/-!
Parents and children. A process that ends stays in the table until its parent waits for it, and
nobody takes care of the children of a process that ends: they keep the pid of their parent. A child
that ends later, or had ended before, has then no parent that could wait for it, and its slot is
lost. Every process that ended has a living parent as long as only processes with a living parent
and without dead children end.
-/

namespace Tach.Processes

open Function List Actions Paging Vmm

section Source

variable (A : Arch)

/-- The dead child of `parent` that the loop of `process_waitpid` comes to first. -/
def System.deadChild (s : System) (parent : Process) (target : Option ℕ) : Option Pid :=
  (List.finRange maxProcesses).find? fun i => (s.procs i).any fun p =>
    p.ppid = parent.pid ∧ (∀ pid ∈ target, p.pid = pid) ∧ p.state = .zombie

def System.hasChild (s : System) (parent : Process) (target : Option ℕ) : Bool :=
  (List.finRange maxProcesses).any fun i => (s.procs i).any fun p =>
    p.ppid = parent.pid ∧ ∀ pid ∈ target, p.pid = pid

/-- `process_waitpid`, up to where it blocks: it starts over when it is resumed. `target` is `none`
for any child; the value is the pid of the child, or 0. -/
def processWaitpid (target : Option ℕ) (nohang : Bool) : Sys ℕ := do
  match ← Act.read System.currentProcess with
  | none => Act.fail .esrch
  | some parent =>
    match ← Act.read fun s => s.deadChild parent target with
    | some i => do
      let pid ← Act.read fun s => (s.procs i).elim 0 Process.pid
      processDestroy A i
      pure pid
    | none =>
      if ← Act.read fun s => s.hasChild parent target then
        if nohang then pure 0
        else do
          schedulerBlockCurrent
          pure 0
      else Act.fail .echild

/-- The calls; the default action of a signal ends a process like `exit`. -/
inductive FamilyCall
  | fork
  | exit (code : ℕ)
  | kill (pid signal : ℕ)
  | waitpid (target : Option ℕ) (nohang : Bool)

/-- The process `who` goes on, on the CPU that executes. -/
def System.resume (s : System) (who : Pid) : System :=
  { s with current := Function.update s.current s.cpu (some who) }

/-- `who` makes a call. -/
def FamilyCall.perform (s : System) (who : Pid) : FamilyCall → System
  | .fork => (processFork A who (s.resume who)).state
  | .exit code => (processExit code (s.resume who)).state
  | .kill pid signal => (signalSend pid signal (s.resume who)).state
  | .waitpid target nohang => (processWaitpid A target nohang (s.resume who)).state

/-- The systems reached from `s` by calls that meet `ok`. -/
inductive Family (ok : System → Pid → FamilyCall → Prop) (s : System) : System → Prop
  | start : Family ok s s
  | step {t : System} (who : Pid) (call : FamilyCall) (h : Family ok s t) (hok : ok t who call) :
    Family ok s (call.perform A t who)

end Source

section Views

/-- What a process is in its family: its pid, that of its parent, and whether it has ended. -/
def kin (p : Process) : ℕ × ℕ × Bool := (p.pid, p.ppid, p.state = .zombie)

variable {s t : System} {i : Pid} {p : Process}

/-- A process that has not ended runs again. -/
theorem kept_running (h : ∀ p, s.procs i = some p → p.state ≠ .zombie) :
    Kept kin s (s.onProcess i fun p => { p with state := .running }) := by
  refine kept_onProcess_at fun p hp => ?_
  simp [kin, h p hp]

theorem schedulerAdd_kin (i : Pid) : Steps (Kept kin) (schedulerAdd i) :=
  steps_schedulerAdd fun s _ _ => kept_onProcess (fun _ => by rfl) s i

theorem schedulerWake_kin (i : Pid) : Steps (Kept kin) (schedulerWake i) := by
  intro s
  refine Ends.read_bind ?_
  split
  · rename_i hblocked
    refine Ends.modify_bind ((schedulerAdd_kin i).after (kept_running fun p hp => ?_))
    have hstate : p.state = .blocked := by simpa [hp] using hblocked
    rw [hstate]
    nofun
  · exact Ends.ret rfl

theorem postSignal_kin (i : Pid) (signal : ℕ) : Steps (Kept kin) (postSignal i signal) := by
  have htail : Steps (Kept kin) (do
      Act.modify (System.onProcess i fun p => { p with pending := p.pending ||| 2 ^ signal })
      schedulerWake i : Sys Unit) :=
    Steps.bind (Steps.modify fun s => kept_onProcess (fun _ => by rfl) s i) fun _ =>
      schedulerWake_kin i
  intro s
  refine Ends.read_bind ?_
  split
  · rename_i hstopped
    refine Ends.modify_bind ?_
    refine (Steps.bind (schedulerAdd_kin i) fun _ => htail).after (kept_running fun p hp => ?_)
    have hstate : signal = sigcont ∧ p.state = .stopped := by simpa [hp] using hstopped
    rw [hstate.2]
    nofun
  · exact htail s

theorem buryProcess_kin (i : Pid) (p : Process) : Steps (Kept kin) (buryProcess i p) := by
  refine Steps.bind (steps_schedulerRemove fun s _ => kept_onProcess (fun _ => by rfl) s i)
    fun _ => Steps.bind (steps_destroyFds _) fun _ =>
    Steps.bind (Steps.modify fun s => kept_onProcess (fun _ => by rfl) s i) fun _ =>
    Steps.read_bind fun parent => ?_
  split
  · exact Steps.ret ()
  · exact Steps.bind (postSignal_kin _ _) fun _ => schedulerWake_kin _

theorem schedulerYield_kin : Steps (Kept kin) schedulerYield :=
  steps_schedulerYield fun _ _ _ => rfl

/-- `process_terminate` ends a process and changes no other. -/
theorem processTerminate_kin (hp : s.procs i = some p) (code : ℕ) :
    Ends (processTerminate i code) s fun _ t =>
      seen kin t = update (seen kin s) i (some (p.pid, p.ppid, true)) := by
  refine Ends.read_bind ?_
  rw [hp]
  dsimp only
  split
  · rename_i hzombie
    refine Ends.ret ?_
    have hi : seen kin s i = some (p.pid, p.ppid, true) := by
      rw [seen_of_some hp, kin, hzombie]
      rfl
    rw [← hi, update_eq_self]
  · refine Ends.modify_bind ((buryProcess_kin i p _).mono fun _ t ht => ?_)
    rw [← ht, System.onProcess, seen_setProcess, hp]
    rfl

end Views

section Families

/-- Every process that has ended has a parent that has not. -/
def Tended (v : Pid → Option (ℕ × ℕ × Bool)) : Prop :=
  ∀ i pid ppid, v i = some (pid, ppid, true) → ∃ j grand, v j = some (ppid, grand, false)

namespace Tended

variable {v : Pid → Option (ℕ × ℕ × Bool)} {i : Pid} {pid ppid : ℕ}

theorem enter (h : Tended v) (hi : ∀ a b, v i = some (a, b, false) → a = pid) :
    Tended (update v i (some (pid, ppid, false))) := by
  intro j a b hj
  have hji : j ≠ i := by
    rintro rfl
    rw [update_self] at hj
    cases hj
  rw [update_of_ne hji] at hj
  obtain ⟨k, grand, hk⟩ := h j a b hj
  by_cases hki : k = i
  · subst hki
    refine ⟨k, ppid, ?_⟩
    rw [update_self, hi b grand hk]
  · exact ⟨k, grand, by rwa [update_of_ne hki]⟩

/-- A process that has ended leaves the table. -/
theorem remove (h : Tended v) (hi : v i = some (pid, ppid, true)) : Tended (update v i none) := by
  intro j a b hj
  have hji : j ≠ i := by
    rintro rfl
    rw [update_self] at hj
    cases hj
  rw [update_of_ne hji] at hj
  obtain ⟨k, grand, hk⟩ := h j a b hj
  have hki : k ≠ i := by
    rintro rfl
    rw [hi] at hk
    cases hk
  exact ⟨k, grand, by rwa [update_of_ne hki]⟩

/-- A process ends that has a living parent and no children that have ended. -/
theorem leave (h : Tended v) (hi : v i = some (pid, ppid, false))
    (hparent : ∃ j grand, j ≠ i ∧ v j = some (ppid, grand, false))
    (hchildren : ∀ j a b, v j = some (a, b, true) → b ≠ pid) :
    Tended (update v i (some (pid, ppid, true))) := by
  intro j a b hj
  by_cases hji : j = i
  · subst hji
    rw [update_self] at hj
    cases hj
    obtain ⟨k, grand, hkj, hk⟩ := hparent
    exact ⟨k, grand, by rwa [update_of_ne hkj]⟩
  · rw [update_of_ne hji] at hj
    obtain ⟨k, grand, hk⟩ := h j a b hj
    have hki : k ≠ i := by
      rintro rfl
      rw [hi] at hk
      cases hk
      exact hchildren j a pid hj rfl
    exact ⟨k, grand, by rwa [update_of_ne hki]⟩

end Tended

/-- A process may end: it has ended already, or it has a living parent and no child that has
ended. -/
def CanEnd (s : System) (i : Pid) : Prop :=
  ∀ p ∈ s.procs i, p.state = .zombie ∨
    (∃ j, j ≠ i ∧ ∃ q ∈ s.procs j, q.pid = p.ppid ∧ q.state ≠ .zombie) ∧
      ∀ j, ∀ q ∈ s.procs j, q.state = .zombie → q.ppid ≠ p.pid

instance (s : System) (i : Pid) : Decidable (CanEnd s i) :=
  inferInstanceAs (Decidable (∀ p ∈ s.procs i, _))

def FamilyCall.Meets (s : System) (who : Pid) : FamilyCall → Prop
  | .exit _ => CanEnd s who
  | .kill pid signal => signal = sigkill → ∀ i ∈ s.lookup pid, CanEnd s i
  | _ => True

instance (s : System) (who : Pid) (call : FamilyCall) : Decidable (call.Meets s who) :=
  match call with
  | .exit _ => inferInstanceAs (Decidable (CanEnd s who))
  | .kill pid signal =>
    inferInstanceAs (Decidable (signal = sigkill → ∀ i ∈ s.lookup pid, CanEnd s i))
  | .fork => .isTrue trivial
  | .waitpid _ _ => .isTrue trivial

variable {A : Arch} {s t : System} {who i : Pid}

theorem seen_kin_true {pid ppid : ℕ} : seen kin s i = some (pid, ppid, true) ↔
    ∃ p, s.procs i = some p ∧ p.pid = pid ∧ p.ppid = ppid ∧ p.state = .zombie := by
  simp [seen, kin]

theorem seen_kin_false {pid ppid : ℕ} : seen kin s i = some (pid, ppid, false) ↔
    ∃ p, s.procs i = some p ∧ p.pid = pid ∧ p.ppid = ppid ∧ p.state ≠ .zombie := by
  simp [seen, kin]

section

variable (h : Tended (seen kin s))
include h

theorem terminate_tended (hend : CanEnd s i) (code : ℕ) :
    Ends (processTerminate i code) s fun _ t => Tended (seen kin t) := by
  cases hp : s.procs i with
  | none =>
    refine Ends.read_bind ?_
    rw [hp]
    exact Ends.ret h
  | some p =>
    refine (processTerminate_kin hp code).mono fun _ t ht => ?_
    rw [ht]
    rcases hend p hp with hzombie | ⟨⟨j, hji, q, hq, hpid, hlive⟩, hchildren⟩
    · rwa [← seen_kin_true.mpr ⟨p, hp, rfl, rfl, hzombie⟩, update_eq_self]
    · by_cases hzombie : p.state = .zombie
      · rwa [← seen_kin_true.mpr ⟨p, hp, rfl, rfl, hzombie⟩, update_eq_self]
      · refine h.leave (seen_kin_false.mpr ⟨p, hp, rfl, rfl, hzombie⟩)
          ⟨j, q.ppid, hji, seen_kin_false.mpr ⟨q, hq, hpid, rfl, hlive⟩⟩ ?_
        intro k a b hk
        obtain ⟨r, hr, -, rfl, hdead⟩ := seen_kin_true.mp hk
        exact hchildren k r hr hdead

theorem exit_tended (hend : CanEnd s who) (code : ℕ) :
    Ends (processExit code) (s.resume who) fun _ t => Tended (seen kin t) := by
  have hrunning : (s.resume who).running = some who := update_self ..
  refine Ends.read_bind ?_
  rw [hrunning]
  refine (terminate_tended (s := s.resume who) h hend code).bind ?_ fun _ _ ht => ht
  intro _ t ht
  exact (schedulerYield_kin t).mono fun _ u hu => (hu) ▸ ht

theorem kill_tended {pid signal : ℕ} (hend : signal = sigkill → ∀ i ∈ s.lookup pid, CanEnd s i) :
    Ends (signalSend pid signal) (s.resume who) fun _ t => Tended (seen kin t) := by
  unfold signalSend
  split
  · exact Ends.fail h
  · refine Ends.read_bind ?_
    cases hi : (s.resume who).lookup pid with
    | none => exact Ends.fail h
    | some i =>
      dsimp only
      split
      · rename_i hkill
        exact terminate_tended (s := s.resume who) h (hend hkill i hi) _
      · refine (postSignal_kin i signal (s.resume who)).mono fun _ t ht => ?_
        exact (ht) ▸ h

theorem fork_tended : Ends (processFork A who) (s.resume who) fun _ t => Tended (seen kin t) := by
  refine (processFork_ends A who (s.resume who)).mono fun r t ht => ?_
  cases r with
  | error e =>
    have hsame : seen kin s = seen kin t := kept_of_procs ht
    exact hsame ▸ h
  | ok child =>
    obtain ⟨hfree, p, q, -, hprocs, -, -, hstate⟩ := ht
    have hkin : kin q = (q.pid, q.ppid, false) := by
      simp [kin, hstate]
    rw [seen_update hprocs, Option.map_some, hkin]
    refine h.enter fun a b hab => ?_
    obtain ⟨r, hr, -⟩ := seen_kin_false.mp hab
    have hnone : s.procs child = none := hfree
    rw [hnone] at hr
    cases hr

/-- Blocking gives a process a new state; one that had ended is then taken for a living one. -/
theorem block_tended : Ends schedulerBlockCurrent s fun _ t => Tended (seen kin t) := by
  refine Ends.read_bind ?_
  cases hi : s.running with
  | none => exact Ends.ret h
  | some i =>
    refine Ends.modify_bind ((schedulerYield_kin _).mono fun _ t ht => ?_)
    rw [← ht, System.onProcess, seen_setProcess]
    cases hp : s.procs i with
    | none =>
      have hnone : seen kin s i = none := by rw [seen, hp, Option.map_none]
      rw [Option.map_none, Option.map_none, ← hnone, update_eq_self]
      exact h
    | some p =>
      refine h.enter fun a b hab => ?_
      obtain ⟨q, hq, rfl, -⟩ := seen_kin_false.mp hab
      rw [hp] at hq
      cases hq
      rfl

theorem waitpid_tended (target : Option ℕ) (nohang : Bool) :
    Ends (processWaitpid A target nohang) s fun _ t => Tended (seen kin t) := by
  refine Ends.read_bind ?_
  cases s.currentProcess with
  | none => exact Ends.fail h
  | some parent =>
    refine Ends.read_bind ?_
    cases hdead : s.deadChild parent target with
    | some i =>
      refine Ends.read_bind ((total_processDestroy A i).bind_ends (processDestroy_ends A i s)
        fun _ t ht => Ends.ret ?_)
      obtain ⟨p, hp, hchild⟩ : ∃ p, s.procs i = some p ∧ p.state = .zombie := by
        have hfound := List.find?_some hdead
        simp only [Option.any_eq_true, decide_eq_true_eq] at hfound
        obtain ⟨p, hp, -, -, hzombie⟩ := hfound
        exact ⟨p, hp, hzombie⟩
      rw [seen_update ht]
      exact h.remove (seen_kin_true.mpr ⟨p, hp, rfl, rfl, hchild⟩)
    | none =>
      refine Ends.read_bind ?_
      split
      · split
        · exact Ends.ret h
        · exact (block_tended h).bind (fun _ _ ht => Ends.ret ht) fun _ _ ht => ht
      · exact Ends.fail h

theorem perform_tended {call : FamilyCall} (hok : call.Meets s who) :
    Tended (seen kin (call.perform A s who)) := by
  cases call with
  | fork => exact fork_tended h
  | exit code => exact exit_tended h hok code
  | kill pid signal => exact kill_tended h hok
  | waitpid target nohang => exact waitpid_tended (s := s.resume who) h target nohang

end

theorem Family.tended (hrun : Family A (fun s who call => call.Meets s who) s t)
    (hs : Tended (seen kin s)) : Tended (seen kin t) := by
  induction hrun with
  | start => exact hs
  | step who call _ hok ih => exact perform_tended ih hok

/-- In every run of calls in which only processes end that have a living parent and no dead
children, every process that has ended has a parent in the table that has not. -/
theorem zombies_have_parents (hs : ∀ i, ∀ p ∈ s.procs i, p.state ≠ .zombie)
    (hrun : Family A (fun s who call => call.Meets s who) s t) (i : Pid) (p : Process)
    (hp : t.procs i = some p) (hzombie : p.state = .zombie) :
    ∃ j q, t.procs j = some q ∧ q.pid = p.ppid ∧ q.state ≠ .zombie := by
  have htended : Tended (seen kin t) := by
    refine hrun.tended fun j a b hj => ?_
    obtain ⟨q, hq, -, -, hdead⟩ := seen_kin_true.mp hj
    exact absurd hdead (hs j q hq)
  obtain ⟨j, grand, hj⟩ := htended i p.pid p.ppid (seen_kin_true.mpr ⟨p, hp, rfl, rfl, hzombie⟩)
  obtain ⟨q, hq, hpid, -, hlive⟩ := seen_kin_false.mp hj
  exact ⟨j, q, hq, hpid, hlive⟩

end Families

def performFamily (s : System) (calls : List (Pid × FamilyCall)) : System :=
  calls.foldl (fun s c => c.2.perform i686 s c.1) s

theorem family_performFamily {s : System} (calls : List (Pid × FamilyCall)) :
    Family i686 (fun _ _ _ => True) s (performFamily s calls) := by
  induction calls using List.reverseRecOn with
  | nil => exact .start
  | append_singleton calls c ih =>
    rw [performFamily, foldl_append]
    exact ih.step c.1 c.2 trivial

def firstProcess : System := (processCreate i686 [105] (smallSystem 32)).state

def families (s : System) : List (ℕ × ℕ × Bool) :=
  (List.finRange maxProcesses).filterMap fun i => seen kin s i

theorem mem_families {s : System} {i : Pid} {p : Process} (hp : s.procs i = some p) :
    kin p ∈ families s :=
  mem_filterMap.mpr ⟨i, mem_finRange i, seen_of_some hp⟩

theorem firstProcess_alive : ∀ i, ∀ p ∈ firstProcess.procs i, p.state ≠ .zombie := by
  intro i p hp
  have hmem := mem_families hp
  rw [show families firstProcess = [(1, 0, false)] by decide +kernel, mem_singleton] at hmem
  simpa [kin] using congrArg (fun x => x.2.2) hmem

set_option maxRecDepth 2000 in
/-- The child of the first process exits. -/
theorem zombies_have_parents_first : ∃ t, Family i686 (fun s who call => call.Meets s who)
    firstProcess t ∧ ∃ p, t.procs 1 = some p ∧ p.state = .zombie ∧
      ∃ j q, t.procs j = some q ∧ q.pid = p.ppid ∧ q.state ≠ .zombie := by
  have hmeets : (FamilyCall.exit 0).Meets (performFamily firstProcess [(0, .fork)]) 1 := by
    decide +kernel
  have hrun : Family i686 (fun s who call => call.Meets s who) firstProcess
      (performFamily firstProcess [(0, .fork), (1, .exit 0)]) :=
    (Family.start.step 0 .fork trivial).step 1 (.exit 0) hmeets
  have hview : seen kin (performFamily firstProcess [(0, .fork), (1, .exit 0)]) 1 =
      some (2, 1, true) := by
    decide +kernel
  obtain ⟨p, hp, -, -, hzombie⟩ := seen_kin_true.mp hview
  exact ⟨_, hrun, p, hp, hzombie, zombies_have_parents firstProcess_alive hrun 1 p hp hzombie⟩

set_option maxRecDepth 2000 in
/-- The first process has a child and that one has a child; both children exit, the older one
first. The first process waits for its child, and nobody is left to wait for the other. -/
theorem zombie_without_parent : ∃ t, Family i686 (fun _ _ _ => True) firstProcess t ∧
    (∃ q, t.procs 0 = some q ∧ q.pid = 1 ∧ q.state ≠ .zombie) ∧
    ∃ p, t.procs 2 = some p ∧ p.state = .zombie ∧ ∀ j q, t.procs j = some q → q.pid ≠ p.ppid := by
  set calls : List (Pid × FamilyCall) :=
    [(0, .fork), (1, .fork), (1, .exit 0), (2, .exit 0), (0, .waitpid none true)] with hcalls
  have hviews : (fun t => (seen kin t 0, seen kin t 2, families t))
      (performFamily firstProcess calls) =
        (some (1, 0, false), some (3, 2, true), [(1, 0, false), (3, 2, true)]) := by
    rw [hcalls]
    decide +kernel
  obtain ⟨hfirst, hviews⟩ := Prod.mk.inj hviews
  obtain ⟨hthird, hall⟩ := Prod.mk.inj hviews
  obtain ⟨q, hq, hpid, -, hlive⟩ := seen_kin_false.mp hfirst
  obtain ⟨p, hp, -, hppid, hzombie⟩ := seen_kin_true.mp hthird
  refine ⟨_, family_performFamily calls, ⟨q, hq, hpid, hlive⟩, p, hp, hzombie, ?_⟩
  intro j r hr
  have hmem := mem_families hr
  rw [hall] at hmem
  rw [hppid]
  rcases mem_pair.mp hmem with h | h <;>
    simp only [kin, Prod.mk.injEq] at h <;> omega

end Tach.Processes
