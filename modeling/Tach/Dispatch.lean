import Tach.Histories
import Tach.Signals

/-!
The scheduler on several CPUs: scheduler.c with the parts of process.c and signal.c that change the
state of a process. Kernel code is a list of operations on the stack it runs on; an operation is one
critical section, or one access to a field that other CPUs use without a lock. A CPU works off the
operations of the stack it is on, and any other CPU may come between two of them.

System calls run with interrupts off, so the timer interrupt comes only where no operation is left.
Descriptors, memory and the return values of the calls are left out.
-/

namespace Tach.Dispatch

open Function List

open Processes (sigkill sigchld sigcont sigsegv sigstop validSignal stopSignal ignoredByDefault)

variable {n m : ℕ} {c : Fin n}

/-- `PROCESS_STATE_`. -/
inductive RunState
  | unused
  | running
  | sleeping
  | stopped
  | zombie
  | blocked
  deriving DecidableEq

/-- A kernel stack: the one on which a CPU idles, or that of a process. -/
abbrev Stack (n m : ℕ) := Fin n ⊕ Fin m

/-- What the kernel shares between `n` CPUs; a process is named by its index in `g_processes`, an
array of `m` elements with the fields from `used` to `masked`. `runsOn` is the stack of a CPU. -/
structure Kernel (n m : ℕ) where
  used : Fin m → Bool
  pid : Fin m → ℕ
  ppid : Fin m → ℕ
  state : Fin m → RunState
  exitCode : Fin m → ℕ
  cpuId : Fin m → Fin n
  onCpu : Fin m → Bool
  queued : Fin m → Bool
  pending : Fin m → ℕ
  masked : Fin m → ℕ
  queue : Fin n → List (Fin m)
  turn : Fin n → ℕ
  current : Fin n → Option (Fin m)
  switchedFrom : Fin n → Option (Fin m)
  runsOn : Fin n → Stack n m

/-- The operations, in the order of the source: scheduler.c, signal.c, process.c. -/
inductive Op (n m : ℕ)
  | addTest (p : Fin m)
  | addLocked (p : Fin m)
  | removeRead (p : Fin m)
  | removeLocked (p : Fin m) (c : Fin n)
  | wakeTest (p : Fin m)
  | wakeStore (p : Fin m)
  | yield
  | pick (old : Option (Fin m))
  | idleTest (old : Fin m)
  | leave (old : Option (Fin m))
  | setCurrent (new : Option (Fin m))
  | taskSwitch (new : Option (Fin m))
  | finishRead
  | finishClear
  | finishDrop (old : Fin m)
  | send (pid signal : ℕ)
  | contTest (p : Fin m) (signal : ℕ)
  | contStore (p : Fin m)
  | post (p : Fin m) (signal : ℕ)
  | blockedTest (p : Fin m)
  | stopStore (p : Fin m)
  | terminateTest (p : Fin m) (code : ℕ)
  | terminateStore (p : Fin m) (code : ℕ)
  | findParent (p : Fin m)
  | parentTest (q : Fin m)
  | scan (q : Fin m) (target : Option ℕ) (nohang : Bool) (i : ℕ) (found : Bool)
  | look (q : Fin m) (target : Option ℕ) (nohang : Bool) (i : ℕ) (found : Bool)
  | block (q : Fin m) (target : Option ℕ) (nohang : Bool)
  | waitAgain (q : Fin m) (target : Option ℕ) (nohang : Bool)
  | destroy (p : Fin m)
  | erase (p : Fin m)
  deriving DecidableEq

namespace Kernel

def setState (k : Kernel n m) (p : Fin m) (state : RunState) : Kernel n m :=
  { k with state := update k.state p state }

def processGet (k : Kernel n m) (pid : ℕ) : Option (Fin m) :=
  (List.finRange m).find? fun p => k.used p && k.pid p == pid

def all (k : Kernel n m) : List (Fin m) := (List.finRange m).filter k.used

def processAt (k : Kernel n m) (i : ℕ) : Option (Fin m) := k.all[i]?

/-- `process_set_current` on CPU `c`. -/
def setCurrent (k : Kernel n m) (c : Fin n) : Option (Fin m) → Kernel n m
  | none => { k with current := update k.current c none }
  | some p =>
    { k with
      current := update k.current c (some p)
      cpuId := update k.cpuId p c
      onCpu := update k.onCpu p true }

/-- The end of `process_destroy`: no CPU keeps the process, its memory is zeroed. -/
def erase [NeZero n] (k : Kernel n m) (p : Fin m) : Kernel n m :=
  { k with
    used := update k.used p false
    pid := update k.pid p 0
    ppid := update k.ppid p 0
    state := update k.state p .unused
    exitCode := update k.exitCode p 0
    cpuId := update k.cpuId p 0
    onCpu := update k.onCpu p false
    queued := update k.queued p false
    pending := update k.pending p 0
    masked := update k.masked p 0
    current := fun c => if k.current c = some p then none else k.current c }

/-- The child that the process `q` waits for with `target`, `none` for any. -/
def Awaited (k : Kernel n m) (q : Fin m) (target : Option ℕ) (p : Fin m) : Prop :=
  k.ppid p = k.pid q ∧ ∀ pid ∈ target, k.pid p = pid

instance (k : Kernel n m) (q : Fin m) (target : Option ℕ) (p : Fin m) :
    Decidable (k.Awaited q target p) := inferInstanceAs (Decidable (_ ∧ _))

def lightest [NeZero n] (k : Kernel n m) : Fin n :=
  (List.finRange n).foldl
    (fun target c => if (k.queue c).length < (k.queue target).length then c else target) 0

/-- `scheduler_add` from where it takes the locks. -/
def addLocked [NeZero n] (k : Kernel n m) (p : Fin m) : Kernel n m :=
  let target := k.lightest
  if p ∈ k.queue target ∨ m ≤ (k.queue target).length then k
  else
    { k with
      queue := update k.queue target (k.queue target ++ [p])
      cpuId := update k.cpuId p target
      queued := update k.queued p true }

/-- `scheduler_remove` from where it takes the lock of the queue of `c`. -/
def removeLocked (k : Kernel n m) (p : Fin m) (c : Fin n) : Kernel n m :=
  if p ∈ k.queue c then
    let left := (k.queue c).erase p
    { k with
      queue := update k.queue c left
      queued := update k.queued p false
      turn := update k.turn c (if left.length ≤ k.turn c then 0 else k.turn c) }
  else k

/-- The loop of `scheduler_pick_next`, with `checks` rounds left. -/
def pickFrom (k : Kernel n m) (queue : List (Fin m)) : ℕ → ℕ → Option (Fin m) × ℕ
  | 0, turn => (none, turn)
  | checks + 1, turn =>
    let after := if queue.length ≤ turn + 1 then 0 else turn + 1
    match queue[turn]? with
    | some p =>
      if k.state p = .running ∧ k.onCpu p = false then (some p, after)
      else pickFrom k queue checks after
    | none => pickFrom k queue checks after

/-- `scheduler_pick_next` on CPU `c`. -/
def pickNext (k : Kernel n m) (c : Fin n) : Option (Fin m) × Kernel n m :=
  let r := k.pickFrom (k.queue c) (k.queue c).length (k.turn c)
  (r.1, { k with turn := update k.turn c r.2 })

section Frames

variable (k : Kernel n m) (p : Fin m) (c : Fin n)

@[simp] theorem addLocked_frame [NeZero n] : (k.addLocked p).used = k.used ∧
    (k.addLocked p).pid = k.pid ∧ (k.addLocked p).ppid = k.ppid ∧
    (k.addLocked p).state = k.state ∧ (k.addLocked p).onCpu = k.onCpu ∧
    (k.addLocked p).current = k.current := by
  simp only [addLocked]
  split <;> exact ⟨rfl, rfl, rfl, rfl, rfl, rfl⟩

@[simp] theorem removeLocked_frame : (k.removeLocked p c).used = k.used ∧
    (k.removeLocked p c).pid = k.pid ∧ (k.removeLocked p c).ppid = k.ppid ∧
    (k.removeLocked p c).state = k.state ∧ (k.removeLocked p c).onCpu = k.onCpu ∧
    (k.removeLocked p c).current = k.current := by
  simp only [removeLocked]
  split <;> exact ⟨rfl, rfl, rfl, rfl, rfl, rfl⟩

@[simp] theorem setCurrent_frame (new : Option (Fin m)) : (k.setCurrent c new).used = k.used ∧
    (k.setCurrent c new).pid = k.pid ∧ (k.setCurrent c new).ppid = k.ppid ∧
    (k.setCurrent c new).state = k.state := by
  cases new <;> exact ⟨rfl, rfl, rfl, rfl⟩

@[simp] theorem setCurrent_current (new : Option (Fin m)) :
    (k.setCurrent c new).current = update k.current c new := by
  cases new <;> rfl

end Frames

end Kernel

/-- The way from the process `old` of a CPU to `new`: `scheduler_context_switch` and
`scheduler_switch_to_idle`. The stack that is left goes on with `scheduler_finish_switch` when
a CPU comes back to it. -/
def switchOps (old new : Option (Fin m)) : List (Op n m) :=
  [.leave old, .setCurrent new, .taskSwitch new, .finishRead]

/-- What CPU `c` does in one operation: the kernel afterwards and the operations that are due
before the others of the stack. -/
def exec [NeZero n] (c : Fin n) (k : Kernel n m) : Op n m → Kernel n m × List (Op n m)
  -- scheduler_add
  | .addTest p => (k, if k.queued p then [] else [.addLocked p])
  | .addLocked p => (k.addLocked p, [])
  -- scheduler_remove
  | .removeRead p => (k, [.removeLocked p (k.cpuId p)])
  | .removeLocked p d => (k.removeLocked p d, [])
  -- scheduler_wake
  | .wakeTest p => (k, if k.state p = .blocked then [.wakeStore p] else [])
  | .wakeStore p => (k.setState p .running, [.addTest p])
  -- scheduler_yield
  | .yield => (k, [.pick (k.current c)])
  | .pick old =>
    ((k.pickNext c).2,
      match (k.pickNext c).1 with
      | none => old.toList.map .idleTest
      | some p => if some p = old then [] else switchOps old (some p))
  | .idleTest p => (k, if k.state p = .running then [] else switchOps (some p) none)
  | .leave old => ({ k with switchedFrom := update k.switchedFrom c old }, [])
  | .setCurrent new => (k.setCurrent c new, [])
  | .taskSwitch new =>
    ({ k with runsOn := update k.runsOn c (new.elim (.inl c) .inr) }, [])
  -- scheduler_finish_switch
  | .finishRead =>
    (k, match k.switchedFrom c with
      | none => []
      | some p => [.finishClear, .finishDrop p])
  | .finishClear => ({ k with switchedFrom := update k.switchedFrom c none }, [])
  | .finishDrop p => ({ k with onCpu := update k.onCpu p false }, [])
  -- signal_send
  | .send pid signal =>
    (k, if validSignal signal then
        match k.processGet pid with
        | none => []
        | some p =>
          if signal = sigkill then [.terminateTest p (128 + signal)]
          else [.contTest p signal, .post p signal, .blockedTest p]
      else [])
  | .contTest p signal =>
    (k, if signal = sigcont ∧ k.state p = .stopped then [.contStore p] else [])
  | .contStore p => (k.setState p .running, [.addTest p])
  | .post p signal =>
    ({ k with pending := update k.pending p (k.pending p ||| 2 ^ signal) }, [])
  | .blockedTest p => (k, if k.state p = .blocked then [.wakeTest p] else [])
  -- signal_deliver_pending, where the signal stops the process
  | .stopStore p => (k.setState p .stopped, [.removeRead p])
  -- process_terminate
  | .terminateTest p code => (k, if k.state p = .zombie then [] else [.terminateStore p code])
  | .terminateStore p code =>
    ({ k.setState p .zombie with exitCode := update k.exitCode p code },
      [.removeRead p, .findParent p])
  | .findParent p =>
    (k, match k.processGet (k.ppid p) with
      | none => []
      | some q => [.send (k.pid q) sigchld, .parentTest q])
  | .parentTest q => (k, if k.state q = .blocked then [.wakeTest q] else [])
  -- process_waitpid
  | .scan q target nohang i found =>
    (k, if i < k.all.length then [.look q target nohang i found]
      else if found && !nohang then [.block q target nohang] else [])
  | .look q target nohang i found =>
    (k, match k.processAt i with
      | none => [.scan q target nohang (i + 1) found]
      | some p =>
        if k.Awaited q target p then
          if k.state p = .zombie then [.destroy p] else [.scan q target nohang (i + 1) true]
        else [.scan q target nohang (i + 1) found])
  | .block q target nohang =>
    match k.current c with
    | none => (k, [.waitAgain q target nohang])
    | some p => (k.setState p .blocked, [.yield, .waitAgain q target nohang])
  | .waitAgain q target nohang => (k, [.scan q target nohang 0 false])
  -- process_destroy
  | .destroy p => (k, if k.used p then [.removeRead p, .erase p] else [])
  | .erase p => (k.erase p, [])

def Op.blocks : Op n m → Option (Fin m × Option ℕ)
  | .block q target _ => some (q, target)
  | _ => none

theorem Kernel.setState_state (k : Kernel n m) {p q : Fin m} {state state' : RunState}
    (h : (k.setState q state).state p = state') : k.state p = state' ∨ p = q ∧ state = state' := by
  simp only [Kernel.setState] at h
  by_cases hp : p = q
  · subst hp
    rw [update_self] at h
    exact .inr ⟨rfl, h⟩
  · rw [update_of_ne hp] at h
    exact .inl h

/-- The state of a process changes by these operations only. -/
theorem exec_state [NeZero n] {k : Kernel n m} {op : Op n m} {p : Fin m}
    {state : RunState} (h : (exec c k op).1.state p = state) : k.state p = state ∨
      (op = .wakeStore p ∨ op = .contStore p) ∧ state = .running ∨
      op = .stopStore p ∧ state = .stopped ∨
      (∃ code, op = .terminateStore p code) ∧ state = .zombie ∨
      (op.blocks.isSome ∧ k.current c = some p) ∧ state = .blocked ∨
      op = .erase p ∧ state = .unused := by
  cases op with
  | wakeStore q =>
    rcases k.setState_state h with h | ⟨rfl, rfl⟩
    · exact .inl h
    · exact .inr (.inl ⟨.inl rfl, rfl⟩)
  | contStore q =>
    rcases k.setState_state h with h | ⟨rfl, rfl⟩
    · exact .inl h
    · exact .inr (.inl ⟨.inr rfl, rfl⟩)
  | stopStore q =>
    rcases k.setState_state h with h | ⟨rfl, rfl⟩
    · exact .inl h
    · exact .inr (.inr (.inl ⟨rfl, rfl⟩))
  | terminateStore q code =>
    rcases k.setState_state h with h | ⟨rfl, rfl⟩
    · exact .inl h
    · exact .inr (.inr (.inr (.inl ⟨⟨code, rfl⟩, rfl⟩)))
  | block q target nohang =>
    simp only [exec] at h
    split at h
    · exact .inl h
    · rename_i r hr
      rcases k.setState_state h with h | ⟨rfl, rfl⟩
      · exact .inl h
      · exact .inr (.inr (.inr (.inr (.inl ⟨⟨rfl, hr⟩, rfl⟩))))
  | erase q =>
    by_cases hp : p = q
    · subst hp
      refine .inr (.inr (.inr (.inr (.inr ⟨rfl, ?_⟩))))
      simpa [exec, Kernel.erase] using h.symm
    · refine .inl ?_
      simpa [exec, Kernel.erase, update_of_ne hp] using h
  | addLocked q => exact .inl (by simpa [exec] using h)
  | removeLocked q d => exact .inl (by simpa [exec] using h)
  | setCurrent new => exact .inl (by simpa [exec] using h)
  | _ => exact .inl h

/-- What the action of a signal says; `fault` is a handler for which the stack of the process has
no room. -/
inductive Handling
  | ignore
  | default
  | handler
  | fault
  deriving DecidableEq

def nextSignal (k : Kernel n m) (p : Fin m) : Option ℕ :=
  (List.range' 1 31).find? fun signal =>
    (k.pending p).testBit signal && !(k.masked p).testBit signal

/-- `signal_deliver_pending` of a process that has `signal` to take. -/
def deliverOps (p : Fin m) (signal : ℕ) (handling : Handling) : List (Op n m) :=
  if handling = .ignore ∧ signal ≠ sigkill ∧ signal ≠ sigstop then []
  else if stopSignal signal then [.stopStore p]
  else
    match handling with
    | .default => if ignoredByDefault signal then [] else [.terminateTest p (128 + signal)]
    | .fault => [.terminateTest p (128 + sigsegv)]
    | _ => []

/-- What may begin where no operation is left on a stack: the timer interrupt and the idle loop,
`signal_send`, `process_exit`, `process_waitpid`, `signal_deliver_pending` on the way back to user
mode, and `scheduler_wake` from elsewhere in the kernel. -/
inductive Call (m : ℕ)
  | yield
  | kill (pid signal : ℕ)
  | exit (code : ℕ)
  | waitpid (target : Option ℕ) (nohang : Bool)
  | deliver (handling : Handling)
  | wake (p : Fin m)
  deriving DecidableEq

/-- How a call begins, on the stack of process `who`; the calls that need one return at once where
there is none. -/
def begin (k : Kernel n m) (who : Option (Fin m)) : Call m → Kernel n m × List (Op n m)
  | .yield => (k, [.yield])
  | .kill pid signal => (k, [.send pid signal])
  | .exit code => (k, who.elim [] fun q => [.terminateTest q code, .yield])
  | .waitpid target nohang => (k, who.elim [] fun q => [.scan q target nohang 0 false])
  | .deliver handling =>
    match who with
    | none => (k, [])
    | some q =>
      match nextSignal k q with
      | none => (k, [])
      | some signal =>
        ({ k with
            pending := update k.pending q (k.pending q &&& (2 ^ 32 - 1 - 2 ^ signal)) },
          deliverOps q signal handling)
  | .wake p => (k, [.wakeTest p])

inductive Begins (who : Option (Fin m)) : Op n m → Prop
  | yield : Begins who .yield
  | send (pid signal : ℕ) : Begins who (.send pid signal)
  | terminate (p : Fin m) (code : ℕ) : Begins who (.terminateTest p code)
  | wait {q : Fin m} (target : Option ℕ) (nohang : Bool) (h : who = some q) :
    Begins who (.scan q target nohang 0 false)
  | stop {q : Fin m} (h : who = some q) : Begins who (.stopStore q)
  | wake (p : Fin m) : Begins who (.wakeTest p)

theorem deliverOps_begins {q : Fin m} {signal : ℕ} {handling : Handling} {op : Op n m}
    (h : op ∈ deliverOps q signal handling) : Begins (some q) op := by
  unfold deliverOps at h
  split at h
  · cases h
  · split at h
    · cases mem_singleton.mp h
      exact .stop rfl
    · cases handling with
      | default =>
        simp only at h
        split at h
        · cases h
        · cases mem_singleton.mp h
          exact .terminate q _
      | fault =>
        cases mem_singleton.mp h
        exact .terminate q _
      | ignore => cases h
      | handler => cases h

theorem begin_begins {k : Kernel n m} {who : Option (Fin m)} {what : Call m} {op : Op n m}
    (h : op ∈ (begin k who what).2) : Begins who op := by
  cases what with
  | yield =>
    cases mem_singleton.mp h
    exact .yield
  | kill pid signal =>
    cases mem_singleton.mp h
    exact .send pid signal
  | exit code =>
    cases who with
    | none => cases h
    | some q =>
      rcases mem_pair.mp h with rfl | rfl
      · exact .terminate q code
      · exact .yield
  | waitpid target nohang =>
    cases who with
    | none => cases h
    | some q =>
      cases mem_singleton.mp h
      exact .wait target nohang rfl
  | deliver handling =>
    simp only [begin] at h
    split at h
    · cases h
    · split at h
      · cases h
      · exact deliverOps_begins h
  | wake p =>
    cases mem_singleton.mp h
    exact .wake p

/-- Beginning a call changes nothing but pending signals. -/
theorem begin_kernel (k : Kernel n m) (who : Option (Fin m)) (what : Call m) :
    ∃ pending, (begin k who what).1 = { k with pending } := by
  cases what with
  | deliver handling =>
    simp only [begin]
    split
    · exact ⟨_, rfl⟩
    · split <;> exact ⟨_, rfl⟩
  | _ => exact ⟨_, rfl⟩

section Runs

/-- An operation to be done; `dying` if it belongs to a call of `process_terminate`. -/
structure Task (n m : ℕ) where
  dying : Bool
  op : Op n m
  deriving DecidableEq

/-- The kernel, and on each stack the operations that are left. -/
structure State (n m : ℕ) where
  kernel : Kernel n m
  code : Stack n m → List (Task n m)

/-- CPU `c` does the next operation of its stack, or begins a call. -/
inductive Action (n m : ℕ)
  | go (c : Fin n)
  | call (c : Fin n) (what : Call m)
  deriving DecidableEq

def Op.isTerminate : Op n m → Bool
  | .terminateTest _ _ => true
  | _ => false

/-- The operations that come from one with this `dying`. -/
def tasks (dying : Bool) (ops : List (Op n m)) : List (Task n m) :=
  ops.map fun op => ⟨dying || op.isTerminate, op⟩

/-- The process whose stack CPU `c` is on, as long as it is the current one. -/
def Kernel.caller (k : Kernel n m) (c : Fin n) : Option (Fin m) :=
  (k.current c).filter fun q => k.runsOn c = .inr q

namespace State

/-- CPU `c` has begun a call. -/
def begun (s : State n m) (c : Fin n) (what : Call m) : State n m :=
  let r := begin s.kernel (s.kernel.caller c) what
  ⟨r.1, update s.code (s.kernel.runsOn c) (tasks false r.2)⟩

theorem begun_code_self (s : State n m) (c : Fin n) (what : Call m) :
    (s.begun c what).code (s.kernel.runsOn c) =
      tasks false (begin s.kernel (s.kernel.caller c) what).2 :=
  update_self ..

theorem begun_code_of_ne (s : State n m) {i : Stack n m} (hi : i ≠ s.kernel.runsOn c)
    (what : Call m) : (s.begun c what).code i = s.code i :=
  update_of_ne hi ..

theorem mem_begun {s : State n m} {what : Call m} {i : Stack n m} {x : Task n m}
    (hx : x ∈ (s.begun c what).code i) : x ∈ s.code i ∨
      i = s.kernel.runsOn c ∧ ∃ op, Begins (s.kernel.caller c) op ∧ x = ⟨op.isTerminate, op⟩ := by
  by_cases hi : i = s.kernel.runsOn c
  · subst hi
    rw [begun_code_self] at hx
    obtain ⟨op, hop, rfl⟩ := mem_map.mp hx
    exact .inr ⟨rfl, op, begin_begins hop, rfl⟩
  · rw [begun_code_of_ne s hi] at hx
    exact .inl hx

variable [NeZero n]

/-- CPU `c` has done the operation `task`, with `rest` after it. -/
def done (s : State n m) (c : Fin n) (task : Task n m) (rest : List (Task n m)) : State n m :=
  let r := exec c s.kernel task.op
  ⟨r.1, update s.code (s.kernel.runsOn c) (tasks task.dying r.2 ++ rest)⟩

variable {s : State n m} {c : Fin n} {task : Task n m} {rest : List (Task n m)} {i : Stack n m}

theorem done_code_self : (s.done c task rest).code (s.kernel.runsOn c) =
      tasks task.dying (exec c s.kernel task.op).2 ++ rest :=
  update_self ..

theorem done_code_of_ne (hi : i ≠ s.kernel.runsOn c) : (s.done c task rest).code i = s.code i :=
  update_of_ne hi ..

theorem mem_done (hcode : s.code (s.kernel.runsOn c) = task :: rest) {x : Task n m}
    (hx : x ∈ (s.done c task rest).code i) : x ∈ s.code i ∨
      i = s.kernel.runsOn c ∧ ∃ op ∈ (exec c s.kernel task.op).2,
        x = ⟨task.dying || op.isTerminate, op⟩ := by
  by_cases hi : i = s.kernel.runsOn c
  · subst hi
    rw [done_code_self, mem_append] at hx
    rcases hx with hx | hx
    · obtain ⟨op, hop, rfl⟩ := mem_map.mp hx
      exact .inr ⟨rfl, op, hop, rfl⟩
    · rw [hcode]
      exact .inl (mem_cons_of_mem _ hx)
  · rw [done_code_of_ne hi] at hx
    exact .inl hx

end State

variable [NeZero n]

def next (s : State n m) : Action n m → Option (State n m × List (Fin n × Op n m))
  | .go c =>
    match s.code (s.kernel.runsOn c) with
    | [] => none
    | task :: rest => some (s.done c task rest, [(c, task.op)])
  | .call c what =>
    match s.code (s.kernel.runsOn c) with
    | [] => some (s.begun c what, [])
    | _ :: _ => none

abbrev Run (ok : State n m → Action n m → Prop) :=
  Histories.Run (next : State n m → Action n m → _) ok

inductive Change (s : State n m) : Action n m → State n m → Prop
  | go {c : Fin n} {task : Task n m} {rest : List (Task n m)}
      (hcode : s.code (s.kernel.runsOn c) = task :: rest) :
      Change s (.go c) (s.done c task rest)
  | call {c : Fin n} {what : Call m} (hcode : s.code (s.kernel.runsOn c) = []) :
      Change s (.call c what) (s.begun c what)

theorem next_change {s t : State n m} {a : Action n m} {e : List (Fin n × Op n m)}
    (h : next s a = some (t, e)) : Change s a t := by
  cases a with
  | go c =>
    simp only [next] at h
    split at h
    · cases h
    · rename_i hcode
      cases h
      exact .go hcode
  | call c what =>
    simp only [next] at h
    split at h
    · rename_i hcode
      cases h
      exact .call hcode
    · cases h

/-- The steps in which the operation that is done meets `P`. -/
def Doing (P : State n m → Fin n → Op n m → Prop) (s : State n m) : Action n m → Prop
  | .go c => ∀ task ∈ (s.code (s.kernel.runsOn c)).head?, P s c task.op
  | .call _ _ => True

instance (P : State n m → Fin n → Op n m → Prop) [∀ s c op, Decidable (P s c op)] (s : State n m)
    (a : Action n m) : Decidable (Doing P s a) :=
  match a with
  | .go c => inferInstanceAs (Decidable (∀ task ∈ (s.code (s.kernel.runsOn c)).head?, P s c task.op))
  | .call _ _ => .isTrue trivial

/-- The steps of the list, as long as the operations that are done meet `P`. -/
theorem Run.of_doing {P : State n m → Fin n → Op n m → Prop} [∀ s c op, Decidable (P s c op)]
    {s t : State n m} {l : List (Fin n × Op n m)} (steps : List (Action n m))
    (h : Histories.exec next (fun s a => decide (Doing P s a)) s steps = some (t, l)) :
    Run (Doing P) s l t :=
  Histories.Run.of_exec (fun s a => decide (Doing P s a)) (fun _ _ => of_decide_eq_true) steps h

/-- No operation is under way: a stack has none left, or waits in `task_switch` until a CPU comes
back to it. -/
def Quiet (s : State n m) : Prop := ∀ i, s.code i = [] ∨ s.code i = tasks false [.finishRead]

local instance twoCpus : NeZero 2 := ⟨two_ne_zero⟩

/-- Two CPUs and three processes: process `c` runs on CPU `c`, the third one is stopped; the first
is the parent of the others. -/
def seated : State 2 3 where
  kernel :=
    { used := fun _ => true
      pid := fun p => p + 1
      ppid := fun p => if p = 0 then 0 else 1
      state := fun p => if p = 2 then .stopped else .running
      exitCode := fun _ => 0
      cpuId := fun p => if p = 1 then 1 else 0
      onCpu := fun p => p ≠ 2
      queued := fun p => p ≠ 2
      pending := fun _ => 0
      masked := fun _ => 0
      queue := fun c => if c = 0 then [0] else [1]
      turn := fun _ => 0
      current := fun c => if c = 0 then some 0 else some 1
      switchedFrom := fun _ => none
      runsOn := fun c => if c = 0 then .inr 0 else .inr 1 }
  code := fun i => if i = .inr 0 ∨ i = .inr 1 then [] else tasks false [.finishRead]

theorem seated_quiet : Quiet seated := by
  unfold Quiet
  decide

end Runs

end Tach.Dispatch
