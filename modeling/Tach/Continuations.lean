import Tach.ProcessViews
import Tach.Targets

/-!
Where the processes are: a model of the way out of the kernel, `x86_64_syscall_entry` and
`isr_handler`, with the rest of scheduler.c. A process is about to run for the first time, in user
mode, in the kernel on behalf of the user, or in the loop `for (;;) scheduler_yield();` that it
enters when it is not `RUNNING` after the delivery of signals.

This loop has no exit. A process that was stopped there and is continued by `SIGCONT` is scheduled
again and never returns to user mode. Runs are fine as long as no `SIGCONT` finds a process that
is stopped in the loop.
-/

namespace Tach.Processes

open Function Actions Vmm

/-- The loop of `scheduler_pick_next`: `n` more rounds from position `next` of the queue. The value
is the process and the position behind it. -/
def pickFrom (s : System) (queue : List Pid) : ℕ → ℕ → Option Pid × ℕ
  | 0, next => (none, next)
  | n + 1, next =>
    let after := if queue.length ≤ next + 1 then 0 else next + 1
    match queue[next]? with
    | none => pickFrom s queue n after
    | some i =>
      if (s.procs i).any fun p => p.state = .running ∧ p.onCpu = false then (some i, after)
      else pickFrom s queue n after

def schedulerPickNext : Sys (Option Pid) := do
  let queue ← Act.read fun s => s.queues s.cpu
  let r ← Act.read fun s => pickFrom s queue.processes queue.processes.length queue.next
  Act.modify fun s =>
    { s with queues := update s.queues s.cpu { queue with next := r.2 } }
  pure r.1

def processSetCurrent (next : Option Pid) : Sys Unit := do
  Act.modify fun s => { s with current := update s.current s.cpu next }
  match next with
  | none => pure ()
  | some i => Act.modify fun s => s.onProcess i fun p => { p with cpuId := s.cpu, onCpu := true }

def schedulerFinishSwitch : Sys Unit := do
  match ← Act.read fun s => s.switchedFrom s.cpu with
  | none => pure ()
  | some prev => do
    Act.modify fun s => { s with switchedFrom := update s.switchedFrom s.cpu none }
    Act.modify (System.onProcess prev fun p => { p with onCpu := false })

/-- `scheduler_context_switch` and `scheduler_switch_to_idle`: from `prev` to `next`, where `none`
is the idle loop. What stands behind `task_switch` is run by the process that is resumed. -/
def switchTo (prev next : Option Pid) : Sys Unit := do
  Act.modify fun s => { s with switchedFrom := update s.switchedFrom s.cpu prev }
  processSetCurrent next
  let mm ← Act.read fun s => (next.bind s.procs).map Process.mm
  switchContext mm
  schedulerFinishSwitch

def schedulerYield : Sys Unit := do
  let prev ← Act.read System.running
  match ← schedulerPickNext with
  | none =>
    if ← Act.read fun s => (prev.bind s.procs).any fun p => p.state ≠ .running then
      switchTo prev none
    else pure ()
  | some next => if prev = some next then pure () else switchTo prev (some next)

def schedulerBlockCurrent : Sys Unit := do
  match ← Act.read System.running with
  | none => pure ()
  | some i => do
    Act.modify (System.onProcess i fun p => { p with state := .blocked })
    schedulerYield

/-- `process_exit`, without the loop behind it. -/
def processExit (code : ℕ) : Sys Unit := do
  match ← Act.read System.running with
  | none => pure ()
  | some i => do
    processTerminate i code
    schedulerYield

section Model

inductive Place
  | start
  | user
  | kernel
  | loop
  | gone
  deriving DecidableEq

structure Kernel where
  sys : System
  place : Pid → Place

namespace Kernel

def move (k : Kernel) (i : Pid) (x : Place) (s : System) : Kernel :=
  ⟨s, update k.place i x⟩

def runningAt (k : Kernel) (x : Place) : Option Pid := k.sys.running.filter fun i => k.place i = x

end Kernel

/-- What a CPU may do next. `enter` is `process_trampoline`; `trap` saves the registers of the
user and `leave` is the way out, with the registers that the call leaves in the frame; `block` and
`exit` are calls on behalf of the user. `yield` is a round of the loop, a timer tick, or a call of
`scheduler_yield` anywhere else. -/
inductive Move
  | cpu (c : Cpu)
  | enter
  | trap (context : UserContext)
  | send (pid signal : ℕ)
  | block
  | exit (code : ℕ)
  | yield
  | leave (context : UserContext)

variable (A : Arch)

def saveResult (context : UserContext) (p : Process) : Process :=
  if p.execPending then
    { p with execPending := false
             context := { p.context with regs := update p.context.regs 0 0 } }
  else { p with context := context }

/-- The end of `x86_64_syscall_entry`. -/
def leaveKernel (k : Kernel) (i : Pid) (context : UserContext) : Kernel :=
  let s := (signalDeliverPending A i (k.sys.onProcess i (saveResult context))).state
  k.move i (if (s.procs i).any fun p => p.state = .running then .user else .loop) s

def Move.perform (k : Kernel) : Move → Kernel
  | .cpu c => { k with sys := { k.sys with cpu := c } }
  | .enter =>
    match k.runningAt .start with
    | none => k
    | some i => k.move i .user (signalDeliverPending A i k.sys).state
  | .trap context =>
    match k.runningAt .user with
    | none => k
    | some i => k.move i .kernel (k.sys.onProcess i fun p => { p with context := context })
  | .send pid signal => { k with sys := (signalSend pid signal k.sys).state }
  | .block =>
    match k.runningAt .kernel with
    | none => k
    | some _ => { k with sys := (schedulerBlockCurrent k.sys).state }
  | .exit code =>
    match k.runningAt .kernel with
    | none => k
    | some i => k.move i .gone (processExit code k.sys).state
  | .yield => { k with sys := (schedulerYield k.sys).state }
  | .leave context =>
    match k.runningAt .kernel with
    | none => k
    | some i => leaveKernel A k i context

/-- The states that runs reach whose moves are allowed by `ok`. At first no process runs. -/
inductive Visited (ok : Kernel → Move → Prop) : Kernel → Prop
  | start {k : Kernel} (hplace : ∀ i, k.place i = .start) (hcurrent : ∀ c, k.sys.current c = none) :
      Visited ok k
  | step {k : Kernel} (m : Move) (h : Visited ok k) (hok : ok k m) : Visited ok (m.perform A k)

/-- From this place a process can get back to user mode, where `context_to_frame` takes it. -/
def CanReturn (i : Pid) (x : Place) : Prop :=
  ∃ k k', k.place i = x ∧ Relation.ReflTransGen (fun k k' => ∃ m : Move, k' = m.perform A k) k k' ∧
    k'.place i = .user

/-- A process that is `RUNNING` and in a run queue can get back to user mode. -/
def Continues (k : Kernel) : Prop :=
  ∀ i p, k.sys.procs i = some p → p.state = .running →
    i ∈ (k.sys.queues p.cpuId).processes → CanReturn A i (k.place i)

/-- A `SIGCONT` does not find a process that is stopped in the loop. -/
def Move.Meets (k : Kernel) : Move → Prop
  | .send pid signal => signal = sigcont → ∀ i p, k.sys.lookup pid = some i →
      k.sys.procs i = some p → p.state = .stopped → k.place i ≠ .loop
  | _ => True

end Model

variable {f : Process → Process} {x : Place}

section Effects

variable {C : Set Pid} {s t u : System} {i : Pid}

/-- What signals from elsewhere do to a process: it is terminated, woken, or continued if `c`. -/
def Eased (c : Prop) (p q : Process) : Prop :=
  q.onCpu = p.onCpu ∧ (q.state = p.state ∨ q.state = .zombie ∨
    p.state = .blocked ∧ q.state = .running ∨ c ∧ p.state = .stopped ∧ q.state = .running)

theorem Eased.refl (c : Prop) (p : Process) : Eased c p p := ⟨rfl, .inl rfl⟩

theorem Eased.trans {c : Prop} {p q r : Process} (h : Eased c p q) (h' : Eased c q r) :
    Eased c p r := by
  obtain ⟨hcpu, h⟩ := h
  obtain ⟨hcpu', h'⟩ := h'
  refine ⟨hcpu'.trans hcpu, ?_⟩
  rcases h' with h' | h' | ⟨hq, h'⟩ | ⟨hc, hq, h'⟩
  · rwa [h']
  · exact .inr (.inl h')
  · rw [hq] at h
    rcases h with h | h | ⟨-, h⟩ | ⟨-, -, h⟩
    · exact .inr (.inr (.inl ⟨h.symm, h'⟩))
    all_goals cases h
  · rw [hq] at h
    rcases h with h | h | ⟨-, h⟩ | ⟨-, -, h⟩
    · exact .inr (.inr (.inr ⟨hc, h.symm, h'⟩))
    all_goals cases h

/-- Every process is eased; those in `C` may be continued. -/
def Eases (C : Set Pid) (s t : System) : Prop :=
  t.core.2 = s.core.2 ∧ ∀ j, Option.Rel (Eased (j ∈ C)) (s.procs j) (t.procs j)

section Options

variable {α : Type} {r r' r'' : α → α → Prop} {x y z : Option α} {a : α}

theorem optionRel_refl (h : ∀ a, r a a) (x : Option α) : Option.Rel r x x := by
  cases x with
  | none => exact .none
  | some a => exact .some (h a)

theorem optionRel_trans (h : ∀ a b c, r a b → r' b c → r'' a c) (hxy : Option.Rel r x y)
    (hyz : Option.Rel r' y z) : Option.Rel r'' x z := by
  cases hxy with
  | none =>
    cases hyz
    exact .none
  | some hab =>
    cases hyz with
    | some hbc => exact .some (h _ _ _ hab hbc)

theorem optionRel_left (h : Option.Rel r x y) (hx : x = some a) : ∃ b, y = some b ∧ r a b := by
  subst hx
  cases h with
  | some hab => exact ⟨_, rfl, hab⟩

theorem optionRel_right (h : Option.Rel r x y) (hy : y = some a) : ∃ b, x = some b ∧ r b a := by
  subst hy
  cases h with
  | some hba => exact ⟨_, rfl, hba⟩

end Options

instance : OfCore (Eases C) where
  refl s := ⟨rfl, fun j => optionRel_refl (Eased.refl _) _⟩
  trans s t u h h' :=
    ⟨h'.1.trans h.1, fun j => optionRel_trans (fun _ _ _ hpq => hpq.trans) (h.2 j) (h'.2 j)⟩
  same s t h := by
    refine ⟨congrArg Prod.snd h, fun j => ?_⟩
    rw [show t.procs = s.procs from congrArg Prod.fst h]
    exact optionRel_refl (Eased.refl _) _

theorem eases_onProcess
    (h : ∀ p, s.procs i = some p → Eased (i ∈ C) p (f p)) : Eases C s (s.onProcess i f) := by
  refine ⟨rfl, fun j => ?_⟩
  by_cases hj : j = i
  · rw [hj, onProcess_self]
    cases hp : s.procs i with
    | none => exact .none
    | some p => exact .some (h p hp)
  · rw [onProcess_ne hj]
    exact optionRel_refl (Eased.refl _) _

theorem eases_same (s : System)
    (h : ∀ p, (f p).onCpu = p.onCpu ∧ (f p).state = p.state) : Eases C s (s.onProcess i f) :=
  eases_onProcess fun p _ => ⟨(h p).1, .inl (h p).2⟩

theorem schedulerAdd_eases (i : Pid) : Steps (Eases C) (schedulerAdd i) :=
  steps_schedulerAdd fun s _ _ => eases_same s fun _ => ⟨rfl, rfl⟩

theorem schedulerRemove_eases (i : Pid) : Steps (Eases C) (schedulerRemove i) :=
  steps_schedulerRemove fun s _ => eases_same s fun _ => ⟨rfl, rfl⟩

theorem schedulerWake_eases (i : Pid) : Steps (Eases C) (schedulerWake i) := by
  intro s
  refine Ends.read_bind ?_
  split
  · rename_i hblocked
    refine Ends.modify_bind ((schedulerAdd_eases i).after (eases_onProcess fun p hp =>
      ⟨rfl, .inr (.inr (.inl ⟨?_, rfl⟩))⟩))
    rw [hp] at hblocked
    simpa using hblocked
  · exact Ends.ret (Std.Refl.refl s)

theorem postSignal_eases {signal : ℕ}
    (h : signal = sigcont → ∀ p, s.procs i = some p → p.state = .stopped → i ∈ C) :
    Ends (postSignal i signal) s fun _ t => Eases C s t := by
  have htail : ∀ t, Eases C s t → Ends (do
      Act.modify (System.onProcess i fun p => { p with pending := p.pending ||| 2 ^ signal })
      schedulerWake i : Sys Unit) t fun _ u => Eases C s u := by
    intro t ht
    refine Ends.modify_bind ((schedulerWake_eases i).after ?_)
    exact IsTrans.trans _ _ _ ht (eases_same t fun _ => ⟨rfl, rfl⟩)
  refine Ends.read_bind ?_
  split
  · rename_i hstopped
    have hrun : ∀ p, s.procs i = some p → Eased (i ∈ C) p { p with state := .running } := by
      intro p hp
      rw [hp] at hstopped
      have hboth : signal = sigcont ∧ p.state = .stopped := by simpa using hstopped
      exact ⟨rfl, .inr (.inr (.inr ⟨h hboth.1 p hp hboth.2, hboth.2, rfl⟩))⟩
    refine Ends.modify_bind ?_
    exact (Total.modify _).bind_ends ((schedulerAdd_eases i).after (eases_onProcess hrun))
      fun _ t ht => htail t ht
  · exact htail s (Std.Refl.refl s)

theorem buryProcess_eases (i : Pid) (p : Process) : Steps (Eases C) (buryProcess i p) := by
  refine Steps.bind (schedulerRemove_eases i) fun _ => Steps.bind (steps_destroyFds _) fun _ =>
    Steps.bind (Steps.modify fun s => eases_same s fun _ => ⟨rfl, rfl⟩) fun _ =>
    Steps.read_bind fun parent => ?_
  split
  · exact Steps.ret ()
  · refine Steps.bind (fun s => postSignal_eases fun h => ?_) fun _ => schedulerWake_eases _
    exact absurd h (by decide)

theorem processTerminate_eases (i : Pid) (code : ℕ) :
    Steps (Eases C) (processTerminate i code) := by
  refine Steps.read_bind fun r => ?_
  split
  · exact Steps.ret ()
  · exact Steps.ite (Steps.ret ()) (Steps.bind
      (Steps.modify fun s => eases_onProcess fun p _ => ⟨rfl, .inr (.inl rfl)⟩)
      fun _ => buryProcess_eases i _)

theorem signalSend_eases {pid signal : ℕ} (h : signal = sigcont → ∀ i p, s.lookup pid = some i →
      s.procs i = some p → p.state = .stopped → i ∈ C) :
    Ends (signalSend pid signal) s fun _ t => Eases C s t := by
  unfold signalSend
  split
  · exact Ends.fail (Std.Refl.refl s)
  · refine Ends.read_bind ?_
    cases hi : s.lookup pid with
    | none => exact Ends.fail (Std.Refl.refl s)
    | some i =>
      dsimp only
      split
      · exact processTerminate_eases i _ s
      · exact postSignal_eases fun hcont p => h hcont i p hi

theorem callHandler64_eases (A : Arch) (i : Pid) (p : Process) (signal : ℕ) :
    Steps (Eases C) (callHandler64 A i p signal) :=
  Steps.read_bind fun _ => Steps.ite
    (Steps.bind (processTerminate_eases i _) fun _ => Steps.fail _)
    (Steps.bind (steps_vm _) fun _ => Steps.bind
      (Steps.modify fun s => eases_same s fun _ => ⟨rfl, rfl⟩) fun _ => Steps.ret _)

theorem callHandler32_eases (A : Arch) (i : Pid) (p : Process) (signal : ℕ) :
    Steps (Eases C) (callHandler32 A i p signal) := by
  refine Steps.bind (Steps.attempt (steps_copyToUser (fun s _ _ => eases_same s fun _ => ⟨rfl, rfl⟩)
    _ _ _)) fun r => ?_
  cases r with
  | error e => exact Steps.bind (processTerminate_eases i _) fun _ => Steps.fail _
  | ok _ =>
    exact Steps.bind (Steps.modify fun s => eases_same s fun _ => ⟨rfl, rfl⟩) fun _ => Steps.ret _

/-- A delivery may stop the process too. -/
theorem signalDeliverPending_eases (A : Arch) (i : Pid) (s : System) :
    Ends (signalDeliverPending A i) s fun _ t => Eases ∅ s t ∨
      Eases ∅ (s.onProcess i fun p => { p with state := .stopped }) t := by
  cases hp : s.procs i with
  | none => exact ends_signalDeliverPending_none hp (.inl (Std.Refl.refl s))
  | some p =>
    have htake : ∀ signal, Eases ∅ s (s.onProcess i (takeSignal signal)) :=
      fun signal => eases_same s fun _ => ⟨rfl, rfl⟩
    refine ends_signalDeliverPending hp (.inl (Std.Refl.refl s)) (fun signal => .inl (htake signal))
      (fun signal _ => ?_) (fun signal => ?_) fun signal _ _ _ => ?_
    · refine Ends.modify_bind ((Total.modify _).bind_ends
        ((schedulerRemove_eases i).after ?_) fun _ t ht => Ends.ret (.inr ht))
      refine ⟨rfl, fun j => ?_⟩
      by_cases hj : j = i
      · rw [hj, onProcess_self, onProcess_self, onProcess_self, hp]
        exact .some ⟨rfl, .inl rfl⟩
      · rw [onProcess_ne hj, onProcess_ne hj, onProcess_ne hj]
        exact optionRel_refl (Eased.refl _) _
    · exact ((processTerminate_eases i _).after (htake signal)).bind
        (fun _ t ht => Ends.ret (.inl ht)) fun _ t ht => .inl ht
    · refine Ends.mono ?_ fun _ t ht => .inl ht
      split
      · exact (callHandler64_eases A i p signal).after (htake signal)
      · exact (callHandler32_eases A i p signal).after (htake signal)

end Effects

section Invariant

variable {A : Arch} {C : Set Pid} {E : Set Cpu} {k : Kernel} {s t : System} {i : Pid}

/-- A process in the loop is stopped or has ended; one that executes has its flag and is not
blocked, except on a CPU in `E` where it is about to give way. -/
structure Sane (E : Set Cpu) (k : Kernel) : Prop where
  loop : ∀ i p, k.place i = .loop → k.sys.procs i = some p → p.state = .stopped ∨ p.state = .zombie
  gone : ∀ i p, k.place i = .gone → k.sys.procs i = some p → p.state = .zombie
  current : ∀ c i, k.sys.current c = some i → ∃ p, k.sys.procs i = some p ∧ p.onCpu = true ∧
    (c ∉ E → p.state ≠ .blocked ∧ p.state ≠ .sleeping)
  single : ∀ c d i, k.sys.current c = some i → k.sys.current d = some i → c = d

theorem Sane.mono {E' : Set Cpu} (h : Sane E k) (hE : E ⊆ E') : Sane E' k :=
  ⟨h.loop, h.gone, fun c i hc => (h.current c i hc).imp fun _ hp => ⟨hp.1, hp.2.1, fun hn =>
    hp.2.2 fun he => hn (hE he)⟩, h.single⟩

def Ended (i : Pid) (s : System) : Prop := ∀ p, s.procs i = some p → p.state = .zombie

theorem Ended.eases (h : Ended i s) (he : Eases C s t) : Ended i t := by
  intro q hq
  obtain ⟨p, hp, -, heased⟩ := optionRel_right (he.2 i) hq
  rw [h p hp] at heased
  rcases heased with heq | hz | ⟨hb, -⟩ | ⟨-, hb, -⟩
  · exact heq
  · exact hz
  all_goals cases hb

theorem Sane.eases (h : Sane E k) (he : Eases C k.sys t) (hC : ∀ i ∈ C, k.place i ≠ .loop) :
    Sane E ⟨t, k.place⟩ := by
  have hcurrent : t.current = k.sys.current := congrArg (fun x => x.2.1) he.1
  refine ⟨fun i q hi hq => ?_, fun i q hi => Ended.eases (fun p => h.gone i p hi) he q,
    fun c i hc => ?_, ?_⟩
  · obtain ⟨p, hp, -, heased⟩ := optionRel_right (he.2 i) hq
    have hstate := h.loop i p hi hp
    rcases heased with heq | hz | ⟨hb, -⟩ | ⟨hcont, -⟩
    · rwa [heq]
    · exact .inr hz
    · rw [hb] at hstate
      rcases hstate with h | h <;> cases h
    · exact absurd hi (hC i hcont)
  · rw [hcurrent] at hc
    obtain ⟨p, hp, hcpu, hready⟩ := h.current c i hc
    obtain ⟨q, hq, hon, heased⟩ := optionRel_left (he.2 i) hp
    refine ⟨q, hq, hon.trans hcpu, fun hE => ?_⟩
    obtain ⟨hnb, hns⟩ := hready hE
    rcases heased with heq | hz | ⟨hb, -⟩ | ⟨-, -, hr⟩
    · rw [heq]
      exact ⟨hnb, hns⟩
    · rw [hz]
      exact ⟨nofun, nofun⟩
    · exact absurd hb hnb
    · rw [hr]
      exact ⟨nofun, nofun⟩
  · rw [hcurrent]
    exact h.single

/-- A process moves to a place that asks nothing of it, or fits its state. -/
theorem Sane.move (h : Sane E k) (hloop : x = .loop → ∀ p, k.sys.procs i = some p →
      p.state = .stopped ∨ p.state = .zombie)
    (hgone : x = .gone → ∀ p, k.sys.procs i = some p → p.state = .zombie) :
    Sane E (k.move i x k.sys) := by
  refine ⟨fun j p hj => ?_, fun j p hj => ?_, h.current, h.single⟩
  · by_cases hji : j = i
    · subst hji
      exact hloop ((update_self ..).symm.trans hj) p
    · exact h.loop j p ((update_of_ne hji ..).symm.trans hj)
  · by_cases hji : j = i
    · subst hji
      exact hgone ((update_self ..).symm.trans hj) p
    · exact h.gone j p ((update_of_ne hji ..).symm.trans hj)

theorem pickFrom_some {queue : List Pid} {n next : ℕ} (h : (pickFrom s queue n next).1 = some i) :
    ∃ p, s.procs i = some p ∧ p.state = .running ∧ p.onCpu = false := by
  fun_induction pickFrom s queue n next with
  | case1 => cases h
  | case2 n next after hnone ih => exact ih h
  | case3 n next after j hj hfit =>
    obtain ⟨p, hp, hboth⟩ := (Option.any_eq_true _ _).mp hfit
    have hji : j = i := Option.some.inj h
    exact ⟨p, hji ▸ hp, of_decide_eq_true hboth⟩
  | case4 n next after j hj hfit ih => exact ih h

theorem schedulerPickNext_ends (s : System) :
    Ends schedulerPickNext s fun r t => t.core = s.core ∧ ∃ x, r = .ok x ∧
      ∀ i, x = some i → ∃ p, s.procs i = some p ∧ p.state = .running ∧ p.onCpu = false :=
  ⟨rfl, _, rfl, fun _ hi => pickFrom_some hi⟩

structure Switched (prev next : Option Pid) (s t : System) : Prop where
  current : t.current = update s.current s.cpu next
  procs : ∀ j, Option.Rel (fun p q => q.state = p.state ∧
    (q.onCpu = if prev = some j then false else if next = some j then true else p.onCpu))
    (s.procs j) (t.procs j)

theorem onCpu_onProcess {b : Bool}
    (hf : ∀ p, (f p).state = p.state ∧ (f p).onCpu = b) (s : System) (i j : Pid) :
    Option.Rel (fun p q => q.state = p.state ∧ q.onCpu = if some i = some j then b else p.onCpu)
      (s.procs j) ((s.onProcess i f).procs j) := by
  by_cases hj : j = i
  · rw [hj, onProcess_self]
    cases s.procs i with
    | none => exact .none
    | some p => exact .some ⟨(hf p).1, by rw [if_pos rfl, (hf p).2]⟩
  · rw [onProcess_ne hj]
    have hij : some i ≠ some j := fun h => hj (Option.some.inj h).symm
    exact optionRel_refl (fun p => ⟨rfl, by rw [if_neg hij]⟩) _

theorem processSetCurrent_ends (next : Option Pid) (s : System) :
    Ends (processSetCurrent next) s fun r t => r = .ok () ∧ t.cpu = s.cpu ∧
      t.switchedFrom = s.switchedFrom ∧ t.current = update s.current s.cpu next ∧
      ∀ j, Option.Rel (fun p q => q.state = p.state ∧
        q.onCpu = if next = some j then true else p.onCpu) (s.procs j) (t.procs j) := by
  refine Ends.modify_bind ?_
  cases next with
  | none => exact Ends.ret ⟨rfl, rfl, rfl, rfl, fun j => optionRel_refl (fun _ => ⟨rfl, rfl⟩) _⟩
  | some i =>
    exact Ends.modify ⟨rfl, rfl, rfl, rfl, onCpu_onProcess (fun _ => ⟨by rfl, by rfl⟩) _ i⟩

theorem schedulerFinishSwitch_ends (s : System) :
    Ends schedulerFinishSwitch s fun r t => r = .ok () ∧ t.current = s.current ∧
      ∀ j, Option.Rel (fun p q => q.state = p.state ∧
        q.onCpu = if s.switchedFrom s.cpu = some j then false else p.onCpu)
        (s.procs j) (t.procs j) := by
  refine Ends.read_bind ?_
  cases hprev : s.switchedFrom s.cpu with
  | none => exact Ends.ret ⟨rfl, rfl, fun j => optionRel_refl (fun _ => ⟨rfl, rfl⟩) _⟩
  | some i =>
    exact Ends.modify_bind (Ends.modify ⟨rfl, rfl, onCpu_onProcess (fun _ => ⟨by rfl, by rfl⟩) _ i⟩)

theorem switchTo_ends (prev next : Option Pid) (s : System) :
    Ends (switchTo prev next) s fun r t => r = .ok () ∧ Switched prev next s t := by
  refine Ends.modify_bind ((processSetCurrent_ends next _).bind ?_ fun e t ht => by cases ht.1)
  rintro _ t ⟨-, hcpu, hfrom, hcurrent, hprocs⟩
  refine Ends.read_bind ?_
  have hctx : Ends (switchContext ((next.bind t.procs).map Process.mm)) t fun r u =>
      r = .ok () ∧ u.core = t.core := by
    refine Ends.modify ⟨rfl, ?_⟩
    split
    · rfl
    · rfl
  refine hctx.bind ?_ fun e u hu => by cases hu.1
  rintro _ u ⟨-, hcore⟩
  have hucpu : u.cpu = t.cpu := congrArg (fun x => x.2.1) hcore
  have hufrom : u.switchedFrom = t.switchedFrom := congrArg (fun x => x.2.2.2) hcore
  have hprev : u.switchedFrom u.cpu = prev := by
    rw [hufrom, hfrom, hucpu, hcpu]
    exact update_self ..
  refine (schedulerFinishSwitch_ends u).mono ?_
  rintro r v ⟨hr, hv, hlast⟩
  refine ⟨hr, ?_, fun j => ?_⟩
  · rw [hv, show u.current = t.current from congrArg (fun x => x.2.2.1) hcore, hcurrent]
  · have hflag := hlast j
    rw [hprev, show u.procs = t.procs from congrArg Prod.fst hcore] at hflag
    refine optionRel_trans (fun p q r hpq hqr => ⟨hqr.1.trans hpq.1, ?_⟩) (hprocs j) hflag
    rw [hqr.2, hpq.2]

theorem Sane.switched {prev next : Option Pid} (h : Sane {k.sys.cpu} k)
    (hprev : k.sys.running = prev) (hne : prev ≠ none → prev ≠ next)
    (hnext : ∀ i, next = some i → ∃ p, k.sys.procs i = some p ∧ p.state = .running ∧
      p.onCpu = false) (ht : Switched prev next k.sys t) : Sane ∅ ⟨t, k.place⟩ := by
  have hidle : ∀ c i, k.sys.current c = some i → next ≠ some i := by
    intro c i hc hi
    obtain ⟨p, hp, hcpu, -⟩ := h.current c i hc
    obtain ⟨q, hq, -, hoff⟩ := hnext i hi
    rw [hp, Option.some_inj] at hq
    rw [hq, hoff] at hcpu
    cases hcpu
  refine ⟨fun i q hi hq => ?_, fun i q hi hq => ?_, fun c i hc => ?_, fun c d i hc hd => ?_⟩
  · obtain ⟨p, hp, hstate, -⟩ := optionRel_right (ht.procs i) hq
    rw [hstate]
    exact h.loop i p hi hp
  · obtain ⟨p, hp, hstate, -⟩ := optionRel_right (ht.procs i) hq
    rw [hstate]
    exact h.gone i p hi hp
  · rw [ht.current] at hc
    by_cases hcpu : c = k.sys.cpu
    · -- the process that was picked
      rw [hcpu, update_self] at hc
      obtain ⟨p, hp, hrun, -⟩ := hnext i hc
      obtain ⟨q, hq, hstate, hflag⟩ := optionRel_left (ht.procs i) hp
      have hni : prev ≠ some i := fun heq => hne (by rw [heq]; nofun) (heq.trans hc.symm)
      refine ⟨q, hq, ?_, fun _ => ?_⟩
      · rw [hflag, if_neg hni, if_pos hc]
      · rw [hstate, hrun]
        exact ⟨nofun, nofun⟩
    · rw [update_of_ne hcpu] at hc
      obtain ⟨p, hp, hon, hready⟩ := h.current c i hc
      have hni : prev ≠ some i := fun heq => hcpu (h.single c _ i hc (hprev.trans heq))
      obtain ⟨q, hq, hstate, hflag⟩ := optionRel_left (ht.procs i) hp
      refine ⟨q, hq, ?_, fun _ => ?_⟩
      · rw [hflag, if_neg hni, if_neg (hidle c i hc), hon]
      · rw [hstate]
        exact hready hcpu
  · rw [ht.current] at hc hd
    by_cases hcc : c = k.sys.cpu
    · by_cases hdc : d = k.sys.cpu
      · rw [hcc, hdc]
      · rw [hcc, update_self] at hc
        rw [update_of_ne hdc] at hd
        exact absurd hc (hidle d i hd)
    · rw [update_of_ne hcc] at hc
      by_cases hdc : d = k.sys.cpu
      · rw [hdc, update_self] at hd
        exact absurd hd (hidle c i hc)
      · rw [update_of_ne hdc] at hd
        exact h.single c d i hc hd

/-- The executing process is ready after all. -/
theorem Sane.stay (h : Sane {k.sys.cpu} k)
    (hrun : ∀ i p, k.sys.running = some i → k.sys.procs i = some p → p.state = .running) :
    Sane ∅ k := by
  refine ⟨h.loop, h.gone, fun c i hc => ?_, h.single⟩
  obtain ⟨p, hp, hon, hready⟩ := h.current c i hc
  refine ⟨p, hp, hon, fun _ => ?_⟩
  by_cases hcpu : c = k.sys.cpu
  · rw [hcpu] at hc
    rw [hrun i p hc hp]
    exact ⟨nofun, nofun⟩
  · exact hready hcpu

/-- `scheduler_yield` gives way to a process that is ready, and stays only with one that is. -/
theorem Sane.yield {place : Pid → Place} (h : Sane {s.cpu} ⟨s, place⟩) :
    Ends schedulerYield s fun _ t => Sane ∅ ⟨t, place⟩ := by
  refine Ends.read_bind ((schedulerPickNext_ends s).bind ?_ ?_)
  · rintro x t ⟨hcore, y, hy, hpick⟩
    cases hy
    have hcpu : s.cpu = t.cpu := (congrArg (fun x => x.2.1) hcore).symm
    have hrunning : t.running = s.running := by
      rw [System.running, System.running, hcpu,
        show t.current = s.current from congrArg (fun x => x.2.2.1) hcore]
    have hprocs : t.procs = s.procs := congrArg Prod.fst hcore
    have ht : Sane {t.cpu} ⟨t, place⟩ := hcpu ▸ h.eases (OfCore.same (R := Eases ∅) _ _ hcore) nofun
    cases x with
    | none =>
      refine Ends.read_bind ?_
      split
      · refine (switchTo_ends _ none t).mono fun _ u hu => ?_
        exact Sane.switched (k := ⟨t, place⟩) ht hrunning (fun h => h) nofun hu.2
      · rename_i hready
        refine Ends.ret (ht.stay fun i p hi hp => ?_)
        rw [← hrunning] at hready
        simpa [hi, show t.procs i = some p from hp] using hready
    | some next =>
      rw [← hprocs] at hpick
      dsimp only
      split
      · rename_i hsame
        refine Ends.ret (ht.stay fun i p hi hp => ?_)
        have hnext : next = i := Option.some.inj (hsame.symm.trans (hrunning.symm.trans hi))
        obtain ⟨q, hq, hrun, -⟩ := hpick next rfl
        rw [hnext, hp, Option.some_inj] at hq
        rw [hq, hrun]
      · rename_i hother
        refine (switchTo_ends _ (some next) t).mono fun _ u hu => ?_
        exact Sane.switched (k := ⟨t, place⟩) ht hrunning (fun _ => hother) hpick hu.2
  · rintro e t ⟨-, x, hx, -⟩
    cases hx

theorem runningAt_eq_some (h : k.runningAt x = some i) : k.sys.running = some i ∧ k.place i = x := by
  obtain ⟨hi, hx⟩ := Option.filter_eq_some_iff.mp h
  exact ⟨hi, of_decide_eq_true hx⟩

theorem Sane.setState (h : Sane ∅ k) {x : RunState}
    (hloop : k.place i = .loop → x = .stopped ∨ x = .zombie)
    (hgone : k.place i = .gone → x = .zombie)
    (hready : ∀ c, k.sys.current c = some i → c ∉ E → x ≠ .blocked ∧ x ≠ .sleeping) :
    Sane E ⟨k.sys.onProcess i fun p => { p with state := x }, k.place⟩ := by
  have hself : ∀ p, (k.sys.onProcess i fun p => { p with state := x }).procs i = some p →
      p.state = x := by
    intro p hp
    rw [onProcess_self] at hp
    obtain ⟨q, -, rfl⟩ := Option.map_eq_some_iff.mp hp
    rfl
  refine ⟨fun j p hj hp => ?_, fun j p hj hp => ?_, fun c j hc => ?_, h.single⟩
  · by_cases hji : j = i
    · subst hji
      rw [hself p hp]
      exact hloop hj
    · exact h.loop j p hj ((onProcess_ne hji _ _).symm.trans hp)
  · by_cases hji : j = i
    · subst hji
      rw [hself p hp]
      exact hgone hj
    · exact h.gone j p hj ((onProcess_ne hji _ _).symm.trans hp)
  · obtain ⟨p, hp, hon, hp'⟩ := h.current c j hc
    by_cases hji : j = i
    · subst hji
      exact ⟨{ p with state := x }, by rw [onProcess_self, hp]; rfl, hon, hready c hc⟩
    · exact ⟨p, (onProcess_ne hji _ _).trans hp, hon, fun _ => hp' (Set.notMem_empty c)⟩

theorem Sane.deliver (h : Sane ∅ k) (hplace : k.place i ≠ .gone) :
    Ends (signalDeliverPending A i) k.sys fun _ t => Sane ∅ ⟨t, k.place⟩ ∧
      t.current = k.sys.current := by
  refine (signalDeliverPending_eases A i k.sys).mono fun _ t ht => ?_
  rcases ht with ht | ht
  · exact ⟨h.eases ht fun _ hi => hi.elim, congrArg (fun x => x.2.1) ht.1⟩
  · refine ⟨?_, congrArg (fun x => x.2.1) ht.1⟩
    have hstop : Sane ∅ ⟨k.sys.onProcess i fun p => { p with state := .stopped }, k.place⟩ :=
      h.setState (fun _ => .inl rfl) (fun hg => absurd hg hplace) fun _ _ _ => ⟨nofun, nofun⟩
    exact hstop.eases ht fun _ hi => hi.elim

theorem Sane.leave (h : Sane ∅ k) (hi : k.runningAt .kernel = some i) (context : UserContext) :
    Sane ∅ (leaveKernel A k i context) := by
  obtain ⟨hrunning, hplace⟩ := runningAt_eq_some hi
  have hsave : Sane ∅ ⟨k.sys.onProcess i (saveResult context), k.place⟩ := by
    refine h.eases (C := ∅) (eases_same _ fun p => ?_) fun _ hi => hi.elim
    unfold saveResult
    split
    · exact ⟨rfl, rfl⟩
    · exact ⟨rfl, rfl⟩
  have hdeliver := hsave.deliver (A := A) (by rw [hplace]; nofun)
  unfold Ends at hdeliver
  unfold leaveKernel
  generalize (signalDeliverPending A i (k.sys.onProcess i (saveResult context))).state = t
    at hdeliver
  obtain ⟨ht, hcurrent⟩ := hdeliver
  refine Sane.move ht (fun hx p hp => ?_) fun hx => ?_
  · -- not blocked, because it executes; not running, because it enters the loop
    obtain ⟨q, hq, -, hready⟩ := ht.current k.sys.cpu i ((congrFun hcurrent _).trans hrunning)
    have hpq : q = p := Option.some.inj (hq.symm.trans hp)
    obtain ⟨hnb, hns⟩ := hready (Set.notMem_empty _)
    have hnr : p.state ≠ .running := by
      intro hrun
      rw [hp] at hx
      simp [hrun] at hx
    rw [hpq] at hnb hns
    cases hstate : p.state with
    | stopped => exact .inl rfl
    | zombie => exact .inr rfl
    | running => exact absurd hstate hnr
    | blocked => exact absurd hstate hnb
    | sleeping => exact absurd hstate hns
  · split at hx
    · cases hx
    · cases hx

theorem steps_schedulerYield {β : Type} {g : Process → β}
    (hcpu : ∀ p c b, g { p with cpuId := c, onCpu := b } = g p) :
    Steps (Kept g) schedulerYield := by
  have hfinish : Steps (Kept g) schedulerFinishSwitch := by
    refine Steps.read_bind fun r => ?_
    cases r with
    | none => exact Steps.ret ()
    | some j => exact Steps.bind (Steps.modify fun s => kept_of_procs rfl) fun _ =>
        Steps.modify fun s => kept_onProcess (fun p => hcpu p p.cpuId false) s j
  have hset : ∀ next, Steps (Kept g) (processSetCurrent next) := by
    intro next
    refine Steps.bind (Steps.modify fun s => kept_of_procs rfl) fun _ => ?_
    cases next with
    | none => exact Steps.ret ()
    | some j => exact Steps.modify fun s => kept_onProcess (fun p => hcpu p s.cpu true) s j
  have hswitch : ∀ prev next, Steps (Kept g) (switchTo prev next) := fun _ next =>
    Steps.bind (Steps.modify fun s => kept_of_procs rfl) fun _ => Steps.bind (hset next) fun _ =>
      Steps.read_bind fun _ => Steps.bind (steps_switchContext _) fun _ => hfinish
  refine Steps.read_bind fun prev => Steps.bind (Steps.read_bind fun _ => Steps.read_bind fun _ =>
    Steps.bind (Steps.modify fun s => kept_of_procs rfl) fun _ => Steps.ret _) fun r => ?_
  cases r with
  | none => exact Steps.read_bind fun _ => Steps.ite (hswitch _ _) (Steps.ret ())
  | some next => exact Steps.ite (Steps.ret ()) (hswitch _ _)

theorem processTerminate_ended (i : Pid) (code : ℕ) (s : System) :
    Ends (processTerminate i code) s fun _ t => Ended i t := by
  refine Ends.read_bind ?_
  cases hp : s.procs i with
  | none =>
    refine Ends.ret fun p hp' => ?_
    rw [hp] at hp'
    cases hp'
  | some p =>
    dsimp only
    split
    · rename_i hz
      refine Ends.ret fun q hq => ?_
      rw [hp, Option.some_inj] at hq
      rw [← hq, hz]
    · have hended : Ended i (s.onProcess i fun p => { p with exitCode := code, state := .zombie }) := by
        intro q hq
        rw [onProcess_self, hp] at hq
        cases hq
        rfl
      exact Ends.modify_bind ((buryProcess_eases (C := ∅) i p _).mono fun _ _ ht => hended.eases ht)

theorem Sane.exit (h : Sane ∅ k) (hi : k.sys.running = some i) (code : ℕ) :
    Ends (processExit code) k.sys fun _ t => Sane ∅ ⟨t, k.place⟩ ∧ Ended i t := by
  refine Ends.read_bind ?_
  rw [hi]
  refine ((processTerminate_eases (C := ∅) i code k.sys).and
    (processTerminate_ended i code k.sys)).bind ?_ ?_
  · rintro _ t ⟨ht, hended⟩
    have hsane : Sane ∅ ⟨t, k.place⟩ := h.eases ht fun _ hi => hi.elim
    have hyield := (hsane.mono (Set.empty_subset {t.cpu})).yield
    refine (Ends.and hyield (steps_schedulerYield (g := Process.state) (fun _ _ _ => rfl) t)).mono ?_
    rintro _ u ⟨hu, hkept⟩
    refine ⟨hu, fun q hq => ?_⟩
    obtain ⟨p, hp, hstate⟩ := seen_eq_some.mp ((congrFun hkept i).trans (seen_of_some hq))
    exact hstate ▸ hended p hp
  · rintro e t ⟨ht, hended⟩
    exact ⟨h.eases ht fun _ hi => hi.elim, hended⟩

/-- A move on behalf of the process that executes at some place. -/
theorem Sane.at {f : Pid → Kernel} (h : Sane ∅ k)
    (hf : ∀ i, k.runningAt x = some i → Sane ∅ (f i)) :
    Sane ∅ (match k.runningAt x with | none => k | some i => f i) := by
  split
  · exact h
  · rename_i i hi
    exact hf i hi

/-- A move that meets the condition keeps the invariant. -/
theorem Sane.perform {m : Move} (h : Sane ∅ k) (hok : m.Meets k) : Sane ∅ (m.perform A k) := by
  cases m with
  | cpu c => exact ⟨h.loop, h.gone, h.current, h.single⟩
  | enter =>
    refine h.at fun i hi => ?_
    have hplace := (runningAt_eq_some hi).2
    have hdeliver := h.deliver (A := A) (by rw [hplace]; nofun)
    exact Sane.move hdeliver.1 nofun nofun
  | trap context =>
    refine h.at fun i hi => ?_
    have hsave : Sane ∅ ⟨k.sys.onProcess i fun p => { p with context := context }, k.place⟩ :=
      h.eases (C := ∅) (eases_same _ fun _ => ⟨rfl, rfl⟩) fun _ hi => hi.elim
    exact Sane.move hsave nofun nofun
  | send pid signal =>
    have hspec := signalSend_eases hok
    exact h.eases hspec fun _ hi => hi
  | block =>
    refine h.at fun i hi => ?_
    obtain ⟨hrunning, hplace⟩ := runningAt_eq_some hi
    have hblocked : Sane {k.sys.cpu}
        ⟨k.sys.onProcess i fun p => { p with state := .blocked }, k.place⟩ := by
      refine h.setState (fun hx => ?_) (fun hx => ?_) fun c hc hne => ?_
      · cases hplace.symm.trans hx
      · cases hplace.symm.trans hx
      · exact absurd (h.single c k.sys.cpu i hc hrunning) hne
    have hspec : Ends schedulerBlockCurrent k.sys fun _ t => Sane ∅ ⟨t, k.place⟩ := by
      refine Ends.read_bind ?_
      rw [hrunning]
      exact Ends.modify_bind hblocked.yield
    exact hspec
  | exit code =>
    refine h.at fun i hi => ?_
    obtain ⟨hsane, hended⟩ := h.exit (runningAt_eq_some hi).1 code
    exact Sane.move hsane nofun fun _ => hended
  | yield => exact (h.mono (Set.empty_subset _)).yield
  | leave context => exact h.at fun i hi => h.leave hi context

/-- In a run whose moves meet the condition every state is sane. -/
theorem sane_of_visited (h : Visited A (fun k m => m.Meets k) k) : Sane ∅ k := by
  induction h with
  | start hplace hcurrent =>
    refine ⟨fun i p hi => ?_, fun i p hi => ?_, fun c i hc => ?_, fun c d i hc => ?_⟩
    · cases (hplace i).symm.trans hi
    · cases (hplace i).symm.trans hi
    · cases (hcurrent c).symm.trans hc
    · cases (hcurrent c).symm.trans hc
  | step m _ hok ih => exact ih.perform hok

end Invariant

section Returns

variable {A : Arch} {k : Kernel} {i : Pid} {p : Process}

theorem signalDeliverPending_idle {s : System} (hp : s.procs i = some p) (h : p.pending = 0) :
    (signalDeliverPending A i s).state = s := by
  have hnone : nextSignal p = none := by
    rw [nextSignal, h, List.find?_eq_none]
    simp
  have hspec : Ends (signalDeliverPending A i) s fun _ t => t = s := by
    refine Ends.read_bind ?_
    rw [hp]
    dsimp only
    rw [hnone]
    exact Ends.ret rfl
  exact hspec

/-- From each other place no or one step takes a process to user mode. -/
theorem canReturn_of_place (k : Kernel) (p : Process)
    (hx : x = .start ∨ x = .user ∨ x = .kernel) : CanReturn A i x := by
  rcases hx with rfl | rfl | rfl
  · refine ⟨⟨{ k.sys with current := fun _ => some i }, fun _ => .start⟩, _, rfl,
      .single ⟨.enter, rfl⟩, ?_⟩
    exact update_self ..
  · exact ⟨⟨k.sys, fun _ => .user⟩, _, rfl, .refl, rfl⟩
  · -- the process runs and no signal is pending
    set q : Process := { p with state := .running, pending := 0 }
    set s : System := System.setProcess i (some q) { k.sys with current := fun _ => some i }
    have hsq : s.procs i = some q := update_self ..
    have hsaved : (s.onProcess i (saveResult q.context)).procs i =
        some (saveResult q.context q) := by
      rw [onProcess_self, hsq, Option.map_some]
    have hkeep : (saveResult q.context q).pending = 0 ∧
        (saveResult q.context q).state = .running := by
      unfold saveResult
      split
      · exact ⟨rfl, rfl⟩
      · exact ⟨rfl, rfl⟩
    refine ⟨⟨s, fun _ => .kernel⟩, _, rfl, .single ⟨.leave q.context, rfl⟩, ?_⟩
    change (leaveKernel A ⟨s, fun _ => .kernel⟩ i q.context).place i = .user
    unfold leaveKernel
    dsimp only
    rw [signalDeliverPending_idle hsaved hkeep.1, hsaved]
    simp [Kernel.move, hkeep.2]

/-- The loop is never left. -/
theorem place_loop_perform (m : Move) (h : k.place i = .loop) : (m.perform A k).place i = .loop := by
  have hmove : ∀ {x : Place} {j : Pid} (y : Place) (s : System), k.runningAt x = some j → x ≠ .loop →
      (k.move j y s).place i = .loop := by
    intro x j y s hj hx
    have hij : i ≠ j := fun heq => hx ((runningAt_eq_some hj).2.symm.trans (heq ▸ h))
    exact (update_of_ne hij ..).trans h
  cases m with
  | cpu | send | yield => exact h
  | block =>
    dsimp only [Move.perform]
    split
    · exact h
    · exact h
  | enter | trap | exit | leave =>
    dsimp only [Move.perform]
    split
    · exact h
    · rename_i j hj
      exact hmove _ _ hj nofun

theorem not_canReturn_loop : ¬CanReturn A i .loop := by
  rintro ⟨k, k', hk, hsteps, hk'⟩
  have hloop : k'.place i = .loop := by
    clear hk'
    induction hsteps with
    | refl => exact hk
    | tail _ hstep ih =>
      obtain ⟨m, rfl⟩ := hstep
      exact place_loop_perform m ih
  rw [hloop] at hk'
  cases hk'

/-- In a run whose moves meet the condition, a process that runs can get back to user mode. -/
theorem continues_of_visited (h : Visited A (fun k m => m.Meets k) k) : Continues A k := by
  intro i p hp hrun _
  have hsane := sane_of_visited h
  refine canReturn_of_place k p ?_
  cases hplace : k.place i with
  | start => exact .inl rfl
  | user => exact .inr (.inl rfl)
  | kernel => exact .inr (.inr rfl)
  | loop =>
    rcases hsane.loop i p hplace hp with h | h <;> cases hrun.symm.trans h
  | gone =>
    have hz := hsane.gone i p hplace hp
    rw [hrun] at hz
    cases hz

def waiting : Process :=
  { freshProcess 1 0 [105] ⟨0, by decide⟩ ⟨0, Descriptors.tablePoolSize_pos⟩ with
    state := .running, queued := true }

def oneProcess : System :=
  { smallSystem 8 with
    procs := update (fun _ => none) 0 (some waiting)
    queues := fun _ => ⟨[0], 0⟩ }

def performMoves (A : Arch) (k : Kernel) : List Move → Kernel
  | [] => k
  | m :: ms => performMoves A (m.perform A k) ms

theorem visited_performMoves (ms : List Move) (h : Visited A (fun _ _ => True) k) :
    Visited A (fun _ _ => True) (performMoves A k ms) := by
  induction ms generalizing k with
  | nil => exact h
  | cons m ms ih => exact ih (h.step m trivial)

/-- The process calls the kernel, is sent `SIGSTOP` and is stopped; the CPU is idle; `SIGCONT`. -/
def stopMoves : List Move :=
  [.yield, .enter, .trap .zero, .send 1 19, .leave .zero, .yield, .send 1 18]

theorem continued_in_loop : ∃ k, Visited x86 (fun _ _ => True) k ∧ ¬Continues x86 k := by
  have hstart : Visited x86 (fun _ _ => True) ⟨oneProcess, fun _ => .start⟩ :=
    .start (fun _ => rfl) fun _ => rfl
  refine ⟨_, visited_performMoves stopMoves hstart, fun h => ?_⟩
  set k := performMoves x86 ⟨oneProcess, fun _ => .start⟩ stopMoves with hk
  have hstate : (k.sys.procs 0).map (fun p => (p.state, decide (0 ∈ (k.sys.queues p.cpuId).processes)))
      = some (.running, true) := by
    rw [hk]
    decide +kernel
  have hplace : k.place 0 = .loop := by
    rw [hk]
    decide +kernel
  obtain ⟨p, hp, hboth⟩ := Option.map_eq_some_iff.mp hstate
  obtain ⟨hrun, hqueue⟩ := Prod.mk.inj hboth
  have hreturn := h 0 p hp hrun (of_decide_eq_true hqueue)
  rw [hplace] at hreturn
  exact not_canReturn_loop hreturn

/-- The process calls the kernel and returns, then waits in its queue. -/
theorem continues_after_call : ∃ k, Visited x86 (fun k m => m.Meets k) k ∧ Continues x86 k ∧
    ∃ p, k.sys.procs 0 = some p ∧ p.state = .running ∧ 0 ∈ (k.sys.queues p.cpuId).processes := by
  have hstart : Visited x86 (fun k m => m.Meets k) ⟨oneProcess, fun _ => .start⟩ :=
    .start (fun _ => rfl) fun _ => rfl
  have hrun := (((hstart.step .yield trivial).step .enter trivial).step (.trap .zero) trivial).step
    (.leave .zero) trivial
  refine ⟨_, hrun, continues_of_visited hrun, ?_⟩
  set k := Move.perform x86 _ (.leave .zero) with hk
  have hstate : (k.sys.procs 0).map (fun p => (p.state, decide (0 ∈ (k.sys.queues p.cpuId).processes)))
      = some (.running, true) := by
    rw [hk]
    decide +kernel
  obtain ⟨p, hp, hboth⟩ := Option.map_eq_some_iff.mp hstate
  obtain ⟨hstate, hqueue⟩ := Prod.mk.inj hboth
  exact ⟨p, hp, hstate, of_decide_eq_true hqueue⟩

end Returns

end Tach.Processes
