import Tach.Descriptors
import Tach.Vmm

/-!
The processes of process.c with all that hangs on them: address spaces, tables of descriptors,
run queues. A process is named by its index in `g_processes`; left out are its user and group, its
working directory, the argument of a kernel thread and the counters of the scheduler.
`process_create` gives each process an address space, so `mm` is never `NULL`.
-/

namespace Tach.Processes

open Actions KeyedLists Vmm Descriptors
open Sectors (Errno)

def maxProcesses : ℕ := 32

instance : NeZero maxProcesses := ⟨by decide⟩

def processStackPages : ℕ := 4

abbrev Pid := Fin maxProcesses

abbrev Cpu := Fin maxCpus

/-- `PROCESS_STATE_`; a slot that is not used has no process. -/
inductive RunState
  | running
  | sleeping
  | stopped
  | zombie
  | blocked
  deriving DecidableEq

/-- `struct user_context`. -/
structure UserContext where
  pc : ℕ
  sp : ℕ
  flags : ℕ
  regs : Fin 16 → ℕ

instance sixteenRegs : NeZero 16 := ⟨by decide⟩

/-- `sigaction_t`; `rest` are the bytes of the mask and the flags, which no function reads. -/
structure SigAction where
  handler : ℕ
  rest : List ℕ

/-- `stack` is the first frame of the kernel stack; `fds` is `none` where it is `NULL`; `actions`
are those of the 32 signals, `pending` and `blocked` are masks. -/
structure Process where
  pid : ℕ
  ppid : ℕ
  name : List UInt8
  state : RunState
  stack : Option ℕ
  entryPoint : ℕ
  mm : Context
  fds : Option TableIndex
  exitCode : ℕ
  cpuId : Cpu
  onCpu : Bool
  queued : Bool
  userMode : Bool
  execPending : Bool
  stackTop : ℕ
  stackBottom : ℕ
  brkStart : ℕ
  brkEnd : ℕ
  context : UserContext
  actions : ℕ → SigAction
  pending : ℕ
  blocked : ℕ

/-- `struct cpu_runqueue`. -/
structure Queue where
  processes : List Pid
  next : ℕ

/-- `cpu` executes; `current` is `g_current`, `switchedFrom` is `g_switched_from`. -/
structure System where
  spaces : Spaces
  files : Files
  procs : Pid → Option Process
  nextPid : ℕ
  cpu : Cpu
  current : Cpu → Option Pid
  switchedFrom : Cpu → Option Pid
  queues : Cpu → Queue
  cpuCount : ℕ
  console : ℕ

namespace System

def running (s : System) : Option Pid := s.current s.cpu

/-- `process_get_current`. -/
def currentProcess (s : System) : Option Process := s.running.bind s.procs

def setProcess (p : Pid) (q : Option Process) (s : System) : System :=
  { s with procs := Function.update s.procs p q }

def onProcess (p : Pid) (f : Process → Process) (s : System) : System :=
  s.setProcess p ((s.procs p).map f)

/-- `process_get`. -/
def lookup (s : System) (pid : ℕ) : Option Pid :=
  (List.finRange maxProcesses).find? fun i => (s.procs i).any fun p => p.pid = pid

end System

abbrev Sys (α : Type) := Act System Errno α

def vm {α : Type} (m : Vm α) : Sys α := Act.zoom System.spaces (fun v s => { s with spaces := v }) m

def fd {α : Type} (m : Fd α) : Sys α := Act.zoom System.files (fun v s => { s with files := v }) m

theorem vm_ends {α : Type} {m : Vm α} {s : System} {P : Except Errno α → Spaces → Prop}
    (h : Ends m s.spaces P) : Ends (vm m) s fun r t => ∃ v, t = { s with spaces := v } ∧ P r v :=
  ⟨_, rfl, h⟩

/-- The CPU with the shortest queue among the first `n`. -/
def lightest (s : System) : ℕ → Cpu → Cpu
  | 0, best => best
  | n + 1, best =>
    let best := lightest s n best
    if h : n < maxCpus then
      if (s.queues ⟨n, h⟩).processes.length < (s.queues best).processes.length then ⟨n, h⟩ else best
    else best

def schedulerAdd (pid : Pid) : Sys Unit :=
  Act.modify fun s =>
    if (s.procs pid).any fun p => p.queued then s
    else
      let target := lightest s s.cpuCount ⟨0, maxCpus_pos⟩
      let queue := s.queues target
      if pid ∈ queue.processes ∨ maxProcesses ≤ queue.processes.length then s
      else
        { s with
          queues := Function.update s.queues target
            { queue with processes := queue.processes ++ [pid] } }.onProcess pid
          fun p => { p with cpuId := target, queued := true }

def schedulerRemove (pid : Pid) : Sys Unit :=
  Act.modify fun s =>
    match s.procs pid with
    | none => s
    | some p =>
      let queue := s.queues p.cpuId
      if pid ∈ queue.processes then
        let left := queue.processes.erase pid
        { s with
          queues := Function.update s.queues p.cpuId
            ⟨left, if left.length ≤ queue.next then 0 else queue.next⟩ }.onProcess pid
          fun p => { p with queued := false }
      else s

end Tach.Processes
