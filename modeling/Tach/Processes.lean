import Tach.Elf

/-!
The life of a process: `process_create`, `process_destroy`, `process_fork`,
`process_exec_image_args` and `process_terminate` of process.c, with `signal_send` of signal.c,
which the last one calls. A function that returns `NULL` fails here with `enomem`.
-/

namespace Tach.Processes

open Actions Frames KeyedLists Vmm Descriptors

section Source

variable (A : Arch)

/-- `vmm_switch_context` on the executing CPU; `none` is the context of the kernel. -/
def switchContext (c : Option Context) : Sys Unit :=
  Act.modify fun s =>
    if ∃ d ∈ c, s.spaces.root d = 0 then s
    else
      { s with spaces := { s.spaces with active := Function.update s.spaces.active s.cpu c } }

def allocateKernelStack (pid : Pid) : Sys Unit := fun s =>
  match s.procs pid with
  | none => ⟨.error .enomem, s, false⟩
  | some p =>
    match p.stack, s.spaces.mach.pmm.allocPages processStackPages with
    | some _, _ => ⟨.ok (), s, false⟩
    | none, none => ⟨.error .enomem, s, false⟩
    | none, some (first, pmm) =>
      ⟨.ok (), ({ s with spaces := s.spaces.onMach fun m => { m with pmm := pmm } }).onProcess pid
        fun p => { p with stack := some first }, false⟩

def UserContext.zero : UserContext := ⟨0, 0, 0, fun _ => 0⟩

/-- A process as `process_create` leaves it. -/
def freshProcess (pid ppid : ℕ) (name : List UInt8) (mm : Context) (fds : TableIndex) : Process :=
  { pid, ppid, name := name.take 63, state := .stopped, stack := none, entryPoint := 0, mm
    fds := some fds, exitCode := 0, cpuId := ⟨0, maxCpus_pos⟩, onCpu := false, queued := false
    userMode := false, execPending := false, stackTop := 0, stackBottom := 0, brkStart := 0
    brkEnd := 0, context := .zero, actions := fun _ => ⟨0, []⟩, pending := 0, blocked := 0 }

/-- `process_attach_stdio`. -/
def attachStdio (t : TableIndex) : Sys Unit := do
  let console ← Act.read System.console
  let _ ← Act.attempt (fd (fdAlloc t console 0))
  let _ ← Act.attempt (fd (fdAlloc t console 1))
  let _ ← Act.attempt (fd (fdAlloc t console 1))
  pure ()

/-- `process_create`: the first slot that is not used. -/
def processCreate (name : List UInt8) : Sys Pid := do
  if name = [] then Act.fail .enomem else
  match ← Act.read fun s => (List.finRange maxProcesses).find? fun i => (s.procs i).isNone with
  | none => Act.fail .enomem
  | some i => do
    let fds ← fd fdTableCreate
    match ← Act.attempt (vm (createContext A)) with
    | .error e => do
      fd (fdTableDestroy fds)
      Act.fail e
    | .ok mm => do
      Act.modify fun s =>
        { s.setProcess i (some (freshProcess s.nextPid
            ((s.currentProcess.map Process.pid).getD 0) name mm fds)) with
          nextPid := s.nextPid + 1 }
      attachStdio fds
      pure i

def freeKernelStack : Option ℕ → Vm Unit
  | none => pure ()
  | some first => Act.modify (Spaces.onMach fun m =>
      { m with pmm := m.pmm.freePagesFrom first processStackPages })

def destroyFds : Option TableIndex → Sys Unit
  | none => pure ()
  | some t => fd (fdTableDestroy t)

def processDestroy (pid : Pid) : Sys Unit := do
  match ← Act.read fun s => s.procs pid with
  | none => pure ()
  | some p => do
    schedulerRemove pid
    destroyFds p.fds
    vm (freeKernelStack p.stack)
    if (← Act.read System.running) = some pid then switchContext none else pure ()
    vm (destroyContext A p.mm)
    Act.modify fun s =>
      { s with current := fun cpu => if s.current cpu = some pid then none else s.current cpu }
    Act.modify (System.setProcess pid none)

/-- The descriptors of a child: a copy of those of the parent replaces its own. -/
def forkFiles (p : Process) (child : Pid) : Sys Unit := do
  match p.fds with
  | none => Act.fail .enomem
  | some source => do
    let descriptors ← fd (fdTableClone source)
    match ← Act.read fun s => s.procs child with
    | none => pure ()
    | some q => destroyFds q.fds
    Act.modify (System.onProcess child fun q => { q with fds := some descriptors })

/-- The address space of a child: a clone of the one of the parent replaces its own. -/
def forkMemory (p : Process) (child : Pid) : Sys Unit := do
  let clone ← vm (cloneContext A p.mm)
  match ← Act.read fun s => s.procs child with
  | none => pure ()
  | some q => vm (destroyContext A q.mm)
  Act.modify (System.onProcess child fun q => { q with mm := clone })

def inherit (p q : Process) : Process :=
  { q with
    ppid := p.pid
    entryPoint := p.entryPoint
    userMode := p.userMode
    stackTop := p.stackTop
    stackBottom := p.stackBottom
    brkStart := p.brkStart
    brkEnd := p.brkEnd
    context := { p.context with regs := Function.update p.context.regs 0 0 }
    actions := p.actions
    blocked := p.blocked
    state := .running }

/-- The steps of `process_fork` that may fail once there is a child. -/
def forkChild (p : Process) (child : Pid) : Sys Unit := do
  forkFiles p child
  forkMemory A p child
  allocateKernelStack child

def processFork (parent : Pid) : Sys Pid := do
  match ← Act.read fun s => s.procs parent with
  | none => Act.fail .enomem
  | some p => do
    let child ← processCreate A p.name
    match ← Act.attempt (forkChild A p child) with
    | .error _ => do
      processDestroy A child
      Act.fail .enomem
    | .ok () => do
      Act.modify (System.onProcess child (inherit p))
      schedulerAdd child
      pure child

/-- The arguments, the last one first, pushed on the stack page from `cursor` down; the value is
the last cursor and the addresses. -/
def pushStrings (frame stackPage : ℕ) : List (List ℕ) → ℕ → List ℕ → Vm (ℕ × List ℕ)
  | [], cursor, addresses => pure (cursor, addresses)
  | text :: rest, cursor, addresses =>
    let length := text.length + 1
    if 256 < length ∨ cursor - stackPage < length then Act.fail .e2big
    else do
      writeBytes (frame * pageSize + (cursor - length - stackPage)) (text ++ [0])
      pushStrings frame stackPage rest (cursor - length) ((cursor - length) :: addresses)

/-- The bytes of a pointer, the lowest first. -/
def wordBytes (word : ℕ) : List ℕ := (List.range (A.bits / 8)).map fun i => word / 2 ^ (8 * i) % 256

def userStackPage : ℕ := userStackTop - pageSize

/-- The stack page of a new image: the arguments, their number and their addresses; the value is
the stack pointer. -/
def buildStack (frame : ℕ) (argv : List (List ℕ)) : Vm ℕ := do
  if 16 < argv.length then Act.fail .e2big
  else
    let r ← pushStrings frame userStackPage argv.reverse userStackTop []
    let cursor := r.1 / 16 * 16
    let sp := (cursor - (argv.length + 3) * (A.bits / 8)) / 16 * 16
    if sp < userStackPage then Act.fail .e2big
    else
      writeBytes (frame * pageSize + (sp - userStackPage))
        ((argv.length :: r.2 ++ [0, 0]).flatMap (wordBytes A))
      pure sp

/-- The part of `process_exec_image_args` that fills the new context; the value is the entry
point and the stack pointer. -/
def prepareImage (pid : Pid) (c : Context) (image : Image) (argv : List (List ℕ)) :
    Sys (ℕ × ℕ) := do
  let entry ← vm (elfLoad A image c)
  allocateKernelStack pid
  let frame ← vm (vmmMapAllocated A c (userStackPage / pageSize) userData)
  let sp ← vm (buildStack A frame argv)
  pure (entry, sp)

def execProcess (entry sp : ℕ) (p : Process) : Process :=
  { p with
    entryPoint := entry
    userMode := true
    execPending := true
    stackTop := userStackTop
    stackBottom := userStackPage
    brkStart := 0x40000000
    brkEnd := 0x40000000
    context := ⟨entry, sp, 0x202, fun _ => 0⟩
    pending := 0
    state := .running }

def baseName (name : List UInt8) : List UInt8 :=
  name.foldl (fun base c => if c = 47 then [] else base ++ [c]) []

/-- `process_exec_image_args`. -/
def processExec (pid : Pid) (image : Image) (name : List UInt8) (argv : List (List ℕ)) :
    Sys Unit := do
  match ← Act.read fun s => s.procs pid with
  | none => Act.fail .einval
  | some p =>
    if image = [] then Act.fail .einval
    else
      let c ← vm (createContext A)
      match ← Act.attempt (prepareImage A pid c image argv) with
      | .error e => do
        vm (destroyContext A c)
        Act.fail e
      | .ok (entry, sp) => do
        Act.modify (System.onProcess pid fun p => { p with mm := c })
        if (← Act.read System.running) = some pid then switchContext (some c) else pure ()
        vm (destroyContext A p.mm)
        Act.modify (System.onProcess pid (execProcess entry sp))
        schedulerAdd pid
        if name = [] then pure ()
        else Act.modify (System.onProcess pid fun p => { p with name := (baseName name).take 63 })

def sigkill : ℕ := 9

def sigchld : ℕ := 17

def sigcont : ℕ := 18

def validSignal (signal : ℕ) : Bool := 0 < signal ∧ signal < 32

def schedulerWake (pid : Pid) : Sys Unit := do
  if ← Act.read fun s => (s.procs pid).any fun p => p.state = .blocked then
    Act.modify (System.onProcess pid fun p => { p with state := .running })
    schedulerAdd pid
  else pure ()

/-- `signal_send` of a signal other than `SIGKILL` to a process. -/
def postSignal (pid : Pid) (signal : ℕ) : Sys Unit := do
  if ← Act.read fun s => (s.procs pid).any fun p => signal = sigcont ∧ p.state = .stopped then
    Act.modify (System.onProcess pid fun p => { p with state := .running })
    schedulerAdd pid
  else pure ()
  Act.modify (System.onProcess pid fun p => { p with pending := p.pending ||| 2 ^ signal })
  schedulerWake pid

/-- What `process_terminate` does once the process is a zombie. -/
def buryProcess (pid : Pid) (p : Process) : Sys Unit := do
  schedulerRemove pid
  destroyFds p.fds
  Act.modify (System.onProcess pid fun p => { p with fds := none })
  match ← Act.read fun s => s.lookup p.ppid with
  | none => pure ()
  | some parent => do
    postSignal parent sigchld
    schedulerWake parent

def processTerminate (pid : Pid) (code : ℕ) : Sys Unit := do
  match ← Act.read fun s => s.procs pid with
  | none => pure ()
  | some p =>
    if p.state = .zombie then pure ()
    else
      Act.modify (System.onProcess pid fun p => { p with exitCode := code, state := .zombie })
      buryProcess pid p

def signalSend (pid signal : ℕ) : Sys Unit := do
  if validSignal signal = false then Act.fail .einval
  else
    match ← Act.read fun s => s.lookup pid with
    | none => Act.fail .esrch
    | some target =>
      if signal = sigkill then processTerminate target (128 + signal)
      else postSignal target signal

end Source

end Tach.Processes
