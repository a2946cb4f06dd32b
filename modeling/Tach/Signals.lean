import Tach.Processes

/-!
Actions and delivery of signals: the rest of signal.c and `sys_sigaction`. A handler is called by
way of the saved registers of the process; for x86_64 the address to return to is written through
the physical address of the stack page, for i686 a frame is copied to the stack.
-/

namespace Tach.Processes

open Actions Frames Vmm

def sigsegv : ℕ := 11

def sigstop : ℕ := 19

/-- `SIGSTOP`, `SIGTSTP`, `SIGTTIN` and `SIGTTOU`. -/
def stopSignal (signal : ℕ) : Bool := signal = 19 ∨ signal = 20 ∨ signal = 21 ∨ signal = 22

def ignoredByDefault (signal : ℕ) : Bool :=
  signal = sigchld ∨ signal = 28 ∨ signal = 23 ∨ signal = sigcont

def sigDfl : ℕ := 0

def sigIgn : ℕ := 1

def SigAction.Calls (a : SigAction) : Prop := a.handler ≠ sigDfl ∧ a.handler ≠ sigIgn

def nextSignal (p : Process) : Option ℕ :=
  (List.range' 1 31).find? fun signal => p.pending.testBit signal && !p.blocked.testBit signal

/-- `signal_set_action`; the value is the old action. -/
def signalSetAction (pid : Pid) (signal : ℕ) (action : Option SigAction) : Sys SigAction := do
  match ← Act.read fun s => s.procs pid with
  | none => Act.fail .einval
  | some p =>
    if validSignal signal = false then Act.fail .einval
    else
      match action with
      | none => pure (p.actions signal)
      | some a =>
        if signal = sigkill ∨ signal = sigstop then Act.fail .einval
        else do
          Act.modify (System.onProcess pid fun p =>
            { p with actions := Function.update p.actions signal a })
          pure (p.actions signal)

section Source

variable (A : Arch)

/-- `sizeof(sigaction_t)`. -/
def sigactionSize : ℕ := if A.bits = 64 then 48 else 40

def copyFromCaller (p : Process) (address size : ℕ) : Sys (List ℕ) :=
  if address = 0 ∧ 0 < size then Act.fail .efault
  else if p.userMode then copyFromUser A p.mm address size
  else Act.read fun s => (List.range size).map fun i =>
    s.spaces.mach.ram ((address + i) / pageSize) ((address + i) % pageSize)

def copyToCaller (p : Process) (address : ℕ) (bytes : List ℕ) : Sys Unit :=
  if address = 0 ∧ bytes ≠ [] then Act.fail .efault
  else if p.userMode then copyToUser A p.mm address bytes
  else vm (writeBytes address bytes)

def fetchAction (p : Process) (action : ℕ) : Sys (Option SigAction) := do
  if action = 0 then pure none
  else
    let bytes ← copyFromCaller A p action (sigactionSize A)
    let handler := (List.range (A.bits / 8)).foldl (fun n i => n + bytes.getD i 0 * 256 ^ i) 0
    pure (some ⟨handler, bytes.drop (A.bits / 8)⟩)

def sysSigaction (signal action old : ℕ) : Sys Unit := do
  match ← Act.read System.running, ← Act.read System.currentProcess with
  | some pid, some p =>
    if p.userMode ∧ action ≠ 0 ∧ A.validUserRange action (sigactionSize A) = false then
      Act.fail .efault
    else if p.userMode ∧ old ≠ 0 ∧ A.validUserRange old (sigactionSize A) = false then
      Act.fail .efault
    else
      let new ← fetchAction A p action
      let before ← signalSetAction pid signal new
      if old = 0 then pure ()
      else
        -- an action that was never set is all zero
        let bytes := (wordBytes A before.handler ++ before.rest).rightpad (sigactionSize A) 0
        copyToCaller A p old bytes
  | _, _ => Act.fail (if action = 0 then .einval else .efault)

/-- The registers with which a handler starts, with the stack pointer and one more register. -/
def enterHandler (p : Process) (signal sp : ℕ) (regs : Fin 16 → ℕ) : Process :=
  { p with context := { p.context with pc := (p.actions signal).handler, sp := sp, regs := regs } }

/-- The end of `signal_deliver_pending` for x86_64. -/
def callHandler64 (pid : Pid) (p : Process) (signal : ℕ) : Sys ℕ := do
  let sp := below A p.context.sp 8
  let physical ← Act.read fun s => s.spaces.resolve p.mm sp
  if physical = 0 then
    processTerminate pid (128 + sigsegv)
    Act.fail .efault
  else
    vm (writeBytes physical (wordBytes A p.context.pc))
    Act.modify (System.onProcess pid fun p =>
      enterHandler p signal sp (Function.update p.context.regs 1 signal))
    pure signal

/-- The end of `signal_deliver_pending` for i686; the first word is the code that removes the
argument of the handler. -/
def callHandler32 (pid : Pid) (p : Process) (signal : ℕ) : Sys ℕ := do
  let frame := below A p.context.sp 16
  let words := [0xc304c483, frame, signal, p.context.pc]
  match ← Act.attempt (copyToUser A p.mm frame (words.flatMap (wordBytes A))) with
  | .error _ => do
    processTerminate pid (128 + sigsegv)
    Act.fail .efault
  | .ok () => do
    Act.modify (System.onProcess pid fun p =>
      enterHandler p signal ((frame + 4) % 2 ^ A.bits) p.context.regs)
    pure signal

def takeSignal (signal : ℕ) (p : Process) : Process :=
  { p with pending := p.pending &&& (2 ^ 32 - 1 - 2 ^ signal) }

/-- `signal_deliver_pending` on the saved registers of the process. -/
def signalDeliverPending (pid : Pid) : Sys ℕ := do
  match ← Act.read fun s => s.procs pid with
  | none => Act.fail .einval
  | some p =>
    match nextSignal p with
    | none => pure 0
    | some signal => do
      Act.modify (System.onProcess pid (takeSignal signal))
      if (p.actions signal).handler = sigIgn ∧ signal ≠ sigkill ∧ signal ≠ sigstop then pure signal
      else if stopSignal signal then do
        Act.modify (System.onProcess pid fun p => { p with state := .stopped })
        schedulerRemove pid
        pure signal
      else if (p.actions signal).handler = sigDfl then
        if ignoredByDefault signal then pure signal
        else do
          processTerminate pid (128 + signal)
          pure signal
      else if A.bits = 64 then callHandler64 A pid p signal
      else callHandler32 A pid p signal

end Source

end Tach.Processes
