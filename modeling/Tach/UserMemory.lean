import Tach.System

/-!
The memory of the running process: the page faults and user copies of vmm.c, stores of a user
program, and `sys_brk`, `sys_mmap` and `sys_munmap` of syscall.c.
-/

namespace Tach.Processes

open Actions Frames Paging Vmm

/-- `PROCESS_USER_STACK_TOP`. -/
def userStackTop : ℕ := 0x7ff00000

/-- `PROCESS_USER_STACK_MAX`. -/
def userStackMax : ℕ := 0x800000

section Source

variable (A : Arch)

def below (a n : ℕ) : ℕ := (a + 2 ^ A.bits - n) % 2 ^ A.bits

def userData : Flags := ⟨true, true, false, false, false⟩

/-- `vmm_handle_fault`. -/
def handleFault (address : ℕ) (isWrite : Bool) : Sys Unit := do
  match ← Act.read System.running, ← Act.read System.currentProcess with
  | some pid, some p =>
    if p.userMode = false then Act.fail .efault
    else
      let page := address / pageSize
      if (← Act.read fun s => s.spaces.resolve p.mm (page * pageSize)) ≠ 0 then
        let flags ← Act.read fun s => s.spaces.getFlags p.mm (page * pageSize)
        if isWrite ∧ flags.cow then vm (breakCow A p.mm page)
        else if isWrite ∧ flags.writable = false then Act.fail .eacces
        else pure ()
      else if page * pageSize < p.stackBottom ∧ below A p.stackTop userStackMax ≤ page * pageSize ∧
          (page * pageSize + pageSize) % 2 ^ A.bits = p.stackBottom then
        let _ ← vm (vmmMapAllocated A p.mm page userData)
        Act.modify (System.onProcess pid fun p => { p with stackBottom := page * pageSize })
      else if p.brkStart ≤ page * pageSize ∧ address < p.brkEnd then
        let _ ← vm (vmmMapAllocated A p.mm page userData)
        pure ()
      else Act.fail .efault
  | _, _ => Act.fail .efault

/-- `memcpy` to a physical address. -/
def storeBytes (address : ℕ) (bytes : List ℕ) (m : Machine) : Machine :=
  { m with
    ram := fun f i =>
      if i < pageSize ∧ address ≤ f * pageSize + i then
        bytes.getD (f * pageSize + i - address) (m.ram f i)
      else m.ram f i }

def writeBytes (address : ℕ) (bytes : List ℕ) : Vm Unit :=
  Act.modify (Spaces.onMach (storeBytes address bytes))

/-- The checks of a round of `copy_user_range`; the value is the physical address. -/
def userAddress (c : Context) (address : ℕ) (toUser : Bool) : Sys ℕ := do
  let _ ← Act.attempt (handleFault A address toUser)
  if toUser ∧ (← Act.read fun s => s.spaces.getFlags c address).cow then
    vm (breakCow A c (address / pageSize))
  else pure ()
  let flags ← Act.read fun s => s.spaces.getFlags c address
  if flags.user = false ∨ (toUser ∧ flags.writable = false) then Act.fail .efault
  else
    let physical ← Act.read fun s => s.spaces.resolve c address
    if physical = 0 then Act.fail .efault else pure physical

def chunkSize (address size : ℕ) : ℕ := min (pageSize - address % pageSize) size

theorem chunkSize_pos (address : ℕ) {size : ℕ} (h : 0 < size) : 0 < chunkSize address size := by
  unfold chunkSize pageSize
  omega

/-- The loop of `copy_user_range` to a user address. -/
def copyOut (c : Context) (address : ℕ) : List ℕ → Sys Unit
  | [] => pure ()
  | b :: rest => do
    let size := chunkSize address (b :: rest).length
    let physical ← userAddress A c address true
    vm (writeBytes physical ((b :: rest).take size))
    copyOut c (address + size) ((b :: rest).drop size)
termination_by bytes => bytes.length
decreasing_by
  have hpos : 0 < chunkSize address (b :: rest).length := chunkSize_pos address (by simp)
  simp only [List.length_drop, List.length_cons] at hpos ⊢
  omega

/-- The loop of `copy_user_range` from a user address. -/
def copyIn (c : Context) (address : ℕ) : ℕ → List ℕ → Sys (List ℕ)
  | 0, bytes => pure bytes
  | n + 1, bytes => do
    let size := chunkSize address (n + 1)
    let physical ← userAddress A c address false
    let page ← Act.read fun s => s.spaces.mach.ram (physical / pageSize)
    let chunk := (List.range size).map fun i => page (physical % pageSize + i)
    copyIn c (address + size) (n + 1 - size) (bytes ++ chunk)
termination_by n => n
decreasing_by
  have hpos : 0 < chunkSize address (n + 1) := chunkSize_pos address (Nat.succ_pos n)
  omega

/-- `vmm_copy_to_user`. -/
def copyToUser (c : Context) (address : ℕ) (bytes : List ℕ) : Sys Unit :=
  if bytes ≠ [] ∧ A.validUserRange address bytes.length = false then Act.fail .efault
  else copyOut A c address bytes

/-- `vmm_copy_from_user`. -/
def copyFromUser (c : Context) (address size : ℕ) : Sys (List ℕ) :=
  if 0 < size ∧ A.validUserRange address size = false then Act.fail .efault
  else copyIn A c address size []

/-- A store of a user program: the page tables of the executing CPU permit it, or it faults. -/
def userStore (address value : ℕ) : Sys Unit := do
  let s ← Act.read System.spaces
  let root := (s.active (← Act.read System.cpu)).elim s.kernelRoot s.root
  match A.trans s.mach.ram root (address / pageSize) with
  | none => Act.fail .efault
  | some leaf =>
    if leaf.user ∧ leaf.writable then
      vm (writeBytes (leaf.frame * pageSize + address % pageSize) [value])
    else Act.fail .efault

def sysBrk (address : ℕ) : Sys ℕ := do
  match ← Act.read System.running, ← Act.read System.currentProcess with
  | some pid, some p =>
    let address := address % 2 ^ A.bits
    if address = 0 then pure p.brkEnd
    else if address < p.brkStart ∨ below A p.stackBottom pageSize ≤ address then
      Act.fail .enomem
    else do
      Act.modify (System.onProcess pid fun p => { p with brkEnd := address })
      pure address
  | _, _ => Act.fail .esrch

/-- The `while (mapped)` loops of `sys_mmap`. -/
def unmapDown (c : Context) (base : ℕ) : ℕ → Vm Unit
  | 0 => pure ()
  | n + 1 => do
    let _ ← Act.attempt (vmmUnmap A c (A.above base n))
    unmapDown c base n

/-- The loops of `sys_mmap` that map `n` pages, after `mapped` of them. -/
def mapPages (c : Context) (base : ℕ) (fl : Flags) : ℕ → ℕ → Vm Unit
  | 0, _ => pure ()
  | n + 1, mapped => do
    match ← Act.attempt (vmmMapAllocated A c (A.above base mapped) fl) with
    | .error _ => do
      unmapDown A c base mapped
      Act.fail .enomem
    | .ok _ => mapPages c base fl n (mapped + 1)

/-- `(length + PAGE_SIZE - 1) / PAGE_SIZE`, with the wrap-around of `size_t`. -/
def pagesOf (length : ℕ) : ℕ := (length + (pageSize - 1)) % 2 ^ A.bits / pageSize

def protFlags (protection : ℕ) : Flags :=
  ⟨protection.testBit 1, true, false, protection.testBit 2, false⟩

/-- The branch of `sys_mmap` without an address. -/
def mmapAnywhere (c : Context) (pages : ℕ) (fl : Flags) : Vm ℕ := do
  let base ← vmmAllocPage A c fl
  mapPages A c base fl (pages - 1) 1
  pure (base * pageSize)

/-- The branch of `sys_mmap` with an address. -/
def mmapFixed (c : Context) (base pages : ℕ) (fl : Flags) : Vm ℕ := do
  if (2 ^ A.bits - 1 - base * pageSize) / pageSize < pages then Act.fail .eoverflow
  else if ← Act.read fun s => decide (∃ i < pages, s.resolve c ((base + i) * pageSize) ≠ 0) then
    Act.fail .eexist
  else
    mapPages A c base fl pages 0
    pure (base * pageSize)

def sysMmap (address length protection : ℕ) : Sys ℕ := do
  let address := address % 2 ^ A.bits
  let length := length % 2 ^ A.bits
  match ← Act.read System.currentProcess with
  | none => Act.fail .einval
  | some p =>
    if p.userMode ∧ address ≠ 0 ∧ 0 < length ∧ A.validUserRange address length = false then
      Act.fail .efault
    else if length = 0 then Act.fail .einval
    else if 2 ^ A.bits - 1 - (pageSize - 1) < length then Act.fail .eoverflow
    else if address = 0 then vm (mmapAnywhere A p.mm (pagesOf A length) (protFlags protection))
    else vm (mmapFixed A p.mm (address / pageSize) (pagesOf A length) (protFlags protection))

/-- The loop of `sys_munmap`. -/
def unmapUp (c : Context) (base n : ℕ) : Vm Unit :=
  Act.each (fun i => do
    let _ ← Act.attempt (vmmUnmap A c (A.above base i))
    pure ()) (List.range n)

def sysMunmap (address length : ℕ) : Sys Unit := do
  let address := address % 2 ^ A.bits
  let length := length % 2 ^ A.bits
  match ← Act.read System.currentProcess with
  | none => Act.fail .einval
  | some p =>
    if p.userMode ∧ 0 < length ∧ A.validUserRange address length = false then Act.fail .efault
    else if address = 0 ∨ length = 0 then Act.fail .einval
    else vm (unmapUp A p.mm (address / pageSize) (pagesOf A length))

end Source

end Tach.Processes
