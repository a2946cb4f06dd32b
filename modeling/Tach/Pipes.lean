import Tach.Histories
import Tach.Rings

/-!
Pipes among processes that share them: pipe.c with the parts of fd.c, syscall.c and process.c that
make, copy and drop descriptors. A critical section of a pipe's lock, or of the lock of the table of
pipes, is one step; so is each change of a descriptor slot, together with the code around it. A
process has at most one section due, which comes before what it has to do otherwise.

A process ends on its own, or is killed while it runs its program or between two rounds of
`pipe_read` and `pipe_write`; the steps of `process_terminate` count as its own. Of descriptors that
are not of pipes only this is kept that they are not free. When the descriptors of a new pipe cannot
be handed to the program, `sys_pipe` goes on with two calls of `close`. `vfs_close` changes nothing
here, as the vnodes of pipes have no `close`.
-/

namespace Tach.Pipes

open Function Rings

/-- `PIPE_BUFFER_SIZE`. -/
def bufferSize : ℕ := 4096

inductive End
  | read
  | write
  deriving DecidableEq

/-- `struct pipe`; `count` has `readers` and `writers`, which never get below zero. -/
structure Pipe where
  buffer : ℕ → UInt8
  readPos : ℕ
  writePos : ℕ
  dataSize : ℕ
  count : End → ℕ
  inUse : Bool

/-- A pipe as `pipe_alloc` leaves it. -/
def Pipe.fresh : Pipe := ⟨fun _ => 0, 0, 0, 0, fun _ => 1, true⟩

def Pipe.unused : Pipe := ⟨fun _ => 0, 0, 0, 0, fun _ => 0, false⟩

section Processes

variable (ι : Type*) (n q : ℕ)

inductive Entry
  | file
  | pipe (k : Fin q) (e : End)
  deriving DecidableEq

abbrev Table := Fin n → Option (Entry q)

/-- A section that is due: the one of `pipe_adjust`, and the one behind it that gives a pipe back. -/
inductive Locked
  | adjust (k : Fin q) (e : End) (up : Bool)
  | free (k : Fin q)
  deriving DecidableEq

/-- Where a process is: nowhere, before the assignment of `fd_dup`, in `fd_table_destroy` on exit,
in `fd_table_clone` for the child `j`, in `fd_table_destroy` of a clone that is not wanted, at
three places of `pipe_create`, in `pipe_read` and in `pipe_write`. -/
inductive Todo
  | idle
  | assign (new old : Fin n)
  | closeAll (l : List (Fin n))
  | copyAll (l : List (Fin n)) (j : ι) (wanted : Bool)
  | dropAll (l : List (Fin n)) (j : ι)
  | installRead (k : Fin q)
  | installWrite (k : Fin q) (readFd : Fin n)
  | closeWrite (k : Fin q)
  | read (k : Fin q) (count : ℕ)
  | write (k : Fin q) (bytes : List UInt8) (wrote : Bool)
  deriving DecidableEq

inductive Status
  | free
  | reserved
  | running
  deriving DecidableEq

structure Proc where
  status : Status
  table : Table n q
  clone : Table n q
  due : Option (Locked q)
  todo : Todo ι n q

structure State where
  pipes : Fin q → Pipe
  proc : ι → Proc ι n q

/-- The bytes that went into a pipe and came out of it, the results that the callers of `pipe_read`
and `pipe_write` take for the end, and the creation of a pipe. -/
inductive Event
  | opened (k : Fin q)
  | wrote (k : Fin q) (bytes : List UInt8)
  | got (k : Fin q) (bytes : List UInt8)
  | eof (k : Fin q)
  | epipe (k : Fin q)
  deriving DecidableEq

inductive Call
  | pipe
  | dup (old : Fin n)
  | dup2 (old new : Fin n)
  | close (fd : Fin n)
  | fork (j : ι) (wanted : Bool)
  | read (fd : Fin n) (count : ℕ)
  | write (fd : Fin n) (bytes : List UInt8)

/-- Process `i` takes a step, begins a call, gives up waiting because of a signal, or ends. -/
inductive Action
  | go (i : ι)
  | call (i : ι) (what : Call ι n)
  | interrupt (i : ι)
  | terminate (i : ι)

end Processes

variable {ι : Type*} {n q : ℕ}

section Steps

/-- `fd_notify_release`. -/
def release : Option (Entry q) → Option (Locked q)
  | some (.pipe k e) => some (.adjust k e false)
  | _ => none

/-- `fd_notify_dup`. -/
def retain : Option (Entry q) → Option (Locked q)
  | some (.pipe k e) => some (.adjust k e true)
  | _ => none

/-- The slot that `fd_alloc` takes. -/
def firstFree (t : Table n q) : Option (Fin n) := (List.finRange n).find? fun fd => (t fd).isNone

/-- The counts after `pipe_adjust`. -/
def Pipe.adjust (p : Pipe) (e : End) (up : Bool) : Pipe :=
  { p with count := update p.count e (if up then p.count e + 1 else p.count e - 1) }

def Pipe.dead (p : Pipe) : Bool := p.count .read = 0 ∧ p.count .write = 0

/-- The loop of `pipe_read` that copies `m` bytes. -/
def Pipe.take (p : Pipe) (m : ℕ) : List UInt8 × Pipe :=
  (window bufferSize p.buffer p.readPos m,
    { p with readPos := advance bufferSize p.readPos m, dataSize := p.dataSize - m })

/-- The loop of `pipe_write` that copies bytes. -/
def Pipe.put (p : Pipe) (bytes : List UInt8) : Pipe :=
  { p with
    buffer := fill bufferSize p.buffer p.writePos bytes
    writePos := advance bufferSize p.writePos bytes.length
    dataSize := p.dataSize + bytes.length }

variable [DecidableEq ι]

namespace State

def setProc (s : State ι n q) (i : ι) (pr : Proc ι n q) : State ι n q :=
  { s with proc := update s.proc i pr }

def setPipe (s : State ι n q) (k : Fin q) (p : Pipe) : State ι n q :=
  { s with pipes := update s.pipes k p }

end State

def perform (s : State ι n q) (i : ι) : Locked q → State ι n q
  | .adjust k e up =>
    let p := (s.pipes k).adjust e up
    (s.setPipe k p).setProc i { s.proc i with due := if p.dead then some (.free k) else none }
  | .free k =>
    (s.setPipe k { s.pipes k with inUse := false }).setProc i { s.proc i with due := none }

/-- The section of `pipe_read`; a process that has to wait comes back to it. -/
def readPipe (s : State ι n q) (i : ι) (k : Fin q) (count : ℕ) : State ι n q × List (Event q) :=
  let p := s.pipes k
  if p.dataSize ≠ 0 then
    let r := p.take (min count p.dataSize)
    ((s.setPipe k r.2).setProc i { s.proc i with todo := .idle }, [.got k r.1])
  else if p.count .write = 0 then (s.setProc i { s.proc i with todo := .idle }, [.eof k])
  else (s, [])

/-- The section of `pipe_write` with `bytes` left; `wrote` if it has written before. -/
def writePipe (s : State ι n q) (i : ι) (k : Fin q) (bytes : List UInt8) (wrote : Bool) :
    State ι n q × List (Event q) :=
  let p := s.pipes k
  if p.count .read = 0 then
    (s.setProc i { s.proc i with todo := .idle }, if wrote then [] else [.epipe k])
  else if bufferSize - p.dataSize = 0 then (s, [])
  else
    let m := min bytes.length (bufferSize - p.dataSize)
    ((s.setPipe k (p.put (bytes.take m))).setProc i { s.proc i with
        todo := if bytes.drop m = [] then .idle else .write k (bytes.drop m) true },
      [.wrote k (bytes.take m)])

def proceed (s : State ι n q) (i : ι) : Option (State ι n q × List (Event q)) :=
  let pr := s.proc i
  match pr.todo with
  | .idle => none
  | .assign new old =>
    some (s.setProc i { pr with
      table := update pr.table new (pr.table old)
      due := retain (pr.table old)
      todo := .idle }, [])
  | .closeAll [] => some (s.setProc i { pr with status := .free, todo := .idle }, [])
  | .closeAll (fd :: l) =>
    some (s.setProc i { pr with
      table := update pr.table fd none
      due := release (pr.table fd)
      todo := .closeAll l }, [])
  | .copyAll [] j wanted =>
    if wanted then
      -- the child gets the clone and may run
      some ((s.setProc i { pr with clone := fun _ => none, todo := .idle }).setProc j
        { s.proc j with status := .running, table := pr.clone }, [])
    else some (s.setProc i { pr with todo := .dropAll (List.finRange n) j }, [])
  | .copyAll (fd :: l) j wanted =>
    some (s.setProc i { pr with
      clone := update pr.clone fd (pr.table fd)
      due := retain (pr.table fd)
      todo := .copyAll l j wanted }, [])
  | .dropAll [] j =>
    some ((s.setProc i { pr with todo := .idle }).setProc j { s.proc j with status := .free }, [])
  | .dropAll (fd :: l) j =>
    some (s.setProc i { pr with
      clone := update pr.clone fd none
      due := release (pr.clone fd)
      todo := .dropAll l j }, [])
  | .installRead k =>
    match firstFree pr.table with
    | some fd =>
      some (s.setProc i { pr with
        table := update pr.table fd (some (.pipe k .read))
        todo := .installWrite k fd }, [])
    | none =>
      some (s.setProc i { pr with due := some (.adjust k .read false), todo := .closeWrite k }, [])
  | .installWrite k readFd =>
    match firstFree pr.table with
    | some fd =>
      some (s.setProc i { pr with
        table := update pr.table fd (some (.pipe k .write))
        todo := .idle }, [])
    | none =>
      some (s.setProc i { pr with
        table := update pr.table readFd none
        due := release (pr.table readFd)
        todo := .closeWrite k }, [])
  | .closeWrite k =>
    some (s.setProc i { pr with due := some (.adjust k .write false), todo := .idle }, [])
  | .read k count => some (readPipe s i k count)
  | .write k bytes wrote => some (writePipe s i k bytes wrote)

/-- The process is between calls, or between two rounds of `pipe_read` or `pipe_write`. -/
def Proc.settled (pr : Proc ι n q) : Bool :=
  match pr.due, pr.todo with
  | none, .idle => true
  | none, .read _ _ => true
  | none, .write _ _ _ => true
  | _, _ => false

/-- How a call begins; where nothing changes it fails or has nothing to do. -/
def begin (s : State ι n q) (i : ι) : Call ι n → State ι n q × List (Event q)
  | .pipe =>
    match (List.finRange q).find? fun k => !(s.pipes k).inUse with
    | none => (s, [])
    | some k =>
      ((s.setPipe k .fresh).setProc i { s.proc i with todo := .installRead k }, [.opened k])
  | .dup old =>
    match (s.proc i).table old, firstFree (s.proc i).table with
    | some _, some fd => (s.setProc i { s.proc i with todo := .assign fd old }, [])
    | _, _ => (s, [])
  | .dup2 old new =>
    if (s.proc i).table old = none ∨ old = new then (s, [])
    else
      (s.setProc i { s.proc i with
        table := update (s.proc i).table new none
        due := release ((s.proc i).table new)
        todo := .assign new old }, [])
  | .close fd =>
    (s.setProc i { s.proc i with
      table := update (s.proc i).table fd none
      due := release ((s.proc i).table fd) }, [])
  | .fork j wanted =>
    if (s.proc j).status = .free then
      ((s.setProc i { s.proc i with todo := .copyAll (List.finRange n) j wanted }).setProc j
        { s.proc j with status := .reserved }, [])
    else (s, [])
  | .read fd count =>
    match (s.proc i).table fd with
    | some (.pipe k .read) =>
      (if count = 0 then s else s.setProc i { s.proc i with todo := .read k count }, [])
    | _ => (s, [])
  | .write fd bytes =>
    match (s.proc i).table fd with
    | some (.pipe k .write) =>
      (if bytes = [] then s else s.setProc i { s.proc i with todo := .write k bytes false }, [])
    | _ => (s, [])

def next (s : State ι n q) : Action ι n → Option (State ι n q × List (Event q))
  | .go i =>
    match (s.proc i).due with
    | some locked => some (perform s i locked, [])
    | none => proceed s i
  | .call i what =>
    if (s.proc i).status = .running ∧ (s.proc i).due = none ∧ (s.proc i).todo = .idle then
      some (begin s i what)
    else none
  | .interrupt i =>
    if (s.proc i).settled then some (s.setProc i { s.proc i with todo := .idle }, []) else none
  | .terminate i =>
    if (s.proc i).status = .running ∧ (s.proc i).settled then
      some (s.setProc i { s.proc i with todo := .closeAll (List.finRange n) }, [])
    else none

abbrev Run := Histories.Run (next : State ι n q → Action ι n → _) fun _ _ => True

/-- What a step of one process does to the pipes and to the process. -/
inductive Moves (p : Fin q → Pipe) (pr : Proc ι n q) :
    (Fin q → Pipe) → Proc ι n q → List (Event q) → Prop
  | adjust {k e up} (hdue : pr.due = some (.adjust k e up)) :
    Moves p pr (update p k ((p k).adjust e up))
      { pr with due := if ((p k).adjust e up).dead then some (.free k) else none } []
  | free {k} (hdue : pr.due = some (.free k)) :
    Moves p pr (update p k { p k with inUse := false }) { pr with due := none } []
  | assign {new old} (hdue : pr.due = none) (htodo : pr.todo = .assign new old) :
    Moves p pr p { pr with
      table := update pr.table new (pr.table old)
      due := retain (pr.table old)
      todo := .idle } []
  | closeAll {fd l} (hdue : pr.due = none) (htodo : pr.todo = .closeAll (fd :: l)) :
    Moves p pr p { pr with
      table := update pr.table fd none
      due := release (pr.table fd)
      todo := .closeAll l } []
  | leave (hdue : pr.due = none) (htodo : pr.todo = .closeAll []) :
    Moves p pr p { pr with status := .free, todo := .idle } []
  | copyAll {fd l j wanted} (hdue : pr.due = none) (htodo : pr.todo = .copyAll (fd :: l) j wanted) :
    Moves p pr p { pr with
      clone := update pr.clone fd (pr.table fd)
      due := retain (pr.table fd)
      todo := .copyAll l j wanted } []
  | unwanted {j} (hdue : pr.due = none) (htodo : pr.todo = .copyAll [] j false) :
    Moves p pr p { pr with todo := .dropAll (List.finRange n) j } []
  | dropAll {fd l j} (hdue : pr.due = none) (htodo : pr.todo = .dropAll (fd :: l) j) :
    Moves p pr p { pr with
      clone := update pr.clone fd none
      due := release (pr.clone fd)
      todo := .dropAll l j } []
  | installRead {k fd} (hdue : pr.due = none) (htodo : pr.todo = .installRead k)
      (hfd : pr.table fd = none) :
    Moves p pr p { pr with
      table := update pr.table fd (some (.pipe k .read))
      todo := .installWrite k fd } []
  | undoRead {k} (hdue : pr.due = none) (htodo : pr.todo = .installRead k) :
    Moves p pr p { pr with due := some (.adjust k .read false), todo := .closeWrite k } []
  | installWrite {k r fd} (hdue : pr.due = none) (htodo : pr.todo = .installWrite k r)
      (hfd : pr.table fd = none) :
    Moves p pr p { pr with
      table := update pr.table fd (some (.pipe k .write))
      todo := .idle } []
  | undoWrite {k r} (hdue : pr.due = none) (htodo : pr.todo = .installWrite k r) :
    Moves p pr p { pr with
      table := update pr.table r none
      due := release (pr.table r)
      todo := .closeWrite k } []
  | closeWrite {k} (hdue : pr.due = none) (htodo : pr.todo = .closeWrite k) :
    Moves p pr p { pr with due := some (.adjust k .write false), todo := .idle } []
  | got {k m} (hset : pr.settled) (hm : m ≤ (p k).dataSize) :
    Moves p pr (update p k ((p k).take m).2) { pr with todo := .idle }
      [.got k ((p k).take m).1]
  | eof {k} (hset : pr.settled) (hdata : (p k).dataSize = 0) (hcount : (p k).count .write = 0) :
    Moves p pr p { pr with todo := .idle } [.eof k]
  | wrote {k bytes} {todo : Todo ι n q} (hset : pr.settled) (hbusy : pr.todo ≠ .idle)
      (hroom : (p k).dataSize + bytes.length ≤ bufferSize)
      (htodo : todo = .idle ∨ ∃ rest, todo = .write k rest true) :
    Moves p pr (update p k ((p k).put bytes)) { pr with todo := todo } [.wrote k bytes]
  | epipe {k} (hset : pr.settled) (hcount : (p k).count .read = 0) :
    Moves p pr p { pr with todo := .idle } [.epipe k]
  | stop (hset : pr.settled) : Moves p pr p { pr with todo := .idle } []
  | stay : Moves p pr p pr []
  | open {k} (hrun : pr.status = .running) (hset : pr.settled) (hfree : (p k).inUse = false) :
    Moves p pr (update p k .fresh) { pr with todo := .installRead k } [.opened k]
  | dup {fd old} (hrun : pr.status = .running) (hset : pr.settled) (hfd : pr.table fd = none)
      (hold : pr.table old ≠ none) :
    Moves p pr p { pr with todo := .assign fd old } []
  | dup2 {new old} (hrun : pr.status = .running) (hset : pr.settled) (hne : new ≠ old) :
    Moves p pr p { pr with
      table := update pr.table new none
      due := release (pr.table new)
      todo := .assign new old } []
  | close {fd} (hrun : pr.status = .running) (hdue : pr.due = none) (htodo : pr.todo = .idle) :
    Moves p pr p { pr with
      table := update pr.table fd none
      due := release (pr.table fd) } []
  | read {k m} (hrun : pr.status = .running) (hset : pr.settled) :
    Moves p pr p { pr with todo := .read k m } []
  | write {k bytes} (hrun : pr.status = .running) (hset : pr.settled) :
    Moves p pr p { pr with todo := .write k bytes false } []
  | terminate (hrun : pr.status = .running) (hset : pr.settled) :
    Moves p pr p { pr with todo := .closeAll (List.finRange n) } []

/-- What a step does; the rest of `fork` concerns two processes. -/
inductive Change (s : State ι n q) : State ι n q → List (Event q) → Prop
  | own {i p pr e} (h : Moves s.pipes (s.proc i) p pr e) :
    Change s ⟨p, update s.proc i pr⟩ e
  | fork {i j wanted} (hrun : (s.proc i).status = .running) (hset : (s.proc i).settled)
      (hfree : (s.proc j).status = .free) :
    Change s ((s.setProc i { s.proc i with todo := .copyAll (List.finRange n) j wanted }).setProc j
      { s.proc j with status := .reserved }) []
  | born {i j} (hdue : (s.proc i).due = none) (htodo : (s.proc i).todo = .copyAll [] j true) :
    Change s ((s.setProc i { s.proc i with clone := fun _ => none, todo := .idle }).setProc j
      { s.proc j with status := .running, table := (s.proc i).clone }) []
  | forgone {i j} (hdue : (s.proc i).due = none) (htodo : (s.proc i).todo = .dropAll [] j) :
    Change s ((s.setProc i { s.proc i with todo := .idle }).setProc j
      { s.proc j with status := .free }) []

variable {s t : State ι n q} {i : ι} {e : List (Event q)}

theorem firstFree_free {t : Table n q} {fd : Fin n} (h : firstFree t = some fd) : t fd = none := by
  simpa using List.find?_some h

theorem Change.unchanged (s : State ι n q) (i : ι) : Change s s [] := by
  have h : Change s ⟨s.pipes, update s.proc i (s.proc i)⟩ [] := .own .stay
  rwa [update_eq_self] at h

theorem Change.of_some {r : State ι n q × List (Event q)} (h : Change s r.1 r.2)
    (hr : some r = some (t, e)) : Change s t e := by
  rwa [Option.some.inj hr] at h

theorem perform_change {locked} (h : (s.proc i).due = some locked) :
    Change s (perform s i locked) [] := by
  cases locked with
  | adjust k e up => exact .own (.adjust h)
  | free k => exact .own (.free h)

theorem readPipe_change {k m} (hset : (s.proc i).settled = true) :
    Change s (readPipe s i k m).1 (readPipe s i k m).2 := by
  simp only [readPipe]
  split_ifs with hdata hcount
  · exact .own (.got hset (min_le_right _ _))
  · exact .own (.eof hset (by simpa using hdata) hcount)
  · exact .unchanged s i

theorem writePipe_change {k bytes wrote} (hset : (s.proc i).settled = true)
    (hbusy : (s.proc i).todo ≠ .idle) :
    Change s (writePipe s i k bytes wrote).1 (writePipe s i k bytes wrote).2 := by
  have hroom (m : ℕ) (hfull : bufferSize - m ≠ 0) :
      m + (bytes.take (min bytes.length (bufferSize - m))).length ≤ bufferSize := by
    rw [List.length_take]
    omega
  simp only [writePipe]
  split_ifs with hcount hwrote hfull hrest
  · exact .own (.stop hset)
  · exact .own (.epipe hset hcount)
  · exact .unchanged s i
  · exact .own (.wrote hset hbusy (hroom _ hfull) (.inl rfl))
  · exact .own (.wrote hset hbusy (hroom _ hfull) (.inr ⟨_, rfl⟩))

theorem proceed_change (hdue : (s.proc i).due = none) (h : proceed s i = some (t, e)) :
    Change s t e := by
  simp only [proceed] at h
  split at h <;> rename_i htodo
  · cases h
  · cases h; exact .own (.assign hdue htodo)
  · cases h; exact .own (.leave hdue htodo)
  · cases h; exact .own (.closeAll hdue htodo)
  · split_ifs at h with hw
    · cases h; subst hw; exact .born hdue htodo
    · cases h; rw [Bool.not_eq_true] at hw; subst hw; exact .own (.unwanted hdue htodo)
  · cases h; exact .own (.copyAll hdue htodo)
  · cases h; exact .forgone hdue htodo
  · cases h; exact .own (.dropAll hdue htodo)
  · split at h <;> rename_i hfd <;> cases h
    · exact .own (.installRead hdue htodo (firstFree_free hfd))
    · exact .own (.undoRead hdue htodo)
  · split at h <;> rename_i hfd <;> cases h
    · exact .own (.installWrite hdue htodo (firstFree_free hfd))
    · exact .own (.undoWrite hdue htodo)
  · cases h; exact .own (.closeWrite hdue htodo)
  · exact (readPipe_change (by rw [Proc.settled, hdue, htodo])).of_some h
  · exact (writePipe_change (by rw [Proc.settled, hdue, htodo]) (by simp [htodo])).of_some h

theorem begin_change (hrun : (s.proc i).status = .running) (hdue : (s.proc i).due = none)
    (htodo : (s.proc i).todo = .idle) (what : Call ι n) :
    Change s (begin s i what).1 (begin s i what).2 := by
  have hset : (s.proc i).settled = true := by rw [Proc.settled, hdue, htodo]
  cases what with
  | pipe =>
    simp only [begin]
    split <;> rename_i hk
    · exact .unchanged s i
    · exact .own (.open hrun hset (by simpa using List.find?_some hk))
  | dup old =>
    simp only [begin]
    split <;> rename_i hfd
    · exact .own (.dup hrun hset (firstFree_free hfd) (by simp [*]))
    · exact .unchanged s i
  | dup2 old new =>
    simp only [begin]
    split_ifs with h
    · exact .unchanged s i
    · exact .own (.dup2 hrun hset fun hne => h (.inr hne.symm))
  | close fd => exact .own (.close hrun hdue htodo)
  | fork j wanted =>
    simp only [begin]
    split_ifs with h
    · exact .fork hrun hset h
    · exact .unchanged s i
  | read fd m =>
    simp only [begin]
    (repeat' split) <;> first | exact .unchanged s i | exact .own (.read hrun hset)
  | write fd bytes =>
    simp only [begin]
    (repeat' split) <;> first | exact .unchanged s i | exact .own (.write hrun hset)

theorem next_change {a : Action ι n} (h : next s a = some (t, e)) : Change s t e := by
  cases a with
  | go i =>
    simp only [next] at h
    split at h <;> rename_i hdue
    · cases h; exact perform_change hdue
    · exact proceed_change hdue h
  | call i what =>
    simp only [next] at h
    split_ifs at h with hcall
    exact (begin_change hcall.1 hcall.2.1 hcall.2.2 what).of_some h
  | interrupt i =>
    simp only [next] at h
    split_ifs at h with hset
    cases h
    exact .own (.stop hset)
  | terminate i =>
    simp only [next] at h
    split_ifs at h with hcall
    cases h
    exact .own (.terminate hcall.1 hcall.2)

end Steps

end Tach.Pipes
