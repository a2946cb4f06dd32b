import Tach.Signals

/-!
What the functions of the kernel leave alone in the table of processes. A preorder that looks only
at this table and at the processes that execute holds across every call of vmm.c and fd.c; a
function that changes some fields of a process is a step of it if these changes are. Two such
preorders are `Kept g`, where `g` is the same for each process, and `Apart i`, where all processes
but one are the same.
-/

namespace Tach.Processes

open Function Actions Paging Vmm Descriptors
open Sectors (Errno)

variable {α β : Type} {i : Pid}

def System.core (s : System) :
    (Pid → Option Process) × Cpu × (Cpu → Option Pid) × (Cpu → Option Pid) :=
  (s.procs, s.cpu, s.current, s.switchedFrom)

/-- A preorder that looks only at the core. -/
class OfCore (R : System → System → Prop) : Prop extends IsPreorder System R where
  same : ∀ s t : System, t.core = s.core → R s t

section Views

/-- What `g` sees of the processes. -/
def seen (g : Process → β) (s : System) (i : Pid) : Option β := (s.procs i).map g

def Kept (g : Process → β) (s t : System) : Prop := seen g s = seen g t

def Apart (i : Pid) (s t : System) : Prop := ∀ j, j ≠ i → t.procs j = s.procs j

variable {g : Process → β} {s t : System} {i j : Pid} {f : Process → Process}

theorem kept_of_procs (h : t.procs = s.procs) : Kept g s t := by
  unfold Kept seen
  rw [h]

instance : OfCore (Kept g) where
  refl _ := rfl
  trans _ _ _ := Eq.trans
  same _ _ h := kept_of_procs (congrArg Prod.fst h)

instance : OfCore (Apart i) where
  refl _ _ _ := rfl
  trans _ _ _ h h' j hj := (h' j hj).trans (h j hj)
  same _ _ h j _ := congrFun (congrArg Prod.fst h) j

theorem seen_of_some {p : Process} (h : s.procs i = some p) : seen g s i = some (g p) := by
  rw [seen, h, Option.map_some]

theorem seen_eq_some {b : β} : seen g s i = some b ↔ ∃ p, s.procs i = some p ∧ g p = b :=
  Option.map_eq_some_iff

theorem seen_update {q : Option Process} (h : t.procs = update s.procs i q) :
    seen g t = update (seen g s) i (q.map g) := by
  funext j
  by_cases hj : j = i
  · subst hj
    simp [seen, h]
  · simp [seen, h, hj]

theorem seen_setProcess (s : System) (i : Pid) (q : Option Process) :
    seen g (s.setProcess i q) = update (seen g s) i (q.map g) := seen_update rfl

theorem onProcess_self (i : Pid) (f : Process → Process) (s : System) :
    (s.onProcess i f).procs i = (s.procs i).map f := update_self ..

theorem onProcess_ne (h : j ≠ i) (f : Process → Process) (s : System) :
    (s.onProcess i f).procs j = s.procs j := update_of_ne h ..

theorem kept_onProcess_at (hf : ∀ p, s.procs i = some p → g (f p) = g p) :
    Kept g s (s.onProcess i f) := by
  unfold Kept System.onProcess
  rw [seen_setProcess, Option.map_map]
  refine (update_eq_self i (seen g s)).symm.trans (congrArg _ ?_)
  unfold seen
  cases hp : s.procs i with
  | none => rfl
  | some p => exact congrArg some (hf p hp).symm

theorem kept_onProcess (hf : ∀ p, g (f p) = g p) (s : System) (i : Pid) :
    Kept g s (s.onProcess i f) := kept_onProcess_at fun p _ => hf p

theorem apart_onProcess (i : Pid) (f : Process → Process) (s : System) :
    Apart i s (s.onProcess i f) := fun _ hj => onProcess_ne hj f s

end Views

section Steps

variable {R : System → System → Prop} [OfCore R]

theorem steps_vm (m : Vm α) : Steps R (vm m) := Steps.zoom fun _ _ => OfCore.same _ _ rfl

theorem steps_fd (m : Fd α) : Steps R (fd m) := Steps.zoom fun _ _ => OfCore.same _ _ rfl

/-- A change of a process in a state that differs elsewhere. -/
theorem of_onProcess {f : Process → Process} {s t : System} (h : R s (s.onProcess i f))
    (ht : t.core = s.core) : R s (t.onProcess i f) := by
  refine IsTrans.trans _ _ _ h (OfCore.same _ _ ?_)
  have hprocs : t.procs = s.procs := congrArg Prod.fst ht
  simp only [System.core, System.onProcess, System.setProcess, hprocs]
  exact congrArg (Prod.mk _) (congrArg Prod.snd ht)

theorem steps_schedulerAdd
    (h : ∀ s c b, R s (s.onProcess i fun p => { p with cpuId := c, queued := b })) :
    Steps R (schedulerAdd i) := by
  refine Steps.modify fun s => ?_
  dsimp only
  split
  · exact OfCore.same _ _ rfl
  · split
    · exact OfCore.same _ _ rfl
    · exact of_onProcess (h s _ _) rfl

theorem steps_schedulerRemove (h : ∀ s b, R s (s.onProcess i fun p => { p with queued := b })) :
    Steps R (schedulerRemove i) := by
  refine Steps.modify fun s => ?_
  dsimp only
  split
  · exact OfCore.same _ _ rfl
  · split
    · exact of_onProcess (h s _) rfl
    · exact OfCore.same _ _ rfl

theorem steps_switchContext (c : Option Context) : Steps R (switchContext c) := by
  refine Steps.modify fun s => ?_
  split <;> exact OfCore.same _ _ rfl

theorem steps_allocateKernelStack (h : ∀ s x, R s (s.onProcess i fun p => { p with stack := x })) :
    Steps R (allocateKernelStack i) := by
  intro s
  unfold Ends allocateKernelStack
  split
  · exact OfCore.same _ _ rfl
  · split
    · exact OfCore.same _ _ rfl
    · exact OfCore.same _ _ rfl
    · exact of_onProcess (h s _) rfl

theorem steps_destroyFds (x : Option TableIndex) : Steps R (destroyFds x) := by
  cases x with
  | none => exact Steps.ret ()
  | some t => exact steps_fd _

theorem steps_attachStdio (t : TableIndex) : Steps R (attachStdio t) :=
  Steps.read_bind fun _ => Steps.bind (Steps.attempt (steps_fd _)) fun _ =>
    Steps.bind (Steps.attempt (steps_fd _)) fun _ =>
    Steps.bind (Steps.attempt (steps_fd _)) fun _ => Steps.ret ()

section Memory

variable {A : Arch} (h : ∀ s i x, R s (s.onProcess i fun p => { p with stackBottom := x }))

include h

theorem steps_handleFault (address : ℕ) (isWrite : Bool) :
    Steps R (handleFault A address isWrite) := by
  refine Steps.read_bind fun r => Steps.read_bind fun c => ?_
  split
  · refine Steps.ite (Steps.fail _) (Steps.read_bind fun _ => Steps.ite ?_ (Steps.ite ?_ ?_))
    · exact Steps.read_bind fun _ => Steps.ite (steps_vm _) (Steps.ite (Steps.fail _) (Steps.ret _))
    · exact Steps.bind (steps_vm _) fun _ => Steps.modify fun s => h s _ _
    · exact Steps.ite (Steps.bind (steps_vm _) fun _ => Steps.ret _) (Steps.fail _)
  · exact Steps.fail _

theorem steps_userAddress (c : Context) (address : ℕ) (toUser : Bool) :
    Steps R (userAddress A c address toUser) := by
  refine Steps.bind (Steps.attempt (steps_handleFault h _ _)) fun _ => Steps.read_bind fun _ => ?_
  have htail : Steps R (do
      let flags ← Act.read fun s => s.spaces.getFlags c address
      if flags.user = false ∨ (toUser ∧ flags.writable = false) then Act.fail .efault
      else
        let physical ← Act.read fun s => s.spaces.resolve c address
        if physical = 0 then Act.fail .efault else pure physical : Sys ℕ) :=
    Steps.read_bind fun _ => Steps.ite (Steps.fail _) (Steps.read_bind fun _ =>
      Steps.ite (Steps.fail _) (Steps.ret _))
  exact Steps.ite (Steps.bind (steps_vm _) fun _ => htail) htail

theorem steps_copyOut (c : Context) (address : ℕ) (bytes : List ℕ) :
    Steps R (copyOut A c address bytes) := by
  induction address, bytes using copyOut.induct with
  | case1 address =>
    rw [copyOut]
    exact Steps.ret ()
  | case2 address b rest size ih =>
    rw [copyOut]
    exact Steps.bind (steps_userAddress h _ _ _) fun _ => Steps.bind (steps_vm _) fun _ => ih

theorem steps_copyIn (c : Context) (address size : ℕ) (bytes : List ℕ) :
    Steps R (copyIn A c address size bytes) := by
  induction size using Nat.strong_induction_on generalizing address bytes with
  | _ size ih =>
    cases size with
    | zero =>
      rw [copyIn]
      exact Steps.ret _
    | succ n =>
      rw [copyIn]
      have hpos : 0 < chunkSize address (n + 1) := chunkSize_pos address (Nat.succ_pos n)
      exact Steps.bind (steps_userAddress h _ _ _) fun _ => Steps.read_bind fun _ =>
        ih _ (by omega) _ _

theorem steps_copyToUser (c : Context) (address : ℕ) (bytes : List ℕ) :
    Steps R (copyToUser A c address bytes) :=
  Steps.ite (Steps.fail _) (steps_copyOut h c address bytes)

end Memory

end Steps

section Life

variable {A : Arch} {s t : System} {i : Pid}

theorem Kept.procs (h : Kept id s t) : t.procs = s.procs := by
  funext j
  have hj := congrFun h j
  unfold seen at hj
  rwa [Option.map_id, id, id, eq_comm] at hj

theorem total_attachStdio (x : TableIndex) : Total (attachStdio x) :=
  Total.bind (Total.read _) fun _ => Total.bind (Total.attempt _) fun _ =>
    Total.bind (Total.attempt _) fun _ => Total.bind (Total.attempt _) fun _ => Total.ret ()

theorem total_fdTableDestroy (x : TableIndex) : Total (fdTableDestroy x) := by
  refine Total.bind (Total.read _) fun r => ?_
  split
  · exact Total.ret ()
  · exact Total.modify _

theorem total_destroyFds (x : Option TableIndex) : Total (destroyFds x) := by
  cases x with
  | none => exact Total.ret ()
  | some t => exact Total.zoom (total_fdTableDestroy t)

theorem total_destroyContext (A : Arch) (c : Context) : Total (destroyContext A c) := by
  refine Total.bind (Total.read _) fun r => ?_
  split
  · exact Total.ret ()
  · refine Total.bind (Total.read _) fun _ => Total.ite (Total.ret ()) ?_
    exact Total.bind (Total.each (fun m => Total.bind (Total.attempt _) fun _ =>
        Total.ite (Total.modify _) (Total.ret ())) _) fun _ =>
      Total.bind (Total.modify _) fun _ => Total.modify _

/-- The end of `process_exec_image_args`: the old address space goes and the new image starts. -/
def startImage (A : Arch) (i : Pid) (old : Context) (name : List UInt8) (q : ℕ × ℕ) : Sys Unit := do
  vm (destroyContext A old)
  Act.modify (System.onProcess i (execProcess q.1 q.2))
  schedulerAdd i
  if name = [] then pure ()
  else Act.modify (System.onProcess i fun p => { p with name := (baseName name).take 63 })

def replaceImage (A : Arch) (i : Pid) (old c : Context) (name : List UInt8) (q : ℕ × ℕ) :
    Sys Unit := do
  Act.modify (System.onProcess i fun p => { p with mm := c })
  if (← Act.read System.running) = some i then switchContext (some c) else pure ()
  startImage A i old name q

theorem total_replaceImage (A : Arch) (i : Pid) (old c : Context) (name : List UInt8) (q : ℕ × ℕ) :
    Total (replaceImage A i old c name q) := by
  have hstart : Total (startImage A i old name q) :=
    Total.bind (Total.zoom (total_destroyContext A old)) fun _ => Total.bind (Total.modify _)
      fun _ => Total.bind (Total.modify _) fun _ => Total.ite (Total.ret _) (Total.modify _)
  exact Total.bind (Total.modify _) fun _ => Total.bind (Total.read _) fun _ =>
    Total.ite (Total.bind (Total.modify _) fun _ => hstart) hstart

theorem total_freeKernelStack (x : Option ℕ) : Total (freeKernelStack x) := by
  cases x with
  | none => exact Total.ret ()
  | some f => exact Total.modify _

theorem total_processDestroy (A : Arch) (i : Pid) : Total (processDestroy A i) := by
  refine Total.bind (Total.read _) fun r => ?_
  split
  · exact Total.ret ()
  · refine Total.bind (Total.modify _) fun _ => Total.bind (total_destroyFds _) fun _ =>
      Total.bind (Total.zoom (total_freeKernelStack _)) fun _ => Total.bind (Total.read _) fun _ => ?_
    have htail : Total (do
        vm (destroyContext A ‹Process›.mm)
        Act.modify fun s => { s with
          current := fun cpu => if s.current cpu = some i then none else s.current cpu }
        Act.modify (System.setProcess i none) : Sys Unit) :=
      Total.bind (Total.zoom (total_destroyContext A _)) fun _ =>
        Total.bind (Total.modify _) fun _ => Total.modify _
    exact Total.ite (Total.bind (Total.modify _) fun _ => htail) htail

/-- `process_create` fills a slot that was not used, or changes no process. -/
theorem processCreate_ends (A : Arch) (name : List UInt8) (s : System) :
    Ends (processCreate A name) s fun r t => match r with
      | .ok i => s.procs i = none ∧ ∃ pid ppid mm fds,
          t.procs = update s.procs i (some (freshProcess pid ppid name mm fds))
      | .error _ => t.procs = s.procs := by
  unfold processCreate
  by_cases hname : name = []
  · rw [if_pos hname]
    exact Ends.fail rfl
  rw [if_neg hname]
  refine Ends.read_bind ?_
  cases hfind : (List.finRange maxProcesses).find? fun i => (s.procs i).isNone with
  | none => exact Ends.fail rfl
  | some i =>
    have hfree : s.procs i = none := by simpa using List.find?_some hfind
    refine (steps_fd fdTableCreate s).bind (fun fds t ht => ?_) fun _ _ ht => Kept.procs ht
    refine (steps_vm (R := Kept id) (createContext A) t).attempt_bind fun r u hu => ?_
    have hu' : Kept id s u := IsTrans.trans _ _ _ ht hu
    cases r with
    | error e =>
      refine (steps_fd (R := Kept id) (fdTableDestroy fds) u).bind (fun _ v hv => Ends.fail ?_) fun _ v hv => ?_ <;>
        exact Kept.procs (IsTrans.trans _ _ _ hu' hv)
    | ok mm =>
      refine Ends.modify_bind ?_
      refine (total_attachStdio fds).bind_ends (steps_attachStdio (R := Kept id) fds _) ?_
      intro _ v hv
      refine Ends.ret ⟨hfree, u.nextPid, (u.currentProcess.map Process.pid).getD 0, mm, fds, ?_⟩
      rw [Kept.procs hv, ← Kept.procs hu']
      rfl

theorem processDestroy_ends (A : Arch) (i : Pid) (s : System) :
    Ends (processDestroy A i) s fun _ t => t.procs = update s.procs i none := by
  refine Ends.read_bind ?_
  cases hp : s.procs i with
  | none =>
    refine Ends.ret ?_
    rw [← hp, update_eq_self]
  | some p =>
    -- up to the last assignment only the process itself changes
    refine (Total.modify _).bind_ends
      (steps_schedulerRemove (fun s _ => apart_onProcess i _ s) s) fun _ t₁ h₁ => ?_
    refine (total_destroyFds _).bind_ends (steps_destroyFds (R := Apart i) _ t₁) fun _ t₂ h₂ => ?_
    refine (Total.zoom (total_freeKernelStack _)).bind_ends (steps_vm (R := Apart i) _ t₂)
      fun _ t₃ h₃ => ?_
    have h₁₃ : Apart i s t₃ := IsTrans.trans _ _ _ h₁ (IsTrans.trans _ _ _ h₂ h₃)
    have htail : ∀ u, Apart i s u → Ends (do
        vm (destroyContext A p.mm)
        Act.modify fun s => { s with
          current := fun cpu => if s.current cpu = some i then none else s.current cpu }
        Act.modify (System.setProcess i none) : Sys Unit) u
        fun _ t => t.procs = update s.procs i none := by
      intro u hu
      refine (Total.zoom (total_destroyContext A _)).bind_ends (steps_vm (R := Apart i) _ u)
        fun _ v hv => ?_
      refine Ends.modify_bind (Ends.modify ?_)
      funext j
      by_cases hj : j = i
      · subst hj
        simp [System.setProcess]
      · have hsv : Apart i s v := IsTrans.trans _ _ _ hu hv
        simp [System.setProcess, hj, hsv j hj]
    refine Ends.read_bind ?_
    split
    · exact (Total.modify _).bind_ends (steps_switchContext none t₃)
        fun _ u hu => htail u (IsTrans.trans _ _ _ h₁₃ hu)
    · exact htail t₃ h₁₃

section Fork

variable {R : System → System → Prop} [OfCore R]

theorem steps_forkChild (A : Arch) (p : Process) {child : Pid}
    (h : ∀ s f, R s (s.onProcess child f)) : Steps R (forkChild A p child) := by
  have hset : ∀ f, Steps R (Act.modify (System.onProcess child f) : Sys Unit) :=
    fun f => Steps.modify fun s => h s f
  have hfiles : Steps R (forkFiles p child) := by
    unfold forkFiles
    split
    · exact Steps.fail _
    · refine Steps.bind (steps_fd _) fun _ => Steps.read_bind fun r => ?_
      cases r with
      | none => exact hset _
      | some q => exact Steps.bind (steps_destroyFds _) fun _ => hset _
  have hmemory : Steps R (forkMemory A p child) := by
    refine Steps.bind (steps_vm _) fun _ => Steps.read_bind fun r => ?_
    cases r with
    | none => exact hset _
    | some q => exact Steps.bind (steps_vm _) fun _ => hset _
  exact Steps.bind hfiles fun _ => Steps.bind hmemory fun _ =>
    steps_allocateKernelStack fun s _ => h s _

/-- `process_exec_image_args` changes its process, but not the actions. -/
theorem steps_processExec (A : Arch) (image : Image) (name : List UInt8)
    (argv : List (List ℕ)) (h : ∀ s f, (∀ p, (f p).actions = p.actions) → R s (s.onProcess i f)) :
    Steps R (processExec A i image name argv) := by
  have hset : ∀ f, (∀ p, (f p).actions = p.actions) →
      Steps R (Act.modify (System.onProcess i f) : Sys Unit) := fun f hf => Steps.modify fun s => h s f hf
  have hprepare : ∀ c, Steps R (prepareImage A i c image argv) := fun c =>
    Steps.bind (steps_vm _) fun _ =>
      Steps.bind (steps_allocateKernelStack fun s _ => h s _ fun _ => rfl) fun _ =>
      Steps.bind (steps_vm _) fun _ => Steps.bind (steps_vm _) fun _ => Steps.ret _
  refine Steps.read_bind fun r => ?_
  split
  · exact Steps.fail _
  · rename_i p
    refine Steps.ite (Steps.fail _) (Steps.bind (steps_vm _) fun c =>
      Steps.bind (Steps.attempt (hprepare c)) fun r => ?_)
    split
    · exact Steps.bind (steps_vm _) fun _ => Steps.fail _
    · rename_i entry sp
      have hstart : Steps R (startImage A i p.mm name (entry, sp)) :=
        Steps.bind (steps_vm _) fun _ => Steps.bind (hset _ fun _ => rfl) fun _ =>
          Steps.bind (steps_schedulerAdd fun s _ _ => h s _ fun _ => rfl) fun _ =>
          Steps.ite (Steps.ret _) (hset _ fun _ => rfl)
      exact Steps.bind (hset _ fun _ => rfl) fun _ => Steps.read_bind fun _ =>
        Steps.ite (Steps.bind (steps_switchContext _) fun _ => hstart) hstart

end Fork

/-- `process_fork` fills a slot that was not used with a running child that has the actions of its
parent, or changes no process. -/
theorem processFork_ends (A : Arch) (parent : Pid) (s : System) :
    Ends (processFork A parent) s fun r t => match r with
      | .ok child => s.procs child = none ∧ ∃ p q, s.procs parent = some p ∧
          t.procs = update s.procs child (some q) ∧ q.actions = p.actions ∧
          q.ppid = p.pid ∧ q.state = .running | .error _ => t.procs = s.procs := by
  refine Ends.read_bind ?_
  cases hp : s.procs parent with
  | none => exact Ends.fail rfl
  | some p =>
    refine (processCreate_ends A p.name s).bind ?_ fun _ _ h => h
    rintro child t ⟨hfree, pid, ppid, mm, fds, ht⟩
    have hchild : ∃ q, t.procs child = some q := ⟨_, by rw [ht, update_self]⟩
    have hst : Apart child s t := fun j hj => by rw [ht, update_of_ne hj]
    refine ((steps_forkChild A p (fun s f => apart_onProcess child f s) t).and
      (steps_forkChild (R := Kept fun _ => ()) A p (fun s f => kept_onProcess (f := f)
        (fun _ => rfl) s child) t)).attempt_bind fun r u hu => ?_
    have hsu : Apart child s u := IsTrans.trans _ _ _ hst hu.1
    cases r with
    | error e =>
      refine (total_processDestroy A child).bind_ends (processDestroy_ends A child u)
        fun _ v hv => Ends.fail ?_
      rw [hv]
      funext j
      by_cases hj : j = child
      · rw [hj, update_self, hfree]
      · rw [update_of_ne hj, hsu j hj]
    | ok x =>
      refine Ends.modify_bind ?_
      set v := u.onProcess child (inherit p) with hv
      have hadd : Ends (schedulerAdd child) v fun _ w =>
          Apart child v w ∧ Kept (fun q => (q.actions, q.ppid, q.state)) v w :=
        ⟨steps_schedulerAdd (fun s _ _ => apart_onProcess child _ s) v,
          steps_schedulerAdd (fun s _ _ => kept_onProcess (fun _ => by rfl) s child) v⟩
      refine (Total.modify _).bind_ends hadd fun _ w hw => Ends.ret ?_
      obtain ⟨q₀, hq₀⟩ := hchild
      obtain ⟨q₁, hq₁, -⟩ := seen_eq_some.mp ((congrFun hu.2 child).symm.trans (seen_of_some hq₀))
      have hvchild : v.procs child = some (inherit p q₁) := by
        rw [hv, onProcess_self, hq₁, Option.map_some]
      obtain ⟨q, hq, hact⟩ :=
        seen_eq_some.mp ((congrFun hw.2 child).symm.trans (seen_of_some hvchild))
      refine ⟨hfree, p, q, rfl, funext fun j => ?_, congrArg Prod.fst hact,
        congrArg (Prod.fst ∘ Prod.snd) hact, congrArg (Prod.snd ∘ Prod.snd) hact⟩
      by_cases hj : j = child
      · rw [hj, update_self, hq]
      · rw [update_of_ne hj, hw.1 j hj, hv, onProcess_ne hj, hsu j hj]

end Life

section Deliver

variable {A : Arch} {s : System} {i : Pid} {p : Process} {Q : Except Errno ℕ → System → Prop}

/-- The ways of `signal_deliver_pending`: there is no signal, it is ignored, it stops or ends the
process, or a handler is called. -/
theorem ends_signalDeliverPending (hp : s.procs i = some p)
    (hidle : Q (.ok 0) s) (hquiet : ∀ signal, Q (.ok signal) (s.onProcess i (takeSignal signal)))
    (hstop : ∀ signal, stopSignal signal = true → Ends (do
      Act.modify (System.onProcess i fun p => { p with state := .stopped })
      schedulerRemove i
      pure signal : Sys ℕ) (s.onProcess i (takeSignal signal)) Q)
    (hend : ∀ signal, Ends (do
      processTerminate i (128 + signal)
      pure signal : Sys ℕ) (s.onProcess i (takeSignal signal)) Q)
    (hcall : ∀ signal, nextSignal p = some signal → (p.actions signal).handler ≠ sigDfl →
      ((p.actions signal).handler = sigIgn → signal = sigkill) →
      Ends (if A.bits = 64 then callHandler64 A i p signal else callHandler32 A i p signal)
        (s.onProcess i (takeSignal signal)) Q) :
    Ends (signalDeliverPending A i) s Q := by
  refine Ends.read_bind ?_
  rw [hp]
  dsimp only
  split
  · exact Ends.ret hidle
  rename_i signal hsignal
  refine Ends.modify_bind ?_
  split
  · exact Ends.ret (hquiet signal)
  rename_i hign
  split
  · rename_i hst
    exact hstop signal hst
  rename_i hst
  split
  · split
    · exact Ends.ret (hquiet signal)
    · exact hend signal
  rename_i hdfl
  refine hcall signal hsignal hdfl fun h => ?_
  by_contra hkill
  refine hign ⟨h, hkill, fun heq => hst ?_⟩
  rw [heq]
  decide

theorem ends_signalDeliverPending_none
    (hp : s.procs i = none) (h : Q (.error .einval) s) : Ends (signalDeliverPending A i) s Q := by
  refine Ends.read_bind ?_
  rw [hp]
  exact Ends.fail h

end Deliver

end Tach.Processes
