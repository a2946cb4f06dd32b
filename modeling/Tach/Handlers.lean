import Tach.ProcessViews
import Tach.Targets

/-!
Handlers and images. A run is a sequence of calls; `events` records what happened to the images
and the handlers of the processes, the last event first. A handler belongs to the image that a
process executes if the process or an ancestor installed it after that image was loaded.

`process_exec_image_args` keeps the actions of the process, so its handlers outlive the image
they are in. A run keeps handlers with their images where each process that executes another
image has no handler at this point.
-/

namespace Tach.Processes

open Function Actions Vmm Process

inductive Event
  | created (i : Pid)
  | forked (parent child : Pid)
  | loaded (i : Pid)
  | installed (i : Pid) (signal handler : ℕ)
  deriving DecidableEq

/-- The process executes another image from this event on. -/
def Event.Starts (i : Pid) : Event → Prop
  | .created j | .forked _ j | .loaded j => j = i
  | .installed _ _ _ => False

/-- The process or an ancestor installed the handler while it executed the image that the process
executes now. -/
inductive Installed : List Event → Pid → ℕ → ℕ → Prop
  | here {es i signal handler} : Installed (.installed i signal handler :: es) i signal handler
  | inherited {es parent child signal handler} : Installed es parent signal handler →
      Installed (.forked parent child :: es) child signal handler
  | earlier {e es i signal handler} : ¬e.Starts i → Installed es i signal handler →
      Installed (e :: es) i signal handler

section Calls

variable (A : Arch)

/-- Calls of the kernel; `resume` is a switch to another process. -/
inductive Call
  | create (name : List UInt8)
  | destroy (i : Pid)
  | resume (i : Option Pid)
  | sigaction (signal action old : ℕ)
  | fork (parent : Pid)
  | exec (i : Pid) (image : Image) (name : List UInt8) (argv : List (List ℕ))
  | send (pid signal : ℕ)
  | deliver (i : Pid)

def accepted (signal : ℕ) : Bool := validSignal signal ∧ signal ≠ sigkill ∧ signal ≠ sigstop

/-- The handler that `sys_sigaction` installs. -/
def installs (s : System) (signal action old : ℕ) : List Event :=
  match s.running, s.currentProcess with
  | some i, some p =>
    if (p.userMode ∧ action ≠ 0 ∧ A.validUserRange action (sigactionSize A) = false) ∨
        (p.userMode ∧ old ≠ 0 ∧ A.validUserRange old (sigactionSize A) = false) then []
    else
      match (fetchAction A p action s).result with
      | .ok (some a) => if accepted signal then [.installed i signal a.handler] else []
      | _ => []
  | _, _ => []

def Call.perform (s : System) : Call → System × List Event
  | .create name =>
    let o := processCreate A name s
    (o.state, match o.result with | .ok i => [.created i] | .error _ => [])
  | .destroy i => ((processDestroy A i s).state, [])
  | .resume i => ({ s with current := update s.current s.cpu i }, [])
  | .sigaction signal action old =>
    ((sysSigaction A signal action old s).state, installs A s signal action old)
  | .fork parent =>
    let o := processFork A parent s
    (o.state, match o.result with | .ok i => [.forked parent i] | .error _ => [])
  | .exec i image name argv =>
    let o := processExec A i image name argv s
    (o.state, match o.result with | .ok () => [.loaded i] | .error _ => [])
  | .send pid signal => ((signalSend pid signal s).state, [])
  | .deliver i => ((signalDeliverPending A i s).state, [])

/-- The states and events of runs that begin without a process, each call allowed by `ok`. -/
inductive Reached (ok : System → Call → Prop) : System → List Event → Prop
  | start {s : System} (h : ∀ i, s.procs i = none) : Reached ok s []
  | step {s : System} {es : List Event} (call : Call) (h : Reached ok s es) (hok : ok s call) :
      Reached ok (call.perform A s).1 ((call.perform A s).2 ++ es)

/-- Every handler belongs to the image that the process executes, and a delivery jumps to no
other handler. -/
def HandlersCurrent (s : System) (es : List Event) : Prop :=
  (∀ i p, s.procs i = some p → ∀ signal, (p.actions signal).Calls →
    Installed es i signal (p.actions signal).handler) ∧
  ∀ i p q, s.procs i = some p → (signalDeliverPending A i s).state.procs i = some q →
    q.context.pc = p.context.pc ∨ ∃ signal, Installed es i signal q.context.pc

/-- A process that is to execute an image has no handler. -/
def Call.Meets (s : System) : Call → Prop
  | .exec i _ _ _ => ∀ p, s.procs i = some p → ∀ signal, ¬(p.actions signal).Calls
  | _ => True

end Calls

section Signals

/-- The part of a process that signals do not change before a handler is called. -/
def signalView (p : Process) : (ℕ → SigAction) × UserContext := (p.actions, p.context)

theorem steps_schedulerWake (i : Pid) : Steps (Kept signalView) (schedulerWake i) := by
  refine Steps.read_bind fun _ => Steps.ite ?_ (Steps.ret ())
  exact Steps.bind (Steps.modify fun s => kept_onProcess (fun _ => by rfl) s i) fun _ =>
    steps_schedulerAdd fun s _ _ => kept_onProcess (fun _ => by rfl) s i

theorem steps_postSignal (i : Pid) (signal : ℕ) : Steps (Kept signalView) (postSignal i signal) := by
  have hset : ∀ f : Process → Process, (∀ p, signalView (f p) = signalView p) →
      Steps (Kept signalView) (Act.modify (System.onProcess i f) : Sys Unit) :=
    fun f hf => Steps.modify fun s => kept_onProcess hf s i
  have htail : Steps (Kept signalView) (do
      Act.modify (System.onProcess i fun p => { p with pending := p.pending ||| 2 ^ signal })
      schedulerWake i : Sys Unit) :=
    Steps.bind (hset _ fun _ => rfl) fun _ => steps_schedulerWake i
  refine Steps.read_bind fun _ => Steps.ite ?_ htail
  exact Steps.bind (hset _ fun _ => rfl) fun _ => Steps.bind
    (steps_schedulerAdd fun s _ _ => kept_onProcess (fun _ => by rfl) s i) fun _ => htail

theorem steps_processTerminate (i : Pid) (code : ℕ) :
    Steps (Kept signalView) (processTerminate i code) := by
  refine Steps.read_bind fun r => ?_
  split
  · exact Steps.ret ()
  · refine Steps.ite (Steps.ret ()) ?_
    refine Steps.bind (Steps.modify fun s => kept_onProcess (fun _ => by rfl) s i) fun _ =>
      Steps.bind (steps_schedulerRemove fun s _ => kept_onProcess (fun _ => by rfl) s i) fun _ =>
      Steps.bind (steps_destroyFds _) fun _ =>
      Steps.bind (Steps.modify fun s => kept_onProcess (fun _ => by rfl) s i) fun _ =>
      Steps.read_bind fun parent => ?_
    split
    · exact Steps.ret ()
    · exact Steps.bind (steps_postSignal _ _) fun _ => steps_schedulerWake _

theorem steps_signalSend (pid signal : ℕ) : Steps (Kept signalView) (signalSend pid signal) := by
  refine Steps.ite (Steps.fail _) (Steps.read_bind fun r => ?_)
  split
  · exact Steps.fail _
  · exact Steps.ite (steps_processTerminate _ _) (steps_postSignal _ _)

variable {A : Arch} {s t : System} {i : Pid} {p : Process} {signal : ℕ}

/-- The saved program counter is as it was, or the address of a handler. -/
def Delivered (p : Process) (s t : System) (i : Pid) : Prop :=
  Kept Process.actions s t ∧ ∀ q, t.procs i = some q → q.context.pc = p.context.pc ∨
    ∃ signal, (p.actions signal).Calls ∧ q.context.pc = (p.actions signal).handler

theorem Kept.actions (h : Kept signalView s t) : Kept actions s t := by
  funext j
  have hj := congrArg (Option.map Prod.fst) (congrFun h j)
  rwa [seen, seen, Option.map_map, Option.map_map] at hj

section

variable (hp : s.procs i = some p) (h : Kept signalView s t)
include hp h

theorem delivered_of_kept : Delivered p s t i := by
  refine ⟨h.actions, fun q hq => .inl ?_⟩
  have hi := congrFun h i
  rw [seen_of_some hp, seen_of_some hq, Option.some_inj] at hi
  have hcontext : p.context = q.context := congrArg Prod.snd hi
  rw [hcontext]

variable (hcalls : (p.actions signal).Calls)
include hcalls

theorem delivered_enter {f : Process → Process}
    (hf : ∀ q, (f q).actions = q.actions ∧ (f q).context.pc = (q.actions signal).handler) :
    Delivered p s (t.onProcess i f) i := by
  refine ⟨IsTrans.trans _ _ _ h.actions (kept_onProcess (fun q => (hf q).1) t i), fun q hq => ?_⟩
  rw [onProcess_self] at hq
  obtain ⟨q₀, hq₀, rfl⟩ := Option.map_eq_some_iff.mp hq
  have hi := congrFun h i
  rw [seen_of_some hp, seen_of_some hq₀, Option.some_inj] at hi
  refine .inr ⟨signal, hcalls, ?_⟩
  have hactions : p.actions = q₀.actions := congrArg Prod.fst hi
  rw [(hf q₀).2, hactions]

theorem callHandler64_delivered :
    Ends (callHandler64 A i p signal) t fun _ u => Delivered p s u i := by
  refine Ends.read_bind ?_
  split
  · refine (steps_processTerminate i _ t).bind (fun _ u hu => Ends.fail ?_) fun _ u hu => ?_ <;>
      exact delivered_of_kept hp (IsTrans.trans _ _ _ h hu)
  · refine (steps_vm (R := Kept signalView) _ t).bind (fun _ u hu => ?_) fun _ u hu => ?_
    · exact Ends.modify_bind (Ends.ret (delivered_enter hp (IsTrans.trans _ _ _ h hu) hcalls
        fun _ => ⟨rfl, rfl⟩))
    · exact delivered_of_kept hp (IsTrans.trans _ _ _ h hu)

theorem callHandler32_delivered :
    Ends (callHandler32 A i p signal) t fun _ u => Delivered p s u i := by
  refine (steps_copyToUser (R := Kept signalView) (fun s i _ => kept_onProcess (fun _ => by rfl) s i)
    p.mm _ _ t).attempt_bind fun r u hu => ?_
  have hsu : Kept signalView s u := IsTrans.trans _ _ _ h hu
  cases r with
  | error e =>
    refine (steps_processTerminate i _ u).bind (fun _ v hv => Ends.fail ?_) fun _ v hv => ?_ <;>
      exact delivered_of_kept hp (IsTrans.trans _ _ _ hsu hv)
  | ok _ =>
    exact Ends.modify_bind (Ends.ret (delivered_enter hp hsu hcalls fun _ => ⟨rfl, rfl⟩))

end

theorem signalDeliverPending_delivered (A : Arch) (hp : s.procs i = some p)
    (hkill : (p.actions sigkill).handler = sigDfl) :
    Ends (signalDeliverPending A i) s fun _ t => Delivered p s t i := by
  have htake : ∀ signal, Kept signalView s (s.onProcess i (takeSignal signal)) :=
    fun signal => kept_onProcess (fun _ => by rfl) s i
  refine ends_signalDeliverPending hp (delivered_of_kept hp rfl)
    (fun signal => delivered_of_kept hp (htake signal)) (fun signal _ => ?_) (fun signal => ?_) ?_
  · have hstopped : Kept signalView (s.onProcess i (takeSignal signal))
        ((s.onProcess i (takeSignal signal)).onProcess i fun p => { p with state := .stopped }) :=
      kept_onProcess (fun _ => by rfl) _ i
    refine Ends.modify_bind ((Total.modify _).bind_ends ((steps_schedulerRemove (R := Kept signalView)
      fun s _ => kept_onProcess (fun _ => by rfl) s i).after ((htake signal).trans hstopped))
      fun _ t ht => Ends.ret (delivered_of_kept hp ht))
  · exact ((steps_processTerminate i _).after (htake signal)).bind
      (fun _ t ht => Ends.ret (delivered_of_kept hp ht)) fun _ t ht => delivered_of_kept hp ht
  · intro signal _ hdfl hign
    have hcalls : (p.actions signal).Calls :=
      ⟨hdfl, fun h => hdfl (hign h ▸ hkill)⟩
    split
    · exact callHandler64_delivered hp (htake signal) hcalls
    · exact callHandler32_delivered hp (htake signal) hcalls

theorem steps_fetchAction (p : Process) (action : ℕ) :
    Steps (Kept actions) (fetchAction A p action) := by
  have hcopy : Steps (Kept actions) (copyFromCaller A p action (sigactionSize A)) :=
    Steps.ite (Steps.fail _) (Steps.ite
      (Steps.ite (Steps.fail _) (steps_copyIn (fun s i _ => kept_onProcess (fun _ => by rfl) s i) _ _ _ []))
      (fun _ => rfl))
  exact Steps.ite (Steps.ret _) (Steps.bind hcopy fun _ => Steps.ret _)

theorem steps_copyToCaller (p : Process) (address : ℕ) (bytes : List ℕ) :
    Steps (Kept actions) (copyToCaller A p address bytes) :=
  Steps.ite (Steps.fail _) (Steps.ite
    (steps_copyToUser (fun s i _ => kept_onProcess (fun _ => by rfl) s i) _ _ _) (steps_vm _))

/-- One action of the process in the slot is replaced. -/
def Replaces (s t : System) (i : Pid) (signal : ℕ) (a : SigAction) : Prop :=
  ∃ old, seen Process.actions s i = some old ∧ seen Process.actions t =
      update (seen Process.actions s) i (some (update old signal a))

theorem signalSetAction_replaces (hp : s.procs i = some p)
    (hacc : accepted signal = true) (a : SigAction) :
    Ends (signalSetAction i signal (some a)) s fun _ t => Replaces s t i signal a := by
  obtain ⟨hvalid, hkill, hstop⟩ : validSignal signal = true ∧ signal ≠ sigkill ∧
      signal ≠ sigstop := of_decide_eq_true hacc
  refine Ends.read_bind ?_
  rw [hp]
  dsimp only
  rw [if_neg (by rw [hvalid]; decide), if_neg (not_or.mpr ⟨hkill, hstop⟩)]
  refine Ends.modify_bind (Ends.ret ⟨p.actions, seen_of_some hp, ?_⟩)
  unfold System.onProcess
  rw [seen_setProcess, hp]
  rfl

theorem signalSetAction_kept {action : Option SigAction}
    (h : action = none ∨ accepted signal = false) :
    Ends (signalSetAction i signal action) s fun _ t => Kept actions s t := by
  refine Ends.read_bind ?_
  split
  · exact Ends.fail rfl
  · split
    · exact Ends.fail rfl
    · rename_i hvalid
      cases action with
      | none => exact Ends.ret rfl
      | some a =>
        have hcatch : signal = sigkill ∨ signal = sigstop := by
          have hnot := of_decide_eq_false (h.resolve_left nofun)
          simp only [Bool.not_eq_false] at hvalid
          tauto
        dsimp only
        rw [if_pos hcatch]
        exact Ends.fail rfl

/-- What `sys_sigaction` does, by the events. -/
def Records (s t : System) (signal : ℕ) (es : List Event) : Prop :=
  (es = [] ∧ Kept Process.actions s t) ∨ ∃ i a, es = [.installed i signal a.handler] ∧
    accepted signal = true ∧ Replaces s t i signal a

theorem Records.of_kept {u : System} {es : List Event} (h : Records s t signal es)
    (htu : Kept actions t u) : Records s u signal es := by
  obtain ⟨hes, hst⟩ | ⟨i, a, hes, hacc, b, hb, hst⟩ := h
  · exact .inl ⟨hes, hst.trans htu⟩
  · exact .inr ⟨i, a, hes, hacc, b, hb, htu.symm.trans hst⟩

theorem sysSigaction_records (A : Arch) (signal action old : ℕ) (s : System) :
    Ends (sysSigaction A signal action old) s fun _ t =>
      Records s t signal (installs A s signal action old) := by
  have hnothing : ∀ t, installs A s signal action old = [] → Kept actions s t →
      Records s t signal (installs A s signal action old) := fun t hes ht => .inl ⟨hes, ht⟩
  refine Ends.read_bind (Ends.read_bind ?_)
  cases hrunning : s.running with
  | none => exact Ends.fail (hnothing s (by simp only [installs, hrunning]) rfl)
  | some i =>
    cases hcurrent : s.currentProcess with
    | none => exact Ends.fail (hnothing s (by simp only [installs, hrunning, hcurrent]) rfl)
    | some p =>
      have hp : s.procs i = some p := by
        rwa [System.currentProcess, hrunning, Option.bind_some] at hcurrent
      dsimp only
      split
      · rename_i hbad
        refine Ends.fail (hnothing s ?_ rfl)
        simp only [installs, hrunning, hcurrent, if_pos (Or.inl hbad)]
      split
      · rename_i hbad
        refine Ends.fail (hnothing s ?_ rfl)
        simp only [installs, hrunning, hcurrent, if_pos (Or.inr hbad)]
      rename_i hbad hbad'
      have hes : installs A s signal action old = match (fetchAction A p action s).result with
          | .ok (some a) => if accepted signal then [.installed i signal a.handler] else []
          | _ => [] := by
        simp only [installs, hrunning, hcurrent, if_neg (not_or.mpr ⟨hbad, hbad'⟩)]
      have hfetch : Ends (fetchAction A p action) s fun r t =>
          r = (fetchAction A p action s).result ∧ Kept actions s t :=
        ⟨rfl, steps_fetchAction p action s⟩
      refine hfetch.bind ?_ fun e t ht => hnothing t (by rw [hes, ← ht.1]) ht.2
      rintro new t ⟨hnew, ht⟩
      rw [← hnew] at hes
      have hset : Ends (signalSetAction i signal new) t fun _ u =>
          Records s u signal (installs A s signal action old) := by
        rw [hes]
        cases new with
        | none => exact (signalSetAction_kept (.inl rfl)).mono fun _ u hu => .inl ⟨rfl, ht.trans hu⟩
        | some a =>
          cases hacc : accepted signal with
          | false =>
            exact (signalSetAction_kept (.inr hacc)).mono fun _ u hu => .inl ⟨rfl, ht.trans hu⟩
          | true =>
            obtain ⟨q, hq, -⟩ := seen_eq_some.mp ((congrFun ht i).symm.trans (seen_of_some hp))
            refine (signalSetAction_replaces hq hacc a).mono fun _ u hu => ?_
            refine .inr ⟨i, a, rfl, hacc, ?_⟩
            rw [Replaces, ht]
            exact hu
      refine hset.bind (fun before u hu => ?_) fun _ u hu => hu
      split
      · exact Ends.ret hu
      · exact (steps_copyToCaller p old _ u).mono fun _ v hv => hu.of_kept hv

end Signals

section Runs

variable {A : Arch} {s t : System} {es : List Event}

/-- Every handler belongs to the image that the process executes; there is none for `SIGKILL`. -/
structure HandlersFit (v : Pid → Option (ℕ → SigAction)) (es : List Event) : Prop where
  installed : ∀ i a, v i = some a → ∀ signal, (a signal).Calls →
    Installed es i signal (a signal).handler
  kill : ∀ i a, v i = some a → (a sigkill).handler = sigDfl

namespace HandlersFit

variable {v : Pid → Option (ℕ → SigAction)} {i : Pid}

theorem remove (h : HandlersFit v es) (i : Pid) : HandlersFit (update v i none) es := by
  have hold : ∀ j a, update v i none j = some a → v j = some a := by
    intro j a hj
    by_cases hji : j = i
    · rw [hji, update_self] at hj
      cases hj
    · rwa [update_of_ne hji] at hj
  exact ⟨fun j a hj => h.installed j a (hold j a hj), fun j a hj => h.kill j a (hold j a hj)⟩

/-- A process enters with an event that concerns only it. -/
theorem enter (h : HandlersFit v es) {e : Event} {a : ℕ → SigAction}
    (he : ∀ j, j ≠ i → ¬e.Starts j) (hkill : (a sigkill).handler = sigDfl)
    (ha : ∀ signal, (a signal).Calls → Installed (e :: es) i signal (a signal).handler) :
    HandlersFit (update v i (some a)) (e :: es) := by
  refine ⟨fun j b hj signal hcalls => ?_, fun j b hj => ?_⟩
  · by_cases hji : j = i
    · rw [hji, update_self, Option.some_inj] at hj
      rw [hji, ← hj]
      exact ha signal (hj ▸ hcalls)
    · rw [update_of_ne hji] at hj
      exact .earlier (he j hji) (h.installed j b hj signal hcalls)
  · by_cases hji : j = i
    · rw [hji, update_self, Option.some_inj] at hj
      rw [← hj]
      exact hkill
    · rw [update_of_ne hji] at hj
      exact h.kill j b hj

end HandlersFit

section Step

variable (h : HandlersFit (seen Process.actions s) es)

include h

theorem create_fit (name : List UInt8) :
    HandlersFit (seen actions ((Call.create name).perform A s).1)
      (((Call.create name).perform A s).2 ++ es) := by
  have hspec := processCreate_ends A name s
  unfold Ends at hspec
  dsimp only [Call.perform]
  cases hr : (processCreate A name s).result with
  | error e =>
    rw [hr] at hspec
    have hsame : seen actions s = seen actions (processCreate A name s).state :=
      kept_of_procs hspec
    exact hsame ▸ h
  | ok i =>
    rw [hr] at hspec
    obtain ⟨-, pid, ppid, mm, fds, ht⟩ := hspec
    rw [seen_update ht]
    refine h.enter (fun j hj he => hj he.symm) rfl fun signal hcalls => ?_
    exact absurd rfl hcalls.1

theorem fork_fit (parent : Pid) :
    HandlersFit (seen actions ((Call.fork parent).perform A s).1)
      (((Call.fork parent).perform A s).2 ++ es) := by
  have hspec := processFork_ends A parent s
  unfold Ends at hspec
  dsimp only [Call.perform]
  cases hr : (processFork A parent s).result with
  | error e =>
    rw [hr] at hspec
    have hsame : seen actions s = seen actions (processFork A parent s).state :=
      kept_of_procs hspec
    exact hsame ▸ h
  | ok child =>
    rw [hr] at hspec
    obtain ⟨-, p, q, hp, ht, hactions, -⟩ := hspec
    have hparent : seen actions s parent = some q.actions := by
      rw [seen_of_some hp, hactions]
    rw [seen_update ht]
    refine h.enter (fun j hj he => hj he.symm) (h.kill parent _ hparent) fun signal hcalls => ?_
    exact .inherited (h.installed parent _ hparent signal hcalls)

theorem exec_fit {i : Pid} {image : Image} {name : List UInt8} {argv : List (List ℕ)}
    (hok : (Call.exec i image name argv).Meets s) :
    HandlersFit (seen actions ((Call.exec i image name argv).perform A s).1)
      (((Call.exec i image name argv).perform A s).2 ++ es) := by
  have hsame : seen actions s =
      seen actions (processExec A i image name argv s).state :=
    steps_processExec A image name argv
      (fun s f hf => kept_onProcess hf s i) s
  dsimp only [Call.perform]
  rw [← hsame]
  cases hr : (processExec A i image name argv s).result with
  | error e => exact h
  | ok u =>
    refine ⟨fun j a hj signal hcalls => ?_, h.kill⟩
    by_cases hji : j = i
    · -- the process that executes the image has no handler
      obtain ⟨p, hp, rfl⟩ := seen_eq_some.mp hj
      exact absurd hcalls (hok p (hji ▸ hp) signal)
    · exact .earlier (fun he => hji he.symm) (h.installed j a hj signal hcalls)

theorem sigaction_fit (signal action old : ℕ) :
    HandlersFit (seen actions ((Call.sigaction signal action old).perform A s).1)
      (((Call.sigaction signal action old).perform A s).2 ++ es) := by
  obtain ⟨hes, ht⟩ | ⟨i, a, hes, hacc, b, hb, ht⟩ := sysSigaction_records A signal action old s
  · dsimp only [Call.perform]
    rw [hes, ← ht]
    exact h
  · obtain ⟨-, hkill, -⟩ : validSignal signal = true ∧ signal ≠ sigkill ∧ signal ≠ sigstop :=
      of_decide_eq_true hacc
    dsimp only [Call.perform]
    rw [hes, ht]
    refine h.enter (fun _ _ => id) ?_ fun signal' hcalls => ?_
    · rw [update_of_ne hkill.symm]
      exact h.kill i b hb
    · by_cases hsig : signal' = signal
      · rw [hsig, update_self]
        exact .here
      · rw [update_of_ne hsig] at hcalls ⊢
        exact .earlier id (h.installed i b hb signal' hcalls)

/-- A call that meets the condition keeps handlers with their images. -/
theorem perform_fit {call : Call} (hok : call.Meets s) :
    HandlersFit (seen actions (call.perform A s).1) ((call.perform A s).2 ++ es) := by
  have hkept : ∀ t, Kept actions s t → HandlersFit (seen actions t) es :=
    fun t ht => (ht) ▸ h
  cases call with
  | create name => exact create_fit h name
  | destroy i =>
    dsimp only [Call.perform]
    rw [seen_update (processDestroy_ends A i s)]
    exact h.remove i
  | resume i => exact hkept _ rfl
  | sigaction signal action old => exact sigaction_fit h signal action old
  | fork parent => exact fork_fit h parent
  | exec i image name argv => exact exec_fit h hok
  | send pid signal => exact hkept _ (steps_signalSend pid signal s).actions
  | deliver i =>
    cases hp : s.procs i with
    | none =>
      have hstate : Ends (signalDeliverPending A i) s fun _ t => Kept actions s t :=
        ends_signalDeliverPending_none hp rfl
      exact hkept _ hstate
    | some p =>
      have hdelivered := signalDeliverPending_delivered A hp (h.kill i _ (seen_of_some hp))
      exact hkept _ hdelivered.1

end Step

/-- In a run whose calls meet the condition handlers belong to their images. -/
theorem reached_fit (h : Reached A (fun s call => call.Meets s) s es) :
    HandlersFit (seen actions s) es := by
  induction h with
  | @start s hs =>
    have hnone : ∀ i a, seen actions s i ≠ some a := fun i a ha => by
      rw [seen, hs i] at ha
      cases ha
    exact ⟨fun i a ha => absurd ha (hnone i a), fun i a ha => absurd ha (hnone i a)⟩
  | step call _ hok ih => exact perform_fit ih hok

theorem handlersCurrent_of_reached (h : Reached A (fun s call => call.Meets s) s es) :
    HandlersCurrent A s es := by
  have hfit := reached_fit h
  refine ⟨fun i p hp => hfit.installed i _ (seen_of_some hp), fun i p q hp hq => ?_⟩
  have hdelivered := signalDeliverPending_delivered A hp (hfit.kill i _ (seen_of_some hp))
  refine (hdelivered.2 q hq).imp_right ?_
  rintro ⟨signal, hcalls, hpc⟩
  exact ⟨signal, hpc ▸ hfit.installed i _ (seen_of_some hp) signal hcalls⟩

end Runs

def performAll (A : Arch) : List Call → System × List Event → System × List Event
  | [], x => x
  | call :: calls, x =>
    let y := call.perform A x.1
    performAll A calls (y.1, y.2 ++ x.2)

theorem reached_performAll {A : Arch} {s : System} {es : List Event} (calls : List Call)
    (h : Reached A (fun _ _ => True) s es) : Reached A (fun _ _ => True)
      (performAll A calls (s, es)).1 (performAll A calls (s, es)).2 := by
  induction calls generalizing s es with
  | nil => exact h
  | cons call calls ih => exact ih (h.step call trivial)

/-- A process executes an image, takes the entry point for a handler of `SIGUSR1`, and executes
the image again. -/
def handlerCalls : List Call :=
  [.create [105], .exec 0 tinyImage [] [], .resume (some 0), .sigaction 10 0x400018 0,
    .exec 0 tinyImage [] []]

set_option maxRecDepth 1000 in
theorem handler_outlives_image : ∃ s es, Reached i686 (fun _ _ => True) s es ∧
    ¬HandlersCurrent i686 s es := by
  have hstart : Reached i686 (fun _ _ => True) (smallSystem 32) [] := .start fun _ => rfl
  refine ⟨_, _, reached_performAll handlerCalls hstart, fun h => ?_⟩
  have hrun : (fun x => ((x.1.procs 0).map fun p => (p.actions 10).handler, x.2))
      (performAll i686 handlerCalls (smallSystem 32, [])) =
      (some 0x400054, [.loaded 0, .installed 0 10 0x400054, .loaded 0, .created 0]) := by
    decide +kernel
  obtain ⟨hhandler, hes⟩ := Prod.mk.inj hrun
  obtain ⟨p, hp, hpc⟩ := Option.map_eq_some_iff.mp hhandler
  have hinstalled := h.1 0 p hp 10 ⟨by rw [hpc]; decide, by rw [hpc]; decide⟩
  rw [hes] at hinstalled
  cases hinstalled with
  | earlier hstarts => exact hstarts rfl

set_option maxRecDepth 1000 in
/-- The process has no handler when it executes the image, and installs one. -/
theorem handler_of_image : ∃ s es, Reached i686 (fun s call => call.Meets s) s es ∧
    HandlersCurrent i686 s es ∧ es = [.installed 0 10 0x400054, .loaded 0, .created 0] := by
  have hstart : Reached i686 (fun s call => call.Meets s) (smallSystem 32) [] :=
    .start fun _ => rfl
  have hcreated := hstart.step (.create [105]) trivial
  have hes : ((Call.create [105]).perform i686 (smallSystem 32)).2 = [.created 0] := by
    decide +kernel
  have hmeets : (Call.exec 0 tinyImage [] []).Meets
      ((Call.create [105]).perform i686 (smallSystem 32)).1 := by
    intro p hp signal hcalls
    have hinstalled := (reached_fit hcreated).installed 0 _ (seen_of_some hp) signal hcalls
    rw [hes] at hinstalled
    cases hinstalled with
    | earlier hstarts => exact hstarts rfl
  have hreached := ((hcreated.step _ hmeets).step (.resume (some 0)) trivial).step
    (.sigaction 10 0x400018 0) trivial
  exact ⟨_, _, hreached, handlersCurrent_of_reached hreached, by decide +kernel⟩

end Tach.Processes
