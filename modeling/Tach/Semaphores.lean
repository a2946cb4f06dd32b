import Tach.Dispatch

/-!
The semaphores of sem.c among processes that signal and kill each other. A critical section of the
semaphore is one step; `signal_send` and `process_terminate` hold no lock and are taken apart into
their accesses to the state of a process. A process in `scheduler_yield` goes on when a CPU has seen
it in the state `RUNNING`, in `scheduler_pick_next` or, on its own CPU, in `scheduler_yield` itself.

A semaphore hands its permit to the first process in its queue. This counts on that process being
blocked until then: a signal wakes it like any other and `sem_acquire` returns without a permit,
and a permit handed to a process that was killed or woken in the queue is lost.
-/

namespace Tach.Semaphores

open Function List

open Dispatch (RunState)
open Processes (sigkill sigchld sigcont validSignal)

variable {ι : Type*}

section Model

/-- What is left to do for a process: the end of `sem_acquire`, and the accesses of `signal_send`,
`scheduler_wake` and `process_terminate`. -/
inductive Op (ι : Type*)
  | leaveYield
  | acquired
  | contTest (p : ι) (signal : ℕ)
  | contStore (p : ι)
  | blockedTest (p : ι)
  | wakeTest (p : ι)
  | wakeStore (p : ι)
  | terminateTest (p : ι)
  | terminateStore (p : ι)
  deriving DecidableEq

/-- A semaphore, the states of the processes and what they have left to do. -/
structure State (ι : Type*) where
  value : ℤ
  waiters : List ι
  state : ι → RunState
  code : ι → List (Op ι)

inductive Action (ι : Type*)
  | go (i : ι)
  | acquire (i : ι)
  | release (i : ι)
  | send (i p : ι) (signal : ℕ)

inductive Event (ι : Type*)
  | acquired (i : ι)
  | released (i : ι)
  deriving DecidableEq

/-- `value++` of an `int32_t`. -/
def increment (value : ℤ) : ℤ := if value = 2 ^ 31 - 1 then -2 ^ 31 else value + 1

/-- `signal_send` to a process, other than `SIGKILL`. -/
def sendOps (p : ι) (signal : ℕ) : List (Op ι) := [.contTest p signal, .blockedTest p]

/-- `signal_send`. -/
def signalOps (p : ι) (signal : ℕ) : List (Op ι) :=
  if validSignal signal then
    if signal = sigkill then [.terminateTest p] else sendOps p signal
  else []

variable [DecidableEq ι] (parent : ι → Option ι)

/-- One access: the states of the processes afterwards and what comes next. -/
def access (state : ι → RunState) : Op ι → (ι → RunState) × List (Op ι)
  | .leaveYield => (state, [])
  | .acquired => (state, [])
  | .contTest p signal =>
    (state, if signal = sigcont ∧ state p = .stopped then [.contStore p] else [])
  | .contStore p => (update state p .running, [])
  | .blockedTest p => (state, if state p = .blocked then [.wakeTest p] else [])
  | .wakeTest p => (state, if state p = .blocked then [.wakeStore p] else [])
  | .wakeStore p => (update state p .running, [])
  | .terminateTest p => (state, if state p = .zombie then [] else [.terminateStore p])
  | .terminateStore p =>
    (update state p .zombie, (parent p).elim [] fun q => sendOps q sigchld ++ [.blockedTest q])

/-- `scheduler_wake`, in the critical section of `sem_release`. -/
def wake (state : ι → RunState) (p : ι) : ι → RunState :=
  if state p = .blocked then update state p .running else state

variable [Fintype ι]

/-- One step. `process_terminate` is what `SIGKILL` does, also to the sender itself; the queue has
room for every process. -/
def next (s : State ι) : Action ι → Option (State ι × List (Event ι))
  | .go i =>
    match s.code i with
    | [] => none
    | op :: rest =>
      if op = .leaveYield ∧ s.state i ≠ .running then none
      else
        let r := access parent s.state op
        some ({ s with state := r.1, code := update s.code i (r.2 ++ rest) },
          if op = .acquired then [.acquired i] else [])
  | .acquire i =>
    if s.code i ≠ [] then none
    else if 0 < s.value then some ({ s with value := s.value - 1 }, [.acquired i])
    else if s.waiters.length < Fintype.card ι then
      some ({ s with
        waiters := s.waiters ++ [i]
        state := update s.state i .blocked
        code := update s.code i [.leaveYield, .acquired] }, [])
    else none
  | .release i =>
    if s.code i ≠ [] then none
    else
      match s.waiters with
      | p :: rest => some ({ s with waiters := rest, state := wake s.state p }, [.released i])
      | [] => some ({ s with value := increment s.value }, [.released i])
  | .send i p signal =>
    if s.code i ≠ [] then none
    else some ({ s with code := update s.code i (signalOps p signal) }, [])

abbrev Run (ok : State ι → Action ι → Prop) := Histories.Run (next parent) ok

inductive Change (s : State ι) : Action ι → State ι → List (Event ι) → Prop
  | left {i : ι} {rest : List (Op ι)} (hcode : s.code i = .leaveYield :: rest)
      (hrunning : s.state i = .running) :
      Change s (.go i) { s with code := update s.code i rest } []
  | returned {i : ι} {rest : List (Op ι)} (hcode : s.code i = .acquired :: rest) :
      Change s (.go i) { s with code := update s.code i rest } [.acquired i]
  | accessed {i : ι} {op : Op ι} {rest : List (Op ι)} (hcode : s.code i = op :: rest)
      (hleave : op ≠ .leaveYield) (hacquired : op ≠ .acquired) :
      Change s (.go i) { s with
        state := (access parent s.state op).1
        code := update s.code i ((access parent s.state op).2 ++ rest) } []
  | taken {i : ι} (hcode : s.code i = []) (hvalue : 0 < s.value) :
      Change s (.acquire i) { s with value := s.value - 1 } [.acquired i]
  | queued {i : ι} (hcode : s.code i = []) (hvalue : ¬0 < s.value) :
      Change s (.acquire i) { s with
        waiters := s.waiters ++ [i]
        state := update s.state i .blocked
        code := update s.code i [.leaveYield, .acquired] } []
  | handed {i p : ι} {rest : List ι} (hcode : s.code i = []) (hwaiters : s.waiters = p :: rest) :
      Change s (.release i) { s with waiters := rest, state := wake s.state p } [.released i]
  | freed {i : ι} (hcode : s.code i = []) (hwaiters : s.waiters = []) :
      Change s (.release i) { s with value := increment s.value } [.released i]
  | sent {i p : ι} {signal : ℕ} (hcode : s.code i = []) :
      Change s (.send i p signal)
        { s with code := update s.code i (signalOps p signal) } []

theorem next_change {s t : State ι} {a : Action ι} {e : List (Event ι)}
    (h : next parent s a = some (t, e)) : Change parent s a t e := by
  cases a with
  | go i =>
    simp only [next] at h
    split at h
    · cases h
    · rename_i op rest hcode
      split at h
      · cases h
      · rename_i hgo
        cases h
        by_cases hleave : op = .leaveYield
        · subst hleave
          have hrunning : s.state i = .running := by
            by_contra hnot
            exact hgo ⟨rfl, hnot⟩
          exact .left hcode hrunning
        · by_cases hacquired : op = .acquired
          · subst hacquired
            exact .returned hcode
          · rw [if_neg hacquired]
            exact .accessed hcode hleave hacquired
  | acquire i =>
    simp only [next] at h
    split at h
    · cases h
    · rename_i hcode
      rw [not_not] at hcode
      split at h
      · rename_i hvalue
        cases h
        exact .taken hcode hvalue
      · rename_i hvalue
        split_ifs at h
        cases h
        exact .queued hcode hvalue
  | release i =>
    simp only [next] at h
    split_ifs at h with hcode
    rw [not_not] at hcode
    split at h
    · rename_i hwaiters
      cases h
      exact .handed hcode hwaiters
    · rename_i hwaiters
      cases h
      exact .freed hcode hwaiters
  | send i p signal =>
    simp only [next] at h
    split_ifs at h with hcode
    rw [not_not] at hcode
    cases h
    exact .sent hcode

end Model

section Protocol

/-- A process in the queue is blocked in `scheduler_yield`; one to which a permit was handed is
in the state `RUNNING`. -/
structure Sound (s : State ι) : Prop where
  nodup : s.waiters.Nodup
  waiting : ∀ p ∈ s.waiters, s.code p = [.leaveYield, .acquired] ∧ s.state p = .blocked
  inside : ∀ p, .acquired ∈ s.code p → s.code p = [.leaveYield, .acquired] ∨ s.code p = [.acquired]
  running : ∀ p, .acquired ∈ s.code p → p ∉ s.waiters → s.state p = .running
  nonneg : 0 ≤ s.value

/-- A process in the queue is not woken by a signal, a process in `sem_acquire` is not killed, and
the value does not overflow. -/
def Undisturbed (s : State ι) : Action ι → Prop
  | .go i => ∀ op ∈ (s.code i).head?, ∀ p, (op = .wakeStore p ∨ op = .contStore p → p ∉ s.waiters) ∧
      (op = .terminateStore p → .acquired ∉ s.code p)
  | .release _ => s.waiters = [] → s.value < 2 ^ 31 - 1
  | _ => True

variable {parent : ι → Option ι} {s t : State ι} {i : ι} {op : Op ι} {rest : List (Op ι)}

/-- What a process in `sem_acquire` has left to do begins with no access to a state. -/
theorem Sound.outside (h : Sound s) (hcode : s.code i = op :: rest) (hleave : op ≠ .leaveYield)
    (hacquired : op ≠ .acquired) : .acquired ∉ s.code i := by
  intro hmem
  rcases h.inside i hmem with hi | hi <;> rw [hcode] at hi <;> cases hi
  · exact hleave rfl
  · exact hacquired rfl

/-- A process that does something else is not in the queue. -/
theorem Sound.not_waiting (h : Sound s) (hi : .acquired ∉ s.code i) : i ∉ s.waiters := by
  intro hmem
  rw [(h.waiting i hmem).1] at hi
  simp at hi

/-- The return from `sem_acquire` is the last thing a process had left to do. -/
theorem Sound.returning (h : Sound s) (hcode : s.code i = .acquired :: rest) :
    rest = [] ∧ i ∉ s.waiters := by
  constructor
  · rcases h.inside i (by rw [hcode]; exact mem_cons_self) with hi | hi <;>
      rw [hcode] at hi <;> cases hi
    rfl
  · intro hmem
    have hi := (h.waiting i hmem).1
    rw [hcode] at hi
    cases hi

/-- States change that do not matter to the semaphore. -/
theorem Sound.setState (h : Sound s) {state : ι → RunState}
    (hwaiting : ∀ p ∈ s.waiters, state p = s.state p)
    (hrunning : ∀ p, .acquired ∈ s.code p → p ∉ s.waiters → state p = .running) :
    Sound { s with state := state } := by
  refine ⟨h.nodup, ?_, h.inside, hrunning, h.nonneg⟩
  intro p hp
  exact ⟨(h.waiting p hp).1, (hwaiting p hp).trans (h.waiting p hp).2⟩

theorem acquired_not_mem_signalOps (p : ι) (signal : ℕ) : .acquired ∉ signalOps p signal := by
  unfold signalOps
  split
  · split <;> simp [sendOps]
  · exact not_mem_nil

variable [DecidableEq ι]

theorem acquired_not_mem_access (state : ι → RunState) (op : Op ι) :
    .acquired ∉ (access parent state op).2 := by
  cases op with
  | terminateStore p => cases h : parent p <;> simp [access, sendOps, h]
  | leaveYield => simp [access]
  | acquired => simp [access]
  | contStore p => simp [access]
  | wakeStore p => simp [access]
  | _ =>
    simp only [access]
    split <;> simp

theorem access_state (state : ι → RunState) (op : Op ι) (p : ι) :
    (access parent state op).1 p = state p ∨
      (op = .wakeStore p ∨ op = .contStore p) ∧ (access parent state op).1 p = .running ∨
      op = .terminateStore p := by
  cases op with
  | contStore q =>
    by_cases hp : p = q
    · subst hp
      exact .inr (.inl ⟨.inr rfl, update_self ..⟩)
    · exact .inl (update_of_ne hp ..)
  | wakeStore q =>
    by_cases hp : p = q
    · subst hp
      exact .inr (.inl ⟨.inl rfl, update_self ..⟩)
    · exact .inl (update_of_ne hp ..)
  | terminateStore q =>
    by_cases hp : p = q
    · subst hp
      exact .inr (.inr rfl)
    · exact .inl (update_of_ne hp ..)
  | _ => exact .inl rfl

/-- A process outside of the queue goes on with `code`. -/
theorem Sound.setCode (h : Sound s) (hi : i ∉ s.waiters) {code : List (Op ι)}
    (hcode : .acquired ∈ code → code = [.acquired] ∧ s.state i = .running) :
    Sound { s with code := update s.code i code } := by
  refine ⟨h.nodup, ?_, ?_, ?_, h.nonneg⟩
  · intro p hp
    have hpi : p ≠ i := by
      rintro rfl
      exact hi hp
    dsimp only
    rw [update_of_ne hpi]
    exact h.waiting p hp
  · intro p hp
    dsimp only at hp ⊢
    by_cases hpi : p = i
    · subst hpi
      rw [update_self] at hp ⊢
      exact .inr (hcode hp).1
    · rw [update_of_ne hpi] at hp ⊢
      exact h.inside p hp
  · intro p hp hwaiting
    dsimp only at hp
    by_cases hpi : p = i
    · subst hpi
      rw [update_self] at hp
      exact (hcode hp).2
    · rw [update_of_ne hpi] at hp
      exact h.running p hp hwaiting

theorem Sound.left (h : Sound s) (hcode : s.code i = .leaveYield :: rest)
    (hrunning : s.state i = .running) : Sound { s with code := update s.code i rest } := by
  have hi : i ∉ s.waiters := by
    intro hmem
    rw [(h.waiting i hmem).2] at hrunning
    cases hrunning
  refine h.setCode hi fun hmem => ⟨?_, hrunning⟩
  rcases h.inside i (by rw [hcode]; exact mem_cons_of_mem _ hmem) with hi | hi <;>
    rw [hcode] at hi <;> cases hi
  rfl

theorem Sound.accessed (h : Sound s) (hcode : s.code i = op :: rest) (hleave : op ≠ .leaveYield)
    (hacquired : op ≠ .acquired) (hok : Undisturbed s (.go i)) : Sound { s with
      state := (access parent s.state op).1
      code := update s.code i ((access parent s.state op).2 ++ rest) } := by
  have hop := hok op (by rw [hcode]; rfl)
  have hi := h.outside hcode hleave hacquired
  have hstate : Sound { s with state := (access parent s.state op).1 } := by
    refine h.setState ?_ ?_
    · intro p hp
      rcases access_state s.state op p with hsame | ⟨hwake, -⟩ | hkill
      · exact hsame
      · exact absurd hp ((hop p).1 hwake)
      · exact absurd hp (h.not_waiting ((hop p).2 hkill))
    · intro p hp hwaiting
      rcases access_state s.state op p with hsame | ⟨-, hrunning⟩ | hkill
      · exact hsame.trans (h.running p hp hwaiting)
      · exact hrunning
      · exact absurd hp ((hop p).2 hkill)
  refine hstate.setCode (h.not_waiting hi) fun hmem => ?_
  rcases mem_append.mp hmem with hmem | hmem
  · exact absurd hmem (acquired_not_mem_access s.state op)
  · exact absurd (by rw [hcode]; exact mem_cons_of_mem _ hmem) hi

/-- The process blocks before the lock is released. -/
theorem Sound.queued (h : Sound s) (hcode : s.code i = []) : Sound { s with
      waiters := s.waiters ++ [i]
      state := update s.state i .blocked
      code := update s.code i [.leaveYield, .acquired] } := by
  have hi : i ∉ s.waiters := h.not_waiting (by rw [hcode]; exact not_mem_nil)
  refine ⟨h.nodup.append (nodup_singleton i) (by simpa using hi), ?_, ?_, ?_, h.nonneg⟩
  · intro p hp
    dsimp only at hp ⊢
    by_cases hpi : p = i
    · subst hpi
      exact ⟨update_self .., update_self ..⟩
    · rw [update_of_ne hpi, update_of_ne hpi]
      exact h.waiting p (by simpa [hpi] using hp)
  · intro p hp
    dsimp only at hp ⊢
    by_cases hpi : p = i
    · subst hpi
      exact .inl (update_self ..)
    · rw [update_of_ne hpi] at hp ⊢
      exact h.inside p hp
  · intro p hp hwaiting
    dsimp only at hp hwaiting ⊢
    have hpi : p ≠ i := by
      rintro rfl
      exact hwaiting (mem_append_right _ (mem_singleton_self p))
    rw [update_of_ne hpi] at hp ⊢
    exact h.running p hp fun hmem => hwaiting (mem_append_left _ hmem)

/-- The first process in the queue gets the permit and is woken. -/
theorem Sound.handed (h : Sound s) {p : ι} {rest : List ι} (hwaiters : s.waiters = p :: rest) :
    Sound { s with waiters := rest, state := wake s.state p } := by
  have hp : p ∈ s.waiters := hwaiters ▸ mem_cons_self
  have hnodup := h.nodup
  rw [hwaiters, nodup_cons] at hnodup
  have hwake : wake s.state p = update s.state p .running := if_pos (h.waiting p hp).2
  rw [hwake]
  refine ⟨hnodup.2, ?_, h.inside, ?_, h.nonneg⟩
  · intro q hq
    have hqp : q ≠ p := by
      rintro rfl
      exact hnodup.1 hq
    dsimp only
    rw [update_of_ne hqp]
    exact h.waiting q (hwaiters ▸ mem_cons_of_mem _ hq)
  · intro q hq hwaiting
    dsimp only at hq hwaiting ⊢
    by_cases hqp : q = p
    · rw [hqp, update_self]
    · rw [update_of_ne hqp]
      refine h.running q hq ?_
      rw [hwaiters, mem_cons, not_or]
      exact ⟨hqp, hwaiting⟩

theorem increment_of_lt {value : ℤ} (h : value < 2 ^ 31 - 1) : increment value = value + 1 :=
  if_neg h.ne

theorem Sound.change [Fintype ι] {a : Action ι} {e : List (Event ι)} (h : Sound s)
    (hok : Undisturbed s a) (hchange : Change parent s a t e) : Sound t := by
  cases hchange with
  | left hcode hrunning => exact h.left hcode hrunning
  | returned hcode =>
    obtain ⟨rfl, hi⟩ := h.returning hcode
    exact h.setCode hi fun hmem => absurd hmem not_mem_nil
  | accessed hcode hleave hacquired => exact h.accessed hcode hleave hacquired hok
  | taken hcode hvalue => exact ⟨h.nodup, h.waiting, h.inside, h.running, by dsimp only; omega⟩
  | queued hcode hvalue => exact h.queued hcode
  | handed hcode hwaiters => exact h.handed hwaiters
  | freed hcode hwaiters =>
    refine ⟨h.nodup, h.waiting, h.inside, h.running, ?_⟩
    have hnonneg := h.nonneg
    dsimp only
    rw [increment_of_lt (hok hwaiters)]
    omega
  | sent hcode =>
    refine h.setCode (h.not_waiting ?_) fun hmem =>
      absurd hmem (acquired_not_mem_signalOps _ _)
    rw [hcode]
    exact not_mem_nil

end Protocol

section Permits

def Event.isAcquired : Event ι → Bool
  | .acquired _ => true
  | .released _ => false

/-- The calls of `sem_acquire` that have returned. -/
def acquires (l : List (Event ι)) : ℕ := l.countP Event.isAcquired

/-- The calls of `sem_release` that are done. -/
def releases (l : List (Event ι)) : ℕ := l.countP fun e => !e.isAcquired

variable {parent : ι → Option ι} {s t : State ι} {a : Action ι} {e l : List (Event ι)}

/-- A semaphore as `sem_init` leaves it, with nobody on the way. -/
def Fresh (s : State ι) (v : ℤ) : Prop :=
  0 ≤ v ∧ s.value = v ∧ s.waiters = [] ∧ ∀ p, s.code p = []

theorem Fresh.sound {v : ℤ} (h : Fresh s v) : Sound s := by
  obtain ⟨hv, hvalue, hwaiters, hcode⟩ := h
  refine ⟨?_, ?_, ?_, ?_, ?_⟩
  · rw [hwaiters]
    exact nodup_nil
  · simp [hwaiters]
  · simp [hcode]
  · simp [hcode]
  · rwa [hvalue]

variable [DecidableEq ι] [Fintype ι]

instance (s : State ι) (a : Action ι) : Decidable (Undisturbed s a) :=
  match a with
  | .go i => inferInstanceAs (Decidable (∀ op ∈ (s.code i).head?, ∀ p,
    (op = .wakeStore p ∨ op = .contStore p → p ∉ s.waiters) ∧
      (op = .terminateStore p → .acquired ∉ s.code p)))
  | .release _ => inferInstanceAs (Decidable (s.waiters = [] → s.value < 2 ^ 31 - 1))
  | .acquire _ => .isTrue trivial
  | .send _ _ _ => .isTrue trivial

/-- The live processes to which a permit was handed and that have not returned since. -/
def granted (s : State ι) : Finset ι :=
  Finset.univ.filter fun p => .acquired ∈ s.code p ∧ p ∉ s.waiters ∧ s.state p ≠ .zombie

theorem Sound.mem_granted (h : Sound s) {p : ι} :
    p ∈ granted s ↔ .acquired ∈ s.code p ∧ p ∉ s.waiters := by
  simp only [granted, Finset.mem_filter, Finset.mem_univ, true_and]
  constructor
  · exact fun hp => ⟨hp.1, hp.2.1⟩
  · intro hp
    refine ⟨hp.1, hp.2, ?_⟩
    rw [h.running p hp.1 hp.2]
    nofun

theorem Sound.granted_congr (hs : Sound s) (ht : Sound t) (hwaiters : t.waiters = s.waiters)
    (hcode : ∀ p, .acquired ∈ t.code p ↔ .acquired ∈ s.code p) : granted t = granted s := by
  ext p
  rw [hs.mem_granted, ht.mem_granted, hwaiters, hcode]

/-- In a step permits change hands but their number stays. -/
theorem Sound.balance (hs : Sound s) (hok : Undisturbed s a) (hchange : Change parent s a t e) :
    t.value + acquires e + (granted t).card = s.value + (granted s).card + releases e := by
  have ht := hs.change hok hchange
  cases hchange with
  | left hcode hrunning =>
    rename_i i rest
    rw [hs.granted_congr ht rfl fun p => ?_]
    · simp [acquires, releases]
    · by_cases hpi : p = i
      · subst hpi
        simp [hcode]
      · simp [hpi]
  | returned hcode =>
    rename_i i rest
    obtain ⟨rfl, hi⟩ := hs.returning hcode
    have hmem : i ∈ granted s := by
      rw [hs.mem_granted, hcode]
      exact ⟨mem_cons_self, hi⟩
    have herase : granted { s with code := update s.code i [] } = (granted s).erase i := by
      ext p
      rw [ht.mem_granted, Finset.mem_erase, hs.mem_granted]
      by_cases hpi : p = i <;> simp [hpi]
    have hcard := Finset.card_erase_add_one hmem
    rw [herase]
    simp [acquires, releases, Event.isAcquired]
    omega
  | accessed hcode hleave hacquired =>
    rename_i i op rest
    have hi := hs.outside hcode hleave hacquired
    rw [hs.granted_congr ht rfl fun p => ?_]
    · simp [acquires, releases]
    · by_cases hpi : p = i
      · subst hpi
        simp only [update_self, mem_append, acquired_not_mem_access, false_or]
        rw [hcode] at hi ⊢
        simp_all
      · simp [hpi]
  | taken hcode hvalue =>
    rw [hs.granted_congr ht rfl fun p => Iff.rfl]
    simp [acquires, releases, Event.isAcquired]
  | queued hcode hvalue =>
    rename_i i
    have hsame : granted { s with
        waiters := s.waiters ++ [i]
        state := update s.state i .blocked
        code := update s.code i [.leaveYield, .acquired] } = granted s := by
      ext p
      rw [ht.mem_granted, hs.mem_granted]
      by_cases hpi : p = i
      · subst hpi
        simp [hcode]
      · simp [hpi]
    rw [hsame]
    simp [acquires, releases]
  | handed hcode hwaiters =>
    rename_i i p rest
    have hp : p ∈ s.waiters := hwaiters ▸ mem_cons_self
    have hnot : p ∉ granted s := fun hmem => (hs.mem_granted.mp hmem).2 hp
    have hinsert : granted { s with waiters := rest, state := wake s.state p } =
        insert p (granted s) := by
      have hnodup := hs.nodup
      rw [hwaiters, nodup_cons] at hnodup
      ext q
      rw [ht.mem_granted, Finset.mem_insert, hs.mem_granted, hwaiters]
      by_cases hqp : q = p
      · subst hqp
        simp [(hs.waiting q hp).1, hnodup.1]
      · simp [hqp]
    have hcard := Finset.card_insert_of_notMem hnot
    rw [hinsert, hcard]
    simp [acquires, releases, Event.isAcquired]
    omega
  | freed hcode hwaiters =>
    rw [hs.granted_congr ht rfl fun p => Iff.rfl]
    rw [increment_of_lt (hok hwaiters)]
    simp [acquires, releases, Event.isAcquired]
    omega
  | sent hcode =>
    rename_i i p signal
    rw [hs.granted_congr ht rfl fun q => ?_]
    · simp [acquires, releases]
    · by_cases hqi : q = i
      · subst hqi
        simp [hcode, acquired_not_mem_signalOps]
      · simp [hqi]

/-- In every run that leaves the waiting processes undisturbed, at most `v` more permits were
acquired than released, and with those at hand and those on the way they are `v` at all times. -/
theorem permits_conserved {v : ℤ} (hs : Fresh s v) (hrun : Run parent Undisturbed s l t) :
    (acquires l : ℤ) - releases l ≤ v ∧ t.value + (acquires l - releases l : ℕ) + (granted t).card =
        v + (releases l - acquires l : ℕ) := by
  have hinv : Sound t ∧ t.value + acquires l + (granted t).card = v + releases l := by
    refine hrun.invariant
      (I := fun l t => Sound t ∧ t.value + acquires l + (granted t).card = v + releases l) ?_ ?_
    · refine ⟨hs.sound, ?_⟩
      obtain ⟨-, hvalue, -, hcode⟩ := hs
      have hnone : granted s = ∅ := by
        ext p
        simp [granted, hcode]
      simp [hnone, hvalue, acquires, releases]
    · rintro l u a w e ⟨hu, hcount⟩ hok hnext
      have hchange := next_change parent hnext
      refine ⟨hu.change hok hchange, ?_⟩
      have hbalance := hu.balance hok hchange
      simp only [acquires, releases, countP_append] at *
      omega
  have hnonneg := hinv.1.nonneg
  omega

def pair (v : ℤ) : State (Fin 2) := ⟨v, [], fun _ => .running, fun _ => []⟩

theorem permits_conserved_handed : ∃ l t, Run (fun _ => none) Undisturbed (pair 1) l t ∧
    acquires l = 2 ∧ releases l = 1 ∧ (acquires l : ℤ) - releases l ≤ 1 ∧
    t.value + (acquires l - releases l : ℕ) + (granted t).card =
      1 + (releases l - acquires l : ℕ) := by
  obtain ⟨l, t, hrun, hcounts⟩ : ∃ l t, Run (fun _ => none) Undisturbed (pair 1) l t ∧
      acquires l = 2 ∧ releases l = 1 :=
    ⟨_, _, Histories.Run.of_exec (fun s a => decide (Undisturbed s a))
      (fun _ _ => of_decide_eq_true) [.acquire 0, .acquire 1, .release 0, .go 1, .go 1] rfl,
      rfl, rfl⟩
  exact ⟨l, t, hrun, hcounts.1, hcounts.2, permits_conserved ⟨by decide, rfl, rfl, fun _ => rfl⟩ hrun⟩

/-- A signal wakes the process that waits for a permit, and `sem_acquire` returns without one. A
process that waits is killed, and the permit handed to it is lost. -/
theorem permits_not_conserved : (∃ l t, Run (fun _ => none) (fun _ _ => True) (pair 0) l t ∧
      acquires l = 1 ∧ releases l = 0) ∧
    ∃ l t, Run (fun _ => none) (fun _ _ => True) (pair 0) l t ∧ t.value = 0 ∧ granted t = ∅ ∧
      acquires l = 0 ∧ releases l = 1 :=
  ⟨⟨_, _, Histories.Run.of_exec (fun _ _ => true) (fun _ _ _ => trivial)
      [.acquire 0, .send 1 0 17, .go 1, .go 1, .go 1, .go 1, .go 0, .go 0] rfl, rfl, rfl⟩,
    ⟨_, _, Histories.Run.of_exec (fun _ _ => true) (fun _ _ _ => trivial)
      [.acquire 0, .send 1 0 9, .go 1, .go 1, .release 1] rfl, rfl, rfl, rfl, rfl⟩⟩

end Permits

end Tach.Semaphores
