import Tach.Sectors
import Tach.Timers

/-!
The watchdog of watchdog.c. Each entry has a timer, whose callback is `wd_expire`; the other timers of
the kernel are named by `α` and their callbacks by `β`. An expiry that has left the list of timers is
in `expired` until its callback takes the lock, and a process that was selected is in `victims` until
`signal_send` is called, so entries may change between these steps.
-/

namespace Tach.Watchdog

open Function List

open Sectors (Errno)
open Timers (Wheel timerInit timerSet timerCancel)

def watchdogMax : ℕ := 8

instance : NeZero watchdogMax := ⟨by decide⟩

abbrev Slot := Fin watchdogMax

/-- `WD_FREE` and so on. -/
inductive Status
  | free
  | armed
  | restart
  | failed
  deriving DecidableEq

/-- `watchdog_config_t`. -/
structure Config where
  timeoutMs : ℕ
  restartCountMax : ℕ
  autoRestart : Bool

/-- `struct wd_entry` without its timer. -/
structure Entry where
  generation : ℕ
  state : Status
  pid : ℕ
  config : Config
  restarts : ℕ

structure State (α β : Type) where
  entry : Slot → Entry
  wheel : Wheel (Slot ⊕ α) (Slot ⊕ β)
  expired : List Slot
  victims : List ℕ

variable {α β : Type}

namespace State

def setEntry (s : State α β) (i : Slot) (e : Entry) : State α β :=
  { s with entry := update s.entry i e }

def deadline (s : State α β) (i : Slot) : ℕ := (s.wheel.timer (.inl i)).expires

end State

section Source

def wdMsToTicks (ms : ℕ) : ℕ :=
  let ticks := ms / 10 + if ms % 10 = 0 then 0 else 1
  if ticks = 0 then 1 else ticks

/-- `wd_lookup_locked`. -/
def wdLookup (s : State α β) (handle : ℕ) : Option Slot :=
  let slot := handle % 256
  if h : slot = 0 ∨ watchdogMax < slot then none
  else
    let i : Slot := ⟨slot - 1, by omega⟩
    if (s.entry i).state = .free then none
    else if (s.entry i).generation ≠ handle / 256 then none
    else some i

variable [DecidableEq α]

/-- `wd_arm_locked`. -/
def wdArm (i : Slot) (s : State α β) : State α β :=
  { s with wheel := timerSet (.inl i) (wdMsToTicks (s.entry i).config.timeoutMs) (.inl i) s.wheel }

/-- The locked part of `wd_expire`; the value is the process to be killed. -/
def wdExpire (i : Slot) (s : State α β) : State α β × Option ℕ :=
  let e := s.entry i
  if e.state ≠ .armed ∨ s.wheel.now < s.deadline i then (s, none)
  else
    let restart := e.config.autoRestart && decide (e.restarts < e.config.restartCountMax)
    (s.setEntry i { e with state := if restart then .restart else .failed }, some e.pid)

def nextGeneration (generation : ℕ) : ℕ :=
  let next := (generation + 1) % 2 ^ 24
  if next = 0 then 1 else next

/-- `watchdog_register` for the entry that it finds. -/
def registerAt (i : Slot) (pid : ℕ) (config : Config) (s : State α β) : State α β :=
  let e : Entry := ⟨nextGeneration (s.entry i).generation, .armed, pid, config, 0⟩
  wdArm i { s.setEntry i e with wheel := timerInit (.inl i) s.wheel }

/-- The entry that `watchdog_register` finds. -/
def freeSlot (s : State α β) : Option Slot :=
  (List.finRange watchdogMax).find? fun i => (s.entry i).state = .free

def handleOf (s : State α β) (i : Slot) : ℕ := (s.entry i).generation * 256 + (i.val + 1)

/-- `watchdog_register`; the value is the handle, 0 for `WATCHDOG_INVALID`. -/
def watchdogRegister (pid : ℕ) (config : Config) (s : State α β) : State α β × ℕ :=
  if config.timeoutMs = 0 then (s, 0)
  else
    match freeSlot s with
    | none => (s, 0)
    | some i =>
      let t := registerAt i pid config s
      (t, handleOf t i)

def watchdogUnregister (handle : ℕ) (s : State α β) : State α β :=
  match wdLookup s handle with
  | none => s
  | some i =>
    { s.setEntry i { s.entry i with state := .free } with wheel := timerCancel (.inl i) s.wheel }

def watchdogFeed (handle : ℕ) (s : State α β) : State α β :=
  match wdLookup s handle with
  | none => s
  | some i => if (s.entry i).state = .armed then wdArm i s else s

/-- The end of `watchdog_rebind`, for an entry that waits for it. -/
def rebindAt (i : Slot) (pid : ℕ) (s : State α β) : State α β :=
  let e := s.entry i
  wdArm i (s.setEntry i { e with pid := pid, restarts := e.restarts + 1, state := .armed })

def watchdogRebind (handle pid : ℕ) (s : State α β) : State α β × Except Errno Unit :=
  match wdLookup s handle with
  | none => (s, .error .einval)
  | some i =>
    if (s.entry i).state = .restart then (rebindAt i pid s, .ok ()) else (s, .error .ebusy)

end Source

section Runs

/-- A call of the watchdog, a step of the clock or of `timer_tick`, a call on another timer, the
callback of an expiry, and its `signal_send`. -/
inductive Step (α β : Type)
  | register (pid : ℕ) (config : Config)
  | unregister (handle : ℕ)
  | feed (handle : ℕ)
  | rebind (handle pid : ℕ)
  | advance (ticks : ℕ)
  | tick
  | round
  | setOther (i : α) (ticks : ℕ) (callback : β)
  | cancelOther (i : α)
  | expire (i : Slot)
  | kill (pid : ℕ)

/-- A deadline is set by a registration, by `watchdog_feed` and by `watchdog_rebind`. -/
inductive Event
  | registered (i : Slot) (handle : ℕ)
  | armed (i : Slot) (pid deadline : ℕ)
  | unregistered (i : Slot)
  | selected (i : Slot) (pid now : ℕ)
  | killed (pid : ℕ)
  deriving DecidableEq

variable [DecidableEq α]

def expiry : Timers.Event (Slot ⊕ α) (Slot ⊕ β) → Option Slot
  | .fired _ (some (.inl i)) _ _ _ => some i
  | _ => none

def onWheel (a : Timers.Step (Slot ⊕ α) (Slot ⊕ β)) (s : State α β) :
    Option (State α β × List Event) :=
  (Timers.next s.wheel a).map fun r =>
    ({ s with wheel := r.1, expired := s.expired ++ r.2.filterMap expiry }, [])

def armedEvent (s : State α β) (i : Slot) : Event := .armed i (s.entry i).pid (s.deadline i)

def next (s : State α β) : Step α β → Option (State α β × List Event)
  | .register pid config =>
    let r := watchdogRegister pid config s
    some (r.1, if r.2 = 0 then [] else
      (freeSlot s).toList.flatMap fun i => [.registered i r.2, armedEvent r.1 i])
  | .unregister handle =>
    some (watchdogUnregister handle s, (wdLookup s handle).toList.map .unregistered)
  | .feed handle =>
    let t := watchdogFeed handle s
    some (t, ((wdLookup s handle).filter fun i => (s.entry i).state = .armed).toList.map (armedEvent t))
  | .rebind handle pid =>
    let t := (watchdogRebind handle pid s).1
    some (t, ((wdLookup s handle).filter fun i => (s.entry i).state = .restart).toList.map
      (armedEvent t))
  | .advance ticks => onWheel (.advance ticks) s
  | .tick => onWheel .tick s
  | .round => onWheel .round s
  | .setOther i ticks callback => onWheel (.set (.inr i) ticks (.inr callback)) s
  | .cancelOther i => onWheel (.cancel (.inr i)) s
  | .expire i =>
    if i ∈ s.expired then
      let r := wdExpire i s
      some ({ r.1 with expired := s.expired.erase i, victims := s.victims ++ r.2.toList },
        r.2.toList.map fun pid => .selected i pid s.wheel.now)
    else none
  | .kill pid =>
    if pid ∈ s.victims then some ({ s with victims := s.victims.erase pid }, [.killed pid]) else none

/-- The calls of `watchdog_register` that were given the entry. -/
def registrations (i : Slot) (l : List Event) : ℕ :=
  l.countP fun e => match e with
    | .registered j _ => decide (j = i)
    | _ => false

abbrev Run (s : State α β) : List Event → State α β → Prop := Histories.Run next (fun _ _ => True) s

end Runs

section Changes

variable {s t : State α β} {a : Step α β} {e : List Event} {i j : Slot} {handle : ℕ}

theorem wdLookup_spec (h : wdLookup s handle = some i) :
    (s.entry i).state ≠ .free ∧ (s.entry i).generation = handle / 256 ∧
      i.val + 1 = handle % 256 := by
  simp only [wdLookup] at h
  split at h
  · cases h
  · rename_i hslot
    split at h
    · cases h
    · rename_i hfree
      split_ifs at h with hgen
      cases h
      refine ⟨hfree, not_not.mp hgen, ?_⟩
      change handle % 256 - 1 + 1 = _
      omega

variable [DecidableEq α]

/-- What a step can do to the entries, their deadlines and the victims. -/
inductive Change (s t : State α β) : List Event → Prop
  | quiet (hentry : t.entry = s.entry) (hdeadline : t.deadline = s.deadline)
      (hvictims : t.victims = s.victims) : Change s t []
  | registered (i : Slot) (pid : ℕ) (config : Config) (hfree : (s.entry i).state = .free)
      (hentry : t.entry = update s.entry i
        ⟨nextGeneration (s.entry i).generation, .armed, pid, config, 0⟩)
      (hdeadline : ∀ j, j ≠ i → t.deadline j = s.deadline j) (hvictims : t.victims = s.victims) :
      Change s t [.registered i (handleOf t i), armedEvent t i]
  | rearmed (i : Slot) (pid restarts : ℕ)
      (hstate : (s.entry i).state = .armed ∧ restarts = (s.entry i).restarts ∨
        (s.entry i).state = .restart ∧ restarts = (s.entry i).restarts + 1)
      (hentry : t.entry = update s.entry i
        { s.entry i with pid := pid, restarts := restarts, state := .armed })
      (hdeadline : ∀ j, j ≠ i → t.deadline j = s.deadline j) (hvictims : t.victims = s.victims) :
      Change s t [armedEvent t i]
  | unregistered (i : Slot)
      (hentry : t.entry = update s.entry i { s.entry i with state := .free })
      (hdeadline : t.deadline = s.deadline) (hvictims : t.victims = s.victims) :
      Change s t [.unregistered i]
  | selected (i : Slot) (state : Status) (harmed : (s.entry i).state = .armed)
      (hle : s.deadline i ≤ s.wheel.now)
      (hstate : state = .failed ∨
        state = .restart ∧ (s.entry i).restarts < (s.entry i).config.restartCountMax)
      (hentry : t.entry = update s.entry i { s.entry i with state := state })
      (hdeadline : t.deadline = s.deadline) (hvictims : t.victims = s.victims ++ [(s.entry i).pid]) :
      Change s t [.selected i (s.entry i).pid s.wheel.now]
  | killed (pid : ℕ) (hentry : t.entry = s.entry) (hdeadline : t.deadline = s.deadline)
      (hvictims : s.victims.Perm (pid :: t.victims)) : Change s t [.killed pid]

theorem wdArm_deadline (h : j ≠ i) : (wdArm i s).deadline j = s.deadline j := by
  have hne : (.inl j : Slot ⊕ α) ≠ .inl i := fun heq => h (Sum.inl.inj heq)
  exact congrArg Timers.Timer.expires (Timers.timerSet_other hne)

/-- The steps of the timers keep the deadlines. -/
theorem onWheel_change {b : Timers.Step (Slot ⊕ α) (Slot ⊕ β)}
    (hb : ∀ ticks callback i, b ≠ .set (.inl i) ticks callback) (h : onWheel b s = some (t, e)) :
    Change s t e := by
  obtain ⟨⟨w, l⟩, hnext, heq⟩ := Option.map_eq_some_iff.mp h
  cases heq
  refine .quiet rfl (funext fun i => ?_) rfl
  change (w.timer (.inl i)).expires = (s.wheel.timer (.inl i)).expires
  cases b with
  | advance ticks =>
    cases hnext
    rfl
  | set j ticks callback =>
    cases hnext
    exact congrArg Timers.Timer.expires (Timers.timerSet_other fun hj => hb _ _ i (by rw [hj]))
  | cancel j =>
    cases hnext
    exact Timers.timerCancel_expires
  | tick =>
    simp only [Timers.next] at hnext
    split_ifs at hnext
    cases hnext
    rfl
  | round =>
    simp only [Timers.next] at hnext
    split_ifs at hnext
    split at hnext
    · cases hnext
      rfl
    · cases hnext
      exact Timers.dequeue_expires

theorem registerAt_change (hfree : (s.entry i).state = .free) (pid : ℕ) (config : Config) :
    let t := registerAt i pid config s
    Change s t [.registered i (handleOf t i), armedEvent t i] := by
  refine .registered i pid config hfree rfl (fun j hj => ?_) rfl
  have hne : (.inl j : Slot ⊕ α) ≠ .inl i := fun heq => hj (Sum.inl.inj heq)
  refine (wdArm_deadline hj).trans (congrArg Timers.Timer.expires ?_)
  exact update_of_ne hne _ _

theorem next_register {pid : ℕ} {config : Config} (h : next s (.register pid config) = some (t, e)) :
    Change s t e := by
  simp only [next, watchdogRegister] at h
  split at h
  · cases h
    exact .quiet rfl rfl rfl
  · split at h
    · cases h
      exact .quiet rfl rfl rfl
    · rename_i i hi
      have hpos : handleOf (registerAt i pid config s) i ≠ 0 := Nat.succ_ne_zero _
      rw [hi, if_neg hpos] at h
      cases h
      exact registerAt_change (by simpa using List.find?_some hi) pid config

theorem next_unregister (h : next s (.unregister handle) = some (t, e)) : Change s t e := by
  simp only [next, watchdogUnregister, Option.some_inj] at h
  cases hi : wdLookup s handle with
  | none =>
    rw [hi] at h
    cases h
    exact .quiet rfl rfl rfl
  | some i =>
    rw [hi] at h
    cases h
    exact .unregistered i rfl (funext fun j => Timers.timerCancel_expires) rfl

theorem next_feed (h : next s (.feed handle) = some (t, e)) : Change s t e := by
  simp only [next, watchdogFeed, Option.some_inj] at h
  cases hi : wdLookup s handle with
  | none =>
    rw [hi] at h
    cases h
    exact .quiet rfl rfl rfl
  | some i =>
    by_cases harmed : (s.entry i).state = .armed
    · simp only [hi, harmed, if_true, Option.filter_some, decide_true, Option.toList_some,
        map_cons, map_nil] at h
      cases h
      refine .rearmed i (s.entry i).pid (s.entry i).restarts (.inl ⟨harmed, rfl⟩) ?_
        (fun j hj => wdArm_deadline hj) rfl
      rw [← harmed]
      exact (update_eq_self i s.entry).symm
    · simp only [hi, harmed, if_false, Option.filter_some, decide_false, Option.toList_none,
        map_nil, Bool.false_eq_true] at h
      cases h
      exact .quiet rfl rfl rfl

theorem next_rebind {pid : ℕ} (h : next s (.rebind handle pid) = some (t, e)) : Change s t e := by
  simp only [next, watchdogRebind, Option.some_inj] at h
  cases hi : wdLookup s handle with
  | none =>
    rw [hi] at h
    cases h
    exact .quiet rfl rfl rfl
  | some i =>
    by_cases hstate : (s.entry i).state = .restart
    · simp only [hi, hstate, if_true, Option.filter_some, decide_true, Option.toList_some,
        map_cons, map_nil] at h
      cases h
      exact .rearmed i pid ((s.entry i).restarts + 1) (.inr ⟨hstate, rfl⟩) rfl
        (fun j hj => wdArm_deadline hj) rfl
    · simp only [hi, hstate, if_false, Option.filter_some, decide_false, Option.toList_none,
        map_nil, Bool.false_eq_true] at h
      cases h
      exact .quiet rfl rfl rfl

theorem next_expire (h : next s (.expire i) = some (t, e)) : Change s t e := by
  simp only [next] at h
  split_ifs at h
  simp only [wdExpire, Option.some_inj] at h
  split at h
  · cases h
    exact .quiet rfl rfl (append_nil _)
  · rename_i hcond
    obtain ⟨harmed, hle⟩ := not_or.mp hcond
    cases h
    refine .selected i _ (not_not.mp harmed) (Nat.le_of_not_lt hle) ?_ rfl rfl rfl
    split
    · rename_i hrestart
      rw [Bool.and_eq_true, decide_eq_true_iff] at hrestart
      exact .inr ⟨rfl, hrestart.2⟩
    · exact .inl rfl

theorem next_change (h : next s a = some (t, e)) : Change s t e := by
  cases a with
  | register pid config => exact next_register h
  | unregister handle => exact next_unregister h
  | feed handle => exact next_feed h
  | rebind handle pid => exact next_rebind h
  | setOther j ticks callback => exact onWheel_change (fun _ _ _ heq => by cases heq) h
  | expire j => exact next_expire h
  | kill pid =>
    simp only [next] at h
    split_ifs at h with hmem
    cases h
    exact .killed pid rfl rfl (perm_cons_erase hmem)
  | _ => exact onWheel_change (fun _ _ _ heq => by cases heq) h

end Changes

end Tach.Watchdog
