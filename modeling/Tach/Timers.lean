import Tach.Histories

/-!
The timers of timer.c: a list sorted by expiry of timers that their users provide. The list is given
by the names of its timers in order; a callback is named together with its argument.

`timer_tick` takes one timer after the other off the list and runs its callback with the lock
released. A round of its loop is a step of its own here, so between two rounds any timers may be set
and cancelled, by the callback or by others, and the clock may go on.
-/

namespace Tach.Timers

open Function List

/-- `tick_t` has 64 bits. -/
def tickRange : ℕ := 2 ^ 64

/-- `timer_t`. The source does not have `stamp`, which numbers the calls of `timer_set`. -/
structure Timer (κ : Type) where
  expires : ℕ
  callback : Option κ
  active : Bool
  stamp : ℕ

/-- `ticking` says that a call of `timer_tick` has not returned, `armings` counts the calls of
`timer_set`; `now` is the value of `timer_get_ticks`. -/
structure Wheel (ι κ : Type) where
  queue : List ι
  timer : ι → Timer κ
  now : ℕ
  ticking : Bool
  armings : ℕ

variable {ι κ : Type}

section Source

variable [DecidableEq ι]

/-- `timer_unlink_locked`. -/
def timerUnlink (i : ι) (w : Wheel ι κ) : Wheel ι κ :=
  { w with
    queue := w.queue.erase i
    timer := update w.timer i { w.timer i with active := false } }

def timerInit (i : ι) (w : Wheel ι κ) : Wheel ι κ :=
  { w with timer := update w.timer i { w.timer i with
      expires := 0, callback := none, active := false } }

/-- The loop of `timer_set` that finds the place of a timer, behind all that expire no later. -/
def place (timer : ι → Timer κ) (i : ι) : List ι → List ι
  | [] => [i]
  | j :: rest =>
    if (timer j).expires ≤ (timer i).expires then j :: place timer i rest else i :: j :: rest

/-- The end of `timer_set`, for a timer that is not on the list. -/
def arm (i : ι) (ticks : ℕ) (callback : κ) (w : Wheel ι κ) : Wheel ι κ :=
  let timer := update w.timer i
    ⟨(w.now + ticks) % tickRange, some callback, true, w.armings⟩
  { w with queue := place timer i w.queue, timer := timer, armings := w.armings + 1 }

def timerCancel (i : ι) (w : Wheel ι κ) : Wheel ι κ :=
  if (w.timer i).active then timerUnlink i w else w

def timerSet (i : ι) (ticks : ℕ) (callback : κ) (w : Wheel ι κ) : Wheel ι κ :=
  arm i (if ticks = 0 then 1 else ticks) callback (timerCancel i w)

/-- The timer that a round of `timer_tick` takes. -/
def due (w : Wheel ι κ) : Option ι :=
  w.queue.head?.filter fun i => decide ((w.timer i).expires ≤ w.now)

/-- The locked part of a round of `timer_tick` that takes a timer. -/
def dequeue (i : ι) (w : Wheel ι κ) : Wheel ι κ :=
  { w with
    queue := w.queue.tail
    timer := update w.timer i { w.timer i with active := false } }

end Source

section Runs

inductive Step (ι κ : Type)
  | advance (ticks : ℕ)
  | set (i : ι) (ticks : ℕ) (callback : κ)
  | cancel (i : ι)
  | tick
  | round

/-- What is recorded of a step: the clock, and for a callback the expiry and the number of the
`timer_set` it was set with. -/
inductive Event (ι κ : Type)
  | armed (i : ι) (callback : κ) (expires stamp : ℕ)
  | cancelled (i : ι)
  | fired (i : ι) (callback : Option κ) (expires stamp now : ℕ)
  | ended (now : ℕ)

namespace Event

def Touches (i : ι) : Event ι κ → Prop
  | armed j .. => j = i
  | cancelled j => j = i
  | _ => False

def Fires (i : ι) : Event ι κ → Prop
  | fired j .. => j = i
  | _ => False

instance [DecidableEq ι] (i : ι) : DecidablePred (Fires i : Event ι κ → Prop) := fun e =>
  match e with
  | fired j .. => inferInstanceAs (Decidable (j = i))
  | armed .. => isFalse id
  | cancelled .. => isFalse id
  | ended .. => isFalse id

def isFiring : Event ι κ → Bool
  | fired .. => true
  | _ => false

/-- Of two callbacks the first has the earlier expiry, or the same and was set first; stamps grow. -/
def InOrder : Event ι κ → Event ι κ → Prop
  | fired _ _ expires stamp _, fired _ _ expires' stamp' _ =>
    expires < expires' ∨ expires = expires' ∧ stamp < stamp'
  | armed _ _ _ stamp, armed _ _ _ stamp' => stamp < stamp'
  | _, _ => True

end Event

variable [DecidableEq ι]

def next (w : Wheel ι κ) : Step ι κ → Option (Wheel ι κ × List (Event ι κ))
  | .advance ticks => some ({ w with now := w.now + ticks }, [])
  | .set i ticks callback =>
    let u := timerSet i ticks callback w
    some (u, [.armed i callback (u.timer i).expires (u.timer i).stamp])
  | .cancel i => some (timerCancel i w, [.cancelled i])
  | .tick => if w.ticking then none else some ({ w with ticking := true }, [])
  | .round =>
    if w.ticking then
      match due w with
      | none => some ({ w with ticking := false }, [.ended w.now])
      | some i =>
        let t := w.timer i
        some (dequeue i w, [.fired i t.callback t.expires t.stamp w.now])
    else none

/-- No expiry reaches the range of the clock. -/
def Step.Fits (w : Wheel ι κ) : Step ι κ → Prop
  | .set _ ticks _ => w.now + max ticks 1 < tickRange
  | _ => True

instance (w : Wheel ι κ) : DecidablePred (Step.Fits w) := fun a =>
  match a with
  | .set _ ticks _ => inferInstanceAs (Decidable (w.now + max ticks 1 < tickRange))
  | .advance _ => isTrue trivial
  | .cancel _ => isTrue trivial
  | .tick => isTrue trivial
  | .round => isTrue trivial

abbrev Run (w : Wheel ι κ) : List (Event ι κ) → Wheel ι κ → Prop :=
  Histories.Run next (fun w a => a.Fits w) w

theorem Run.of_exec {v w : Wheel ι κ} {l : List (Event ι κ)} (steps : List (Step ι κ))
    (h : Histories.exec next (fun w a => decide (a.Fits w)) w steps = some (v, l)) : Run w l v :=
  Histories.Run.of_exec _ (fun _ _ => of_decide_eq_true) steps h

end Runs

section Order

variable {w : Wheel ι κ} {timer : ι → Timer κ} {i j : ι} {l : List ι} {ticks : ℕ}
variable {callback : κ}

/-- The list is sorted, without repetition, and holds the active timers. -/
structure Tidy (w : Wheel ι κ) : Prop where
  sorted : w.queue.Pairwise fun i j => (w.timer i).expires ≤ (w.timer j).expires
  nodup : w.queue.Nodup
  active : ∀ i, i ∈ w.queue ↔ (w.timer i).active = true

/-- One timer expires before the other, or together with it and was set first. -/
def Before (t u : Timer κ) : Prop :=
  t.expires < u.expires ∨ t.expires = u.expires ∧ t.stamp < u.stamp

/-- The invariant of the list: timers that expire together are in the order of their stamps. -/
structure Good (w : Wheel ι κ) : Prop where
  order : w.queue.Pairwise fun i j => Before (w.timer i) (w.timer j)
  active : ∀ i, i ∈ w.queue ↔ (w.timer i).active = true
  stamps : ∀ i ∈ w.queue, (w.timer i).stamp < w.armings

theorem Good.nodup (h : Good w) : w.queue.Nodup := by
  refine h.order.imp fun {i j} hij heq => ?_
  rw [heq] at hij
  rcases hij with hlt | ⟨-, hlt⟩
  · exact Nat.lt_irrefl _ hlt
  · exact Nat.lt_irrefl _ hlt

theorem Good.tidy (h : Good w) : Tidy w := by
  refine ⟨h.order.imp fun hij => ?_, h.nodup, h.active⟩
  rcases hij with hlt | ⟨heq, -⟩
  · exact Nat.le_of_lt hlt
  · exact Nat.le_of_eq heq

theorem pairwise_congr {timer' : ι → Timer κ} (h : l.Pairwise fun i j => Before (timer i) (timer j))
    (hsame : ∀ j ∈ l, timer' j = timer j) : l.Pairwise fun i j => Before (timer' i) (timer' j) := by
  refine h.imp_of_mem fun {i j} hi hj hij => ?_
  rwa [hsame i hi, hsame j hj]

theorem due_eq_some (h : due w = some i) :
    ∃ rest, w.queue = i :: rest ∧ (w.timer i).expires ≤ w.now := by
  unfold due at h
  cases hq : w.queue with
  | nil => simp [hq] at h
  | cons k rest =>
    obtain ⟨hk, hle⟩ := Option.filter_eq_some_iff.mp h
    rw [hq, List.head?_cons, Option.some_inj] at hk
    exact ⟨rest, by rw [hk], by simpa using hle⟩

/-- When a round takes no timer, none has expired. -/
theorem Good.lt_of_due_eq_none (h : Good w) (hdue : due w = none) (hi : i ∈ w.queue) :
    w.now < (w.timer i).expires := by
  have hsorted := h.tidy.sorted
  unfold due at hdue
  cases hq : w.queue with
  | nil => simp [hq] at hi
  | cons k rest =>
    have hk : w.now < (w.timer k).expires := by simpa [hq] using hdue
    rw [hq] at hi hsorted
    rcases mem_cons.mp hi with rfl | hi
    · exact hk
    · exact Nat.lt_of_lt_of_le hk ((pairwise_cons.mp hsorted).1 i hi)

def Idle (w : Wheel ι κ) : Prop := w.queue = [] ∧ ∀ i, (w.timer i).active = false

theorem Idle.good (h : Idle w) : Good w := by
  obtain ⟨hq, hidle⟩ := h
  refine ⟨by simp [hq], fun i => ?_, by simp [hq]⟩
  simp [hq, hidle i]

variable [DecidableEq ι]

theorem mem_place : j ∈ place timer i l ↔ j = i ∨ j ∈ l := by
  induction l with
  | nil => simp [place]
  | cons k rest ih =>
    simp only [place]
    split
    · simp only [mem_cons, ih]
      tauto
    · simp only [mem_cons]

/-- A timer that was set last goes behind all timers that expire no later. -/
theorem pairwise_place (h : l.Pairwise fun i j => Before (timer i) (timer j))
    (hstamp : ∀ j ∈ l, (timer j).stamp < (timer i).stamp) :
    (place timer i l).Pairwise fun i j => Before (timer i) (timer j) := by
  induction l with
  | nil => exact pairwise_singleton _ _
  | cons k rest ih =>
    obtain ⟨hk, hrest⟩ := pairwise_cons.mp h
    have hlast := hstamp k mem_cons_self
    simp only [place]
    split
    · rename_i hle
      refine pairwise_cons.mpr ⟨fun j hj => ?_, ih hrest fun j hj =>
        hstamp j (mem_cons_of_mem _ hj)⟩
      rcases mem_place.mp hj with rfl | hj
      · rcases Nat.lt_or_eq_of_le hle with hlt | heq
        · exact .inl hlt
        · exact .inr ⟨heq, hlast⟩
      · exact hk j hj
    · rename_i hlt
      refine pairwise_cons.mpr ⟨fun j hj => .inl ?_, h⟩
      rcases mem_cons.mp hj with rfl | hj
      · omega
      · rcases hk j hj with hkj | ⟨hkj, -⟩
        · omega
        · omega

@[simp] theorem timerCancel_now : (timerCancel i w).now = w.now := by
  unfold timerCancel
  split
  · rfl
  · rfl

@[simp] theorem timerCancel_armings : (timerCancel i w).armings = w.armings := by
  unfold timerCancel
  split
  · rfl
  · rfl

theorem timerCancel_other (h : j ≠ i) : (timerCancel i w).timer j = w.timer j := by
  unfold timerCancel
  split
  · exact update_of_ne h _ _
  · rfl

theorem timerCancel_expires : ((timerCancel i w).timer j).expires = (w.timer j).expires := by
  unfold timerCancel
  split
  · by_cases hj : j = i
    · rw [hj]
      simp [timerUnlink]
    · simp [timerUnlink, hj]
  · rfl

theorem Good.timerCancel_queue (h : Good w) : (timerCancel i w).queue = w.queue.erase i := by
  unfold timerCancel
  split
  · rfl
  · rename_i hidle
    exact (erase_of_not_mem fun hi => hidle ((h.active i).mp hi)).symm

theorem Good.mem_timerCancel (h : Good w) : j ∈ (timerCancel i w).queue ↔ j ≠ i ∧ j ∈ w.queue := by
  rw [h.timerCancel_queue]
  exact h.nodup.mem_erase_iff

theorem Good.cancel (h : Good w) (i : ι) : Good (timerCancel i w) := by
  have hsame : ∀ j ∈ (timerCancel i w).queue, (timerCancel i w).timer j = w.timer j := fun j hj =>
    timerCancel_other (h.mem_timerCancel.mp hj).1
  refine ⟨pairwise_congr ?_ hsame, fun j => ?_, fun j hj => ?_⟩
  · rw [h.timerCancel_queue]
    exact h.order.sublist erase_sublist
  · rw [h.mem_timerCancel]
    by_cases hj : j = i
    · have hoff : ((timerCancel i w).timer i).active = false := by
        unfold timerCancel
        split
        · simp [timerUnlink]
        · rename_i hidle
          exact Bool.of_not_eq_true hidle
      simp [hj, hoff]
    · rw [timerCancel_other hj, h.active j]
      exact and_iff_right hj
  · rw [hsame j hj, timerCancel_armings]
    exact h.stamps j (h.mem_timerCancel.mp hj).2

theorem arm_self : (arm i ticks callback w).timer i =
    ⟨(w.now + ticks) % tickRange, some callback, true, w.armings⟩ := update_self _ _ _

theorem arm_other (h : j ≠ i) : (arm i ticks callback w).timer j = w.timer j :=
  update_of_ne h _ _

theorem Good.arming (h : Good w) (hi : i ∉ w.queue) : Good (arm i ticks callback w) := by
  have hsame : ∀ j ∈ w.queue, (arm i ticks callback w).timer j = w.timer j := fun j hj =>
    arm_other fun hji => hi (hji ▸ hj)
  refine ⟨pairwise_place (pairwise_congr h.order hsame) fun j hj => ?_, fun j => ?_, fun j hj => ?_⟩
  · rw [hsame j hj, arm_self]
    exact h.stamps j hj
  · refine mem_place.trans ?_
    by_cases hj : j = i
    · simp [hj, arm_self]
    · rw [arm_other hj, ← h.active j]
      simp [hj]
  · change _ < w.armings + 1
    rcases mem_place.mp hj with rfl | hj
    · rw [arm_self]
      exact Nat.lt_succ_self _
    · rw [hsame j hj]
      exact Nat.lt_succ_of_lt (h.stamps j hj)

theorem Good.set (h : Good w) (i : ι) (ticks : ℕ) (callback : κ) :
    Good (timerSet i ticks callback w) :=
  (h.cancel i).arming fun hi => (h.mem_timerCancel.mp hi).1 rfl

theorem timerSet_self (i : ι) (callback : κ) (hfits : w.now + max ticks 1 < tickRange) :
    (timerSet i ticks callback w).timer i =
      ⟨w.now + max ticks 1, some callback, true, w.armings⟩ := by
  have hmax : (if ticks = 0 then 1 else ticks) = max ticks 1 := by
    split
    · omega
    · omega
  rw [timerSet, arm_self, hmax, timerCancel_now, timerCancel_armings, Nat.mod_eq_of_lt hfits]

theorem timerSet_other (h : j ≠ i) : (timerSet i ticks callback w).timer j = w.timer j := by
  rw [timerSet, arm_other h, timerCancel_other h]

theorem Good.mem_timerSet (h : Good w) :
    j ∈ (timerSet i ticks callback w).queue ↔ j = i ∨ j ∈ w.queue := by
  refine mem_place.trans ?_
  rw [h.mem_timerCancel]
  tauto

theorem dequeue_other (h : j ≠ i) : (dequeue i w).timer j = w.timer j :=
  update_of_ne h _ _

theorem dequeue_expires : ((dequeue i w).timer j).expires = (w.timer j).expires := by
  by_cases hj : j = i
  · rw [hj]
    simp [dequeue]
  · rw [dequeue_other hj]

theorem Good.mem_dequeue (h : Good w) (hdue : due w = some i) :
    j ∈ (dequeue i w).queue ↔ j ≠ i ∧ j ∈ w.queue := by
  obtain ⟨rest, hq, -⟩ := due_eq_some hdue
  have hnodup := h.nodup
  rw [hq] at hnodup ⊢
  simp only [dequeue, hq, tail_cons, mem_cons]
  have hi := (nodup_cons.mp hnodup).1
  refine ⟨fun hj => ⟨fun hji => hi (hji ▸ hj), .inr hj⟩, fun ⟨hne, hj⟩ => hj.resolve_left hne⟩

theorem Good.round (h : Good w) (hdue : due w = some i) : Good (dequeue i w) := by
  have hsame : ∀ j ∈ (dequeue i w).queue, (dequeue i w).timer j = w.timer j := fun j hj =>
    dequeue_other ((h.mem_dequeue hdue).mp hj).1
  refine ⟨pairwise_congr (h.order.sublist (tail_sublist _)) hsame, fun j => ?_, fun j hj => ?_⟩
  · rw [h.mem_dequeue hdue]
    by_cases hj : j = i
    · simp [hj, dequeue]
    · rw [dequeue_other hj, h.active j]
      exact and_iff_right hj
  · rw [hsame j hj]
    exact h.stamps j ((h.mem_dequeue hdue).mp hj).2

end Order

end Tach.Timers
