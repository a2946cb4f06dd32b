import Tach.Timers

/-!
When the callbacks of timers run. A timer that is set, and not touched again, stays on the list until
a round of `timer_tick` takes it, which is not before it expires. The rounds take timers in the order
in which they expire: what is set meanwhile expires later than the clock of the round before.
-/

namespace Tach.Timers

open Function List

variable {ι κ : Type}

section Punctual

variable [DecidableEq ι] {u v w : Wheel ι κ} {a : Step ι κ} {e l : List (Event ι κ)} {i j i : ι}

inductive Change (w : Wheel ι κ) : Wheel ι κ → List (Event ι κ) → Prop
  | clock (now : ℕ) (ticking : Bool) (h : w.now ≤ now) :
      Change w { w with now := now, ticking := ticking } []
  | set (i : ι) (ticks : ℕ) (callback : κ) (hfits : w.now + max ticks 1 < tickRange) :
      Change w (timerSet i ticks callback w)
        [.armed i callback (w.now + max ticks 1) w.armings]
  | cancel (i : ι) : Change w (timerCancel i w) [.cancelled i]
  | ended (h : due w = none) : Change w { w with ticking := false } [.ended w.now]
  | fired (i : ι) (h : due w = some i) :
      Change w (dequeue i w)
        [.fired i (w.timer i).callback (w.timer i).expires (w.timer i).stamp w.now]

theorem next_change (hfits : a.Fits w) (h : next w a = some (v, e)) : Change w v e := by
  cases a with
  | advance ticks =>
    cases h
    exact .clock _ _ (Nat.le_add_right _ _)
  | set i ticks callback =>
    cases h
    simp only [timerSet_self _ _ hfits]
    exact .set i ticks callback hfits
  | cancel i =>
    cases h
    exact .cancel i
  | tick =>
    simp only [next] at h
    split_ifs at h
    cases h
    exact .clock _ _ (Nat.le_refl _)
  | round =>
    simp only [next] at h
    split_ifs at h
    split at h
    · rename_i hdue
      cases h
      exact .ended hdue
    · rename_i i hdue
      cases h
      exact .fired i hdue

theorem Change.good (h : Change w v e) (hw : Good w) : Good v := by
  cases h with
  | clock now ticking hle => exact ⟨hw.order, hw.active, hw.stamps⟩
  | set i ticks callback hfits => exact hw.set i ticks callback
  | cancel i => exact hw.cancel i
  | ended hdue => exact ⟨hw.order, hw.active, hw.stamps⟩
  | fired i hdue => exact hw.round hdue

theorem Change.now_le (h : Change w v e) : w.now ≤ v.now := by
  cases h with
  | clock now ticking hle => exact hle
  | set i ticks callback hfits => exact Nat.le_of_eq timerCancel_now.symm
  | cancel i => exact Nat.le_of_eq timerCancel_now.symm
  | ended hdue => exact Nat.le_refl _
  | fired i hdue => exact Nat.le_refl _

theorem Run.good (h : Run w l v) (hw : Good w) : Good v := by
  induction h with
  | start => exact hw
  | step _ hfits hnext ih => exact (next_change hfits hnext).good ih

/-- A timer that a step does not set, cancel or take keeps its fields. -/
theorem Change.keeps (h : Change w v e) (htouch : ∀ x ∈ e, ¬x.Touches i)
    (hfire : ∀ x ∈ e, ¬x.Fires i) : v.timer i = w.timer i := by
  cases h with
  | clock now ticking hle => rfl
  | set j ticks callback hfits =>
    exact timerSet_other fun hij => htouch _ mem_cons_self hij.symm
  | cancel j => exact timerCancel_other fun hij => htouch _ mem_cons_self hij.symm
  | ended hdue => rfl
  | fired j hdue => exact dequeue_other fun hij => hfire _ mem_cons_self hij.symm

/-- What was recorded comes before all that is still to come: a timer that is set after a callback ran
does not expire with it. -/
def Event.Settled (w : Wheel ι κ) : Event ι κ → Prop
  | fired _ _ expires stamp _ => expires ≤ w.now ∧ ∀ j ∈ w.queue,
    expires < (w.timer j).expires ∨ expires = (w.timer j).expires ∧ stamp < (w.timer j).stamp
  | armed _ _ _ stamp => stamp < w.armings
  | _ => True

section

variable (h : Change w v e)
include h

theorem Change.armings_le : w.armings ≤ v.armings := by
  cases h with
  | set i ticks callback hfits =>
    exact Nat.le_succ_of_le (Nat.le_of_eq timerCancel_armings.symm)
  | cancel i => exact Nat.le_of_eq timerCancel_armings.symm
  | _ => exact Nat.le_refl _

/-- A timer that is on the list after a step was there before, unless it was just set. -/
theorem Change.queued (hw : Good w) (hj : j ∈ v.queue) :
    j ∈ w.queue ∧ v.timer j = w.timer j ∨ w.now < (v.timer j).expires := by
  cases h with
  | set i ticks callback hfits =>
    by_cases hji : j = i
    · refine .inr ?_
      rw [hji, timerSet_self _ _ hfits]
      change w.now < w.now + max ticks 1
      omega
    · exact .inl ⟨(hw.mem_timerSet.mp hj).resolve_left hji, timerSet_other hji⟩
  | cancel i =>
    obtain ⟨hji, hj⟩ := hw.mem_timerCancel.mp hj
    exact .inl ⟨hj, timerCancel_other hji⟩
  | fired i hdue =>
    obtain ⟨hji, hj⟩ := (hw.mem_dequeue hdue).mp hj
    exact .inl ⟨hj, dequeue_other hji⟩
  | _ => exact .inl ⟨hj, rfl⟩

theorem Change.settled (hw : Good w) {x : Event ι κ} (hx : x.Settled w) : x.Settled v := by
  cases x with
  | fired i callback expires stamp now =>
    obtain ⟨hle, hbefore⟩ := hx
    refine ⟨Nat.le_trans hle h.now_le, fun j hj => ?_⟩
    rcases h.queued hw hj with ⟨hj, hsame⟩ | hlt
    · rw [hsame]
      exact hbefore j hj
    · exact .inl (Nat.lt_of_le_of_lt hle hlt)
  | armed i callback expires stamp => exact Nat.lt_of_lt_of_le hx h.armings_le
  | _ => trivial

/-- What a step records is in order with what was recorded before. -/
theorem Change.records (hw : Good w) {y : Event ι κ} (hy : y ∈ e) :
    y.Settled v ∧ ∀ x : Event ι κ, x.Settled w → x.InOrder y := by
  cases h with
  | clock now ticking hle => cases hy
  | set i ticks callback hfits =>
    cases mem_singleton.mp hy
    refine ⟨Nat.lt_of_lt_of_eq (Nat.lt_succ_self _) (congrArg _ timerCancel_armings.symm),
      fun x hx => ?_⟩
    cases x with
    | armed j callback' expires stamp => exact hx
    | _ => trivial
  | fired i hdue =>
    obtain ⟨rest, hq, hle⟩ := due_eq_some hdue
    cases mem_singleton.mp hy
    refine ⟨⟨hle, fun j hj => ?_⟩, fun x hx => ?_⟩
    · obtain ⟨hji, hj⟩ := (hw.mem_dequeue hdue).mp hj
      rw [dequeue_other hji]
      have horder := hw.order
      rw [hq] at horder hj
      exact (pairwise_cons.mp horder).1 j ((mem_cons.mp hj).resolve_left hji)
    · cases x with
      | fired j callback expires stamp now => exact hx.2 i (by rw [hq]; exact mem_cons_self)
      | _ => trivial
  | _ =>
    cases mem_singleton.mp hy
    refine ⟨trivial, fun x hx => ?_⟩
    cases x with
    | _ => trivial

theorem Change.pairwise (r : Event ι κ → Event ι κ → Prop) : e.Pairwise r := by
  cases h with
  | clock now ticking hle => exact List.Pairwise.nil
  | _ => exact pairwise_singleton _ _

end

/-- Callbacks run in the order of expiry, over a whole run. -/
theorem Run.inOrder (h : Run w l v) (hw : Good w) :
    l.Pairwise Event.InOrder ∧ ∀ x ∈ l, x.Settled v := by
  induction h with
  | start => exact ⟨List.Pairwise.nil, nofun⟩
  | step hrun hfits hnext ih =>
    have hchange := next_change hfits hnext
    have hu := Run.good hrun hw
    refine ⟨pairwise_append.mpr ⟨ih.1, hchange.pairwise _, fun x hx y hy => ?_⟩, fun x hx => ?_⟩
    · exact (hchange.records hu hy).2 x (ih.2 x hx)
    · rcases mem_append.mp hx with hx | hx
      · exact hchange.settled hu (ih.2 x hx)
      · exact (hchange.records hu hx).1

def firings (i : ι) (l : List (Event ι κ)) : List (Event ι κ) := l.filter fun x => decide (x.Fires i)

theorem firings_append (i : ι) (l l' : List (Event ι κ)) :
    firings i (l ++ l') = firings i l ++ firings i l' := filter_append _ _

theorem firings_eq_nil : firings i l = [] ↔ ∀ x ∈ l, ¬x.Fires i := by
  simp [firings, filter_eq_nil_iff]

/-- A timer that is set and not touched any more: it stays as it was set until its callback runs, and
is not active after that. -/
def Waits (i : ι) (t : Timer κ) (w : Wheel ι κ) (l : List (Event ι κ)) : Prop :=
  w.timer i = t ∧ firings i l = [] ∨ (w.timer i).active = false ∧
    ∃ now, t.expires ≤ now ∧ firings i l = [.fired i t.callback t.expires t.stamp now]

theorem Change.fires (h : Change w v e) (hfire : ∃ x ∈ e, x.Fires i) :
    due w = some i ∧ v = dequeue i w ∧
      e = [.fired i (w.timer i).callback (w.timer i).expires (w.timer i).stamp w.now] := by
  obtain ⟨x, hx, hi⟩ := hfire
  cases h with
  | clock now ticking hle => cases hx
  | fired j hdue =>
    rw [mem_singleton.mp hx] at hi
    cases hi
    exact ⟨hdue, rfl, rfl⟩
  | _ =>
    rw [mem_singleton.mp hx] at hi
    exact hi.elim

theorem Change.waits (h : Change w v e) (hw : Good w) {t : Timer κ} (hwaits : Waits i t w l)
    (htouch : ∀ x ∈ e, ¬x.Touches i) : Waits i t v (l ++ e) := by
  by_cases hfire : ∃ x ∈ e, x.Fires i
  · obtain ⟨hdue, rfl, rfl⟩ := h.fires hfire
    obtain ⟨rest, hq, hle⟩ := due_eq_some hdue
    have hactive : (w.timer i).active = true :=
      (hw.active i).mp (by rw [hq]; exact mem_cons_self)
    rcases hwaits with ⟨hsame, hnone⟩ | ⟨hidle, -⟩
    · refine .inr ⟨by simp [dequeue], w.now, hsame ▸ hle, ?_⟩
      rw [firings_append, hnone, ← hsame]
      simp [firings, Event.Fires]
    · rw [hidle] at hactive
      cases hactive
  · have hquiet : ∀ x ∈ e, ¬x.Fires i := fun x hx hi => hfire ⟨x, hx, hi⟩
    rw [Waits, h.keeps htouch hquiet, firings_append, firings_eq_nil.mpr hquiet, append_nil]
    exact hwaits

/-- A call of `timer_tick` does not return before the callbacks of all timers that expired. -/
theorem Change.ended_lt (h : Change w v e) (hw : Good w) {t : Timer κ} (hwaits : Waits i t w l)
    (ht : t.active = true) (now : ℕ) (hend : .ended now ∈ e) (hle : t.expires ≤ now) :
    firings i l ≠ [] := by
  intro hnone
  rcases hwaits with ⟨hsame, -⟩ | ⟨-, c, -, hone⟩
  · cases h with
    | ended hdue =>
      cases mem_singleton.mp hend
      have hlt := hw.lt_of_due_eq_none hdue ((hw.active i).mpr (by rw [hsame]; exact ht))
      rw [hsame] at hlt
      omega
    | clock ticking clock hclock => cases hend
    | _ => cases mem_singleton.mp hend
  · rw [hone] at hnone
    cases hnone

theorem Run.waits (h : Run w l v) (hw : Good w) (hactive : (w.timer i).active = true)
    (htouch : ∀ x ∈ l, ¬x.Touches i) : Waits i (w.timer i) v l ∧
      ∀ l₁ now l₂, l = l₁ ++ .ended now :: l₂ → (w.timer i).expires ≤ now → firings i l₁ ≠ [] := by
  induction h with
  | start => exact ⟨.inl ⟨rfl, rfl⟩, fun l₁ now l₂ hl => by simp at hl⟩
  | @step l u v a e hrun hfits hnext ih =>
    have hchange := next_change hfits hnext
    have hu := Run.good hrun hw
    obtain ⟨hwaits, hends⟩ := ih fun x hx => htouch x (mem_append_left _ hx)
    refine ⟨hchange.waits hu hwaits fun x hx => htouch x (mem_append_right _ hx), ?_⟩
    intro l₁ now l₂ hl hle
    -- the end of the call is in the part before, or it is this step
    rcases append_eq_append_iff.mp hl with ⟨l', rfl, he⟩ | ⟨l', rfl, he⟩
    · rw [firings_append]
      intro hnil
      refine hchange.ended_lt hu hwaits hactive now ?_ hle (append_eq_nil_iff.mp hnil).1
      rw [he]
      exact mem_append_right _ mem_cons_self
    · cases l' with
      | nil =>
        refine fun hnil => hchange.ended_lt hu (by simpa using hwaits) hactive now ?_ hle hnil
        rw [nil_append] at he
        rw [← he]
        exact mem_cons_self
      | cons x l' =>
        cases he
        exact hends l₁ now l' rfl hle

/-- The number of timers on the list before `i`. -/
def ahead (i : ι) (w : Wheel ι κ) : ℕ := w.queue.idxOf i

theorem idxOf_erase_le {l : List ι} (h : i ≠ j) : (l.erase j).idxOf i ≤ l.idxOf i := by
  induction l with
  | nil => exact Nat.le_refl _
  | cons k rest ih =>
    rw [erase_cons]
    split
    · rename_i hk
      have hkj : k = j := by simpa using hk
      rw [idxOf_cons_ne rest (by rw [hkj]; exact Ne.symm h)]
      exact Nat.le_succ _
    · by_cases hki : k = i
      · rw [hki, idxOf_cons_self]
        exact Nat.zero_le _
      · rw [idxOf_cons_ne _ hki, idxOf_cons_ne _ hki]
        exact Nat.succ_le_succ ih

/-- A timer goes behind one that expires no later. -/
theorem idxOf_place {timer : ι → Timer κ} {l : List ι} (hi : i ∈ l)
    (hsorted : l.Pairwise fun a b => (timer a).expires ≤ (timer b).expires)
    (hle : (timer i).expires ≤ (timer j).expires) : (place timer j l).idxOf i = l.idxOf i := by
  induction l with
  | nil => cases hi
  | cons k rest ih =>
    obtain ⟨hk, hrest⟩ := pairwise_cons.mp hsorted
    by_cases hki : k = i
    · rw [place, if_pos (hki ▸ hle), hki, idxOf_cons_self, idxOf_cons_self]
    · have hi := (mem_cons.mp hi).resolve_left (Ne.symm hki)
      rw [place, if_pos (Nat.le_trans (hk i hi) hle), idxOf_cons_ne _ hki,
        idxOf_cons_ne _ hki, ih hi hrest]

theorem Good.ahead_cancel (h : Good w) (hij : i ≠ j) : ahead i (timerCancel j w) ≤ ahead i w := by
  rw [ahead, h.timerCancel_queue]
  exact idxOf_erase_le hij

theorem Good.ahead_set (h : Good w) {ticks : ℕ} {callback : κ} (hij : i ≠ j)
    (hi : i ∈ w.queue) (hfits : w.now + max ticks 1 < tickRange) (hle : (w.timer i).expires ≤ w.now) :
    ahead i (timerSet j ticks callback w) ≤ ahead i w := by
  have hset := timerSet_self j callback hfits
  have hmem : i ∈ (timerCancel j w).queue := h.mem_timerCancel.mpr ⟨hij, hi⟩
  refine Nat.le_trans (Nat.le_of_eq (idxOf_place hmem ?_ ?_)) (h.ahead_cancel hij)
  · refine (h.cancel j).tidy.sorted.imp_of_mem fun {a b} ha hb hab => ?_
    have hother : ∀ k ∈ (timerCancel j w).queue, k ≠ j := fun k hk => (h.mem_timerCancel.mp hk).1
    rwa [update_of_ne (hother a ha), update_of_ne (hother b hb)]
  · change ((timerSet j ticks callback w).timer i).expires ≤
      ((timerSet j ticks callback w).timer j).expires
    rw [hset, timerSet_other hij]
    exact Nat.le_trans hle (Nat.le_add_right _ _)

/-- While a timer has expired, each round takes one of those before it. -/
theorem Change.ahead_le (h : Change w v e) (hw : Good w) (hi : i ∈ w.queue)
    (hle : (w.timer i).expires ≤ w.now) (htouch : ∀ x ∈ e, ¬x.Touches i)
    (hquiet : ∀ x ∈ e, ¬x.Fires i) :
    e.countP Event.isFiring + ahead i v ≤ ahead i w ∧ ∀ now, .ended now ∉ e := by
  cases h with
  | clock now ticking hclock => exact ⟨Nat.le_of_eq (Nat.zero_add _), nofun⟩
  | set j ticks callback hfits =>
    have hij : i ≠ j := fun hij => htouch _ mem_cons_self hij.symm
    refine ⟨?_, fun now hend => by cases mem_singleton.mp hend⟩
    exact Nat.le_trans (Nat.le_of_eq (Nat.zero_add _)) (hw.ahead_set hij hi hfits hle)
  | cancel j =>
    have hij : i ≠ j := fun hij => htouch _ mem_cons_self hij.symm
    refine ⟨?_, fun now hend => by cases mem_singleton.mp hend⟩
    exact Nat.le_trans (Nat.le_of_eq (Nat.zero_add _)) (hw.ahead_cancel hij)
  | ended hdue =>
    have := hw.lt_of_due_eq_none hdue hi
    omega
  | fired j hdue =>
    have hij : j ≠ i := fun hij => hquiet _ mem_cons_self hij
    obtain ⟨rest, hq, -⟩ := due_eq_some hdue
    refine ⟨?_, fun now hend => by cases mem_singleton.mp hend⟩
    rw [ahead, ahead, hq, idxOf_cons_ne _ hij]
    simp [Event.isFiring, dequeue, hq, Nat.add_comm]

/-- The callback of an expired timer runs after at most those of the timers before it. -/
theorem Run.ahead_le (h : Run w l v) (hw : Good w) (hi : i ∈ w.queue)
    (hle : (w.timer i).expires ≤ w.now) (htouch : ∀ x ∈ l, ¬x.Touches i)
    (hquiet : ∀ x ∈ l, ¬x.Fires i) :
    l.countP Event.isFiring + ahead i v ≤ ahead i w ∧ ∀ now, .ended now ∉ l := by
  have hstays : ∀ {l u}, Run w l u → (∀ x ∈ l, ¬x.Touches i) → (∀ x ∈ l, ¬x.Fires i) →
      u.timer i = w.timer i ∧ w.now ≤ u.now := by
    intro l u h
    induction h with
    | start => exact fun _ _ => ⟨rfl, Nat.le_refl _⟩
    | step hrun hfits hnext ih =>
      intro htouch hquiet
      have hchange := next_change hfits hnext
      obtain ⟨hsame, hnow⟩ := ih (fun x hx => htouch x (mem_append_left _ hx))
        fun x hx => hquiet x (mem_append_left _ hx)
      refine ⟨?_, Nat.le_trans hnow hchange.now_le⟩
      rw [hchange.keeps (fun x hx => htouch x (mem_append_right _ hx))
        fun x hx => hquiet x (mem_append_right _ hx), hsame]
  induction h with
  | start => exact ⟨Nat.le_of_eq (Nat.zero_add _), fun _ => not_mem_nil⟩
  | @step l u v a e hrun hfits hnext ih =>
    have htouch' : ∀ x ∈ l, ¬x.Touches i := fun x hx => htouch x (mem_append_left _ hx)
    have hquiet' : ∀ x ∈ l, ¬x.Fires i := fun x hx => hquiet x (mem_append_left _ hx)
    obtain ⟨hsame, hnow⟩ := hstays hrun htouch' hquiet'
    have hu := Run.good hrun hw
    obtain ⟨hcount, hno⟩ := ih htouch' hquiet'
    obtain ⟨hcount', hno'⟩ := (next_change hfits hnext).ahead_le hu
      ((hu.active i).mpr (by rw [hsame]; exact (hw.active i).mp hi))
      (by rw [hsame]; exact Nat.le_trans hle hnow)
      (fun x hx => htouch x (mem_append_right _ hx))
      fun x hx => hquiet x (mem_append_right _ hx)
    refine ⟨?_, fun now hend => (mem_append.mp hend).elim (hno now) (hno' now)⟩
    rw [countP_append]
    omega

def twoTimers : Wheel Bool ℕ := ⟨[], fun _ => ⟨0, none, false, 0⟩, 0, false, 0⟩

end Punctual

end Tach.Timers
