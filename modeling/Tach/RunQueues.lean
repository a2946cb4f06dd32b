import Tach.Dispatch

/-!
The run queues. A process is in at most one of them and its flag and CPU say in which, as long as
each locked section of `scheduler_add` still finds the flag as the test before the lock did. Two
CPUs that wake one process at the same time break this: each finds it in no queue, and the second
looks for duplicates only in the queue that has become the lightest. With one CPU the queue is fair
as long as no process is removed from before the one whose turn it is.
-/

namespace Tach.Dispatch

open Function List

variable {n m : ℕ} {c : Fin n}

section Order

/-- The run queues as the flags of the processes describe them. -/
structure Tidy (k : Kernel n m) : Prop where
  nodup (c : Fin n) : (k.queue c).Nodup
  here (p : Fin m) (c : Fin n) : p ∈ k.queue c → k.queued p = true ∧ k.cpuId p = c
  queued (p : Fin m) : k.queued p = true → p ∈ k.queue (k.cpuId p)

variable {k k' : Kernel n m}

section

variable (h : Tidy k)
include h

/-- Only the queues, the flags and the CPUs of the processes matter. -/
theorem Tidy.congr (hqueue : k'.queue = k.queue) (hqueued : k'.queued = k.queued)
    (hcpu : k'.cpuId = k.cpuId) : Tidy k' := by
  constructor
  · rw [hqueue]
    exact h.nodup
  · rw [hqueue, hqueued, hcpu]
    exact h.here
  · rw [hqueue, hqueued, hcpu]
    exact h.queued

variable {p : Fin m}

/-- A process that is not marked is in no queue. -/
theorem Tidy.not_mem (hp : k.queued p = false) (c : Fin n) : p ∉ k.queue c := by
  intro hmem
  rw [(h.here p c hmem).1] at hp
  cases hp

theorem Tidy.addLocked [NeZero n] (hp : k.queued p = false) : Tidy (k.addLocked p) := by
  simp only [Kernel.addLocked]
  split
  · exact h
  · have hself := h.not_mem hp
    constructor
    · intro c
      dsimp only
      by_cases hc : c = k.lightest
      · subst hc
        rw [update_self]
        exact (h.nodup _).append (nodup_singleton p) (by simpa using hself _)
      · rw [update_of_ne hc]
        exact h.nodup c
    · intro q c hq
      dsimp only at hq ⊢
      by_cases hqp : q = p
      · subst hqp
        rw [update_self, update_self]
        refine ⟨rfl, ?_⟩
        by_contra hc
        exact hself c (by rwa [update_of_ne (Ne.symm hc)] at hq)
      · rw [update_of_ne hqp, update_of_ne hqp]
        refine h.here q c ?_
        by_cases hc : c = k.lightest
        · subst hc
          rw [update_self] at hq
          simpa [hqp] using hq
        · rwa [update_of_ne hc] at hq
    · intro q hq
      dsimp only at hq ⊢
      by_cases hqp : q = p
      · subst hqp
        simp
      · rw [update_of_ne hqp] at hq ⊢
        have hmem := h.queued q hq
        by_cases hc : k.cpuId q = k.lightest
        · rw [hc, update_self]
          exact mem_append_left _ (hc ▸ hmem)
        · rwa [update_of_ne hc]

theorem Tidy.removeLocked (p : Fin m) (d : Fin n) : Tidy (k.removeLocked p d) := by
  simp only [Kernel.removeLocked]
  split
  · rename_i hp
    have hcpu := (h.here p d hp).2
    constructor
    · intro c
      dsimp only
      by_cases hc : c = d
      · subst hc
        rw [update_self]
        exact (h.nodup c).erase p
      · rw [update_of_ne hc]
        exact h.nodup c
    · intro q c hq
      dsimp only at hq ⊢
      by_cases hc : c = d
      · subst hc
        rw [update_self, (h.nodup c).mem_erase_iff] at hq
        rw [update_of_ne hq.1]
        exact h.here q c hq.2
      · rw [update_of_ne hc] at hq
        have hqp : q ≠ p := by
          rintro rfl
          exact hc ((h.here q c hq).2.symm.trans hcpu)
        rw [update_of_ne hqp]
        exact h.here q c hq
    · intro q hq
      dsimp only at hq ⊢
      by_cases hqp : q = p
      · rw [hqp, update_self] at hq
        cases hq
      · rw [update_of_ne hqp] at hq
        have hmem := h.queued q hq
        by_cases hc : k.cpuId q = d
        · rw [hc, update_self, (h.nodup d).mem_erase_iff]
          exact ⟨hqp, hc ▸ hmem⟩
        · rwa [update_of_ne hc]
  · exact h

/-- A new CPU for a process that is in no queue, or in the one of that CPU. -/
theorem Tidy.setCpu (hp : k.queued p = true → k.cpuId p = c) :
    Tidy { k with cpuId := update k.cpuId p c } := by
  have hcpu : ∀ q, k.queued q = true → update k.cpuId p c q = k.cpuId q := by
    intro q hq
    by_cases hqp : q = p
    · subst hqp
      rw [update_self, hp hq]
    · rw [update_of_ne hqp]
  constructor
  · exact h.nodup
  · intro q d hq
    obtain ⟨hqueued, hd⟩ := h.here q d hq
    exact ⟨hqueued, (hcpu q hqueued).trans hd⟩
  · intro q hq
    change q ∈ k.queue (update k.cpuId p c q)
    rw [hcpu q hq]
    exact h.queued q hq

theorem Tidy.setCurrent {new : Option (Fin m)}
    (hnew : ∀ p ∈ new, k.queued p = true → k.cpuId p = c) : Tidy (k.setCurrent c new) := by
  cases new with
  | none => exact h.congr rfl rfl rfl
  | some p => exact (h.setCpu (hnew p rfl)).congr rfl rfl rfl

theorem Tidy.erase [NeZero n] (hp : k.queued p = false) : Tidy (k.erase p) := by
  have hqueued : update k.queued p false = k.queued := by
    rw [← hp, update_eq_self]
  have hcpu : Tidy { k with cpuId := update k.cpuId p 0 } :=
    h.setCpu fun hq => absurd (hp.symm.trans hq) Bool.false_ne_true
  exact hcpu.congr rfl hqueued rfl

theorem begin_tidy (who : Option (Fin m)) (what : Call m) : Tidy (begin k who what).1 := by
  obtain ⟨pending, heq⟩ := begin_kernel k who what
  rw [heq]
  exact h.congr rfl rfl rfl

end

def Kernel.occurrences (k : Kernel n m) (p : Fin m) : ℕ := ∑ c, (k.queue c).count p

theorem Tidy.occurrences (h : Tidy k) (p : Fin m) :
    k.occurrences p = if k.queued p then 1 else 0 := by
  unfold Kernel.occurrences
  split
  · rename_i hp
    rw [Finset.sum_eq_single (k.cpuId p)]
    · exact count_eq_one_of_mem (h.nodup _) (h.queued p hp)
    · intro c _ hc
      exact count_eq_zero_of_not_mem fun hmem => hc (h.here p c hmem).2.symm
    · simp
  · rename_i hp
    refine Finset.sum_eq_zero fun c _ => count_eq_zero_of_not_mem (h.not_mem ?_ c)
    simpa using hp

end Order

section Runs

variable [NeZero n] {s t : State n m} {l : List (Fin n × Op n m)}

/-- The process is as the operations before have left it: `scheduler_add` finds it outside of the
queues when it has the locks, `process_set_current` does not take it from the queue of another CPU,
and `process_destroy` has removed it. -/
def Unraced (s : State n m) (c : Fin n) (op : Op n m) : Prop :=
  ∀ p, (op = .addLocked p → s.kernel.queued p = false) ∧
    (op = .setCurrent (some p) → s.kernel.queued p = true → s.kernel.cpuId p = c) ∧
    (op = .erase p → s.kernel.queued p = false)

instance (s : State n m) (c : Fin n) (op : Op n m) : Decidable (Unraced s c op) :=
  inferInstanceAs (Decidable (∀ _, _ ∧ _ ∧ _))

theorem exec_tidy (h : Tidy s.kernel) {op : Op n m} (hop : Unraced s c op) :
    Tidy (exec c s.kernel op).1 := by
  cases op with
  | addLocked p => exact h.addLocked ((hop p).1 rfl)
  | removeLocked p d => exact h.removeLocked p d
  | setCurrent new =>
    refine h.setCurrent ?_
    rintro p rfl
    exact (hop p).2.1 rfl
  | erase p => exact h.erase ((hop p).2.2 rfl)
  | block q target nohang =>
    simp only [exec]
    split
    · exact h
    · exact h.congr rfl rfl rfl
  | _ => exact h.congr rfl rfl rfl

theorem Run.tidy (hrun : Run (Doing Unraced) s l t) (hs : Tidy s.kernel) : Tidy t.kernel := by
  refine hrun.invariant (I := fun _ s => Tidy s.kernel) hs fun _ u a v e hu hok hnext => ?_
  cases next_change hnext with
  | go hcode =>
    refine exec_tidy hu (hok _ ?_)
    rw [hcode]
    rfl
  | call hcode => exact begin_tidy hu _ _

/-- From run queues in order, in every run whose operations find the processes as they left them,
each process is at most once in all run queues, in one exactly if it is marked, and then in that
of its CPU. -/
theorem run_queues_hold_once (hs : Tidy s.kernel) (hrun : Run (Doing Unraced) s l t) (p : Fin m) :
    t.kernel.occurrences p ≤ 1 ∧ ((∃ c, p ∈ t.kernel.queue c) ↔ t.kernel.queued p = true) ∧
      (t.kernel.queued p = true → p ∈ t.kernel.queue (t.kernel.cpuId p)) := by
  have ht := hrun.tidy hs
  refine ⟨?_, ⟨?_, ?_⟩, ht.queued p⟩
  · rw [ht.occurrences]
    split <;> omega
  · rintro ⟨c, hc⟩
    exact (ht.here p c hc).1
  · intro hp
    exact ⟨_, ht.queued p hp⟩

theorem seated_tidy : Tidy seated.kernel := by
  constructor <;> decide

theorem run_queues_hold_once_resumed : ∃ l t, Run (Doing Unraced) seated l t ∧
    t.kernel.queued 2 = true ∧ t.kernel.occurrences 2 ≤ 1 ∧
    2 ∈ t.kernel.queue (t.kernel.cpuId 2) := by
  obtain ⟨l, t, hrun, hqueued⟩ :
      ∃ l t, Run (Doing Unraced) seated l t ∧ t.kernel.queued 2 = true :=
    ⟨_, _, Run.of_doing [.call 0 (.kill 3 18), .go 0, .go 0, .go 0, .go 0, .go 0] rfl, rfl⟩
  obtain ⟨honce, -, hhere⟩ := run_queues_hold_once seated_tidy hrun 2
  exact ⟨l, t, hrun, hqueued, honce, hhere hqueued⟩

/-- Two CPUs send `SIGCONT` to one stopped process. Both find it stopped and in no queue; the first
puts it into the queue of CPU 0, which is then longer than the other, so the second puts it into
the queue of CPU 1. -/
theorem run_queues_hold_twice : ∃ l t, Tidy seated.kernel ∧ Run (fun _ _ => True) seated l t ∧
    t.kernel.occurrences 2 = 2 := by
  refine ⟨_, _, seated_tidy, Histories.Run.of_exec (fun _ _ => true) (fun _ _ _ => trivial)
    [.call 0 (.kill 3 18), .call 1 (.kill 3 18), .go 0, .go 1, .go 0, .go 1, .go 0, .go 1, .go 0,
      .go 1, .go 0, .go 1] rfl, ?_⟩
  decide

end Runs

section Fairness

/-- The calls to the scheduler with one CPU; a pick finds the processes as they are at that time. -/
inductive SchedCall (m : ℕ)
  | add (p : Fin m)
  | remove (p : Fin m)
  | pick (state : Fin m → RunState) (onCpu : Fin m → Bool)

/-- The history has the processes that were picked. -/
def schedule : Histories.Machine (Kernel 1 m) (SchedCall m) (Fin m)
  | k, .add p => some (if k.queued p then k else k.addLocked p, [])
  | k, .remove p => some (k.removeLocked p (k.cpuId p), [])
  | k, .pick state onCpu =>
    let r := Kernel.pickNext { k with state, onCpu } 0
    some (r.2, r.1.toList)

/-- `p` is not removed, and each pick finds it ready. -/
def Stays (p : Fin m) : SchedCall m → Prop
  | .add _ => True
  | .remove r => r ≠ p
  | .pick state onCpu => state p = .running ∧ onCpu p = false

/-- No process is removed from before the one whose turn it is. -/
def Unshifted (k : Kernel 1 m) : SchedCall m → Prop
  | .remove r => r ∈ k.queue 0 → k.turn 0 ≤ (k.queue 0).idxOf r
  | _ => True

/-- Going round from `turn`, `p` comes before `q`; a process that is not in the queue has the index
behind the last. -/
def Ahead (queue : List (Fin m)) (turn : ℕ) (p q : Fin m) : Prop :=
  p ∈ queue ∧ (turn ≤ queue.idxOf p ∧ (queue.idxOf q < turn ∨ queue.idxOf p < queue.idxOf q) ∨
    queue.idxOf p < queue.idxOf q ∧ queue.idxOf q < turn)

/-- The turn after that of index `turn`. -/
def following (queue : List (Fin m)) (turn : ℕ) : ℕ := if queue.length ≤ turn + 1 then 0 else turn + 1

def InTurn (queue : List (Fin m)) (turn : ℕ) : Prop := queue.Nodup ∧ turn ≤ queue.length - 1

variable {k k' : Kernel 1 m} {queue : List (Fin m)} {turn : ℕ} {p q r : Fin m} {c : SchedCall m}
  {e : List (Fin m)}

/-- The rule for the loop of `scheduler_pick_next`: it goes on, or stops at a process that is ready. -/
theorem pickFrom_rule {k : Kernel n m} {I : ℕ → Prop}
    (hnext : ∀ t, I t → (∀ x, queue[t]? = some x → ¬ (k.state x = .running ∧ k.onCpu x = false)) →
      I (following queue t)) (checks : ℕ) (h : I turn) :
    (k.pickFrom queue checks turn).1 = none ∧ I (k.pickFrom queue checks turn).2 ∨
      ∃ t x, I t ∧ queue[t]? = some x ∧
        k.pickFrom queue checks turn = (some x, following queue t) := by
  induction checks generalizing turn with
  | zero => exact .inl ⟨rfl, h⟩
  | succ checks ih =>
    simp only [Kernel.pickFrom]
    split
    · rename_i x hx
      split
      · exact .inr ⟨turn, x, h, hx, rfl⟩
      · rename_i hready
        exact ih (hnext turn h (by simpa [hx] using hready))
    · rename_i hx
      exact ih (hnext turn h (by simp [hx]))

theorem following_le : following queue turn ≤ queue.length - 1 := by
  unfold following
  split <;> omega

theorem idxOf_erase_of_ne (hpr : p ≠ r) : (queue.erase r).idxOf p =
    if queue.idxOf r < queue.idxOf p then queue.idxOf p - 1 else queue.idxOf p := by
  induction queue with
  | nil => rfl
  | cons x l ih => grind

theorem Ahead.append (h : Ahead queue turn p q) (hturn : turn ≤ queue.length - 1) :
    Ahead (queue ++ [r]) turn p q := by
  obtain ⟨hp, hahead⟩ := h
  refine ⟨mem_append_left _ hp, ?_⟩
  rw [idxOf_append_of_mem hp]
  by_cases hq : q ∈ queue
  · rwa [idxOf_append_of_mem hq]
  · rw [idxOf_append_of_notMem hq]
    rw [idxOf_eq_length hq] at hahead
    omega

theorem Ahead.erase (h : Ahead queue turn p q) (hnodup : queue.Nodup) (hrp : r ≠ p)
    (hr : r ∈ queue) (hturn : turn ≤ queue.idxOf r) :
    Ahead (queue.erase r) (if (queue.erase r).length ≤ turn then 0 else turn) p q := by
  obtain ⟨hp, hahead⟩ := h
  have hmem := (mem_erase_of_ne hrp.symm).2 hp
  have hlt := idxOf_lt_length_of_mem hmem
  refine ⟨hmem, ?_⟩
  rw [idxOf_erase_of_ne hrp.symm, length_erase_of_mem hr] at hlt ⊢
  by_cases hq : q = r
  · subst hq
    rw [idxOf_eq_length hnodup.not_mem_erase, length_erase_of_mem hr]
    split_ifs at hlt ⊢ <;> omega
  · rw [idxOf_erase_of_ne hq]
    have := (idxOf_inj hr).not.2 hrp
    split_ifs at hlt ⊢ <;> omega

theorem idxOf_eq_iff (hnodup : queue.Nodup) (hp : p ∈ queue) :
    queue.idxOf p = turn ↔ queue[turn]? = some p := by
  refine ⟨fun h => h ▸ getElem?_idxOf hp, fun h => ?_⟩
  obtain ⟨hlt, rfl⟩ := List.getElem?_eq_some_iff.mp h
  exact hnodup.idxOf_getElem turn hlt

/-- A turn that is not that of `p` is not that of `q`. -/
theorem Ahead.next (h : Ahead queue turn p q) (hnodup : queue.Nodup) (hp : queue[turn]? ≠ some p) :
    queue[turn]? ≠ some q ∧ Ahead queue (following queue turn) p q := by
  obtain ⟨hmem, hahead⟩ := h
  have hlt := idxOf_lt_length_of_mem hmem
  rw [Ne, ← idxOf_eq_iff hnodup hmem] at hp
  refine ⟨fun hq => ?_, hmem, ?_⟩
  · have := (idxOf_eq_iff hnodup (mem_of_getElem? hq)).2 hq
    omega
  · unfold following
    split <;> omega

/-- After `q` was picked, each other process comes before it. -/
theorem Ahead.of_picked (hnodup : queue.Nodup) (hq : queue[turn]? = some q) (hp : p ∈ queue)
    (hpq : p ≠ q) : Ahead queue (following queue turn) p q := by
  have hlt := idxOf_lt_length_of_mem hp
  have hqi := (idxOf_eq_iff hnodup (mem_of_getElem? hq)).2 hq
  have := (idxOf_inj hp).not.2 hpq
  refine ⟨hp, ?_⟩
  unfold following
  split <;> omega

/-- A call keeps the queue in order and puts all others ahead of the process that it picks; who is
ahead is picked, or stays ahead. -/
theorem InTurn.step (h : InTurn (k.queue 0) (k.turn 0)) (hs : schedule k c = some (k', e)) :
    InTurn (k'.queue 0) (k'.turn 0) ∧
      (q ∈ e → p ∈ k.queue 0 → p ≠ q → Ahead (k'.queue 0) (k'.turn 0) p q) ∧
      (Ahead (k.queue 0) (k.turn 0) p q → Stays p c → Unshifted k c →
        p ∈ e ∨ q ∉ e ∧ Ahead (k'.queue 0) (k'.turn 0) p q) := by
  obtain ⟨hnodup, hturn⟩ := h
  have hzero : ∀ d : Fin 1, d = 0 := fun d => Subsingleton.elim d 0
  cases c with
  | add r =>
    cases hs
    simp only [Kernel.addLocked, hzero k.lightest]
    split_ifs with hqueued hfull
    · exact ⟨⟨hnodup, hturn⟩, by simp, fun h _ _ => .inr ⟨not_mem_nil, h⟩⟩
    · exact ⟨⟨hnodup, hturn⟩, by simp, fun h _ _ => .inr ⟨not_mem_nil, h⟩⟩
    · rw [not_or] at hfull
      simp only [update_self]
      refine ⟨⟨hnodup.append (nodup_singleton r) (by simpa using hfull.1), ?_⟩, by simp,
        fun h _ _ => .inr ⟨not_mem_nil, h.append hturn⟩⟩
      rw [length_append]
      omega
  | remove r =>
    cases hs
    simp only [Kernel.removeLocked, hzero (k.cpuId r)]
    by_cases hr : r ∈ k.queue 0
    · simp only [if_pos hr, update_self]
      refine ⟨⟨hnodup.erase r, ?_⟩, by simp,
        fun h hrp hok => .inr ⟨not_mem_nil, h.erase hnodup hrp hr (hok hr)⟩⟩
      split <;> omega
    · rw [if_neg hr]
      exact ⟨⟨hnodup, hturn⟩, by simp, fun h _ _ => .inr ⟨not_mem_nil, h⟩⟩
  | pick state onCpu =>
    cases hs
    simp only [Kernel.pickNext, update_self]
    obtain ⟨hnone, ht⟩ | ⟨t, x, ht, hx, heq⟩ := pickFrom_rule (k := { k with state, onCpu })
      (I := fun t => t ≤ (k.queue 0).length - 1 ∧ (Ahead (k.queue 0) (k.turn 0) p q →
        state p = .running ∧ onCpu p = false → Ahead (k.queue 0) t p q))
      (fun t ht hpass => ⟨following_le, fun h hready =>
        ((ht.2 h hready).next hnodup fun hp => hpass p hp hready).2⟩)
      (k.queue 0).length ⟨hturn, fun h _ => h⟩
    · rw [hnone]
      exact ⟨⟨hnodup, ht.1⟩, by simp, fun h hready _ => .inr ⟨not_mem_nil, ht.2 h hready⟩⟩
    · rw [heq]
      simp only [Option.toList_some, mem_singleton]
      refine ⟨⟨hnodup, following_le⟩, fun hq hp hpq => .of_picked hnodup (hq ▸ hx) hp hpq,
        fun h hready _ => ?_⟩
      by_cases hxp : p = x
      · exact .inl hxp
      · have hnext := (ht.2 h hready).next hnodup (by simpa [hx] using Ne.symm hxp)
        exact .inr ⟨fun hq => hnext.1 (hq ▸ hx), hnext.2⟩

/-- Between two picks of `q`, a process that waits in the queue all the time is picked, if no process
is removed from before the one whose turn it is. -/
theorem picked_between {start k₁ k₂ k₃ : Kernel 1 m} {first second : SchedCall m}
    {l₀ l : List (Fin m)} (hstart : start.queue 0 = [] ∧ start.turn 0 = 0)
    (hbefore : Histories.Run schedule (fun _ _ => True) start l₀ k) (hp : p ∈ k.queue 0)
    (hpq : p ≠ q) (hfirst : schedule k first = some (k₁, [q]))
    (hrun : Histories.Run schedule (fun k c => Stays p c ∧ Unshifted k c) k₁ l k₂)
    (hstays : Stays p second) (hsecond : schedule k₂ second = some (k₃, [q])) : p ∈ l := by
  have hk : InTurn (k.queue 0) (k.turn 0) :=
    hbefore.invariant (I := fun _ k => InTurn (k.queue 0) (k.turn 0)) (by simp [hstart, InTurn])
      fun _ _ _ _ _ h _ hs => (h.step (p := p) (q := q) hs).1
  have hk₂ : p ∈ l ∨ InTurn (k₂.queue 0) (k₂.turn 0) ∧ Ahead (k₂.queue 0) (k₂.turn 0) p q := by
    refine hrun.invariant (I := fun l k => p ∈ l ∨ InTurn (k.queue 0) (k.turn 0) ∧
      Ahead (k.queue 0) (k.turn 0) p q) ?_ ?_
    · obtain ⟨hin, hpicked, -⟩ := hk.step hfirst
      exact .inr ⟨hin, hpicked (mem_singleton_self q) hp hpq⟩
    · rintro l u a v e (hl | ⟨hin, h⟩) ⟨hstays, hok⟩ hs
      · exact .inl (mem_append_left e hl)
      · obtain ⟨hin, -, hstep⟩ := hin.step hs
        exact (hstep h hstays hok).imp (mem_append_right l) fun h => ⟨hin, h.2⟩
  refine hk₂.resolve_right fun ⟨hin, h⟩ => ?_
  have hok : Unshifted k₂ second := by
    cases second with
    | remove r => cases hsecond
    | _ => trivial
  obtain hpe | ⟨hqe, -⟩ := (hin.step hsecond).2.2 h hstays hok
  · exact hpq (mem_singleton.mp hpe)
  · exact hqe (mem_singleton_self q)

/-- A machine with four processes that are ready. -/
def resting : Kernel 1 4 where
  used _ := true
  pid p := p + 1
  ppid _ := 0
  state _ := .running
  exitCode _ := 0
  cpuId _ := 0
  onCpu _ := false
  queued _ := false
  pending _ := 0
  masked _ := 0
  queue _ := []
  turn _ := 0
  current _ := none
  switchedFrom _ := none
  runsOn _ := .inl 0

/-- A pick that finds all processes ready but those stopped. -/
def pickBut (stopped : List (Fin 4)) : SchedCall 4 :=
  .pick (fun p => if p ∈ stopped then .stopped else .running) fun _ => false

def lined : Kernel 1 4 := [0, 1, 2, 3].foldl Kernel.addLocked resting

theorem lined_run : Histories.Run schedule (fun _ _ => True) resting [] lined :=
  .of_exec (fun _ _ => true) (fun _ _ _ => trivial) [.add 0, .add 1, .add 2, .add 3] rfl

theorem picked_between_ready : ∃ l k₁ k₂, schedule lined (pickBut [0]) = some (k₁, [1]) ∧
    Histories.Run schedule (fun k c => Stays 2 c ∧ Unshifted k c) k₁ l k₂ ∧ 2 ∈ l := by
  obtain ⟨l, k₁, k₂, k₃, hfirst, hrun, hsecond⟩ : ∃ l k₁ k₂ k₃,
      schedule lined (pickBut [0]) = some (k₁, [1]) ∧
      Histories.Run schedule (fun k c => Stays 2 c ∧ Unshifted k c) k₁ l k₂ ∧
      schedule k₂ (pickBut [0, 3]) = some (k₃, [1]) :=
    ⟨_, _, _, _, rfl, .step (a := pickBut []) .start ⟨⟨rfl, rfl⟩, trivial⟩ rfl, rfl⟩
  exact ⟨l, k₁, k₂, hfirst, hrun, picked_between ⟨rfl, rfl⟩ lined_run (by decide) (by decide) hfirst
    hrun (show Stays 2 (pickBut [0, 3]) from ⟨rfl, rfl⟩) hsecond⟩

/-- A process before the turn is removed, and the one whose turn it is loses it. -/
theorem passed_over : ∃ l k₁ k₂ k₃, 2 ∈ lined.queue 0 ∧
    schedule lined (pickBut [0]) = some (k₁, [1]) ∧
    Histories.Run schedule (fun _ c => Stays 2 c) k₁ l k₂ ∧ Stays 2 (pickBut []) ∧
    schedule k₂ (pickBut []) = some (k₃, [1]) ∧ 2 ∉ l :=
  ⟨_, _, _, _, by decide, rfl,
    .step (a := pickBut []) (.step (a := .remove 0) .start (show (0 : Fin 4) ≠ 2 by decide) rfl)
      ⟨rfl, rfl⟩ rfl, ⟨rfl, rfl⟩, rfl, by decide⟩

end Fairness

end Tach.Dispatch
