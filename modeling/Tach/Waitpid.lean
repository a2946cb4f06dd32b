import Tach.Dispatch

/-!
`process_waitpid` beside the other CPUs. It destroys a child as soon as it reads `ZOMBIE` in its
state, and it blocks the caller after a look at the children that nothing holds still. Both go wrong
when another CPU is in the way: the child may still run there, or may have reported its death to
a parent that was not blocked yet. `sem_acquire` marks the caller as blocked before it lets go of
its lock for the second of these reasons.
-/

namespace Tach.Dispatch

open Function List Kernel

variable {n m : ℕ}

section Rest

/-- The operation puts process `p` on a CPU, or gives it a state that is not `ZOMBIE`. -/
def Op.Enters (p : Fin m) (op : Op n m) : Prop :=
  op = .setCurrent (some p) ∨ op = .wakeStore p ∨ op = .contStore p ∨ op = .stopStore p

instance (p : Fin m) (op : Op n m) : Decidable (op.Enters p) :=
  inferInstanceAs (Decidable (_ ∨ _ ∨ _ ∨ _))

/-- No CPU runs process `p`, and none is about to switch to it or to change its state. -/
def AtRest (s : State n m) (p : Fin m) : Prop :=
  s.kernel.onCpu p = false ∧ (∀ c, s.kernel.current c ≠ some p) ∧
    ∀ i, ∀ task ∈ s.code i, ¬task.op.Enters p

instance (s : State n m) (p : Fin m) : Decidable (AtRest s p) :=
  inferInstanceAs (Decidable (_ ∧ _ ∧ ∀ _, _))

def Kernel.Dead (k : Kernel n m) (p : Fin m) : Prop := k.state p = .zombie ∨ k.state p = .unused

/-- The child for which the operation calls `process_destroy`. -/
def Op.reaps (k : Kernel n m) : Op n m → Option (Fin m)
  | .look q target _ i _ =>
    (k.processAt i).filter fun p => k.Awaited q target p ∧ k.state p = .zombie
  | _ => none

variable {k : Kernel n m} {c : Fin n} {op : Op n m} {p : Fin m}

/-- The process that `scheduler_pick_next` gives is in the state `RUNNING`. -/
theorem Kernel.pickFrom_running {queue : List (Fin m)} {checks turn : ℕ}
    (h : (k.pickFrom queue checks turn).1 = some p) : k.state p = .running := by
  induction checks generalizing turn with
  | zero => cases h
  | succ checks ih =>
    simp only [pickFrom] at h
    split at h
    · split at h
      · rename_i hrunning
        cases h
        exact hrunning.1
      · exact ih h
    · exact ih h

variable [NeZero n]

theorem exec_destroy (h : .destroy p ∈ (exec c k op).2) : p ∈ op.reaps k ∧ k.state p = .zombie := by
  cases op with
  | look q target nohang i found =>
    simp only [exec] at h
    split at h
    · simp at h
    · rename_i r hr
      split at h
      · rename_i hawaited
        split at h
        · rename_i hzombie
          cases mem_singleton.mp h
          refine ⟨?_, hzombie⟩
          simp [Op.reaps, hr, hawaited, hzombie]
        · simp at h
      · simp at h
  | _ =>
    simp only [exec, switchOps] at h
    (repeat' split at h) <;> simp at h

theorem exec_dead (hp : k.Dead p) (hop : ¬op.Enters p) (hcurrent : ∀ c, k.current c ≠ some p) :
    (exec c k op).1.Dead p := by
  rcases exec_state (rfl : (exec c k op).1.state p = _) with
    h | ⟨h | h, -⟩ | ⟨h, -⟩ | ⟨-, h⟩ | ⟨h, -⟩ | ⟨-, h⟩
  · rwa [Kernel.Dead, ← h]
  · exact absurd (.inr (.inl h)) hop
  · exact absurd (.inr (.inr (.inl h))) hop
  · exact absurd (.inr (.inr (.inr h))) hop
  · exact .inl h
  · exact absurd h.2 (hcurrent c)
  · exact .inr h

theorem exec_onCpu (hp : k.onCpu p = false) (hop : ¬op.Enters p) :
    (exec c k op).1.onCpu p = false := by
  cases op with
  | setCurrent new =>
    cases new with
    | none => exact hp
    | some q =>
      have hq : p ≠ q := by
        rintro rfl
        exact hop (.inl rfl)
      simpa [exec, setCurrent, update_of_ne hq] using hp
  | finishDrop q =>
    by_cases hq : p = q
    · simp [exec, hq]
    · simpa [exec, update_of_ne hq] using hp
  | erase q =>
    by_cases hq : p = q
    · simp [exec, erase, hq]
    · simpa [exec, erase, update_of_ne hq] using hp
  | addLocked q => simpa [exec] using hp
  | removeLocked q d => simpa [exec] using hp
  | block q target nohang =>
    simp only [exec]
    split <;> exact hp
  | _ => exact hp

theorem exec_current (hp : ∀ d, k.current d ≠ some p) (hop : ¬op.Enters p) (d : Fin n) :
    (exec c k op).1.current d ≠ some p := by
  cases op with
  | setCurrent new =>
    have hnew : new ≠ some p := by
      rintro rfl
      exact hop (.inl rfl)
    rw [exec, setCurrent_current]
    by_cases hd : d = c
    · rwa [hd, update_self]
    · rw [update_of_ne hd]
      exact hp d
  | erase q =>
    simp only [exec, erase]
    split
    · simp
    · exact hp d
  | addLocked q => simpa [exec] using hp d
  | removeLocked q e => simpa [exec] using hp d
  | block q target nohang =>
    simp only [exec]
    split <;> exact hp d
  | _ => exact hp d

theorem exec_enters (hp : k.Dead p) {new : Op n m} (hnew : new ∈ (exec c k op).2) :
    ¬new.Enters p := by
  have hstate : ∀ state, state ≠ .zombie → state ≠ .unused → k.state p ≠ state := by
    rintro state hz hu rfl
    exact hp.elim hz hu
  intro henters
  cases op with
  | wakeTest q =>
    simp only [exec] at hnew
    split at hnew
    · rename_i hq
      cases mem_singleton.mp hnew
      rcases henters with h | h | h | h <;> cases h
      exact hstate _ (by decide) (by decide) hq
    · cases hnew
  | contTest q signal =>
    simp only [exec] at hnew
    split at hnew
    · rename_i hq
      cases mem_singleton.mp hnew
      rcases henters with h | h | h | h <;> cases h
      exact hstate _ (by decide) (by decide) hq.2
    · cases hnew
  | pick old =>
    simp only [exec] at hnew
    split at hnew
    · cases old <;> simp at hnew
      subst hnew
      rcases henters with h | h | h | h <;> cases h
    · rename_i q hq
      have hrunning : k.state q = .running := pickFrom_running hq
      split at hnew
      · cases hnew
      · simp only [switchOps, mem_cons, not_mem_nil, or_false] at hnew
        rcases hnew with rfl | rfl | rfl | rfl <;> rcases henters with h | h | h | h <;> cases h
        exact hstate _ (by decide) (by decide) hrunning
  | _ =>
    simp only [exec, switchOps] at hnew
    (repeat' split at hnew) <;> simp at hnew <;> rcases henters with h | h | h | h <;>
      simp_all

end Rest

section Destroy

variable {s t : State n m} {l : List (Fin n × Op n m)} {a : Action n m} {p : Fin m}

/-- What is to be destroyed is dead and at rest. -/
def Buried (s : State n m) : Prop :=
  ∀ i, ∀ task ∈ s.code i, ∀ p, task.op = .destroy p → s.kernel.Dead p ∧ AtRest s p

theorem Quiet.buried (h : Quiet s) : Buried s := by
  intro i x hx p hp
  rcases h i with hi | hi
  · rw [hi] at hx
    cases hx
  · rw [hi] at hx
    cases mem_singleton.mp hx
    cases hp

variable [NeZero n]

/-- A dead process that is at rest stays so. -/
theorem Change.rest (h : Change s a t) (hdead : s.kernel.Dead p) (hrest : AtRest s p) :
    t.kernel.Dead p ∧ AtRest t p := by
  obtain ⟨honCpu, hcurrent, hcode⟩ := hrest
  cases h with
  | go hhead =>
    rename_i c task rest
    have hop : ¬task.op.Enters p := hcode _ task (by rw [hhead]; exact mem_cons_self)
    refine ⟨exec_dead hdead hop hcurrent, exec_onCpu honCpu hop, exec_current hcurrent hop, ?_⟩
    intro i x hx
    rcases State.mem_done hhead hx with hx | ⟨-, new, hnew, rfl⟩
    · exact hcode i x hx
    · exact exec_enters hdead hnew
  | call hnil =>
    rename_i c what
    have hcaller : s.kernel.caller c ≠ some p := by
      intro h
      exact hcurrent c (Option.filter_eq_some_iff.mp h).1
    obtain ⟨pending, hkernel⟩ := begin_kernel s.kernel (s.kernel.caller c) what
    have hcall : (s.begun c what).kernel = { s.kernel with pending } := hkernel
    rw [AtRest, hcall]
    refine ⟨hdead, honCpu, hcurrent, ?_⟩
    intro i x hx
    rcases State.mem_begun hx with hx | ⟨-, new, hbegins, rfl⟩
    · exact hcode i x hx
    · -- only a process on a CPU delivers its own signals
      cases hbegins with
      | stop hq =>
        intro h
        rcases h with h | h | h | h <;> cases h
        exact hcaller hq
      | _ =>
        intro h
        rcases h with h | h | h | h <;> cases h

/-- The child that `process_waitpid` is about to destroy is at rest. -/
def Rested (s : State n m) (_ : Fin n) (op : Op n m) : Prop := ∀ p ∈ op.reaps s.kernel, AtRest s p

instance (s : State n m) (c : Fin n) (op : Op n m) : Decidable (Rested s c op) :=
  inferInstanceAs (Decidable (∀ p ∈ _, _))

theorem Buried.change (h : Buried s) (hok : Doing Rested s a) (hchange : Change s a t) :
    Buried t := by
  intro i x hx p hp
  suffices hpre : s.kernel.Dead p ∧ AtRest s p from hchange.rest hpre.1 hpre.2
  cases hchange with
  | go hhead =>
    rename_i c task rest
    rcases State.mem_done hhead hx with hx | ⟨-, new, hnew, rfl⟩
    · exact h i x hx p hp
    · cases hp
      obtain ⟨hreaps, hzombie⟩ := exec_destroy hnew
      exact ⟨.inl hzombie, hok task (by rw [hhead]; rfl) p hreaps⟩
  | call hnil =>
    rcases State.mem_begun hx with hx | ⟨-, new, hbegins, rfl⟩
    · exact h i x hx p hp
    · cases hp
      cases hbegins

end Destroy

end Tach.Dispatch
