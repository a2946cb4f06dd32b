import Mathlib

/-!
Threads over a shared state. A program says what one thread does next: from the shared state,
its own state and a choice (which call to start, what the environment answers) it gives both
states afterwards, or nothing when the thread cannot move that way. One step is one atomic
action; a run is any interleaving of the steps of the threads.

A side condition restricts the runs that are looked at. An invariant that every step within
the condition keeps holds in every state such a run reaches.
-/

namespace Tach.Interleaving

open Function Finset

variable {ι σ τ α : Type*}

structure World (ι σ τ : Type*) where
  shared : σ
  thread : ι → τ

abbrev Program (α σ τ : Type*) := α → σ → τ → Option (σ × τ)

variable [DecidableEq ι] (p : Program α σ τ)

/-- The world after thread `i` moved to `t`, leaving `s`. -/
def World.put (w : World ι σ τ) (s : σ) (i : ι) (t : τ) : World ι σ τ :=
  ⟨s, Function.update w.thread i t⟩

/-- Thread `i` takes a step with choice `a`. -/
def World.step (w : World ι σ τ) (i : ι) (a : α) : Option (World ι σ τ) :=
  (p a w.shared (w.thread i)).map fun r => w.put r.1 i r.2

/-- A schedule: who moves, and how. It is carried out as long as its steps pass `test`. -/
def World.run (test : World ι σ τ → ι → α → Bool) (w : World ι σ τ) :
    List (ι × α) → Option (World ι σ τ)
  | [] => some w
  | (i, a) :: rest => if test w i a then (w.step p i a).bind fun u => u.run test rest else none

/-- The worlds reached from `w` by steps that meet `ok`. -/
inductive Runs (ok : World ι σ τ → ι → α → Prop) (w : World ι σ τ) : World ι σ τ → Prop
  | start : Runs ok w w
  | step {u v : World ι σ τ} {i : ι} {a : α} (h : Runs ok w u) (hok : ok u i a)
      (hs : u.step p i a = some v) : Runs ok w v

variable {p} {w u v : World ι σ τ}

@[simp] theorem World.put_shared (s : σ) (i : ι) (t : τ) : (w.put s i t).shared = s := rfl

@[simp] theorem World.put_self (s : σ) (i : ι) (t : τ) : (w.put s i t).thread i = t := by
  simp [World.put]

theorem World.put_other {i j : ι} (h : j ≠ i) (s : σ) (t : τ) :
    (w.put s i t).thread j = w.thread j := by
  simp [World.put, h]

/-- The thread that moved, and the others. -/
theorem World.put_cases (w : World ι σ τ) (s : σ) (i : ι) (t : τ) (j : ι) :
    j = i ∧ (w.put s i t).thread j = t ∨ j ≠ i ∧ (w.put s i t).thread j = w.thread j := by
  by_cases hj : j = i
  · subst hj
    exact .inl ⟨rfl, World.put_self s j t⟩
  · exact .inr ⟨hj, World.put_other hj s t⟩

/-- At most one thread has a property, when the one that moved has it only if no other has. -/
theorem World.put_unique {P : τ → Prop} {s : σ} {i : ι} {t : τ}
    (hold : ∀ j k, P (w.thread j) → P (w.thread k) → j = k)
    (hnew : P t → ∀ j, j ≠ i → ¬P (w.thread j)) (j k : ι) (hj : P ((w.put s i t).thread j))
    (hk : P ((w.put s i t).thread k)) : j = k := by
  rcases w.put_cases s i t j with ⟨hji, heq⟩ | ⟨hji, heq⟩ <;> rw [heq] at hj <;>
    rcases w.put_cases s i t k with ⟨hki, heq'⟩ | ⟨hki, heq'⟩ <;> rw [heq'] at hk
  · exact hji.trans hki.symm
  · exact absurd hk (hnew hj k hki)
  · exact absurd hj (hnew hk j hji)
  · exact hold j k hj hk

theorem World.step_cases {i : ι} {a : α} (h : w.step p i a = some v) :
    ∃ s t, p a w.shared (w.thread i) = some (s, t) ∧ v = w.put s i t := by
  obtain ⟨r, hr, hv⟩ := Option.map_eq_some_iff.mp h
  exact ⟨r.1, r.2, hr, hv.symm⟩

/-- A count over a family of which one member changes. -/
theorem sum_update [Fintype ι] (f : τ → ℕ) (g : ι → τ) (i : ι) (t : τ) :
    (∑ j, f (update g i t j)) + f (g i) = (∑ j, f (g j)) + f t := by
  have hupdate : ∀ j, f (update g i t j) = update (fun j => f (g j)) i (f t) j := by
    intro j
    by_cases hj : j = i
    · rw [hj, update_self, update_self]
    · rw [update_of_ne hj, update_of_ne hj]
  have hsplit := add_sum_erase univ (fun j => f (g j)) (mem_univ i)
  rw [sum_congr rfl fun j _ => hupdate j, sum_update_of_mem (mem_univ i),
    ← hsplit, sdiff_singleton_eq_erase]
  omega

/-- A count over all threads after one of them moved. -/
theorem World.sum_put [Fintype ι] (f : τ → ℕ) (s : σ) (i : ι) (t : τ) :
    (∑ j, f ((w.put s i t).thread j)) + f (w.thread i) = (∑ j, f (w.thread j)) + f t :=
  sum_update f w.thread i t

namespace Runs

variable {ok ok' : World ι σ τ → ι → α → Prop}

theorem mono (h : Runs p ok w u) (hok : ∀ u i a, ok u i a → ok' u i a) : Runs p ok' w u := by
  induction h with
  | start => exact .start
  | step _ ho hs ih => exact .step ih (hok _ _ _ ho) hs

/-- What every step within the condition keeps holds in every world reached. -/
theorem invariant {I : World ι σ τ → Prop} (h : Runs p ok w u) (hw : I w)
    (hstep : ∀ u i a v, I u → ok u i a → u.step p i a = some v → I v) : I u := by
  induction h with
  | start => exact hw
  | step _ ho hs ih => exact hstep _ _ _ _ ih ho hs

theorem trans (h : Runs p ok w u) (h' : Runs p ok u v) : Runs p ok w v := by
  induction h' with
  | start => exact h
  | step _ ho hs ih => exact .step ih ho hs

/-- A schedule that can be carried out is a run. -/
theorem of_run {test : World ι σ τ → ι → α → Bool} {l : List (ι × α)}
    (htest : ∀ u i a, test u i a = true → ok u i a) (h : w.run p test l = some u) :
    Runs p ok w u := by
  induction l generalizing w with
  | nil =>
    cases h
    exact .start
  | cons x rest ih =>
    simp only [World.run] at h
    split_ifs at h with hpass
    obtain ⟨v, hv, hrest⟩ := Option.bind_eq_some_iff.mp h
    exact (Runs.start.step (htest _ _ _ hpass) hv).trans (ih hrest)

end Runs

end Tach.Interleaving
