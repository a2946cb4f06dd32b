import Mathlib

/-!
Runs of a machine that record what happens. A step leads from a state to another and records a few
events; a run has the events of its steps in order, its history. A side condition restricts the
steps that are looked at.
-/

namespace Tach.Histories

open List

variable {σ α ε : Type*}

abbrev Machine (σ α ε : Type*) := σ → α → Option (σ × List ε)

variable (next : Machine σ α ε) (ok : σ → α → Prop)

/-- The states reached from `s` by steps that meet `ok`, with the history. -/
inductive Run (s : σ) : List ε → σ → Prop
  | start : Run s [] s
  | step {l e : List ε} {u v : σ} {a : α} (h : Run s l u) (hok : ok u a)
      (hnext : next u a = some (v, e)) : Run s (l ++ e) v

/-- The steps one after the other, as long as they pass `test`. -/
def exec (test : σ → α → Bool) (s : σ) : List α → Option (σ × List ε)
  | [] => some (s, [])
  | a :: rest =>
    if test s a then
      (next s a).bind fun r => (exec test r.1 rest).map fun q => (q.1, r.2 ++ q.2)
    else none

/-- An event that is not among the last ones is among the others. -/
theorem split_left {l e l₁ l₂ : List ε} {x : ε} (h : l ++ e = l₁ ++ x :: l₂) (hx : x ∉ e) :
    ∃ l', l = l₁ ++ x :: l' ∧ l₂ = l' ++ e := by
  rcases append_eq_append_iff.mp h with ⟨l', rfl, he⟩ | ⟨l', rfl, he⟩
  · exact absurd (by rw [he]; exact mem_append_right _ mem_cons_self) hx
  · cases l' with
    | nil => exact absurd (by rw [← nil_append e, ← he]; exact mem_cons_self) hx
    | cons y l' =>
      cases he
      exact ⟨l', rfl, rfl⟩

/-- The last event, or one before. -/
theorem split_concat {l l₁ l₂ : List ε} {x y : ε} (h : l ++ [y] = l₁ ++ x :: l₂) :
    l₁ = l ∧ x = y ∧ l₂ = [] ∨ ∃ l', l = l₁ ++ x :: l' ∧ l₂ = l' ++ [y] := by
  rcases append_eq_append_iff.mp h with ⟨l', rfl, he⟩ | ⟨l', rfl, he⟩
  · cases l' with
    | nil =>
      cases he
      exact .inl ⟨append_nil _, rfl, rfl⟩
    | cons z l' => simp at he
  · cases l' with
    | nil =>
      cases he
      exact .inl ⟨(append_nil _).symm, rfl, rfl⟩
    | cons z l' =>
      cases he
      exact .inr ⟨l', rfl, rfl⟩

namespace Run

variable {next ok} {s t u : σ} {l l' : List ε}

theorem trans (h : Run next ok s l t) (h' : Run next ok t l' u) : Run next ok s (l ++ l') u := by
  induction h' with
  | start => rwa [append_nil]
  | step _ hok hnext ih =>
    rw [← append_assoc]
    exact ih.step hok hnext

/-- What every step within the condition keeps, of the history and the state, holds in every run. -/
theorem invariant {I : List ε → σ → Prop} (h : Run next ok s l t) (hs : I [] s)
    (hstep : ∀ l u a v e, I l u → ok u a → next u a = some (v, e) → I (l ++ e) v) : I l t := by
  induction h with
  | start => exact hs
  | step _ hok hnext ih => exact hstep _ _ _ _ _ ih hok hnext

/-- A list of steps that can be carried out is a run. -/
theorem of_exec (test : σ → α → Bool) (htest : ∀ u a, test u a = true → ok u a) (steps : List α)
    (h : exec next test s steps = some (t, l)) : Run next ok s l t := by
  induction steps generalizing s l with
  | nil =>
    cases h
    exact .start
  | cons a rest ih =>
    simp only [exec] at h
    split_ifs at h with hpass
    obtain ⟨⟨u, e⟩, hnext, hrest⟩ := Option.bind_eq_some_iff.mp h
    obtain ⟨⟨v, l'⟩, hexec, heq⟩ := Option.map_eq_some_iff.mp hrest
    cases heq
    exact (Run.start.step (htest _ _ hpass) hnext).trans (ih hexec)

end Run

end Tach.Histories
