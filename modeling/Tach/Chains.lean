import Mathlib

/-!
Chains in a successor map. Every node has a link: it is the last of its chain, it points to
another node, or its link makes no sense. A chain that ends is determined by its first node
and never repeats one. Chains may be extended at the end, and a change of the map away from a
chain leaves it alone.
-/

namespace Tach.Chains

open List

inductive Link (α : Type*)
  | last
  | to (b : α)
  | broken

variable {α : Type*}

inductive Chain (step : α → Link α) : α → List α → Prop
  | last {a : α} (h : step a = .last) : Chain step a [a]
  | cons {a b : α} {l : List α} (h : step a = .to b) (hl : Chain step b l) :
      Chain step a (a :: l)

namespace Chain

variable {step step' : α → Link α} {a b c : α} {l l' : List α}

theorem exists_cons (h : Chain step a l) : ∃ t, l = a :: t := by
  cases h with
  | last _ => exact ⟨[], rfl⟩
  | cons _ _ => exact ⟨_, rfl⟩

theorem ne_nil (h : Chain step a l) : l ≠ [] := by
  obtain ⟨t, rfl⟩ := h.exists_cons
  simp

theorem head_mem (h : Chain step a l) : a ∈ l := by
  obtain ⟨t, rfl⟩ := h.exists_cons
  simp

theorem unique (h : Chain step a l) (h' : Chain step a l') : l = l' := by
  induction h generalizing l' with
  | last hs =>
    cases h' with
    | last _ => rfl
    | cons hs' _ => rw [hs] at hs'; cases hs'
  | cons hs _ ih =>
    cases h' with
    | last hs' => rw [hs] at hs'; cases hs'
    | cons hs' hl' =>
      rw [hs] at hs'
      cases hs'
      rw [ih hl']

theorem tail_chain {x : α} (h : Chain step a (x :: l)) (hl : l ≠ []) :
    ∃ b, step a = .to b ∧ Chain step b l := by
  cases h with
  | last _ => exact absurd rfl hl
  | cons hs hl' => exact ⟨_, hs, hl'⟩

theorem suffix {l₁ l₂ : List α} (h : Chain step a (l₁ ++ b :: l₂)) : Chain step b (b :: l₂) := by
  induction l₁ generalizing a with
  | nil =>
    obtain ⟨t, ht⟩ := h.exists_cons
    simp only [nil_append, List.cons.injEq] at ht
    rw [← ht.1] at h
    exact h
  | cons x xs ih =>
    obtain ⟨y, _, hl⟩ := h.tail_chain (by simp)
    exact ih hl

variable (h : Chain step a l)
include h

theorem of_mem (hc : c ∈ l) : ∃ l₁ l₂, l = l₁ ++ c :: l₂ ∧ Chain step c (c :: l₂) := by
  obtain ⟨l₁, l₂, rfl⟩ := append_of_mem hc
  exact ⟨l₁, l₂, rfl, h.suffix⟩

/-- A chain that ends visits no node twice: from a repeated node on it would have two lengths. -/
theorem nodup : l.Nodup := by
  induction h with
  | last _ => simp
  | @cons a b l hs hl ih =>
    refine nodup_cons.mpr ⟨?_, ih⟩
    intro hmem
    obtain ⟨l₁, l₂, rfl, hsuf⟩ := hl.of_mem hmem
    have heq := hsuf.unique (Chain.cons hs hl)
    have hlen := congrArg List.length heq
    simp only [length_cons, length_append] at hlen
    omega

theorem step_ne_broken (hc : c ∈ l) : step c ≠ .broken := by
  obtain ⟨_, _, _, hsuf⟩ := h.of_mem hc
  cases hsuf with
  | last hs => rw [hs]; simp
  | cons hs _ => rw [hs]; simp

theorem congr (hstep : ∀ x ∈ l, step' x = step x) : Chain step' a l := by
  induction h with
  | last hs => exact .last (by rw [hstep _ (by simp), hs])
  | cons hs _ ih =>
    exact .cons (by rw [hstep _ (by simp), hs]) (ih fun x hx => hstep x (by simp [hx]))

/-- The link of the node at a position that is not the last one. -/
theorem step_at {i : ℕ} (hi : l[i]? = some b) (hc : l[i + 1]? = some c) : step b = .to c := by
  induction h generalizing i with
  | last _ => simp at hc
  | cons hs hl ih =>
    cases i with
    | zero =>
      obtain ⟨t, rfl⟩ := hl.exists_cons
      simp only [List.getElem?_cons_zero, Option.some.injEq, List.getElem?_cons_succ] at hi hc
      rw [← hi, ← hc]
      exact hs
    | succ i =>
      exact ih hi hc

theorem step_last {i : ℕ} (hi : l[i]? = some b) (hlen : l.length = i + 1) : step b = .last := by
  induction h generalizing i with
  | last hs =>
    simp only [length_cons, length_nil] at hlen
    obtain rfl : i = 0 := by omega
    simp only [List.getElem?_cons_zero, Option.some.injEq] at hi
    rw [← hi, hs]
  | cons hs hl ih =>
    simp only [length_cons] at hlen
    obtain ⟨j, rfl⟩ : ∃ j, i = j + 1 := ⟨i - 1, by have := length_pos_iff.mpr hl.ne_nil; omega⟩
    exact ih hi (by omega)

/-- Linking a new last node behind the old one. -/
theorem snoc {p : α} (hp : l.getLast? = some p) (hlink : step' p = .to c)
    (hlast : step' c = .last) (hsame : ∀ x ∈ l, x ≠ p → step' x = step x) :
    Chain step' a (l ++ [c]) := by
  induction h with
  | last _ =>
    simp only [List.getLast?_singleton, Option.some.injEq] at hp
    exact .cons (hp ▸ hlink) (.last hlast)
  | @cons a b l hs hl ih =>
    have hp' : l.getLast? = some p := by
      obtain ⟨t, rfl⟩ := hl.exists_cons
      simpa only [List.getLast?_cons_cons] using hp
    have hne : a ≠ p := by
      rintro rfl
      have hnd := (Chain.cons hs hl).nodup
      exact (nodup_cons.mp hnd).1 (mem_of_getLast? hp')
    refine .cons ?_ (ih hp' fun x hx => hsame x (by simp [hx]))
    rw [hsame a (by simp) hne, hs]

end Chain

end Tach.Chains
