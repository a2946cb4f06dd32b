import Mathlib

/-!
Arrays of records with a key, as small tables are kept in C: a lookup returns the first record
with the key, a change writes this record in place, and a removal moves the last record into its
place. Up to the order of the records each of them concerns one record, so properties of the
table that do not depend on the order follow.
-/

namespace Tach.KeyedLists

open List

variable {α κ : Type*} [DecidableEq κ] (key : α → κ)

def find (l : List α) (k : κ) : Option α := l.find? fun a => decide (key a = k)

def position (l : List α) (k : κ) : Option ℕ := l.findIdx? fun a => decide (key a = k)

def update (l : List α) (k : κ) (f : α → α) : List α :=
  match position key l k with
  | none => l
  | some i => l.modify i f

def remove (l : List α) (k : κ) : List α :=
  match position key l k, l.getLast? with
  | some i, some a => (l.set i a).dropLast
  | _, _ => l

variable {key} {l r : List α} {a : α} {k : κ}

theorem find_eq_none : find key l k = none ↔ ∀ a ∈ l, key a ≠ k := by
  simp [find]

theorem mem_of_find (h : find key l k = some a) : a ∈ l ∧ key a = k := by
  refine ⟨mem_of_find?_eq_some h, ?_⟩
  have hkey := List.find?_some h
  simpa using hkey

theorem find_eq_some (hn : (l.map key).Nodup) : find key l k = some a ↔ a ∈ l ∧ key a = k := by
  refine ⟨mem_of_find, fun h => ?_⟩
  cases hf : find key l k with
  | none => exact absurd h.2 (find_eq_none.mp hf a h.1)
  | some b =>
    obtain ⟨hb, hkb⟩ := mem_of_find hf
    exact congrArg some (inj_on_of_nodup_map hn hb h.1 (hkb.trans h.2.symm))

theorem find_cons : find key (a :: l) k = if key a = k then some a else find key l k := by
  by_cases h : key a = k
  · simp [find, h]
  · simp [find, h]

/-- Where keys are unique, a lookup does not depend on the order. -/
theorem find_perm (hn : (l.map key).Nodup) (h : l ~ r) : find key l k = find key r k := by
  have hn' : (r.map key).Nodup := (h.map key).nodup_iff.mp hn
  cases hf : find key r k with
  | none =>
    rw [find_eq_none] at hf ⊢
    exact fun a ha => hf a (h.mem_iff.mp ha)
  | some a =>
    rw [find_eq_some hn'] at hf
    rw [find_eq_some hn, h.mem_iff]
    exact hf

/-- A lookup after a record with the key `k` took the place of another, or one of them is missing. -/
theorem find_replaced {new : Option α} {l' : List α} {j : κ} (hn : (l.map key).Nodup)
    (hn' : (l'.map key).Nodup) (hnew : ∀ a ∈ new, key a = k) (h : l ~ (find key l k).toList ++ r)
    (h' : l' ~ new.toList ++ r) : find key l' j = if j = k then new else find key l j := by
  have hcut : ∀ o : Option α, (∀ a ∈ o, key a = k) →
      find key (o.toList ++ r) j = (if j = k then o else none).or (find key r j) := by
    intro o ho
    cases o with
    | none => simp
    | some a =>
      rw [Option.toList_some, singleton_append, find_cons, ho a rfl]
      by_cases hj : j = k
      · simp [hj]
      · simp [hj, Ne.symm hj]
  rw [find_perm hn' h', hcut new hnew]
  by_cases hj : j = k
  · have hrest : find key r k = none := by
      refine find_eq_none.mpr fun a ha hk => ?_
      have hnodup := (h.map key).nodup_iff.mp hn
      cases hf : find key l k with
      | none => exact find_eq_none.mp hf a (h.mem_iff.mpr (mem_append_right _ ha)) hk
      | some b =>
        rw [hf, Option.toList_some, singleton_append, map_cons, nodup_cons, (mem_of_find hf).2] at hnodup
        exact hnodup.1 (mem_map.mpr ⟨a, ha, hk⟩)
    rw [if_pos hj, if_pos hj, hj, hrest, Option.or_none]
  · rw [if_neg hj, if_neg hj, find_perm hn h, hcut _ fun a ha => (mem_of_find ha).2, if_neg hj]

/-- The first record with the key, with what is before and behind it. -/
theorem split_of_find (h : find key l k = some a) :
    ∃ l₁ l₂, l = l₁ ++ a :: l₂ ∧ position key l k = some l₁.length := by
  obtain ⟨ha, l₁, l₂, hl, hbefore⟩ := List.find?_eq_some_iff_append.mp h
  refine ⟨l₁, l₂, hl, ?_⟩
  have hnone : l₁.findIdx? (fun a => decide (key a = k)) = none := by
    rw [List.findIdx?_eq_none_iff]
    intro b hb
    simpa using hbefore b hb
  rw [position, hl, List.findIdx?_append, hnone, List.findIdx?_cons, if_pos ha]
  simp

theorem modify_perm {i : ℕ} (h : l[i]? = some a) (f : α → α) :
    ∃ r, l ~ a :: r ∧ l.modify i f ~ f a :: r := by
  induction l generalizing i with
  | nil => cases h
  | cons b l ih =>
    cases i with
    | zero =>
      cases h
      exact ⟨l, Perm.refl _, Perm.refl _⟩
    | succ i =>
      obtain ⟨r, hl, hm⟩ := ih h
      refine ⟨b :: r, ?_, ?_⟩
      · exact (hl.cons b).trans (Perm.swap a b r)
      · exact (hm.cons b).trans (Perm.swap (f a) b r)

theorem update_perm (h : find key l k = some a) (f : α → α) :
    ∃ r, l ~ a :: r ∧ update key l k f ~ f a :: r := by
  obtain ⟨l₁, l₂, hl, hpos⟩ := split_of_find h
  rw [update, hpos]
  exact modify_perm (by rw [hl]; simp) f

theorem remove_perm (h : find key l k = some a) : l ~ a :: remove key l k := by
  obtain ⟨l₁, l₂, hl, hpos⟩ := split_of_find h
  rw [remove, hpos]
  rcases eq_nil_or_concat l₂ with hnil | ⟨l₂', b, hconcat⟩
  · rw [hl, hnil]
    simp
  · rw [hl, hconcat, concat_eq_append]
    have hlast : (l₁ ++ a :: (l₂' ++ [b])).getLast? = some b := by
      rw [← cons_append, ← append_assoc, List.getLast?_concat]
    have hset : ((l₁ ++ a :: (l₂' ++ [b])).set l₁.length b).dropLast = l₁ ++ b :: l₂' := by
      rw [set_append_right _ _ (Nat.le_refl _), Nat.sub_self, set_cons_zero,
        ← cons_append, ← append_assoc, dropLast_concat]
    simp only [hlast, hset]
    have hmove : l₁ ++ a :: (l₂' ++ [b]) ~ a :: (l₁ ++ (l₂' ++ [b])) := perm_middle
    refine hmove.trans (Perm.cons a ?_)
    rw [← append_assoc]
    exact (perm_append_singleton b _).trans perm_middle.symm

end Tach.KeyedLists
