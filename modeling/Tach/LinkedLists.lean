import Mathlib

/-!
Doubly linked lists in a store of records. A node has an address; its record holds the node and the
addresses of the nodes before and after it, 0 at the ends. A list is cut and joined at its links:
only the records at the cut change.
-/

namespace Tach.LinkedLists

open Function List

structure Links (β ρ : Type*) where
  addr : β → ℕ
  /-- The record of a node with these links. -/
  cell : β → ℕ → ℕ → ρ
  withPrevious : ℕ → ρ → ρ
  withNext : ℕ → ρ → ρ
  withPrevious_cell : ∀ x b p n, withPrevious x (cell b p n) = cell b x n
  withNext_cell : ∀ x b p n, withNext x (cell b p n) = cell b p x

variable {β ρ : Type*} (K : Links β ρ)

/-- The address of the first node, or what comes after the list. -/
def headOr : List β → ℕ → ℕ
  | [], n => n
  | b :: _, _ => K.addr b

/-- The address of the last node, or what comes before the list. -/
def lastOr : List β → ℕ → ℕ
  | [], p => p
  | b :: l, _ => lastOr l (K.addr b)

/-- The nodes of a list are in the store, linked with one another and with `p` and `n`. -/
def Linked (store : ℕ → ρ) : ℕ → List β → ℕ → Prop
  | _, [], _ => True
  | p, b :: l, n => store (K.addr b) = K.cell b p (headOr K l n) ∧ Linked store (K.addr b) l n

def setPrevious (store : ℕ → ρ) (a x : ℕ) : ℕ → ρ :=
  if a ≠ 0 then update store a (K.withPrevious x (store a)) else store

def setNext (store : ℕ → ρ) (a x : ℕ) : ℕ → ρ :=
  if a ≠ 0 then update store a (K.withNext x (store a)) else store

variable {K} {store store' : ℕ → ρ} {p n a c x : ℕ} {b : β} {l r : List β}

theorem setPrevious_of_ne (h : c ≠ a) : setPrevious K store a x c = store c := by
  unfold setPrevious
  split_ifs
  · exact update_of_ne h ..
  · rfl

theorem setNext_of_ne (h : c ≠ a) : setNext K store a x c = store c := by
  unfold setNext
  split_ifs
  · exact update_of_ne h ..
  · rfl

theorem setNext_zero : setNext K store 0 x = store := if_neg (not_not.mpr rfl)

theorem setNext_update {y : ρ} (ha : a ≠ 0) :
    setNext K (update store a y) a x = update store a (K.withNext x y) := by
  rw [setNext, if_pos ha, update_self, update_idem]

theorem headOr_append : headOr K (l ++ r) n = headOr K l (headOr K r n) := by
  cases l <;> rfl

theorem lastOr_append : lastOr K (l ++ r) p = lastOr K r (lastOr K l p) := by
  induction l generalizing p with
  | nil => rfl
  | cons b l ih => exact ih

theorem lastOr_mem (hl : l ≠ []) : lastOr K l p ∈ l.map K.addr := by
  induction l generalizing p with
  | nil => exact absurd rfl hl
  | cons b l ih =>
    cases l with
    | nil => exact mem_singleton.mpr rfl
    | cons c l =>
      have hmem : lastOr K (c :: l) (K.addr b) ∈ (c :: l).map K.addr := ih (by simp)
      exact mem_cons_of_mem _ hmem

theorem headOr_mem_of_ne (h : headOr K l 0 ≠ 0) : headOr K l 0 ∈ l.map K.addr := by
  cases l with
  | nil => exact absurd rfl h
  | cons b l => exact mem_cons_self

theorem lastOr_mem_of_ne (h : lastOr K l 0 ≠ 0) : lastOr K l 0 ∈ l.map K.addr :=
  lastOr_mem (by rintro rfl; exact h rfl)

/-- Another node comes before the list, which is the last one if the list is empty. -/
theorem lastOr_swap (ha : a ∉ l.map K.addr) :
    (if lastOr K l a = a then x else lastOr K l a) = lastOr K l x := by
  cases l with
  | nil => exact if_pos rfl
  | cons b l =>
    refine if_neg fun heq => ha ?_
    have hmem : lastOr K (b :: l) a ∈ (b :: l).map K.addr := lastOr_mem (by simp)
    rwa [heq] at hmem

theorem linked_append : Linked K store p (l ++ r) n ↔
      Linked K store p l (headOr K r n) ∧ Linked K store (lastOr K l p) r n := by
  induction l generalizing p with
  | nil => simp [Linked, lastOr]
  | cons b l ih => rw [cons_append, Linked, Linked, ih, headOr_append, lastOr, and_assoc]

variable (K) in
/-- The nodes have different addresses, and none is at 0. -/
structure Distinct (l : List β) : Prop where
  nodup : (l.map K.addr).Nodup
  pos : 0 ∉ l.map K.addr

namespace Distinct

theorem sublist (h : Distinct K l) (hs : r.Sublist l) : Distinct K r :=
  ⟨h.nodup.sublist (hs.map _), fun hzero => h.pos ((hs.map _).subset hzero)⟩

theorem congr (h : Distinct K l) (hr : r.map K.addr = l.map K.addr) : Distinct K r :=
  ⟨hr ▸ h.nodup, hr ▸ h.pos⟩

theorem headOr_not_mem (h : Distinct K (l ++ r)) : headOr K r 0 ∉ l.map K.addr := by
  intro hl
  have hnodup := h.nodup
  rw [map_append] at hnodup
  refine disjoint_of_nodup_append hnodup hl (headOr_mem_of_ne fun hzero => ?_)
  exact (h.sublist (sublist_append_left l r)).pos (hzero ▸ hl)

theorem lastOr_not_mem (h : Distinct K (l ++ r)) : lastOr K l 0 ∉ r.map K.addr := by
  intro hr
  have hnodup := h.nodup
  rw [map_append] at hnodup
  refine disjoint_of_nodup_append hnodup (lastOr_mem_of_ne fun hzero => ?_) hr
  exact (h.sublist (sublist_append_right l r)).pos (hzero ▸ hr)

variable (h : Distinct K (l ++ b :: r))
include h

theorem not_mem : K.addr b ∉ l.map K.addr ∧ K.addr b ∉ r.map K.addr := by
  have hnodup := h.nodup
  rw [map_append, map_cons, nodup_middle, nodup_cons, mem_append, not_or] at hnodup
  exact hnodup.1

theorem ne_lastOr : K.addr b ≠ lastOr K l 0 := fun heq =>
  h.lastOr_not_mem (heq ▸ mem_cons_self)

theorem ne_headOr : K.addr b ≠ headOr K r 0 := fun heq =>
  (h.sublist (sublist_append_right l _)).headOr_not_mem (l := [b]) (r := r) (mem_singleton.mpr heq.symm)

end Distinct

namespace Linked

section

variable (h : Linked K store p l n)
include h

theorem congr (hs : ∀ b ∈ l, store' (K.addr b) = store (K.addr b)) : Linked K store' p l n := by
  induction l generalizing p with
  | nil => trivial
  | cons b l ih =>
    refine ⟨?_, ih h.2 fun c hc => hs c (mem_cons_of_mem _ hc)⟩
    rw [hs b mem_cons_self]
    exact h.1

theorem update {y : ρ} (ha : a ∉ l.map K.addr) : Linked K (update store a y) p l n :=
  h.congr fun b hb => update_of_ne
    (show K.addr b ≠ a from fun heq => ha (heq ▸ mem_map_of_mem hb)) ..

theorem setPrevious_other (ha : a ∉ l.map K.addr) : Linked K (setPrevious K store a x) p l n :=
  h.congr fun _ hb => setPrevious_of_ne fun heq => ha (heq ▸ mem_map_of_mem hb)

theorem setNext_other (ha : a ∉ l.map K.addr) : Linked K (setNext K store a x) p l n :=
  h.congr fun _ hb => setNext_of_ne fun heq => ha (heq ▸ mem_map_of_mem hb)

/-- The first node gets another one before it. -/
theorem setPrevious (hl : Distinct K l) (x : ℕ) : Linked K (setPrevious K store (headOr K l 0) x) x l n := by
  cases l with
  | nil => trivial
  | cons b l =>
    have hb : K.addr b ≠ 0 := fun hb => hl.pos (hb ▸ mem_cons_self)
    rw [headOr, LinkedLists.setPrevious, if_pos hb]
    refine ⟨?_, h.2.update (nodup_cons.mp hl.nodup).1⟩
    rw [update_self, h.1, K.withPrevious_cell]

/-- The last node gets another one after it. -/
theorem setNext (hl : Distinct K l) (x : ℕ) : Linked K (setNext K store (lastOr K l 0) x) p l x := by
  induction l generalizing p with
  | nil => trivial
  | cons b l ih =>
    have hb : K.addr b ≠ 0 := fun hb => hl.pos (hb ▸ mem_cons_self)
    cases l with
    | nil =>
      rw [lastOr, lastOr, LinkedLists.setNext, if_pos hb]
      refine ⟨?_, trivial⟩
      rw [update_self, h.1, K.withNext_cell]
      rfl
    | cons c l =>
      have hlast : lastOr K (b :: c :: l) 0 = lastOr K (c :: l) 0 := rfl
      have hne : K.addr b ≠ lastOr K (c :: l) 0 := fun heq =>
        (nodup_cons.mp hl.nodup).1 (heq ▸ lastOr_mem (by simp))
      refine ⟨?_, ?_⟩
      · rw [hlast, setNext_of_ne hne]
        exact h.1
      · rw [hlast]
        exact ih h.2 (hl.sublist (sublist_cons_self b _))

end

/-- A node becomes another one at its address. -/
theorem replace {d : β} (h : Linked K store p (l ++ b :: r) n) (hl : Distinct K (l ++ b :: r))
    (hd : K.addr d = K.addr b) :
    Linked K (Function.update store (K.addr b) (K.cell d (lastOr K l p) (headOr K r n))) p
      (l ++ d :: r) n := by
  obtain ⟨hleft, -, hright⟩ := linked_append.mp h
  refine linked_append.mpr ⟨?_, ?_, ?_⟩
  · rw [headOr, hd]
    exact hleft.update hl.not_mem.1
  · rw [hd, update_self]
  · rw [hd]
    exact hright.update hl.not_mem.2

/-- A node is put between two others. -/
theorem insert (h : Linked K store 0 (l ++ r) 0) (hl : Distinct K (l ++ b :: r)) :
    Linked K (LinkedLists.setNext K (LinkedLists.setPrevious K (Function.update store (K.addr b)
      (K.cell b (lastOr K l 0) (headOr K r 0))) (headOr K r 0) (K.addr b)) (lastOr K l 0) (K.addr b)) 0
      (l ++ b :: r) 0 := by
  obtain ⟨hleft, hright⟩ := linked_append.mp h
  have hlr := hl.sublist (Sublist.append_left (sublist_cons_self b r) l)
  refine linked_append.mpr ⟨?_, ?_, ?_⟩
  · exact ((hleft.update hl.not_mem.1).setPrevious_other hlr.headOr_not_mem).setNext
      (hl.sublist (sublist_append_left l _)) _
  · rw [setNext_of_ne hl.ne_lastOr, setPrevious_of_ne hl.ne_headOr, update_self]
  · exact ((hright.update hl.not_mem.2).setPrevious (hlr.sublist (sublist_append_right l r)) _).setNext_other
      hlr.lastOr_not_mem

/-- A node is taken out of the list. -/
theorem remove (h : Linked K store 0 (l ++ b :: r) 0) (hl : Distinct K (l ++ b :: r)) :
    Linked K (LinkedLists.setPrevious K (LinkedLists.setNext K store (lastOr K l 0) (headOr K r 0))
      (headOr K r 0) (lastOr K l 0)) 0 (l ++ r) 0 := by
  obtain ⟨hleft, -, hright⟩ := linked_append.mp h
  have hlr := hl.sublist (Sublist.append_left (sublist_cons_self b r) l)
  exact linked_append.mpr ⟨(hleft.setNext (hlr.sublist (sublist_append_left l r)) _).setPrevious_other
      hlr.headOr_not_mem,
    (hright.setNext_other hlr.lastOr_not_mem).setPrevious (hlr.sublist (sublist_append_right l r)) _⟩

/-- A walk over the list that stops at the first node with a property. -/
theorem walk_eq {f : ℕ → ℕ → ℕ} {test : β → Bool} {fuel : ℕ} (h : Linked K store p l 0)
    (hpos : ∀ b ∈ l, K.addr b ≠ 0) (hfuel : l.length ≤ fuel) (hzero : ∀ k, f k 0 = 0)
    (hstep : ∀ k b p n, store (K.addr b) = K.cell b p n → K.addr b ≠ 0 →
      f (k + 1) (K.addr b) = if test b then K.addr b else f k n) :
    f fuel (headOr K l 0) = ((l.find? test).map K.addr).getD 0 := by
  induction l generalizing p fuel with
  | nil => exact hzero fuel
  | cons b l ih =>
    obtain ⟨fuel, rfl⟩ : ∃ k, fuel = k + 1 := ⟨fuel - 1, by simp at hfuel; omega⟩
    refine (hstep fuel b p _ h.1 (hpos b mem_cons_self)).trans ?_
    cases htest : test b with
    | true => rw [find?_cons_of_pos htest, if_pos rfl]; rfl
    | false =>
      rw [find?_cons_of_neg (by simp [htest]), if_neg (by simp)]
      exact ih h.2 (fun c hc => hpos c (mem_cons_of_mem _ hc)) (by simp at hfuel; omega)

end Linked

end Tach.LinkedLists
