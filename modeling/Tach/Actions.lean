import Mathlib

/-!
Computations that read and change a state, end in a value or an error, and keep the state
in both cases. An outcome also carries a mark, raised at points the specification singles
out; the computation itself never reads it.

These judgements describe a run. `Ends m s Q` says how the run from `s` ends. `Steps R m` says
that every run is a step of the preorder `R` and `Total m` that none ends in an error.
`Runs calm m s Q` is for an environment that may fail: from a calm state the run ends in `Q` and in
a calm state. `Clean m s Q` is about runs that raise no mark. Each construct has one rule for each
judgement and proofs about programs use only these rules.
-/

namespace Tach.Actions

structure Outcome (σ ε α : Type) where
  result : Except ε α
  state : σ
  marked : Bool

def Act (σ ε α : Type) : Type := σ → Outcome σ ε α

namespace Act

variable {σ τ ε α β : Type} {f : α → Act σ ε β} {m : Act σ ε α}

def ret (a : α) : Act σ ε α := fun s => ⟨.ok a, s, false⟩

def fail (e : ε) : Act σ ε α := fun s => ⟨.error e, s, false⟩

def bind (m : Act σ ε α) (f : α → Act σ ε β) : Act σ ε β := fun s =>
  match m s with
  | ⟨.ok a, t, k⟩ => ⟨(f a t).result, (f a t).state, k || (f a t).marked⟩
  | ⟨.error e, t, k⟩ => ⟨.error e, t, k⟩

instance : Monad (Act σ ε) where
  pure := ret
  bind := bind

/-- Run `m` and hand its error back as a value. -/
def attempt (m : Act σ ε α) : Act σ ε (Except ε α) := fun s =>
  ⟨.ok (m s).result, (m s).state, (m s).marked⟩

def read (f : σ → α) : Act σ ε α := fun s => ⟨.ok (f s), s, false⟩

def modify (f : σ → σ) : Act σ ε Unit := fun s => ⟨.ok (), f s, false⟩

def markIf (p : σ → Bool) : Act σ ε Unit := fun s => ⟨.ok (), s, p s⟩

/-- Run `m` on the part of the state picked out by `get` and stored back by `put`. -/
def zoom (get : τ → σ) (put : σ → τ → τ) (m : Act σ ε α) : Act τ ε α := fun t =>
  ⟨(m (get t)).result, put (m (get t)).state t, (m (get t)).marked⟩

/-- Run `f` on each element in turn, up to the first error. -/
def each (f : α → Act σ ε Unit) : List α → Act σ ε Unit
  | [] => pure ()
  | a :: l => f a >>= fun _ => each f l

theorem bind_of_ok {s t : σ} {a : α} {k : Bool} (h : m s = ⟨.ok a, t, k⟩) :
    (m >>= f) s = ⟨(f a t).result, (f a t).state, k || (f a t).marked⟩ := by
  change bind m f s = _
  simp only [bind, h]

theorem bind_of_error {s t : σ} {e : ε} {k : Bool}
    (h : m s = ⟨.error e, t, k⟩) : (m >>= f) s = ⟨.error e, t, k⟩ := by
  change bind m f s = _
  simp only [bind, h]

theorem bind_assoc {γ : Type} (m : Act σ ε α) (f : α → Act σ ε β) (g : β → Act σ ε γ) :
    (m >>= f) >>= g = m >>= fun a => f a >>= g := by
  funext s
  change bind (bind m f) g s = bind m (fun a => bind (f a) g) s
  unfold bind
  rcases m s with ⟨_ | a, t, k⟩
  · rfl
  · dsimp only
    rcases f a t with ⟨_ | b, u, j⟩
    · rfl
    · simp only [Bool.or_assoc]

end Act

open Act

variable {σ τ ε α β : Type} {f : α → Act σ ε β} {Q' : Except ε β → σ → Prop} {g : Unit → Act σ ε β}

/-- What the run of `m` from `s` ends in, marked or not. -/
def Ends (m : Act σ ε α) (s : σ) (Q : Except ε α → σ → Prop) : Prop :=
  Q (m s).result (m s).state

namespace Ends

variable {m : Act σ ε α} {s : σ} {P Q : Except ε α → σ → Prop}

theorem mono (h : Ends m s P) (hPQ : ∀ r t, P r t → Q r t) : Ends m s Q := hPQ _ _ h

theorem and (h : Ends m s P) (h' : Ends m s Q) : Ends m s (fun r t => P r t ∧ Q r t) :=
  ⟨h, h'⟩

theorem of_forall (h : ∀ r t, Q r t) : Ends m s Q := h _ _

theorem ret {a : α} (h : Q (.ok a) s) : Ends (pure a) s Q := h

theorem fail {e : ε} (h : Q (.error e) s) : Ends (Act.fail e) s Q := h

theorem modify {f : σ → σ} {Q : Except ε Unit → σ → Prop} (h : Q (.ok ()) (f s)) :
    Ends (Act.modify f) s Q := h

theorem bind (h : Ends m s P) (hok : ∀ a t, P (.ok a) t → Ends (f a) t Q')
    (herr : ∀ e t, P (.error e) t → Q' (.error e) t) : Ends (m >>= f) s Q' := by
  unfold Ends at h ⊢
  rcases hm : m s with ⟨r, t, k⟩
  rw [hm] at h
  cases r with
  | ok a =>
    rw [bind_of_ok hm]
    exact hok a t h
  | error e =>
    rw [bind_of_error hm]
    exact herr e t h

theorem attempt_bind {f : Except ε α → Act σ ε β} (h : Ends m s P)
    (hf : ∀ r t, P r t → Ends (f r) t Q') : Ends (Act.attempt m >>= f) s Q' :=
  bind (P := fun r t => ∃ q, r = .ok q ∧ P q t) ⟨_, rfl, h⟩
    (fun _ t ⟨_, hq, ht⟩ => by cases hq; exact hf _ t ht) (fun _ _ ⟨_, hq, _⟩ => by cases hq)

theorem read_bind {f : σ → α} {g : α → Act σ ε β}
    (h : Ends (g (f s)) s Q') : Ends (Act.read f >>= g) s Q' := h

theorem modify_bind {f : σ → σ} (h : Ends (g ()) (f s) Q') : Ends (Act.modify f >>= g) s Q' := h

end Ends

/-- Every run of `m` is a step of `R`. -/
def Steps (R : σ → σ → Prop) (m : Act σ ε α) : Prop := ∀ s, Ends m s fun _ t => R s t

variable {put : σ → τ → τ} {get : τ → σ}

namespace Steps

variable {R : σ → σ → Prop} {m m' : Act σ ε α}

theorem modify {f : σ → σ} (h : ∀ s, R s (f s)) : Steps R (Act.modify f : Act σ ε Unit) := h

theorem attempt (h : Steps R m) : Steps R (Act.attempt m) := h

theorem read_bind {f : σ → α} {g : α → Act σ ε β} (hg : ∀ a, Steps R (g a)) :
    Steps R (Act.read f >>= g) := fun s => hg (f s) s

theorem zoom {R : τ → τ → Prop} (h : ∀ t u, R t (put u t)) :
    Steps R (Act.zoom get put m) := fun t => h t _

theorem ite {p : Prop} [Decidable p] (h : Steps R m) (h' : Steps R m') :
    Steps R (if p then m else m') := by
  split
  · exact h
  · exact h'

variable [IsPreorder σ R]

theorem ret (a : α) : Steps R (pure a : Act σ ε α) := fun s => Std.Refl.refl s

theorem fail (e : ε) : Steps R (Act.fail e : Act σ ε α) := fun s => Std.Refl.refl s

theorem bind (h : Steps R m) (hf : ∀ a, Steps R (f a)) : Steps R (m >>= f) := by
  intro s
  refine (h s).bind (fun a t hst => (hf a t).mono fun _ u htu => ?_) fun _ _ hst => hst
  exact IsTrans.trans s t u hst htu

/-- A run that continues one from `s`. -/
theorem after {s t : σ} (h : Steps R m) (hst : R s t) : Ends m t fun _ u => R s u :=
  (h t).mono fun _ u htu => IsTrans.trans s t u hst htu

end Steps

/-- No run of `m` ends in an error. -/
def Total (m : Act σ ε α) : Prop := ∀ s, Ends m s fun r _ => ∃ a, r = .ok a

namespace Total

variable {m m' : Act σ ε α}

theorem ret (a : α) : Total (pure a : Act σ ε α) := fun _ => ⟨a, rfl⟩

theorem read (f : σ → α) : Total (Act.read f : Act σ ε α) := fun _ => ⟨_, rfl⟩

theorem modify (f : σ → σ) : Total (Act.modify f : Act σ ε Unit) := fun _ => ⟨(), rfl⟩

theorem attempt (m : Act σ ε α) : Total (Act.attempt m) := fun _ => ⟨_, rfl⟩

theorem zoom (h : Total m) : Total (Act.zoom get put m) :=
  fun t => h (get t)

theorem bind (h : Total m) (hf : ∀ a, Total (f a)) : Total (m >>= f) := by
  intro s
  refine (h s).bind (fun a t _ => hf a t) ?_
  rintro e t ⟨a, ha⟩
  cases ha

theorem ite {p : Prop} [Decidable p] (h : Total m) (h' : Total m') :
    Total (if p then m else m') := by
  split
  · exact h
  · exact h'

theorem each {f : α → Act σ ε Unit} (hf : ∀ a, Total (f a)) (l : List α) :
    Total (Act.each f l) := by
  induction l with
  | nil => exact ret ()
  | cons a l ih => exact bind (hf a) fun _ => ih

/-- The rule for a computation that does not end in an error. -/
theorem bind_ends {P : σ → Prop} {s : σ}
    (h : Total m) (hP : Ends m s fun _ t => P t) (hf : ∀ a t, P t → Ends (f a) t Q') :
    Ends (m >>= f) s Q' := by
  refine ((h s).and hP).bind (fun a t ht => hf a t ht.2) ?_
  rintro e t ⟨⟨a, ha⟩, -⟩
  cases ha

end Total

/-- From a calm state the run of `m` ends in a calm state and in `Q`. -/
def Runs (calm : σ → Prop) (m : Act σ ε α) (s : σ) (Q : Except ε α → σ → Prop) : Prop :=
  calm s → Ends m s fun r t => calm t ∧ Q r t

namespace Runs

variable {calm : σ → Prop} {m : Act σ ε α} {s : σ} {P Q : Except ε α → σ → Prop}

theorem mono (h : Runs calm m s P) (hPQ : ∀ r t, P r t → Q r t) : Runs calm m s Q :=
  fun hs => (h hs).mono fun r t ht => ⟨ht.1, hPQ r t ht.2⟩

theorem ret {a : α} (h : Q (.ok a) s) : Runs calm (pure a) s Q := fun hs => ⟨hs, h⟩

theorem fail {e : ε} (h : Q (.error e) s) : Runs calm (Act.fail e) s Q := fun hs => ⟨hs, h⟩

theorem bind (h : Runs calm m s P) (hok : ∀ a t, P (.ok a) t → Runs calm (f a) t Q')
    (herr : ∀ e t, P (.error e) t → Q' (.error e) t) : Runs calm (m >>= f) s Q' := fun hs =>
  (h hs).bind (fun a t ht => hok a t ht.2 ht.1) fun e t ht => ⟨ht.1, herr e t ht.2⟩

/-- The rule for a computation that returns `a`. -/
theorem bind_ok {a : α} {P : σ → Prop}
    (h : Runs calm m s fun r t => r = .ok a ∧ P t) (hf : ∀ t, P t → Runs calm (f a) t Q') :
    Runs calm (m >>= f) s Q' := by
  refine h.bind (fun b t ⟨hb, ht⟩ => ?_) fun e t ⟨he, _⟩ => ?_
  · cases hb
    exact hf t ht
  · cases he

theorem attempt_bind {f : Except ε α → Act σ ε β}
    (h : Runs calm m s P) (hf : ∀ r t, P r t → Runs calm (f r) t Q') :
    Runs calm (Act.attempt m >>= f) s Q' := fun hs =>
  (h hs).attempt_bind fun r t ht => hf r t ht.2 ht.1

theorem read_bind {f : σ → α} {g : α → Act σ ε β}
    (h : Runs calm (g (f s)) s Q') : Runs calm (Act.read f >>= g) s Q' := h

theorem modify_bind {f : σ → σ} (hc : calm s → calm (f s)) (h : Runs calm (g ()) (f s) Q') :
    Runs calm (Act.modify f >>= g) s Q' := fun hs => h (hc hs)

theorem zoom {t : τ} {calm' : τ → Prop}
    {Q : Except ε α → τ → Prop} (h : Runs calm m (get t) P) (hcalm : calm' t → calm (get t))
    (hback : ∀ r u, calm u → P r u → calm' (put u t) ∧ Q r (put u t)) :
    Runs calm' (Act.zoom get put m) t Q := fun ht =>
  hback _ _ (h (hcalm ht)).1 (h (hcalm ht)).2

/-- A loop over the numbers below `n` that does not fail; `I k` holds once `k` of them are done. -/
theorem eachRange {f : ℕ → Act σ ε Unit} {n : ℕ} {I : ℕ → σ → Prop} (hs : I 0 s)
    (hstep : ∀ k t, k < n → I k t → Runs calm (f k) t fun r u => r = .ok () ∧ I (k + 1) u) :
    Runs calm (Act.each f (List.range n)) s fun r t => r = .ok () ∧ I n t := by
  suffices h : ∀ j k t, k + j = n → I k t →
      Runs calm (Act.each f (List.range' k j)) t fun r u => r = .ok () ∧ I n u by
    rw [List.range_eq_range']
    exact h n 0 s (Nat.zero_add n) hs
  intro j
  induction j with
  | zero =>
    intro k t hk ht
    exact ret ⟨rfl, by rwa [← hk]⟩
  | succ j ih =>
    intro k t hk ht
    rw [List.range'_succ]
    exact (hstep k t (by omega) ht).bind_ok fun u hu => ih (k + 1) u (by omega) hu

end Runs

/-- What the run of `m` from `s` ends in if it is not marked. -/
def Clean (m : Act σ ε α) (s : σ) (Q : Except ε α → σ → Prop) : Prop :=
  (m s).marked = false → Ends m s Q

namespace Clean

variable {m : Act σ ε α} {s : σ} {P Q : Except ε α → σ → Prop}

theorem mono (h : Clean m s P) (hPQ : ∀ r t, P r t → Q r t) : Clean m s Q :=
  fun hm => (h hm).mono hPQ

theorem ret {a : α} (h : Q (.ok a) s) : Clean (pure a) s Q := fun _ => h

theorem fail {e : ε} (h : Q (.error e) s) : Clean (Act.fail e) s Q := fun _ => h

theorem bind (h : Clean m s P) (hok : ∀ a t, P (.ok a) t → Clean (f a) t Q')
    (herr : ∀ e t, P (.error e) t → Q' (.error e) t) : Clean (m >>= f) s Q' := by
  unfold Clean Ends at h ⊢
  rcases hm : m s with ⟨r, t, k⟩
  rw [hm] at h
  cases r with
  | ok a =>
    rw [bind_of_ok hm]
    intro hk
    obtain ⟨hk, hk'⟩ := Bool.or_eq_false_iff.mp hk
    exact hok a t (h hk) hk'
  | error e =>
    rw [bind_of_error hm]
    exact fun hk => herr e t (h hk)

/-- The rule for a computation that returns `a`. -/
theorem bind_ok {a : α} {P : σ → Prop} (h : Clean m s fun r t => r = .ok a ∧ P t)
    (hf : ∀ t, P t → Clean (f a) t Q') : Clean (m >>= f) s Q' :=
  h.bind (fun _ t ⟨hb, ht⟩ => by cases hb; exact hf t ht) fun _ _ ⟨he, _⟩ => by cases he

theorem attempt_bind {f : Except ε α → Act σ ε β} (h : Clean m s P)
    (hf : ∀ r t, P r t → Clean (f r) t Q') : Clean (Act.attempt m >>= f) s Q' :=
  bind (P := fun r t => ∃ q, r = .ok q ∧ P q t) (fun hm => ⟨_, rfl, h hm⟩)
    (fun _ t ⟨_, hq, ht⟩ => by cases hq; exact hf _ t ht) (fun _ _ ⟨_, hq, _⟩ => by cases hq)

theorem read_bind {f : σ → α} {g : α → Act σ ε β}
    (h : Clean (g (f s)) s Q') : Clean (Act.read f >>= g) s Q' := h

theorem modify_bind {f : σ → σ} (h : Clean (g ()) (f s) Q') : Clean (Act.modify f >>= g) s Q' := h

theorem markIf_bind {p : σ → Bool}
    (h : p s = false → Clean (g ()) s Q') : Clean (Act.markIf p >>= g) s Q' :=
  bind (P := fun r t => r = .ok () ∧ t = s ∧ p s = false) (fun hm => ⟨rfl, rfl, hm⟩)
    (fun _ _ ⟨_, ht, hp⟩ => ht ▸ h hp) (fun _ _ ⟨hr, _⟩ => by cases hr)

end Clean

end Tach.Actions
