import Tach.Interleaving
import Tach.Pipes

/-!
The counts of a pipe against the descriptors. A count is ahead of the slots by the sections that
are due to lower it and by the ends that `pipe_create` still holds, and behind them by the sections
that are due to raise it. A section that raises a count is due only while another slot of the same
process refers to the same end, so that a count of zero leaves no slot at all.
-/

namespace Tach.Pipes

open Function List Proc Todo Interleaving Finset

variable {ι : Type*} {n q : ℕ} {t : Table n q} {e : End} {fd : Fin n}

def refersTo (x : Option (Entry q)) (k : Fin q) (e : End) : ℕ := if x = some (.pipe k e) then 1 else 0

def refs (t : Table n q) (k : Fin q) (e : End) : ℕ := ∑ fd, refersTo (t fd) k e

def adjusts (due : Option (Locked q)) (up : Bool) (k : Fin q) (e : End) : ℕ :=
  if due = some (.adjust k e up) then 1 else 0

/-- The ends that `pipe_create` holds without a slot. -/
def Todo.holds : Todo ι n q → Fin q → End → ℕ
  | .installRead k, k', _ => if k = k' then 1 else 0
  | .installWrite k _, k', e => if k = k' ∧ e = .write then 1 else 0
  | .closeWrite k, k', e => if k = k' ∧ e = .write then 1 else 0
  | _, _, _ => 0

def Todo.claims [DecidableEq ι] : Todo ι n q → ι → ℕ
  | .copyAll _ j _, j' => if j = j' then 1 else 0
  | .dropAll _ j, j' => if j = j' then 1 else 0
  | _, _ => 0

namespace Proc

def held (pr : Proc ι n q) (k : Fin q) (e : End) : ℕ := refs pr.table k e + refs pr.clone k e

/-- What a process adds to a count: its slots, and what is going to lower the count. -/
def owed (pr : Proc ι n q) (k : Fin q) (e : End) : ℕ :=
  pr.held k e + adjusts pr.due false k e + pr.todo.holds k e

def ups (pr : Proc ι n q) (k : Fin q) (e : End) : ℕ := adjusts pr.due true k e

def frees (pr : Proc ι n q) (k : Fin q) : ℕ := if pr.due = some (.free k) then 1 else 0

end Proc

theorem refs_update (t : Table n q) (fd : Fin n) (x : Option (Entry q)) (k : Fin q) (e : End) :
    refs (update t fd x) k e + refersTo (t fd) k e = refs t k e + refersTo x k e :=
  sum_update (fun x => refersTo x k e) t fd x

theorem refs_empty (k : Fin q) (e : End) : refs (fun _ : Fin n => none) k e = 0 := by
  simp [refs, refersTo]

@[simp] theorem refersTo_none (k : Fin q) (e : End) : refersTo none k e = 0 := rfl

theorem refersTo_le_refs (t : Table n q) (fd : Fin n) (k : Fin q) (e : End) :
    refersTo (t fd) k e ≤ refs t k e :=
  single_le_sum (f := fun fd => refersTo (t fd) k e) (fun _ _ => Nat.zero_le _)
    (mem_univ fd)

theorem refs_eq_zero {k : Fin q} : refs t k e = 0 ↔ ∀ fd, t fd ≠ some (.pipe k e) := by
  simp [refs, refersTo]

@[simp] theorem adjusts_none (up : Bool) (k : Fin q) (e : End) : adjusts none up k e = 0 := rfl

section

variable (x : Option (Entry q)) (k : Fin q)
include x k

@[simp] theorem adjusts_release (e : End) : adjusts (release x) false k e = refersTo x k e := by
  rcases x with _ | _ | ⟨k', e'⟩ <;> simp [adjusts, release, refersTo]

@[simp] theorem adjusts_release_up (e : End) : adjusts (release x) true k e = 0 := by
  rcases x with _ | _ | ⟨k', e'⟩ <;> simp [adjusts, release]

@[simp] theorem adjusts_retain (e : End) : adjusts (retain x) true k e = refersTo x k e := by
  rcases x with _ | _ | ⟨k', e'⟩ <;> simp [adjusts, retain, refersTo]

@[simp] theorem adjusts_retain_down (e : End) : adjusts (retain x) false k e = 0 := by
  rcases x with _ | _ | ⟨k', e'⟩ <;> simp [adjusts, retain]

theorem release_ne_free : release x ≠ some (.free k) := by
  rcases x with _ | _ | ⟨k', e'⟩ <;> simp [release]

theorem retain_ne_free : retain x ≠ some (.free k) := by
  rcases x with _ | _ | ⟨k', e'⟩ <;> simp [retain]

end

/-- A count is raised for a slot and for the copy that was made of it. -/
theorem refs_retain {c : Table n q} {fd' : Fin n} {k : Fin q}
    (h : retain (t fd) = some (.adjust k e true)) (hfd : c fd' = none) :
    1 ≤ refs t k e ∧ refs (update c fd' (t fd)) k e = refs c k e + 1 := by
  have hx : refersTo (t fd) k e = 1 := by
    rw [← adjusts_retain, h]
    simp [adjusts]
  have hle := refersTo_le_refs t fd k e
  have hrefs := refs_update c fd' (t fd) k e
  rw [hfd, refersTo_none] at hrefs
  omega

theorem mem_of_cleared {l : List (Fin n)}
    (h : ∀ fd', t fd' ≠ none → fd' ∈ fd :: l) (fd' : Fin n) (hfd' : update t fd none fd' ≠ none) :
    fd' ∈ l := by
  have hne : fd' ≠ fd := by
    rintro rfl
    simp at hfd'
  rw [update_of_ne hne] at hfd'
  exact (mem_cons.mp (h fd' hfd')).resolve_left hne

theorem eq_empty_of_mem_nil (h : ∀ fd, t fd ≠ none → fd ∈ []) : t = fun _ => none := by
  funext fd
  by_contra hfd
  exact absurd (h fd hfd) not_mem_nil

theorem release_ne_up (x : Option (Entry q)) (k : Fin q) (e : End) :
    release x ≠ some (.adjust k e true) := by
  rcases x with _ | _ | ⟨k', e'⟩ <;> simp [release]

section Processes

/-- What the tables of a process have when it is at some place. -/
def Todo.Fits (todo : Todo ι n q) (t c : Table n q) : Prop :=
  match todo with
  | .assign new old => c = (fun _ => none) ∧ t new = none ∧ new ≠ old
  | .closeAll l => c = (fun _ => none) ∧ ∀ fd, t fd ≠ none → fd ∈ l
  | .copyAll l _ _ => l.Nodup ∧ ∀ fd ∈ l, c fd = none
  | .dropAll l _ => ∀ fd, c fd ≠ none → fd ∈ l
  | _ => c = fun _ => none

/-- A process without a program has nothing; a count is raised for a second slot. -/
structure Proc.Orderly (pr : Proc ι n q) : Prop where
  away : pr.status ≠ .running →
    pr.table = (fun _ => none) ∧ pr.clone = (fun _ => none) ∧ pr.due = none ∧ pr.todo = .idle
  up : ∀ k e, pr.due = some (.adjust k e true) → 2 ≤ pr.held k e
  fits : pr.todo.Fits pr.table pr.clone

variable {p p' : Fin q → Pipe} {pr pr' : Proc ι n q} {ev : List (Event q)} {todo : Todo ι n q}

theorem Proc.settled_cases (h : pr.settled = true) :
    pr.due = none ∧ (pr.todo = .idle ∨ (∃ k m, pr.todo = .read k m) ∨
      ∃ k bytes wrote, pr.todo = .write k bytes wrote) := by
  unfold settled at h
  split at h <;> simp_all

theorem Proc.holds_of_settled (h : pr.settled = true) (k : Fin q) (e : End) :
    pr.todo.holds k e = 0 := by
  obtain ⟨-, h | ⟨_, _, h⟩ | ⟨_, _, _, h⟩⟩ := settled_cases h <;> rw [h] <;> rfl

theorem Proc.claims_of_settled [DecidableEq ι] (h : pr.settled = true) (j : ι) :
    pr.todo.claims j = 0 := by
  obtain ⟨-, h | ⟨_, _, h⟩ | ⟨_, _, _, h⟩⟩ := settled_cases h <;> rw [h] <;> rfl

namespace Proc.Orderly

theorem clone_of_settled (h : pr.Orderly) (hset : pr.settled = true) : pr.clone = fun _ => none := by
  have hfits := h.fits
  obtain ⟨-, ht | ⟨_, _, ht⟩ | ⟨_, _, _, ht⟩⟩ := settled_cases hset <;>
    simpa only [ht, Todo.Fits] using hfits

theorem running_of_due (h : pr.Orderly) (hdue : pr.due ≠ none) : pr.status = .running := by
  by_contra hrun
  exact hdue (h.away hrun).2.2.1

theorem running_of_todo (h : pr.Orderly) (htodo : pr.todo ≠ .idle) : pr.status = .running := by
  by_contra hrun
  exact htodo (h.away hrun).2.2.2

end Proc.Orderly

theorem same_update {k' : Fin q} {x : Pipe} (hcount : x.count = (p k').count)
    (huse : x.inUse = (p k').inUse) (k : Fin q) :
    (update p k' x k).count = (p k).count ∧ (update p k' x k).inUse = (p k).inUse := by
  by_cases hk : k = k'
  · subst hk
    rw [update_self]
    exact ⟨hcount, huse⟩
  · rw [update_of_ne hk]
    exact ⟨rfl, rfl⟩

/-- The count of an end changes as its difference to what the process has. -/
def Balanced (p p' : Fin q → Pipe) (pr pr' : Proc ι n q) : Prop :=
  ∀ k e, (p' k).count e + pr'.ups k e + pr.owed k e = (p k).count e + pr.ups k e + pr'.owed k e

variable {due : Option (Locked q)}

namespace Balanced

theorem turn {status : Status} (hcount : ∀ k, (p' k).count = (p k).count)
    (hholds : ∀ k e, todo.holds k e = pr.todo.holds k e) :
    Balanced p p' pr { pr with status := status, todo := todo } := by
  intro k e
  simp only [owed, ups, held, hcount, hholds]

/-- A slot changes by what becomes due and by what `pipe_create` holds. -/
theorem set {x : Option (Entry q)} (hdue : pr.due = none)
    (h : ∀ k e, refersTo x k e + adjusts due false k e + todo.holds k e =
      refersTo (pr.table fd) k e + adjusts due true k e + pr.todo.holds k e) :
    Balanced p p pr { pr with table := update pr.table fd x, due := due, todo := todo } := by
  intro k e
  have h := h k e
  have hrefs := refs_update pr.table fd x k e
  simp only [owed, ups, held, hdue, adjusts_none]
  omega

/-- A slot is cleared, and the section that lowers the count is due. -/
theorem clear (hdue : pr.due = none) (hholds : ∀ k e, todo.holds k e = pr.todo.holds k e) :
    Balanced p p pr { pr with
      table := update pr.table fd none, due := release (pr.table fd), todo := todo } :=
  .set hdue fun k e => by simp [hholds]

theorem adjust {k : Fin q} {up : Bool}
    (hdue : pr.due = some (.adjust k e up)) (hpos : up = false → 0 < (p k).count e)
    (hfree : ∀ k e up, due ≠ some (.adjust k e up)) :
    Balanced p (update p k ((p k).adjust e up)) pr { pr with due := due } := by
  intro k' e'
  by_cases hk : k' = k
  · subst hk
    by_cases he : e' = e
    · subst he
      cases up with
      | true => simp [owed, ups, held, hdue, hfree, adjusts, Pipe.adjust]
      | false =>
        have hpos := hpos rfl
        simp [owed, ups, held, hdue, hfree, adjusts, Pipe.adjust]
        omega
    · simp [owed, ups, held, hdue, hfree, adjusts, Pipe.adjust, he, Ne.symm he]
  · simp [owed, ups, held, hdue, hfree, adjusts, hk, Ne.symm hk]

end Balanced

theorem Moves.balanced (h : Moves p pr p' pr' ev) (ho : pr.Orderly)
    (hpos : ∀ k e, pr.due = some (.adjust k e false) → 0 < (p k).count e)
    (hfree : ∀ k, (p k).inUse = false → ∀ e, (p k).count e = 0) : Balanced p p' pr pr' := by
  cases h with
  | @adjust k e up hdue =>
    refine .adjust hdue (fun hup => hpos k e (by rw [hdue, hup])) fun k' e' up' => ?_
    split_ifs <;> simp
  | @free k hdue =>
    intro k' e
    by_cases hk : k' = k
    · subst hk
      simp [owed, ups, held, hdue, adjusts]
    · simp [owed, ups, held, hdue, adjusts, hk]
  | @assign new old hdue htodo =>
    have hfits := ho.fits
    rw [htodo] at hfits
    exact .set hdue fun k e => by simp [hfits.2.1, htodo, holds]
  | closeAll hdue htodo => exact .clear hdue fun _ _ => by rw [htodo]; rfl
  | leave hdue htodo => exact .turn (fun _ => rfl) fun _ _ => by rw [htodo]; rfl
  | @copyAll fd l j wanted hdue htodo =>
    intro k e
    have hrefs := refs_update pr.clone fd (pr.table fd) k e
    have hfits := ho.fits
    rw [htodo] at hfits
    rw [hfits.2 fd mem_cons_self] at hrefs
    simp only [owed, ups, held, hdue, htodo, holds, adjusts_none,
      adjusts_retain, adjusts_retain_down, refersTo_none] at hrefs ⊢
    omega
  | unwanted hdue htodo => exact .turn (fun _ => rfl) fun _ _ => by rw [htodo]; rfl
  | @dropAll fd l j hdue htodo =>
    intro k e
    have hrefs := refs_update pr.clone fd none k e
    simp only [owed, ups, held, hdue, htodo, holds, adjusts_none,
      adjusts_release, adjusts_release_up, refersTo_none] at hrefs ⊢
    omega
  | @installRead k' fd hdue htodo hfd =>
    exact .set hdue fun k e => by cases e <;> simp [hfd, hdue, htodo, holds, refersTo]
  | @undoRead k' hdue htodo =>
    intro k e
    have hends : adjusts (some (.adjust k' .read false)) false k e +
        (if k' = k ∧ e = .write then 1 else 0) = if k' = k then 1 else 0 := by
      cases e <;> simp [adjusts]
    have hup : adjusts (some (.adjust k' .read false)) true k e = 0 := by simp [adjusts]
    simp only [owed, ups, held, hdue, htodo, holds, adjusts_none]
    omega
  | @installWrite k' r fd hdue htodo hfd =>
    exact .set hdue fun k e => by cases e <;> simp [hfd, hdue, htodo, holds, refersTo]
  | undoWrite hdue htodo => exact .clear hdue fun _ _ => by rw [htodo]; rfl
  | @closeWrite k' hdue htodo =>
    intro k e
    have hends : adjusts (some (.adjust k' .write false)) false k e =
        if k' = k ∧ e = .write then 1 else 0 := by
      cases e <;> simp [adjusts]
    have hup : adjusts (some (.adjust k' .write false)) true k e = 0 := by simp [adjusts]
    simp only [owed, ups, held, hdue, htodo, holds, adjusts_none]
    omega
  | got hset hm =>
    exact .turn (fun k => (same_update (by rfl) (by rfl) k).1) fun _ _ =>
      (holds_of_settled hset _ _).symm
  | wrote hset hbusy hroom htodo =>
    refine .turn (fun k => (same_update (by rfl) (by rfl) k).1) fun _ _ => ?_
    rw [holds_of_settled hset]
    rcases htodo with rfl | ⟨_, rfl⟩ <;> rfl
  | stay => intro k e; rfl
  | @«open» k' hrun hset hf =>
    intro k e
    have hcount := hfree k' hf e
    have hset := holds_of_settled hset k e
    have hends : (Todo.installRead k' : Todo ι n q).holds k e = if k' = k then 1 else 0 := rfl
    by_cases hk : k = k'
    · subst hk
      simp only [owed, ups, held, hset, hends, update_self, Pipe.fresh, if_true]
      omega
    · simp only [owed, ups, held, hset, hends, update_of_ne hk, if_neg (Ne.symm hk)]
  | dup2 hrun hset hne =>
    exact .clear (settled_cases hset).1 fun _ _ => (holds_of_settled hset _ _).symm
  | close hrun hdue htodo => exact .clear hdue fun _ _ => rfl
  | eof hset | epipe hset | stop hset | dup _ hset | read _ hset | write _ hset
  | terminate _ hset =>
    exact .turn (fun _ => rfl) fun _ _ => (holds_of_settled hset _ _).symm

namespace Proc.Orderly

/-- The places without a condition on the table. -/
theorem of_running (hrun : pr.status = .running) (hup : ∀ k e, pr.due ≠ some (.adjust k e true))
    (hfits : pr.todo.Fits pr.table pr.clone) : pr.Orderly :=
  ⟨fun h => absurd hrun h, fun k e h => absurd h (hup k e), hfits⟩

theorem stopped (h : pr.Orderly) (hset : pr.settled = true) :
    ({ pr with todo := .idle } : Proc ι n q).Orderly where
  away hrun := ⟨(h.away hrun).1, (h.away hrun).2.1, (h.away hrun).2.2.1, rfl⟩
  up := h.up
  fits := h.clone_of_settled hset

/-- A settled process turns to something else, with its table as it was or with less. -/
theorem begun (h : pr.Orderly) (hrun : pr.status = .running) (hset : pr.settled = true)
    (hdue : ∀ k e, due ≠ some (.adjust k e true)) (hfits : todo.Fits t fun _ => none) :
    ({ pr with table := t, due := due, todo := todo } : Proc ι n q).Orderly := by
  refine .of_running hrun hdue ?_
  rwa [h.clone_of_settled hset]

end Proc.Orderly

theorem Moves.orderly (h : Moves p pr p' pr' ev) (ho : pr.Orderly) : pr'.Orderly := by
  have hfits := ho.fits
  cases h with
  | adjust hdue =>
    refine .of_running (ho.running_of_due (by simp [hdue])) (fun k e => ?_) hfits
    split_ifs <;> simp
  | free hdue => exact .of_running (ho.running_of_due (by simp [hdue])) (by simp) hfits
  | @assign new old hdue htodo =>
    rw [htodo] at hfits
    refine ⟨fun h => absurd (ho.running_of_todo (by simp [htodo])) h, fun k e hup => ?_, hfits.1⟩
    have hrefs := refs_retain hup hfits.2.1
    simp only [held]
    omega
  | @closeAll fd l hdue htodo =>
    rw [htodo] at hfits
    exact .of_running (ho.running_of_todo (by simp [htodo])) (release_ne_up _)
      ⟨hfits.1, mem_of_cleared hfits.2⟩
  | leave hdue htodo =>
    rw [htodo] at hfits
    exact ⟨fun _ => ⟨eq_empty_of_mem_nil hfits.2, hfits.1, hdue, rfl⟩, fun k e h => by simp [hdue] at h, hfits.1⟩
  | @copyAll fd l j wanted hdue htodo =>
    rw [htodo] at hfits
    obtain ⟨hfd, hl⟩ := nodup_cons.mp hfits.1
    refine ⟨fun h => absurd (ho.running_of_todo (by simp [htodo])) h, fun k e hup => ?_, hl, ?_⟩
    · have hrefs := refs_retain hup (hfits.2 fd mem_cons_self)
      simp only [held]
      omega
    · intro fd' hfd'
      dsimp only
      rw [update_of_ne (show fd' ≠ fd from fun h => hfd (h ▸ hfd'))]
      exact hfits.2 fd' (mem_cons_of_mem _ hfd')
  | unwanted hdue htodo =>
    exact .of_running (ho.running_of_todo (by simp [htodo])) (by simp [hdue])
      fun fd _ => mem_finRange fd
  | @dropAll fd l j hdue htodo =>
    rw [htodo] at hfits
    exact .of_running (ho.running_of_todo (by simp [htodo])) (release_ne_up _)
      (mem_of_cleared hfits)
  | installRead hdue htodo hfd | undoRead hdue htodo | installWrite hdue htodo hfd
  | closeWrite hdue htodo =>
    rw [htodo] at hfits
    exact .of_running (ho.running_of_todo (by simp [htodo])) (by simp [hdue]) hfits
  | undoWrite hdue htodo =>
    rw [htodo] at hfits
    exact .of_running (ho.running_of_todo (by simp [htodo])) (release_ne_up _) hfits
  | got hset | eof hset | epipe hset | stop hset => exact ho.stopped hset
  | wrote hset hbusy hroom htodo =>
    have hdue := (settled_cases hset).1
    refine ho.begun (ho.running_of_todo hbusy) hset (by simp [hdue]) ?_
    rcases htodo with rfl | ⟨_, rfl⟩ <;> rfl
  | stay => exact ho
  | dup hrun hset hfd hold =>
    have hdue := (settled_cases hset).1
    exact ho.begun hrun hset (by simp [hdue]) ⟨rfl, hfd, fun h => hold (h ▸ hfd)⟩
  | dup2 hrun hset hne =>
    exact ho.begun hrun hset (release_ne_up _) ⟨rfl, update_self .., hne⟩
  | close hrun hdue htodo =>
    rw [htodo] at hfits
    exact .of_running hrun (release_ne_up _) (by rw [htodo]; exact hfits)
  | «open» hrun hset | read hrun hset | write hrun hset =>
    have hdue := (settled_cases hset).1
    exact ho.begun hrun hset (by simp [hdue]) rfl
  | terminate hrun hset =>
    have hdue := (settled_cases hset).1
    exact ho.begun hrun hset (by simp [hdue]) ⟨rfl, fun fd _ => mem_finRange fd⟩

theorem Moves.claims [DecidableEq ι] (h : Moves p pr p' pr' ev) (j : ι) :
    pr'.todo.claims j = pr.todo.claims j := by
  cases h with
  | adjust | free | stay | close => rfl
  | assign _ htodo | closeAll _ htodo | leave _ htodo | copyAll _ htodo | unwanted _ htodo
  | dropAll _ htodo | installRead _ htodo | undoRead _ htodo | installWrite _ htodo
  | undoWrite _ htodo | closeWrite _ htodo => rw [htodo]; rfl
  | wrote hset _ _ htodo =>
    rw [claims_of_settled hset]
    rcases htodo with rfl | ⟨_, rfl⟩ <;> rfl
  | got hset | eof hset | epipe hset | stop hset | «open» _ hset | dup _ hset | dup2 _ hset
  | read _ hset | write _ hset | terminate _ hset => exact (claims_of_settled hset j).symm

theorem Moves.reserved (h : Moves p pr p' pr' ev) (ho : pr.Orderly) :
    pr'.status = .reserved ↔ pr.status = .reserved := by
  cases h with
  | leave _ htodo =>
    rw [ho.running_of_todo (by simp [htodo])]
    simp
  | _ => rfl

/-- A pipe without an open end is given back by one section, and only such a pipe is. -/
def Pipe.Tracked (p : Pipe) (frees : ℕ) : Prop :=
  if p.inUse then frees = if p.dead then 1 else 0 else frees = 0 ∧ p.dead

theorem Pipe.Tracked.not_dead {p : Pipe} {m : ℕ} (h : p.Tracked m)
    (hpos : 0 < p.count e) : p.dead = false ∧ p.inUse = true ∧ m = 0 := by
  have hdead : p.dead = false := by
    cases e <;> simp only [Pipe.dead, decide_eq_false_iff_not, not_and_or] <;> omega
  unfold Pipe.Tracked at h
  split_ifs at h with huse <;> simp_all

theorem Moves.tracked {m : ℕ} {k : Fin q} (h : Moves p pr p' pr' ev)
    (hpos : ∀ k e up, pr.due = some (.adjust k e up) → 0 < (p k).count e)
    (ht : (p k).Tracked (m + pr.frees k)) : (p' k).Tracked (m + pr'.frees k) := by
  have same {pr' : Proc ι n q} {x : Pipe}
      (hx : x.count = (p k).count ∧ x.inUse = (p k).inUse) (hfrees : pr'.frees k = pr.frees k) :
      x.Tracked (m + pr'.frees k) := by
    have hdead : x.dead = (p k).dead := by simp only [Pipe.dead, hx.1]
    rwa [Pipe.Tracked, hdead, hx.2, hfrees]
  cases h with
  | @adjust k' e up hdue =>
    by_cases hk : k = k'
    · subst hk
      obtain ⟨hdead, huse, hm⟩ := ht.not_dead (hpos k e up hdue)
      have hm : m = 0 := by omega
      rw [update_self]
      simp only [Pipe.Tracked, frees, hm, Nat.zero_add]
      rw [show ((p k).adjust e up).inUse = true from huse, if_pos rfl]
      split_ifs <;> simp_all
    · refine same (by simp [update_of_ne hk]) ?_
      simp only [frees, hdue]
      split_ifs <;> simp_all
  | @free k' hdue =>
    by_cases hk : k = k'
    · subst hk
      have hone : pr.frees k = 1 := if_pos hdue
      rw [update_self]
      unfold Pipe.Tracked at ht
      split_ifs at ht with huse hdead
      · have hm : m = 0 := by omega
        have hd : (p k).dead = true := hdead
        simp [Pipe.Tracked, frees, hm, Pipe.dead] at hd ⊢
        exact hd
      · omega
      · omega
    · refine same (by simp [update_of_ne hk]) ?_
      simp [frees, hdue, Ne.symm hk]
  | @«open» k' hrun hset hf =>
    by_cases hk : k = k'
    · subst hk
      rw [update_self]
      unfold Pipe.Tracked at ht
      rw [if_neg (by simp [hf])] at ht
      simp only [Pipe.Tracked, Pipe.fresh, Pipe.dead, frees] at ht ⊢
      simpa using ht.1
    · exact same (by simp [update_of_ne hk]) rfl
  | got | wrote => exact same (same_update (by rfl) (by rfl) k) rfl
  | assign hdue | copyAll hdue => exact same ⟨rfl, rfl⟩ (by simp [frees, hdue, retain_ne_free])
  | closeAll hdue | dropAll hdue | undoWrite hdue =>
    exact same ⟨rfl, rfl⟩ (by simp [frees, hdue, release_ne_free])
  | close _ hdue => exact same ⟨rfl, rfl⟩ (by simp [frees, hdue, release_ne_free])
  | dup2 _ hset =>
    exact same ⟨rfl, rfl⟩ (by simp [frees, (settled_cases hset).1, release_ne_free])
  | undoRead hdue | closeWrite hdue => exact same ⟨rfl, rfl⟩ (by simp [frees, hdue])
  | leave | unwanted | installRead | installWrite | eof | epipe | stop | stay | dup | read | write
  | terminate => exact same ⟨rfl, rfl⟩ rfl

end Processes

section States

variable [Fintype ι] [DecidableEq ι]

/-- The counts match the slots of all processes and what is still due, and every reserved process
belongs to one fork. -/
structure Sound (s : State ι n q) : Prop where
  orderly : ∀ i, (s.proc i).Orderly
  balance : ∀ k e, (s.pipes k).count e + ∑ i, (s.proc i).ups k e = ∑ i, (s.proc i).owed k e
  tracked : ∀ k, (s.pipes k).Tracked (∑ i, (s.proc i).frees k)
  claimed : ∀ j, ∑ i, (s.proc i).todo.claims j = if (s.proc j).status = .reserved then 1 else 0

variable {s t : State ι n q} {ev : List (Event q)} {pr : Proc ι n q}

omit [Fintype ι] [DecidableEq ι] in
theorem Proc.Orderly.ups_le (h : pr.Orderly) (k : Fin q) (e : End) :
    pr.ups k e ≤ pr.held k e ∧ (0 < pr.held k e → pr.ups k e < pr.held k e) := by
  unfold ups adjusts
  split_ifs with hdue
  · have := h.up k e hdue
    omega
  · omega

namespace Sound

theorem count_pos (h : Sound s) (i : ι) {k : Fin q}
    (hi : (s.proc i).ups k e < (s.proc i).owed k e) : 0 < (s.pipes k).count e := by
  have hlt : ∑ i, (s.proc i).ups k e < ∑ i, (s.proc i).owed k e := by
    refine sum_lt_sum (fun i _ => ?_) ⟨i, mem_univ i, hi⟩
    have hle := ((h.orderly i).ups_le k e).1
    unfold owed
    omega
  have hbalance := h.balance k e
  omega

/-- A count is positive while a section is due to adjust it. -/
theorem count_pos_of_due (h : Sound s) {i : ι} {k : Fin q} {up : Bool}
    (hdue : (s.proc i).due = some (.adjust k e up)) : 0 < (s.pipes k).count e := by
  refine h.count_pos i ?_
  cases up with
  | true =>
    have hup := (h.orderly i).up k e hdue
    simp only [ups, owed, adjusts, hdue, if_true]
    omega
  | false => simp [ups, owed, adjusts, hdue]

/-- No slot refers to an end whose count is zero. -/
theorem held_of_count_zero (h : Sound s) {k : Fin q} (hcount : (s.pipes k).count e = 0)
    (i : ι) : (s.proc i).held k e = 0 := by
  by_contra hheld
  have hups := ((h.orderly i).ups_le k e).2 (by omega)
  have hpos := h.count_pos i (show (s.proc i).ups k e < (s.proc i).owed k e by
    unfold owed
    omega)
  omega

theorem count_of_free (h : Sound s) {k : Fin q} (hfree : (s.pipes k).inUse = false) (e : End) :
    (s.pipes k).count e = 0 := by
  by_contra hcount
  have := (h.tracked k).not_dead (e := e) (by omega)
  simp [hfree] at this

theorem own {i : ι} {p : Fin q → Pipe} (h : Sound s)
    (hm : Moves s.pipes (s.proc i) p pr ev) : Sound ⟨p, update s.proc i pr⟩ where
  orderly j := by
    by_cases hj : j = i
    · subst hj
      simpa using hm.orderly (h.orderly j)
    · simpa [hj] using h.orderly j
  balance k e := by
    have hlocal := hm.balanced (h.orderly i) (fun k e => h.count_pos_of_due) (fun k => h.count_of_free)
      k e
    have hups := sum_update (fun pr => pr.ups k e) s.proc i pr
    have howed := sum_update (fun pr => pr.owed k e) s.proc i pr
    have hbalance := h.balance k e
    dsimp only at hups howed ⊢
    omega
  tracked k := by
    have hsum := add_sum_erase univ (fun i => (s.proc i).frees k) (mem_univ i)
    have hfrees := sum_update (fun pr => pr.frees k) s.proc i pr
    have ht := h.tracked k
    dsimp only at hsum hfrees ht ⊢
    rw [← hsum, Nat.add_comm] at ht
    convert hm.tracked (fun k e up => h.count_pos_of_due) ht using 1
    omega
  claimed j := by
    have hclaims := sum_update (fun pr => pr.todo.claims j) s.proc i pr
    have hstatus : (update s.proc i pr j).status = .reserved ↔ (s.proc j).status = .reserved := by
      by_cases hj : j = i
      · subst hj
        rw [update_self]
        exact hm.reserved (h.orderly j)
      · rw [update_of_ne hj]
    have hclaimed := h.claimed j
    have hsame := hm.claims j
    simp only [hstatus]
    omega

/-- A count over the processes of which two change. -/
theorem sum_pair (f : Proc ι n q → ℕ) {i j : ι} (hij : j ≠ i) (x y : Proc ι n q) :
    (∑ l, f (((s.setProc i x).setProc j y).proc l)) + f (s.proc i) + f (s.proc j) =
      (∑ l, f (s.proc l)) + f x + f y := by
  have hi := sum_update f s.proc i x
  have hj := sum_update f (update s.proc i x) j y
  rw [update_of_ne hij] at hj
  simp only [State.setProc]
  omega

theorem reserved_of_claim (h : Sound s) {i j : ι} (hclaim : (s.proc i).todo.claims j = 1) :
    (s.proc j).status = .reserved := by
  have hle : (s.proc i).todo.claims j ≤ ∑ i, (s.proc i).todo.claims j :=
    single_le_sum (f := fun i => (s.proc i).todo.claims j) (fun _ _ => Nat.zero_le _)
      (mem_univ i)
  have hclaimed := h.claimed j
  by_contra hres
  rw [if_neg hres] at hclaimed
  omega

/-- The child of a fork is another process, without a program. -/
theorem child (h : Sound s) {i j : ι} (hclaim : (s.proc i).todo.claims j = 1) :
    (s.proc j).status = .reserved ∧ (s.proc i).status = .running ∧ j ≠ i := by
  have hres := h.reserved_of_claim hclaim
  have hrun := (h.orderly i).running_of_todo fun hidle => by
    rw [hidle] at hclaim
    cases hclaim
  refine ⟨hres, hrun, ?_⟩
  rintro rfl
  rw [hrun] at hres
  cases hres

/-- A step of a fork: the parent `i` goes on, and the child `j` changes, which has no program yet. -/
theorem pair {i j : ι} (h : Sound s) (hij : j ≠ i) (hj : (s.proc j).status ≠ .running)
    {x y : Proc ι n q} (hx : x.Orderly) (hy : y.Orderly)
    (hchild : y.clone = (s.proc j).clone ∧ y.due = (s.proc j).due ∧ y.todo = (s.proc j).todo)
    (howed : ∀ k e, x.owed k e + refs y.table k e = (s.proc i).owed k e)
    (hxdue : x.due = none) (hidue : (s.proc i).due = none) (hstatus : x.status = (s.proc i).status)
    (hclaims : ∀ l, x.todo.claims l + (if l = j ∧ (s.proc j).status = .reserved then 1 else 0) =
      (s.proc i).todo.claims l + if l = j ∧ y.status = .reserved then 1 else 0) :
    Sound ((s.setProc i x).setProc j y) := by
  obtain ⟨htable, hclone, hdue, htodo⟩ := (h.orderly j).away hj
  obtain ⟨hyclone, hydue, hytodo⟩ := hchild
  rw [hclone] at hyclone
  rw [hdue] at hydue
  rw [htodo] at hytodo
  have hproc : ((s.setProc i x).setProc j y).proc = update (update s.proc i x) j y := rfl
  constructor
  · intro l
    rw [hproc]
    by_cases hl : l = j
    · rwa [hl, update_self]
    · rw [update_of_ne hl]
      by_cases hl : l = i
      · rwa [hl, update_self]
      · rw [update_of_ne hl]
        exact h.orderly l
  · intro k e
    have hups := sum_pair (s := s) (fun pr => pr.ups k e) hij x y
    have hsum := sum_pair (s := s) (fun pr => pr.owed k e) hij x y
    have hbalance := h.balance k e
    have hlocal := howed k e
    have hold : (s.proc j).owed k e = 0 := by
      simp [owed, held, htable, hclone, hdue, htodo, refs_empty, holds]
    have hnew : y.owed k e = refs y.table k e := by
      simp [owed, held, hyclone, hydue, hytodo, refs_empty, holds]
    change (s.pipes k).count e + _ = _
    simp only [ups, hxdue, hidue, hdue, hydue, adjusts_none] at hups hbalance ⊢
    omega
  · intro k
    have hfrees := sum_pair (s := s) (fun pr => pr.frees k) hij x y
    have ht := h.tracked k
    simp only [frees, hxdue, hidue, hdue, hydue, reduceCtorEq, if_false, Nat.add_zero]
      at hfrees ht ⊢
    rw [hfrees]
    exact ht
  · intro l
    have hsum := sum_pair (s := s) (fun pr => pr.todo.claims l) hij x y
    have hclaimed := h.claimed l
    have hlocal := hclaims l
    have hidle : (idle : Todo ι n q).claims l = 0 := rfl
    rw [htodo, hytodo, hidle, hproc] at hsum
    rw [hproc]
    by_cases hl : l = j
    · subst hl
      simp only [update_self, true_and] at hlocal ⊢
      omega
    · simp only [update_of_ne hl, hl, false_and, if_false] at hlocal ⊢
      by_cases hl : l = i
      · subst hl
        rw [update_self, hstatus]
        omega
      · rw [update_of_ne hl]
        omega

theorem change (h : Sound s) (hc : Change s t ev) : Sound t := by
  cases hc with
  | own hm => exact h.own hm
  | @fork i j wanted hrun hset hfree =>
    have hij : j ≠ i := by
      rintro rfl
      rw [hrun] at hfree
      cases hfree
    have hdue := (settled_cases hset).1
    have hclone := (h.orderly i).clone_of_settled hset
    have haway := (h.orderly j).away (by simp [hfree])
    refine h.pair hij (by simp [hfree]) ?_ ⟨fun _ => haway, (h.orderly j).up, (h.orderly j).fits⟩
      ⟨rfl, rfl, rfl⟩ ?_ hdue hdue rfl ?_
    · exact .of_running hrun (by simp [hdue]) ⟨nodup_finRange n, fun fd _ => by simp [hclone]⟩
    · intro k e
      rw [owed, owed, holds_of_settled hset]
      simp [held, haway.1, refs_empty, holds]
    · intro l
      rw [claims_of_settled hset]
      simp [claims, hfree, eq_comm]
  | @born i j hdue htodo =>
    obtain ⟨hres, hrun, hij⟩ := h.child (i := i) (j := j) (by simp [htodo, claims])
    have haway := (h.orderly j).away (by simp [hres])
    refine h.pair hij (by simp [hres]) (.of_running hrun (by simp [hdue]) rfl) ?_ ⟨rfl, rfl, rfl⟩ ?_
      hdue hdue rfl ?_
    · refine .of_running rfl (by simp [haway.2.2.1]) ?_
      simp only [haway.2.1, haway.2.2.2, Todo.Fits]
    · intro k e
      simp only [owed, held, htodo, refs_empty, holds]
      omega
    · intro l
      simp [htodo, claims, hres, eq_comm]
  | @forgone i j hdue htodo =>
    obtain ⟨hres, hrun, hij⟩ := h.child (i := i) (j := j) (by simp [htodo, claims])
    have haway := (h.orderly j).away (by simp [hres])
    have hfits := (h.orderly i).fits
    rw [htodo] at hfits
    refine h.pair hij (by simp [hres])
      (.of_running hrun (by simp [hdue]) (eq_empty_of_mem_nil hfits))
      ⟨fun _ => haway, (h.orderly j).up, (h.orderly j).fits⟩ ⟨rfl, rfl, rfl⟩ ?_ hdue hdue rfl ?_
    · intro k e
      simp [owed, held, htodo, haway.1, refs_empty, holds]
    · intro l
      simp [htodo, claims, hres, eq_comm]

end Sound

end States

end Tach.Pipes
