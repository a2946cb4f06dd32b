import Tach.FileCalls
import Tach.Histories
import Tach.Tilings

/-!
Descriptors of regular files and their positions. `fd_alloc` gives a new descriptor the position 0;
`fd_dup` and `fd_table_clone` copy an entry with its position, so that descriptors that come from one
call of `open` have a position each. A descriptor is behind once another one of its set has moved. As
long as no descriptor is used that is behind, it makes no difference.
-/

namespace Tach.Positions

open Function List FileCalls Tilings

section Model

variable {ι ν φ α : Type*} {n : ℕ} [DecidableEq ι]

/-- `struct fd_entry`. `origin` says by which call of `open` the file was opened, and `seen` how often
the descriptors of this origin had moved when this one was made or last used. -/
structure Entry (ν : Type*) where
  vnode : ν
  readable : Bool
  writable : Bool
  append : Bool
  offset : ℕ
  origin : ℕ
  seen : ℕ

abbrev Table (ν : Type*) (n : ℕ) := Fin n → Option (Entry ν)

/-- The files, the tables of the processes, the number of calls of `open`, and how often the descriptors
of each of them have moved. -/
structure State (ι ν φ : Type*) (n : ℕ) where
  store : φ
  tables : ι → Option (Table ν n)
  opened : ℕ
  moves : ℕ → ℕ

namespace State

variable (s : State ι ν φ n)

/-- `fd_get`. -/
def entry (i : ι) (fd : Fin n) : Option (Entry ν) := (s.tables i).bind fun t => t fd

def put (i : ι) (fd : Fin n) (x : Option (Entry ν)) : State ι ν φ n :=
  { s with tables := update s.tables i ((s.tables i).map fun t => update t fd x) }

end State

/-- An operation: the origin of the descriptor, its position before and after. -/
structure Op where
  origin : ℕ
  start : ℕ
  left : ℕ
  deriving DecidableEq

inductive Action (ι ν α : Type*) (n : ℕ)
  | open (i : ι) (vnode : ν) (readable writable append : Bool)
  | close (i : ι) (fd : Fin n)
  | dup (i : ι) (old new : Fin n)
  | fork (i j : ι)
  | exit (i : ι)
  | read (i : ι) (fd : Fin n) (count : ℕ) (answers : ℕ → α × Bool)
  | write (i : ι) (fd : Fin n) (data : List UInt8) (answers : ℕ → Option α)
  | lseek (i : ι) (fd : Fin n) (delta whence : Int)

variable (B : ν → Backing φ α)

def firstFree (t : Table ν n) : Option (Fin n) := (List.finRange n).find? fun fd => (t fd).isNone

/-- The end of a call through a descriptor: the position `left` goes into its entry. -/
def finish (s : State ι ν φ n) (i : ι) (fd : Fin n) (e : Entry ν) (store : φ) (left : ℕ) :
    State ι ν φ n × List Op :=
  let moves := if left = e.offset then s.moves
    else update s.moves e.origin (s.moves e.origin + 1)
  ({ s.put i fd (some { e with offset := left, seen := moves e.origin }) with
      store := store
      moves := moves }, [⟨e.origin, e.offset, left⟩])

/-- One call of a process. A call with a descriptor that is not open, or not open for it, does
nothing. -/
def next (s : State ι ν φ n) : Action ι ν α n → Option (State ι ν φ n × List Op)
  | .open i vnode readable writable append =>
    ((s.tables i).bind firstFree).map fun fd =>
      ({ s.put i fd (some ⟨vnode, readable, writable, append, 0, s.opened, s.moves s.opened⟩) with
          opened := s.opened + 1 }, [])
  | .close i fd => some (s.put i fd none, [])
  | .dup i old new => (s.entry i old).map fun e => (s.put i new (some e), [])
  | .fork i j =>
    match s.tables i, s.tables j with
    | some t, none => some ({ s with tables := update s.tables j (some t) }, [])
    | _, _ => none
  | .exit i => some ({ s with tables := update s.tables i none }, [])
  | .read i fd count answers =>
    ((s.entry i fd).filter Entry.readable).map fun e =>
      let r := sysRead (B e.vnode) answers s.store e.offset count
      finish s i fd e r.1 r.2.1
  | .write i fd data answers =>
    ((s.entry i fd).filter Entry.writable).map fun e =>
      let r := sysWrite (B e.vnode) answers s.store e.append e.offset data
      finish s i fd e r.1 r.2.1
  | .lseek i fd delta whence =>
    (s.entry i fd).map fun e =>
      match sysLseek (B e.vnode) s.store e.offset delta whence with
      | .ok target => finish s i fd e s.store target
      | .error _ => finish s i fd e s.store e.offset

/-- No other descriptor of the same origin has moved since this one was made or last used. -/
def Current (s : State ι ν φ n) (i : ι) (fd : Fin n) : Prop :=
  ∀ e ∈ s.entry i fd, e.seen = s.moves e.origin

def UpToDate (s : State ι ν φ n) : Action ι ν α n → Prop
  | .read i fd _ _ => Current s i fd
  | .write i fd _ _ => Current s i fd
  | .lseek i fd _ _ => Current s i fd
  | _ => True

abbrev Run (ok : State ι ν φ n → Action ι ν α n → Prop) := Histories.Run (next B) ok

def start (store : φ) (running : ι → Bool) : State ι ν φ n where
  store := store
  tables i := if running i then some fun _ => none else none
  opened := 0
  moves _ := 0

/-- The positions that the operations left, one for each origin. -/
def position (l : List Op) : ℕ → ℕ :=
  l.foldl (fun p x => update p x.origin x.left) fun _ => 0

def opsOf (l : List Op) (origin : ℕ) : List Op := l.filter fun x => x.origin = origin

/-- Every operation starts where the one before it left the position. -/
def Chained (l : List Op) : Prop :=
  ∀ l₁ x l₂, l = l₁ ++ x :: l₂ → x.start = position l₁ x.origin

end Model

section Histories

variable {l : List Op} {x : Op} {o : ℕ}

theorem position_concat : position (l ++ [x]) = update (position l) x.origin x.left := by
  rw [position, foldl_append]
  rfl

theorem chained_concat : Chained (l ++ [x]) ↔ Chained l ∧ x.start = position l x.origin := by
  refine ⟨fun h => ⟨fun l₁ y l₂ hl => ?_, h l x [] rfl⟩, fun ⟨h, hx⟩ l₁ y l₂ hl => ?_⟩
  · exact h l₁ y (l₂ ++ [x]) (by rw [hl]; simp)
  · rcases Histories.split_concat hl with ⟨rfl, rfl, -⟩ | ⟨l', hl', -⟩
    · exact hx
    · exact h l₁ y l' hl'

/-- Operations on one file that only go forward cover it piece by piece. -/
theorem Chained.tiles (h : Chained l) (hforward : ∀ x ∈ opsOf l o, x.start ≤ x.left) :
    Tiles Op.start (fun x => x.left - x.start) 0 (opsOf l o) (position l o) := by
  induction l using List.reverseRecOn with
  | nil => rfl
  | append_singleton l x ih =>
    obtain ⟨hl, hstart⟩ := chained_concat.mp h
    have hops : opsOf (l ++ [x]) o = opsOf l o ++ opsOf [x] o := filter_append ..
    rw [hops] at hforward ⊢
    have hfirst := ih hl fun y hy => hforward y (mem_append_left _ hy)
    rw [position_concat]
    by_cases ho : x.origin = o
    · subst ho
      have hone : opsOf [x] x.origin = [x] := by simp [opsOf]
      rw [hone] at hforward ⊢
      rw [update_self]
      have hle := hforward x (mem_append_right _ mem_cons_self)
      refine tiles_append.mpr ⟨_, hfirst, hstart, ?_⟩
      simp only [Tiles]
      omega
    · have hnone : opsOf [x] o = [] := by simp [opsOf, ho]
      rw [hnone, append_nil, update_of_ne (Ne.symm ho)]
      exact hfirst

end Histories

section Runs

variable {ι ν φ α : Type*} {n : ℕ} [DecidableEq ι] {B : ν → Backing φ α} {s t : State ι ν φ n}
  {l : List Op} {i j : ι} {fd : Fin n} {e : Entry ν}

variable {x : Option (Entry ν)} {ops : List Op}

theorem entry_put {g : Fin n} (h : (s.put i fd x).entry j g = some e) :
    x = some e ∨ s.entry j g = some e := by
  unfold State.put State.entry at h
  dsimp only at h
  by_cases hj : j = i
  · subst hj
    rw [update_self] at h
    cases ht : s.tables j with
    | none => simp [ht] at h
    | some t =>
      simp only [ht, Option.map_some, Option.bind_some] at h
      by_cases hg : g = fd
      · rw [hg, update_self] at h
        exact .inl h
      · rw [update_of_ne hg] at h
        exact .inr (by rw [State.entry, ht, Option.bind_some, h])
  · rw [update_of_ne hj] at h
    exact .inr h

/-- A descriptor that is not behind is where the last operation of its set left off. -/
structure Fits (l : List Op) (s : State ι ν φ n) (e : Entry ν) : Prop where
  known : e.origin < s.opened
  seen : e.seen ≤ s.moves e.origin
  current : e.seen = s.moves e.origin → e.offset = position l e.origin

structure Agrees (l : List Op) (s : State ι ν φ n) : Prop where
  entries : ∀ i fd e, s.entry i fd = some e → Fits l s e
  unopened : ∀ o, s.opened ≤ o → position l o = 0
  chained : Chained l

theorem Agrees.put (h : Agrees l s) (hx : ∀ e, x = some e → Fits l s e) :
    Agrees l (s.put i fd x) := by
  refine ⟨fun j g e he => ?_, h.unopened, h.chained⟩
  have hfits : Fits l s e := by
    rcases entry_put he with hnew | hold
    · exact hx e hnew
    · exact h.entries j g e hold
  exact ⟨hfits.known, hfits.seen, hfits.current⟩

omit [DecidableEq ι] in
/-- A table of which every entry was in some table before. -/
theorem Agrees.tables {tables : ι → Option (Table ν n)} (h : Agrees l s)
    (htables : ∀ i t, tables i = some t → ∃ j, s.tables j = some t) :
    Agrees l { s with tables := tables } := by
  refine ⟨fun i fd e he => ?_, h.unopened, h.chained⟩
  obtain ⟨t, ht, hfd⟩ := Option.bind_eq_some_iff.mp he
  obtain ⟨j, hj⟩ := htables i t ht
  have hfits := h.entries j fd e (by rw [State.entry, hj, Option.bind_some, hfd])
  exact ⟨hfits.known, hfits.seen, hfits.current⟩

/-- An operation through a descriptor that is not behind. -/
theorem Agrees.finish {store : φ} {left : ℕ} (h : Agrees l s)
    (he : s.entry i fd = some e) (hcurrent : Current s i fd)
    (hfinish : finish s i fd e store left = (t, ops)) : Agrees (l ++ ops) t := by
  have hfits := h.entries i fd e he
  have hseen := hcurrent e he
  have hstart := hfits.current hseen
  cases hfinish
  refine ⟨fun j g e' he' => ?_, fun o ho => ?_, chained_concat.mpr ⟨h.chained, hstart⟩⟩
  · rcases entry_put he' with hnew | hold
    · cases hnew
      refine ⟨hfits.known, le_rfl, fun _ => ?_⟩
      rw [position_concat, update_self]
    · have hfits' := h.entries j g e' hold
      refine ⟨hfits'.known, ?_, fun hseen' => ?_⟩
      · dsimp only
        have := hfits'.seen
        split
        · exact this
        · rw [update_apply]
          split
          · rename_i heq
            rw [heq] at this
            omega
          · exact this
      · -- the others are behind now, unless the position is the same
        dsimp only at hseen'
        rw [position_concat, update_apply]
        have := hfits'.seen
        split at hseen'
        · rename_i hsame
          rw [hfits'.current hseen']
          split
          · rename_i heq
            rw [heq, hsame, hstart]
          · rfl
        · rw [update_apply] at hseen'
          split at hseen'
          · rename_i heq
            rw [heq] at this
            omega
          · rename_i hne
            rw [if_neg hne]
            exact hfits'.current hseen'
  · have hknown : e.origin < s.opened := hfits.known
    rw [position_concat, update_of_ne (fun heq => by
      rw [heq] at ho
      exact absurd ho (not_le.mpr hknown))]
    exact h.unopened o ho

theorem step_agrees {a : Action ι ν α n} (h : Agrees l s) (hok : UpToDate s a)
    (hnext : next B s a = some (t, ops)) : Agrees (l ++ ops) t := by
  cases a with
  | «open» i vnode readable writable append =>
    obtain ⟨fd, -, heq⟩ := Option.map_eq_some_iff.mp hnext
    cases heq
    rw [append_nil]
    have hcounted : Agrees l { s with opened := s.opened + 1 } := by
      refine ⟨fun j g e he => ?_, fun o ho => h.unopened o (Nat.le_of_succ_le ho), h.chained⟩
      have hfits := h.entries j g e he
      exact ⟨Nat.lt_succ_of_lt hfits.known, hfits.seen, hfits.current⟩
    exact hcounted.put fun e he => by
      cases he
      exact ⟨Nat.lt_succ_self _, le_rfl, fun _ => (h.unopened _ le_rfl).symm⟩
  | close i fd =>
    cases hnext
    rw [append_nil]
    exact h.put nofun
  | dup i old new =>
    obtain ⟨e, he, heq⟩ := Option.map_eq_some_iff.mp hnext
    cases heq
    rw [append_nil]
    exact h.put fun e' he' => by
      cases he'
      exact h.entries i old e he
  | fork i j =>
    simp only [next] at hnext
    split at hnext
    · rename_i t hi hj
      cases hnext
      rw [append_nil]
      refine h.tables fun k t' hk => ?_
      by_cases hkj : k = j
      · rw [hkj, update_self] at hk
        exact ⟨i, hi.trans hk⟩
      · rw [update_of_ne hkj] at hk
        exact ⟨k, hk⟩
    · cases hnext
  | exit i =>
    cases hnext
    rw [append_nil]
    refine h.tables fun k t' hk => ?_
    by_cases hki : k = i
    · rw [hki, update_self] at hk
      cases hk
    · rw [update_of_ne hki] at hk
      exact ⟨k, hk⟩
  | read i fd count answers =>
    obtain ⟨e, he, heq⟩ := Option.map_eq_some_iff.mp hnext
    have hentry := (Option.filter_eq_some_iff.mp he).1
    exact h.finish hentry hok heq
  | write i fd data answers =>
    obtain ⟨e, he, heq⟩ := Option.map_eq_some_iff.mp hnext
    have hentry := (Option.filter_eq_some_iff.mp he).1
    exact h.finish hentry hok heq
  | lseek i fd delta whence =>
    obtain ⟨e, hentry, heq⟩ := Option.map_eq_some_iff.mp hnext
    split at heq <;> exact h.finish hentry hok heq

/-- In every run in which no descriptor is used that is behind, each operation starts where the last
one on a descriptor of its set left off, and operations that go forward lie one behind the other. -/
theorem positions_shared (store : φ) (running : ι → Bool)
    (h : Run B UpToDate (start store running : State ι ν φ n) l s) :
    Chained l ∧ ∀ o, (∀ x ∈ opsOf l o, x.start ≤ x.left) →
      Tiles Op.start (fun x => x.left - x.start) 0 (opsOf l o) (position l o) := by
  have hagrees : Agrees l s := by
    refine h.invariant ⟨fun i fd e he => ?_, fun _ _ => rfl, ?_⟩ ?_
    · unfold State.entry start at he
      dsimp only at he
      split at he <;> cases he
    · intro l₁ x l₂ hl
      simp at hl
    · exact fun l u a v ops hu hok hnext => step_agrees hu hok hnext
  exact ⟨hagrees.chained, fun o ho => hagrees.chained.tiles ho⟩

/-- One process opens an empty file and runs two children one after the other, each of which writes a
byte to the descriptor that it inherits. The second starts at 0 as the first did, and stores over its
byte. -/
theorem child_overwrites : ∃ s : State (Fin 3) Unit TmpFile 1,
      Run (fun _ : Unit => tmpfs) (fun _ _ => True) (start ⟨fun _ => 0, 0, 0⟩ fun i => i = 0)
        [⟨0, 0, 1⟩, ⟨0, 0, 1⟩] s ∧ s.store.bytes = [98] :=
  ⟨_, Histories.Run.of_exec (fun _ _ => true) (fun _ _ _ => trivial)
    [.open 0 () true true false, .fork 0 1, .write 1 0 [97] fun _ => some (some fun _ => 0), .exit 1,
      .fork 0 2, .write 2 0 [98] fun _ => some (some fun _ => 0), .exit 2] rfl, by decide⟩

/-- A descriptor that is copied after a write goes on behind it. -/
theorem positions_shared_after_dup : ∃ s : State (Fin 1) Unit TmpFile 2,
      Run (fun _ : Unit => tmpfs) UpToDate (start ⟨fun _ => 0, 0, 0⟩ fun _ => true)
        [⟨0, 0, 1⟩, ⟨0, 1, 2⟩] s ∧ s.store.bytes = [97, 98] ∧ Chained [⟨0, 0, 1⟩, ⟨0, 1, 2⟩] := by
  obtain ⟨s, hrun, hbytes⟩ : ∃ s : State (Fin 1) Unit TmpFile 2,
      Run (fun _ => tmpfs) UpToDate (start ⟨fun _ => 0, 0, 0⟩ fun _ => true)
        [⟨0, 0, 1⟩, ⟨0, 1, 2⟩] s ∧ s.store.bytes = [97, 98] := by
    refine ⟨_, Histories.Run.of_exec (fun u a => match a with
        | .open _ _ _ _ _ => true
        | .dup _ _ _ => true
        | .write i fd _ _ => (u.entry i fd).all fun e => e.seen = u.moves e.origin
        | _ => false) (fun u a hpass => ?_)
      [.open 0 () true true false, .write 0 0 [97] fun _ => some (some fun _ => 0), .dup 0 0 1,
        .write 0 1 [98] fun _ => some (some fun _ => 0)] rfl, by decide⟩
    match a, hpass with
    | .open _ _ _ _ _, _ => exact trivial
    | .dup _ _ _, _ => exact trivial
    | .write i fd _ _, hpass =>
      intro e he
      dsimp only at hpass
      rw [Option.mem_def.mp he] at hpass
      exact of_decide_eq_true hpass
  exact ⟨s, hrun, hbytes, (positions_shared _ _ hrun).1⟩

end Runs

end Tach.Positions
