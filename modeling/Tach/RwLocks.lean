import Tach.Interleaving

/-!
The reader/writer lock of rwlock.c. A load, a store and a read-modify-write of one of the two
counters is one step of a thread; between its last test and its update other threads may move.
Exclusion holds as long as an update still finds what its thread has tested.
-/

namespace Tach.RwLocks

open Interleaving

/-- The counters of `rwlock_t`, which are `int32_t`. -/
structure RwLock where
  readers : BitVec 32
  writers : BitVec 32
  deriving DecidableEq

/-- Where a thread is in the code of the lock. -/
inductive Point
  | out
  /-- `rwlock_read_lock`: the load of `writers`. -/
  | readTest
  /-- `rwlock_read_lock`: the increment. -/
  | readEnter
  /-- `rwlock_write_lock`: the load of `readers`. -/
  | writeTestReaders
  /-- `rwlock_write_lock`: the load of `writers`. -/
  | writeTestWriters
  /-- `rwlock_write_lock`: the store. -/
  | writeEnter
  deriving DecidableEq

/-- A thread with the locks that it was granted and has not given back. -/
structure Thread where
  point : Point
  reads : ℕ
  writes : ℕ
  deriving DecidableEq

/-- What a thread does next: a call, or the next step of the call it is in. -/
inductive Choice
  | readLock
  | readUnlock
  | writeLock
  | writeUnlock
  | go
  deriving DecidableEq

def rwlockInit : RwLock := ⟨0, 0⟩

def program : Program Choice RwLock Thread
  | .readLock, l, t => if t.point = .out then some (l, { t with point := .readTest }) else none
  | .writeLock, l, t =>
    if t.point = .out then some (l, { t with point := .writeTestReaders }) else none
  | .readUnlock, l, t =>
    if t.point = .out ∧ 0 < t.reads then
      some ({ l with readers := l.readers - 1 }, { t with reads := t.reads - 1 })
    else none
  | .writeUnlock, l, t =>
    if t.point = .out ∧ 0 < t.writes then
      some ({ l with writers := 0 }, { t with writes := t.writes - 1 })
    else none
  | .go, l, t =>
    match t.point with
    | .out => none
    | .readTest =>
      some (l, { t with point := if l.writers ≠ 0 then .readTest else .readEnter })
    | .readEnter =>
      some ({ l with readers := l.readers + 1 }, { t with point := .out, reads := t.reads + 1 })
    | .writeTestReaders =>
      some (l, { t with point := if l.readers ≠ 0 then .writeTestReaders else .writeTestWriters })
    | .writeTestWriters =>
      some (l, { t with point := if l.writers ≠ 0 then .writeTestReaders else .writeEnter })
    | .writeEnter =>
      some ({ l with writers := 1 }, { t with point := .out, writes := t.writes + 1 })

/-- An update still finds what the thread has tested, and `readers` does not wrap around. -/
def Current {ι : Type*} (w : World ι RwLock Thread) (i : ι) (a : Choice) : Prop :=
  a = .go → ((w.thread i).point = .readEnter → w.shared.writers = 0 ∧ w.shared.readers ≠ -1) ∧
    ((w.thread i).point = .writeEnter → w.shared.readers = 0 ∧ w.shared.writers = 0)

instance {ι : Type*} (w : World ι RwLock Thread) (i : ι) (a : Choice) : Decidable (Current w i a) :=
  inferInstanceAs (Decidable (_ → _))

/-- A lock after `rwlock_init`, which no thread has touched. -/
def fresh (ι : Type*) : World ι RwLock Thread := ⟨rwlockInit, fun _ => ⟨.out, 0, 0⟩⟩

section Exclusion

variable {ι : Type*} [Fintype ι] [DecidableEq ι] {w v : World ι RwLock Thread} {i : ι} {a : Choice}

def reads (w : World ι RwLock Thread) : ℕ := ∑ i, (w.thread i).reads

def writes (w : World ι RwLock Thread) : ℕ := ∑ i, (w.thread i).writes

/-- The counters count the locks that are held, and one write lock excludes the others. -/
structure Counted (w : World ι RwLock Thread) : Prop where
  readers : w.shared.readers = BitVec.ofNat 32 (reads w)
  writers : w.shared.writers = BitVec.ofNat 32 (writes w)
  bound : reads w < 2 ^ 32
  single : writes w ≤ 1
  excluded : writes w = 1 → reads w = 0

theorem ofNat_eq_zero {n : ℕ} (hn : n < 2 ^ 32) (h : BitVec.ofNat 32 n = 0) : n = 0 := by
  have hmod : n % 2 ^ 32 = 0 := congrArg BitVec.toNat h
  rwa [Nat.mod_eq_of_lt hn] at hmod

/-- What a step does to the lock and to the counts. -/
inductive Moves (w v : World ι RwLock Thread) (i : ι) (a : Choice) : Prop
  | same (hshared : v.shared = w.shared) (hreads : reads v = reads w) (hwrites : writes v = writes w)
  | enterRead (ha : a = .go) (hpoint : (w.thread i).point = .readEnter)
      (hshared : v.shared = { w.shared with readers := w.shared.readers + 1 })
      (hreads : reads v = reads w + 1) (hwrites : writes v = writes w)
  | enterWrite (ha : a = .go) (hpoint : (w.thread i).point = .writeEnter)
      (hshared : v.shared = { w.shared with writers := 1 }) (hreads : reads v = reads w)
      (hwrites : writes v = writes w + 1)
  | leaveRead (hshared : v.shared = { w.shared with readers := w.shared.readers - 1 })
      (hreads : reads w = reads v + 1) (hwrites : writes v = writes w)
  | leaveWrite (hshared : v.shared = { w.shared with writers := 0 }) (hreads : reads v = reads w)
      (hwrites : writes w = writes v + 1)

theorem reads_put (w : World ι RwLock Thread) (l : RwLock) (i : ι) (t : Thread) :
    reads (w.put l i t) + (w.thread i).reads = reads w + t.reads :=
  w.sum_put (fun t => t.reads) l i t

theorem writes_put (w : World ι RwLock Thread) (l : RwLock) (i : ι) (t : Thread) :
    writes (w.put l i t) + (w.thread i).writes = writes w + t.writes :=
  w.sum_put (fun t => t.writes) l i t

theorem step_moves (h : w.step program i a = some v) : Moves w v i a := by
  obtain ⟨l, t, hp, rfl⟩ := World.step_cases h
  have hreads := reads_put w l i t
  have hwrites := writes_put w l i t
  cases a with
  | readLock =>
    simp only [program] at hp
    split_ifs at hp
    cases hp
    exact .same rfl (by simpa using hreads) (by simpa using hwrites)
  | writeLock =>
    simp only [program] at hp
    split_ifs at hp
    cases hp
    exact .same rfl (by simpa using hreads) (by simpa using hwrites)
  | readUnlock =>
    simp only [program] at hp
    split_ifs at hp with hheld
    cases hp
    dsimp only at hreads hwrites
    exact .leaveRead rfl (by omega) (by omega)
  | writeUnlock =>
    simp only [program] at hp
    split_ifs at hp with hheld
    cases hp
    dsimp only at hreads hwrites
    exact .leaveWrite rfl (by omega) (by omega)
  | go =>
    simp only [program] at hp
    split at hp
    · cases hp
    · cases hp
      exact .same rfl (by simpa using hreads) (by simpa using hwrites)
    · rename_i hpoint
      cases hp
      dsimp only at hreads hwrites
      exact .enterRead rfl hpoint rfl (by omega) (by omega)
    · cases hp
      exact .same rfl (by simpa using hreads) (by simpa using hwrites)
    · cases hp
      exact .same rfl (by simpa using hreads) (by simpa using hwrites)
    · rename_i hpoint
      cases hp
      dsimp only at hreads hwrites
      exact .enterWrite rfl hpoint rfl (by omega) (by omega)

theorem step_counted (h : Counted w) (hok : Current w i a) (hs : w.step program i a = some v) :
    Counted v := by
  have hsingle := h.single
  cases step_moves hs with
  | same hshared hreads hwrites =>
    exact ⟨by rw [hshared, hreads, h.readers], by rw [hshared, hwrites, h.writers],
      by rw [hreads]; exact h.bound, by rw [hwrites]; exact hsingle,
      by rw [hreads, hwrites]; exact h.excluded⟩
  | enterRead ha hpoint hshared hreads hwrites =>
    obtain ⟨hzero, hlast⟩ := (hok ha).1 hpoint
    have hno : writes w = 0 := ofNat_eq_zero (by omega) (h.writers ▸ hzero)
    have hroom : reads w ≠ 2 ^ 32 - 1 := by
      intro hfull
      refine hlast ?_
      rw [h.readers, hfull]
      decide
    refine ⟨?_, by rw [hshared, hwrites, ← h.writers], ?_, by omega, fun hone => ?_⟩
    · rw [hshared, hreads, h.readers, BitVec.ofNat_add]
      rfl
    · have := h.bound
      omega
    · omega
  | enterWrite ha hpoint hshared hreads hwrites =>
    obtain ⟨hreaders, hwriters⟩ := (hok ha).2 hpoint
    have hnone : reads w = 0 := ofNat_eq_zero h.bound (h.readers ▸ hreaders)
    have hno : writes w = 0 := ofNat_eq_zero (by omega) (h.writers ▸ hwriters)
    refine ⟨by rw [hshared, hreads, ← h.readers], ?_, ?_, by omega, fun _ => by omega⟩
    · rw [hshared, hwrites, hno]
      rfl
    · rw [hreads]
      exact h.bound
  | leaveRead hshared hreads hwrites =>
    have hbound := h.bound
    have hno : writes w = 0 := by
      by_contra hne
      have := h.excluded (by omega)
      omega
    refine ⟨?_, by rw [hshared, hwrites, ← h.writers], by omega, by omega, fun _ => by omega⟩
    rw [hshared, h.readers, hreads, BitVec.ofNat_add]
    exact BitVec.add_sub_cancel ..
  | leaveWrite hshared hreads hwrites =>
    have hno : writes v = 0 := by omega
    refine ⟨by rw [hshared, hreads, ← h.readers], ?_, by rw [hreads]; exact h.bound, by omega,
      fun _ => by omega⟩
    rw [hshared, hno]
    rfl

omit [DecidableEq ι] in
theorem fresh_counted : Counted (fresh ι) := by
  have hreads : reads (fresh ι) = 0 := Finset.sum_eq_zero fun _ _ => rfl
  have hwrites : writes (fresh ι) = 0 := Finset.sum_eq_zero fun _ _ => rfl
  refine ⟨?_, ?_, by rw [hreads]; decide, by rw [hwrites]; decide, fun _ => hreads⟩
  · rw [hreads]
    rfl
  · rw [hwrites]
    rfl

/-- A thread that holds the lock for writing is the only one that holds it, in every run in which
each update finds what was tested. -/
theorem writer_excludes (h : Runs program Current (fresh ι) w) {j : ι} (hij : i ≠ j)
    (hi : 0 < (w.thread i).writes) : (w.thread j).reads = 0 ∧ (w.thread j).writes = 0 := by
  have hcounted : Counted w :=
    h.invariant fresh_counted fun u i a v hu hok hs => step_counted hu hok hs
  have htwo : (w.thread i).writes + (w.thread j).writes ≤ writes w := by
    rw [← Finset.sum_pair (f := fun i => (w.thread i).writes) hij]
    exact Finset.sum_le_sum_of_subset (Finset.subset_univ _)
  have hone : (w.thread j).reads ≤ reads w :=
    Finset.single_le_sum (f := fun i => (w.thread i).reads) (fun _ _ => Nat.zero_le _)
      (Finset.mem_univ j)
  have hsingle := hcounted.single
  have hnone := hcounted.excluded (by omega)
  omega

end Exclusion

/-- One thread locks for reading and unlocks, another one locks for writing. -/
theorem writer_excludes_after_reader :
    ∃ w : World (Fin 2) RwLock Thread, Runs program Current (fresh (Fin 2)) w ∧
      0 < (w.thread 1).writes ∧ (w.thread 0).reads = 0 ∧ (w.thread 0).writes = 0 := by
  obtain ⟨w, hrun, hwrites⟩ : ∃ w, (fresh (Fin 2)).run program (fun w i a => decide (Current w i a))
      [(0, .readLock), (0, .go), (0, .go), (0, .readUnlock), (1, .writeLock), (1, .go), (1, .go),
        (1, .go)] = some w ∧ 0 < (w.thread 1).writes := ⟨_, rfl, by decide +kernel⟩
  have hruns : Runs program Current (fresh (Fin 2)) w :=
    Runs.of_run (fun _ _ _ => of_decide_eq_true) hrun
  exact ⟨w, hruns, hwrites, writer_excludes hruns (by decide) hwrites⟩

/-- Two threads pass both tests before one of them stores, and both hold the lock for writing. -/
theorem two_writers :
    ∃ w : World (Fin 2) RwLock Thread, Runs program (fun _ _ _ => True) (fresh (Fin 2)) w ∧
      0 < (w.thread 0).writes ∧ 0 < (w.thread 1).writes := by
  obtain ⟨w, hrun, hfirst, hsecond⟩ : ∃ w, (fresh (Fin 2)).run program (fun _ _ _ => true)
      [(0, .writeLock), (0, .go), (0, .go), (1, .writeLock), (1, .go), (1, .go), (0, .go), (1, .go)]
      = some w ∧ 0 < (w.thread 0).writes ∧ 0 < (w.thread 1).writes :=
    ⟨_, rfl, by decide +kernel, by decide +kernel⟩
  exact ⟨w, Runs.of_run (fun _ _ _ _ => trivial) hrun, hfirst, hsecond⟩

end Tach.RwLocks
