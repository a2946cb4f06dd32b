import Tach.Interleaving
import Tach.FatData

/-!
The life of a vnode: `fat32_vnode_open`, `fv_dup` and `fv_release` in several threads, by their
critical sections of `vol->lock` and the steps between them. A vnode is named by its address;
addresses are not used again, so that a use after `kfree` can be told from a use of a new
vnode. `freed` counts the calls of `kfree` on an address, and `wild` records that a step
read or wrote a vnode that was freed before.

`fv_release` drops the lock between the section that brings the count to zero and the section
that takes the vnode off the list. When a second release brings the count to zero in that gap
(after the file was opened again), both releases free the vnode. In runs without such an
overlap (`Alone`) every vnode is freed exactly once, when nobody refers to it.
-/

namespace Tach.VnodeThreads

open Function List FatData Interleaving

structure Shared where
  openList : List ℕ
  openNodes : ℕ
  info : ℕ → Info
  opens : ℕ → ℕ
  /-- The address the next `kzalloc` returns. -/
  next : ℕ
  freed : ℕ → ℕ
  wild : Bool

inductive Pc
  | idle
  /-- Before the section that shares a vnode or puts `own` on the list. -/
  | openShare (own : ℕ) (trunc : Bool)
  | openDrop (own shared : ℕ) (trunc : Bool)
  | openTrunc (node : ℕ)
  | release (node : ℕ)
  | sync (node : ℕ)
  | unlink (node : ℕ)
  | free (node : ℕ)
  deriving DecidableEq

/-- `refs` are the references the thread got from open and dup and did not release. -/
structure Thread where
  pc : Pc
  refs : List ℕ

/-- A call (an open with what the lookup found), or the next step of the call under way, with
the result of `fat32_truncate` where the step is one. -/
inductive Choice
  | open (info : Info) (trunc : Bool)
  | dup (node : ℕ)
  | release (node : ℕ)
  | go (ok : Bool)

/-- The test of `open_find`. -/
def sameEntry (other info : Info) : Bool :=
  other.dirCluster = info.dirCluster ∧
    (if info.dirCluster ≠ 0 then other.dirPos = info.dirPos else other.isDir = true)

def openFind (s : Shared) (info : Info) : Option ℕ :=
  s.openList.find? fun n => sameEntry (s.info n) info

def Shared.use (s : Shared) (l : List ℕ) : Shared :=
  { s with wild := s.wild || l.any fun n => s.freed n ≠ 0 }

def Shared.kzalloc (s : Shared) (info : Info) : Shared :=
  { s with
    next := s.next + 1
    info := update s.info s.next info
    opens := update s.opens s.next 1 }

def Shared.kfree (s : Shared) (n : ℕ) : Shared :=
  { s with freed := update s.freed n (s.freed n + 1) }

def Shared.setOpens (s : Shared) (n k : ℕ) : Shared :=
  { s with opens := update s.opens n k }

/-- The end of an open that has its vnode: `O_TRUNC` on a file, or the reference is returned. -/
def opened (n : ℕ) (trunc : Bool) (refs : List ℕ) : Thread :=
  if trunc then ⟨.openTrunc n, refs⟩ else ⟨.idle, n :: refs⟩

def share (own : ℕ) (trunc : Bool) (refs : List ℕ) (s : Shared) : Shared × Thread :=
  match openFind s (s.info own) with
  | some n => ((s.use s.openList).setOpens n (s.opens n + 1), ⟨.openDrop own n trunc, refs⟩)
  | none =>
    ({ s.use s.openList with openList := own :: s.openList, openNodes := s.openNodes + 1 },
      opened own trunc refs)

/-- The first section of a release: `if (fv->opens && --fv->opens == 0) last = true`. -/
def letGo (n : ℕ) (refs : List ℕ) (s : Shared) : Shared × Thread :=
  ((s.use [n]).setOpens n (s.opens n - 1), ⟨if s.opens n = 1 then .sync n else .idle, refs⟩)

def takeOff (n : ℕ) (refs : List ℕ) (s : Shared) : Shared × Thread :=
  if s.opens n = 0 then
    ({ s.use (n :: s.openList) with
        openList := s.openList.erase n, openNodes := s.openNodes - 1 }, ⟨.free n, refs⟩)
  else (s.use [n], ⟨.idle, refs⟩)

def program : Program Choice Shared Thread
  | .open info trunc, s, ⟨.idle, refs⟩ =>
    some (s.kzalloc info, ⟨.openShare s.next (trunc && !info.isDir), refs⟩)
  | .dup n, s, ⟨.idle, refs⟩ =>
    if n ∈ refs then some ((s.use [n]).setOpens n (s.opens n + 1), ⟨.idle, n :: refs⟩) else none
  | .release n, s, ⟨.idle, refs⟩ =>
    if n ∈ refs then some (s, ⟨.release n, refs.erase n⟩) else none
  | .go _, s, ⟨.openShare own trunc, refs⟩ => some (share own trunc refs s)
  | .go _, s, ⟨.openDrop own n trunc, refs⟩ => some (s.kfree own, opened n trunc refs)
  | .go ok, s, ⟨.openTrunc n, refs⟩ =>
    some (s.use [n], if ok then ⟨.idle, n :: refs⟩ else ⟨.release n, refs⟩)
  | .go _, s, ⟨.release n, refs⟩ => some (letGo n refs s)
  | .go _, s, ⟨.sync n, refs⟩ => some (s.use [n], ⟨.unlink n, refs⟩)
  | .go _, s, ⟨.unlink n, refs⟩ => some (takeOff n refs s)
  | .go _, s, ⟨.free n, refs⟩ => some (s.kfree n, ⟨.idle, refs⟩)
  | _, _, _ => none

variable {trunc : Bool}

theorem opened_pc {n : ℕ} {refs : List ℕ} (m : ℕ) (b : Bool) :
    (opened n trunc refs).pc ≠ .openShare m b := by
  unfold opened
  split
  · simp
  · simp

variable {s : Shared} {a : Choice}

/-- What a step does to the list: it makes a vnode, puts a new one on the list, or neither. -/
theorem program_cases {s' : Shared} {t t' : Thread} (h : program a s t = some (s', t')) :
    (∃ info trunc, a = .open info trunc ∧ s' = s.kzalloc info ∧
      t'.pc = .openShare s.next (trunc && !info.isDir)) ∨
    ((∀ n trunc, t'.pc ≠ .openShare n trunc) ∧ s'.info = s.info ∧ s'.next = s.next ∧
      ((∃ own trunc, t.pc = .openShare own trunc ∧ s'.openList = own :: s.openList) ∨
        ∀ n ∈ s'.openList, n ∈ s.openList)) := by
  obtain ⟨pc, refs⟩ := t
  cases a with
  | «open» info trunc =>
    cases pc with
    | idle =>
      cases h
      exact .inl ⟨info, trunc, rfl, rfl, rfl⟩
    | _ => cases h
  | dup | release =>
    cases pc with
    | idle =>
      simp only [program] at h
      split_ifs at h
      cases h
      exact .inr ⟨nofun, rfl, rfl, .inr fun _ hn => hn⟩
    | _ => cases h
  | go ok =>
    cases pc with
    | idle => cases h
    | openShare own trunc =>
      simp only [program, share] at h
      split at h
      · cases h
        exact .inr ⟨nofun, rfl, rfl, .inr fun _ hn => hn⟩
      · cases h
        exact .inr ⟨opened_pc, rfl, rfl, .inl ⟨own, trunc, rfl, rfl⟩⟩
    | openDrop own n trunc =>
      cases h
      exact .inr ⟨opened_pc, rfl, rfl, .inr fun _ hn => hn⟩
    | openTrunc n =>
      cases h
      refine .inr ⟨fun m b => ?_, rfl, rfl, .inr fun _ hn => hn⟩
      split
      · nofun
      · nofun
    | release n =>
      cases h
      refine .inr ⟨fun m b => ?_, rfl, rfl, .inr fun _ hn => hn⟩
      split
      · nofun
      · nofun
    | sync n =>
      cases h
      exact .inr ⟨nofun, rfl, rfl, .inr fun _ hn => hn⟩
    | unlink n =>
      simp only [program, takeOff] at h
      split at h
      · cases h
        exact .inr ⟨nofun, rfl, rfl, .inr fun _ hn => mem_of_mem_erase hn⟩
      · cases h
        exact .inr ⟨nofun, rfl, rfl, .inr fun _ hn => hn⟩
    | free n =>
      cases h
      exact .inr ⟨nofun, rfl, rfl, .inr fun _ hn => hn⟩

/-- References to `n` a call under way has: the one an open is going to return and the one a
release is giving up. -/
def Pc.claims : Pc → ℕ → ℕ
  | .openDrop _ m _, n => if m = n then 1 else 0
  | .openTrunc m, n => if m = n then 1 else 0
  | .release m, n => if m = n then 1 else 0
  | _, _ => 0

def Thread.claims (n : ℕ) (t : Thread) : ℕ := t.pc.claims n + t.refs.count n

/-- A release of `n` between its two sections. -/
def Thread.closing (n : ℕ) (t : Thread) : ℕ :=
  match t.pc with
  | .sync m => if m = n then 1 else 0
  | .unlink m => if m = n then 1 else 0
  | _ => 0

/-- The thread is the only one to know `n`: before it is on the list, or after. -/
def Thread.owns (n : ℕ) (t : Thread) : ℕ :=
  match t.pc with
  | .openShare m _ => if m = n then 1 else 0
  | .openDrop m _ _ => if m = n then 1 else 0
  | .free m => if m = n then 1 else 0
  | _ => 0

def Pc.releasing : Pc → Bool
  | .release _ => true
  | .sync _ => true
  | .unlink _ => true
  | .free _ => true
  | _ => false

variable {ι : Type*}

/-- A release does not bring the count of a vnode to zero while another release of it is
between its two sections. -/
def Alone (w : World ι Shared Thread) (i : ι) (_ : Choice) : Prop :=
  ∀ n, (w.thread i).pc = .release n → w.shared.opens n = 1 → ∀ j, (w.thread j).closing n = 0

/-- The references to `n` that are outstanding. -/
def outstanding [Fintype ι] (w : World ι Shared Thread) (n : ℕ) : ℕ :=
  ∑ i, (w.thread i).claims n

/-- No thread has anything to do with `n`. -/
def Forgotten (w : World ι Shared Thread) (n : ℕ) : Prop :=
  ∀ i, (w.thread i).claims n = 0 ∧ (w.thread i).closing n = 0 ∧ (w.thread i).owns n = 0

/-- The vnodes of a world live as they should: none is freed twice or while a reference to it
is outstanding, one that was made and is no longer used is freed, no freed vnode was used, and
the counter is the length of the list when no release is in progress. -/
structure Lifetimes [Fintype ι] (w : World ι Shared Thread) : Prop where
  once : ∀ n, w.shared.freed n ≤ 1
  unused : ∀ n, w.shared.freed n ≠ 0 → outstanding w n = 0
  returned : ∀ n, n < w.shared.next → Forgotten w n → w.shared.freed n = 1
  tame : w.shared.wild = false
  counted : (∀ i, (w.thread i).pc.releasing = false) → w.shared.openNodes = w.shared.openList.length

/-- A volume with no open file, just mounted, and idle threads without references. -/
structure Begins (w : World ι Shared Thread) : Prop where
  idle : ∀ i, (w.thread i).pc = .idle ∧ (w.thread i).refs = []
  empty : w.shared.openList = [] ∧ w.shared.openNodes = 0 ∧ w.shared.next = 0
  unfreed : ∀ n, w.shared.freed n = 0
  tame : w.shared.wild = false

section Invariant

variable [Fintype ι]

def Shared.listed (s : Shared) (n : ℕ) : ℕ := if n ∈ s.openList then 1 else 0

/-- The references the count of a listed vnode stands for. -/
def Shared.worth (s : Shared) (n : ℕ) : ℕ := if n ∈ s.openList then s.opens n else 0

def Shared.born (s : Shared) (n : ℕ) : ℕ := if n < s.next then 1 else 0

/-- A vnode that was made is on the list, freed, or known to one thread. The count of a listed
one is the number of references, and one release is between its sections when it is zero. -/
structure Inv (w : World ι Shared Thread) : Prop where
  nodup : w.shared.openList.Nodup
  place : ∀ n, w.shared.listed n + w.shared.freed n + ∑ i, (w.thread i).owns n = w.shared.born n
  count : ∀ n, outstanding w n = w.shared.worth n
  closers : ∀ n, ∑ i, (w.thread i).closing n ≤ w.shared.listed n
  closed : ∀ n ∈ w.shared.openList, w.shared.opens n = 0 → ∑ i, (w.thread i).closing n = 1
  fresh : ∀ i n trunc, (w.thread i).pc = .openShare n trunc → w.shared.opens n = 1
  nodes : w.shared.openNodes = w.shared.openList.length
  tame : w.shared.wild = false

variable {w w' : World ι Shared Thread} {i : ι} {n : ℕ}

theorem part_le_sum (f : Thread → ℕ) (w : World ι Shared Thread) (i : ι) :
    f (w.thread i) ≤ ∑ j, f (w.thread j) :=
  Finset.single_le_sum (f := fun j => f (w.thread j)) (fun _ _ => Nat.zero_le _)
    (Finset.mem_univ i)

namespace Inv

theorem alive (h : Inv w) (hn : n ∈ w.shared.openList) : w.shared.freed n = 0 := by
  have hp := h.place n
  simp only [Shared.listed, Shared.born, if_pos hn] at hp
  split at hp
  · omega
  · omega

theorem claimed (h : Inv w) (hc : (w.thread i).claims n ≠ 0) :
    n ∈ w.shared.openList ∧ w.shared.freed n = 0 ∧ (w.thread i).claims n ≤ w.shared.opens n := by
  have hle := part_le_sum (Thread.claims n) w i
  have hcount := h.count n
  simp only [outstanding, Shared.worth] at hcount
  by_cases hn : n ∈ w.shared.openList
  · rw [if_pos hn] at hcount
    exact ⟨hn, h.alive hn, by omega⟩
  · rw [if_neg hn] at hcount
    omega

theorem closing_listed (h : Inv w) (hc : (w.thread i).closing n ≠ 0) : n ∈ w.shared.openList := by
  have hle := part_le_sum (Thread.closing n) w i
  have hcl := h.closers n
  by_contra hn
  simp only [Shared.listed, if_neg hn] at hcl
  omega

theorem owned (h : Inv w) (hc : (w.thread i).owns n ≠ 0) :
    n ∉ w.shared.openList ∧ w.shared.freed n = 0 ∧ n < w.shared.next := by
  have hle := part_le_sum (Thread.owns n) w i
  have hp := h.place n
  simp only [Shared.listed, Shared.born] at hp
  split at hp
  · split at hp
    · omega
    · omega
  · rename_i hn
    split at hp
    · rename_i hlt
      exact ⟨hn, by omega, hlt⟩
    · omega

/-- The sums over all threads follow the moving thread, so the invariant is checked vnode by
vnode. -/
theorem put [DecidableEq ι] (h : Inv w) {t : Thread} (hnodup : s.openList.Nodup)
    (hnodes : s.openNodes = s.openList.length) (htame : s.wild = false)
    (hkeep : ∀ n, n ∉ w.shared.openList → n < w.shared.next → s.opens n = w.shared.opens n)
    (hnew : ∀ n trunc, t.pc = .openShare n trunc → s.opens n = 1)
    (hplace : ∀ n, s.listed n + s.freed n + t.owns n + w.shared.born n =
      w.shared.listed n + w.shared.freed n + (w.thread i).owns n + s.born n)
    (hcount : ∀ n, s.worth n + (w.thread i).claims n = w.shared.worth n + t.claims n)
    (hclose : ∀ n k, k = ∑ j, (w.thread j).closing n → (w.thread i).closing n ≤ k →
      k ≤ w.shared.listed n → (n ∈ w.shared.openList → w.shared.opens n = 0 → k = 1) →
      k + t.closing n ≤ s.listed n + (w.thread i).closing n ∧
        (n ∈ s.openList → s.opens n = 0 → k + t.closing n = 1 + (w.thread i).closing n)) :
    Inv (w.put s i t) := by
  have hsum : ∀ f : Thread → ℕ, (∑ j, f ((w.put s i t).thread j)) + f (w.thread i) =
      (∑ j, f (w.thread j)) + f t := fun f => World.sum_put f s i t
  refine ⟨hnodup, fun n => ?_, fun n => ?_, fun n => ?_, fun n hn h0 => ?_,
    fun j n trunc hpc => ?_, hnodes, htame⟩
  · have hold := h.place n
    have hs := hsum (Thread.owns n)
    have hp := hplace n
    simp only [World.put_shared]
    omega
  · have hold := h.count n
    have hs := hsum (Thread.claims n)
    have hc := hcount n
    simp only [outstanding] at hold ⊢
    simp only [World.put_shared]
    omega
  · have hs := hsum (Thread.closing n)
    have hc := hclose n _ rfl (part_le_sum (Thread.closing n) w i) (h.closers n) (h.closed n)
    simp only [World.put_shared]
    omega
  · have hs := hsum (Thread.closing n)
    have hc := (hclose n _ rfl (part_le_sum (Thread.closing n) w i) (h.closers n)
      (h.closed n)).2 hn h0
    omega
  · by_cases hj : j = i
    · rw [hj, World.put_self] at hpc
      exact hnew n trunc hpc
    · rw [World.put_other hj] at hpc
      obtain ⟨hnot, -, hlt⟩ := h.owned (i := j) (n := n) (by simp [hpc, Thread.owns])
      exact (hkeep n hnot hlt).trans (h.fresh j n trunc hpc)

end Inv

open Shared

theorem use_tame {l : List ℕ} (hs : s.wild = false) (hl : ∀ n ∈ l, s.freed n = 0) :
    (s.use l).wild = false := by
  simp only [use, hs, Bool.false_or, any_eq_false, decide_eq_true_eq]
  intro n hn hne
  exact hne (hl n hn)

section Steps

variable [DecidableEq ι] {refs : List ℕ}

theorem inv_open (h : Inv w) (ht : w.thread i = ⟨.idle, refs⟩) (info : Info) (trunc : Bool) :
    Inv (w.put (w.shared.kzalloc info) i ⟨.openShare w.shared.next trunc, refs⟩) := by
  have hnot : w.shared.next ∉ w.shared.openList := by
    intro hn
    have hfresh := h.place w.shared.next
    simp [Shared.listed, Shared.born, hn] at hfresh
  refine h.put h.nodup h.nodes h.tame (fun n _ hlt => ?_) (fun n b hb => ?_) (fun n => ?_)
    (fun n => ?_) fun n k _ _ hk hone => ?_
  · exact update_of_ne (by omega) _ _
  · cases hb
    exact update_self _ _ _
  · simp only [ht, Shared.listed, Shared.born, kzalloc, Thread.owns]
    grind
  · simp only [ht, Shared.worth, kzalloc, Thread.claims, Pc.claims]
    grind [update_of_ne]
  · simp only [ht, Thread.closing, kzalloc, Shared.listed] at hk hone ⊢
    grind [update_of_ne]

/-- The count of a listed vnode does not belong to a new one. -/
theorem setOpens_keep {k : ℕ} (hn : n ∈ s.openList) {m : ℕ} (hm : m ∉ s.openList) :
    (s.setOpens n k).opens m = s.opens m :=
  update_of_ne (fun heq : m = n => hm (heq ▸ hn)) _ _

theorem inv_dup (h : Inv w) (ht : w.thread i = ⟨.idle, refs⟩) (hn : n ∈ refs) :
    Inv (w.put ((w.shared.use [n]).setOpens n (w.shared.opens n + 1)) i ⟨.idle, n :: refs⟩) := by
  have hcl : (w.thread i).claims n ≠ 0 := by
    rw [ht]
    have := count_pos_iff.mpr hn
    simp only [Thread.claims]
    omega
  obtain ⟨hlist, hfree, hle⟩ := h.claimed hcl
  refine h.put h.nodup h.nodes (use_tame h.tame (by simpa using hfree))
    (fun m hm _ => setOpens_keep hlist hm) (fun m b hb => ?_) (fun m => ?_)
    (fun m => ?_) fun m k _ _ hk hone => ?_
  · cases hb
  · rw [ht]
    rfl
  · simp only [ht, Shared.worth, setOpens, use, Thread.claims, Pc.claims, count_cons]
    grind [update_of_ne]
  · simp only [ht, Thread.closing, setOpens, use, Shared.listed] at hk hone ⊢
    grind [update_of_ne]

theorem inv_release (h : Inv w) (ht : w.thread i = ⟨.idle, refs⟩) (hn : n ∈ refs) :
    Inv (w.put w.shared i ⟨.release n, refs.erase n⟩) := by
  refine h.put h.nodup h.nodes h.tame (fun m _ _ => rfl) (fun m b hb => ?_) (fun m => ?_)
    (fun m => ?_) fun m k _ _ hk hone => ?_
  · cases hb
  · simp only [ht, Thread.owns]
  · have hpos := count_pos_iff.mpr hn
    simp only [ht, Thread.claims, Pc.claims, count_erase]
    grind
  · simp only [ht, Thread.closing] at hk hone ⊢
    grind

/-- A thread that has its vnode holds one reference to it. -/
theorem opened_counts (n : ℕ) (trunc : Bool) (refs : List ℕ) (m : ℕ) :
    (opened n trunc refs).owns m = 0 ∧ (opened n trunc refs).closing m = 0 ∧
      (opened n trunc refs).claims m = (if n = m then 1 else 0) + refs.count m := by
  unfold opened
  split
  · exact ⟨rfl, rfl, rfl⟩
  · refine ⟨rfl, rfl, ?_⟩
    simp only [Thread.claims, Pc.claims, count_cons]
    grind

variable (h : Inv w)
include h

theorem inv_drop {own : ℕ} (ht : w.thread i = ⟨.openDrop own n trunc, refs⟩) :
    Inv (w.put (w.shared.kfree own) i (opened n trunc refs)) := by
  refine h.put h.nodup h.nodes h.tame (fun m _ _ => rfl) (fun m b hb => absurd hb (opened_pc m b))
    (fun m => ?_) (fun m => ?_) fun m k _ _ hk hone => ?_
  · rw [(opened_counts n trunc refs m).1]
    simp only [ht, Shared.listed, Shared.born, kfree, Thread.owns]
    grind [update_of_ne]
  · rw [(opened_counts n trunc refs m).2.2]
    simp only [ht, Shared.worth, kfree, Thread.claims, Pc.claims]
    grind
  · rw [(opened_counts n trunc refs m).2.1]
    simp only [ht, Thread.closing, kfree, Shared.listed] at hk hone ⊢
    grind

theorem inv_share {own : ℕ} (ht : w.thread i = ⟨.openShare own trunc, refs⟩) :
    Inv (w.put (share own trunc refs w.shared).1 i (share own trunc refs w.shared).2) := by
  obtain ⟨hnot, hfree, hlt⟩ := h.owned (i := i) (n := own) (by simp [ht, Thread.owns])
  have htame := use_tame h.tame fun m hm => h.alive hm
  unfold share
  cases hfind : openFind w.shared (w.shared.info own) with
  | some n =>
    have hn : n ∈ w.shared.openList := mem_of_find?_eq_some hfind
    refine h.put h.nodup h.nodes htame
      (fun m hm _ => setOpens_keep hn hm) (fun m b hb => ?_)
      (fun m => ?_) (fun m => ?_) fun m k _ _ hk hone => ?_
    · cases hb
    · simp only [ht, Shared.listed, Shared.born, setOpens, use, Thread.owns]
      grind
    · simp only [ht, Shared.worth, setOpens, use, Thread.claims, Pc.claims]
      grind [update_of_ne]
    · simp only [ht, Thread.closing, setOpens, use, Shared.listed] at hk hone ⊢
      grind [update_of_ne]
  | none =>
    -- the new vnode comes with one reference; nobody referred to it before
    have hone₀ := h.fresh i own trunc (by rw [ht])
    refine h.put (nodup_cons.mpr ⟨hnot, h.nodup⟩) (by simp [h.nodes]) htame (fun m _ _ => rfl)
      (fun m b hb => absurd hb (opened_pc m b)) (fun m => ?_) (fun m => ?_) fun m k _ _ hk hone => ?_
    · rw [(opened_counts own trunc refs m).1]
      simp only [ht, Shared.listed, Shared.born, use, Thread.owns]
      grind
    · rw [(opened_counts own trunc refs m).2.2]
      simp only [ht, Shared.worth, use, Thread.claims, Pc.claims]
      grind
    · rw [(opened_counts own trunc refs m).2.1]
      simp only [ht, Thread.closing, use, Shared.listed] at hk hone ⊢
      grind

theorem inv_trunc (ht : w.thread i = ⟨.openTrunc n, refs⟩) (ok : Bool) :
    Inv (w.put (w.shared.use [n]) i (if ok then ⟨.idle, n :: refs⟩ else ⟨.release n, refs⟩)) := by
  obtain ⟨hlist, hfree, hle⟩ := h.claimed (i := i) (n := n) (by simp [ht, Thread.claims, Pc.claims])
  have htame := use_tame (l := [n]) h.tame (by simpa using hfree)
  cases ok with
  | true =>
    refine h.put h.nodup h.nodes htame (fun m _ _ => rfl) (fun m b hb => by cases hb) (fun m => ?_)
      (fun m => ?_) fun m k _ _ hk hone => ?_
    · rw [ht]
      rfl
    · simp only [ht, Shared.worth, use, Thread.claims, Pc.claims, if_true, count_cons]
      grind
    · simp only [ht, Thread.closing, use, Shared.listed, if_true] at hk hone ⊢
      grind
  | false =>
    refine h.put h.nodup h.nodes htame (fun m _ _ => rfl) (fun m b hb => by cases hb) (fun m => ?_)
      (fun m => ?_) fun m k _ _ hk hone => ?_
    · rw [ht]
      rfl
    · rw [ht]
      rfl
    · simp only [ht, Thread.closing, use, Shared.listed, Bool.false_eq_true, if_false] at hk hone ⊢
      grind

/-- The first section of a release: no other release of the vnode may be between its sections
when the count becomes zero. -/
theorem inv_letGo (ht : w.thread i = ⟨.release n, refs⟩)
    (halone : w.shared.opens n = 1 → ∀ j, (w.thread j).closing n = 0) :
    Inv (w.put (letGo n refs w.shared).1 i (letGo n refs w.shared).2) := by
  obtain ⟨hlist, hfree, hle⟩ := h.claimed (i := i) (n := n) (by simp [ht, Thread.claims, Pc.claims])
  have hpos : 1 ≤ w.shared.opens n := by
    simp only [ht, Thread.claims, Pc.claims, if_true] at hle
    omega
  have hsum : w.shared.opens n = 1 → ∑ j, (w.thread j).closing n = 0 :=
    fun h1 => Finset.sum_eq_zero fun j _ => halone h1 j
  unfold letGo
  refine h.put h.nodup h.nodes (use_tame h.tame (by simpa using hfree))
    (fun m hm _ => setOpens_keep hlist hm) (fun m b hb => ?_) (fun m => ?_)
    (fun m => ?_) fun m k hk hle' hk' hone => ?_
  · split at hb
    · cases hb
    · cases hb
  · simp only [ht, Shared.listed, Shared.born, setOpens, use, Thread.owns]
    grind
  · simp only [ht, Shared.worth, setOpens, use, Thread.claims, Pc.claims]
    grind [update_of_ne, update_self]
  · by_cases hm : n = m
    · rw [← hm] at hk hle' hk' hone ⊢
      simp only [ht, Thread.closing, setOpens, use, Shared.listed, hlist, if_true,
        update_self] at hle' hk' hone ⊢
      by_cases h1 : w.shared.opens n = 1
      · have h0 := hsum h1
        simp only [h1, if_true]
        omega
      · simp only [if_neg h1]
        omega
    · simp only [ht, Thread.closing, setOpens, use, Shared.listed] at hle' hk' hone ⊢
      grind [update_of_ne]

theorem inv_sync (ht : w.thread i = ⟨.sync n, refs⟩) :
    Inv (w.put (w.shared.use [n]) i ⟨.unlink n, refs⟩) := by
  have hlist := h.closing_listed (i := i) (n := n) (by simp [ht, Thread.closing])
  refine h.put h.nodup h.nodes (use_tame h.tame (by simpa using h.alive hlist)) (fun m _ _ => rfl)
    (fun m b hb => by cases hb) (fun m => ?_) (fun m => ?_) fun m k _ _ hk hone => ?_
  · rw [ht]
    rfl
  · rw [ht]
    rfl
  · simp only [ht, Thread.closing, use, Shared.listed] at hk hone ⊢
    grind

/-- The second section of a release. With the count at zero nobody refers to the vnode, and
this release is the only one on its way. -/
theorem inv_takeOff (ht : w.thread i = ⟨.unlink n, refs⟩) :
    Inv (w.put (takeOff n refs w.shared).1 i (takeOff n refs w.shared).2) := by
  have hlist := h.closing_listed (i := i) (n := n) (by simp [ht, Thread.closing])
  have halive := h.alive hlist
  unfold takeOff
  by_cases h0 : w.shared.opens n = 0
  · rw [if_pos h0]
    have hmem : ∀ m, m ∈ w.shared.openList.erase n ↔ m ≠ n ∧ m ∈ w.shared.openList :=
      fun m => h.nodup.mem_erase_iff
    refine h.put (h.nodup.erase n) ?_ (use_tame h.tame ?_) (fun m _ _ => rfl)
      (fun m b hb => by cases hb) (fun m => ?_) (fun m => ?_) fun m k hk hle' hk' hone => ?_
    · rw [length_erase_of_mem hlist]
      exact congrArg (· - 1) h.nodes
    · intro m hm
      rcases mem_cons.mp hm with hmn | hml
      · rw [hmn]
        exact halive
      · exact h.alive hml
    · simp only [ht, Shared.listed, Shared.born, use, Thread.owns, hmem]
      grind
    · simp only [ht, Shared.worth, use, Thread.claims, Pc.claims, hmem]
      grind
    · simp only [ht, Thread.closing, use, Shared.listed, hmem] at hle' hk' hone ⊢
      grind
  · rw [if_neg h0]
    refine h.put h.nodup h.nodes (use_tame h.tame (by simpa using halive)) (fun m _ _ => rfl)
      (fun m b hb => by cases hb) (fun m => ?_) (fun m => ?_) fun m k _ hle' hk hone => ?_
    · rw [ht]
      rfl
    · rw [ht]
      rfl
    · simp only [ht, Thread.closing, use, Shared.listed] at hle' hk hone ⊢
      grind

theorem inv_free (ht : w.thread i = ⟨.free n, refs⟩) :
    Inv (w.put (w.shared.kfree n) i ⟨.idle, refs⟩) := by
  refine h.put h.nodup h.nodes h.tame (fun m _ _ => rfl) (fun m b hb => by cases hb) (fun m => ?_)
    (fun m => ?_) fun m k _ _ hk hone => ?_
  · simp only [ht, Shared.listed, Shared.born, kfree, Thread.owns]
    grind [update_of_ne]
  · rw [ht]
    rfl
  · simp only [ht, Thread.closing, kfree, Shared.listed] at hk hone ⊢
    grind

theorem Inv.step (hok : Alone w i a) (hs : w.step program i a = some w') : Inv w' := by
  obtain ⟨s, t, hp, hw⟩ := World.step_cases hs
  rw [hw]
  generalize ht : w.thread i = old at hp
  obtain ⟨pc, refs⟩ := old
  cases a with
  | «open» info trunc =>
    cases pc with
    | idle =>
      cases hp
      exact inv_open h ht info _
    | _ => cases hp
  | dup n =>
    cases pc with
    | idle =>
      simp only [program] at hp
      split_ifs at hp with hn
      cases hp
      exact inv_dup h ht hn
    | _ => cases hp
  | release n =>
    cases pc with
    | idle =>
      simp only [program] at hp
      split_ifs at hp with hn
      cases hp
      exact inv_release h ht hn
    | _ => cases hp
  | go ok =>
    cases pc with
    | idle => cases hp
    | openShare own trunc =>
      have hput := inv_share h ht
      rw [Option.some.inj hp] at hput
      exact hput
    | openDrop own n trunc =>
      cases hp
      exact inv_drop h ht
    | openTrunc n =>
      cases hp
      exact inv_trunc h ht ok
    | release n =>
      cases hp
      exact inv_letGo h ht (hok n (by rw [ht]))
    | sync n =>
      cases hp
      exact inv_sync h ht
    | unlink n =>
      have hput := inv_takeOff h ht
      rw [Option.some.inj hp] at hput
      exact hput
    | free n =>
      cases hp
      exact inv_free h ht

end Steps

theorem Inv.lifetimes (h : Inv w) : Lifetimes w where
  once n := by
    have hp := h.place n
    simp only [Shared.born] at hp
    split at hp
    · omega
    · omega
  unused n hn := by
    rw [h.count n, Shared.worth, if_neg]
    intro hlist
    exact hn (h.alive hlist)
  returned n hlt hforgot := by
    have howns : ∑ i, (w.thread i).owns n = 0 :=
      Finset.sum_eq_zero fun i _ => (hforgot i).2.2
    have hclaims : ∑ i, (w.thread i).claims n = 0 := Finset.sum_eq_zero fun i _ => (hforgot i).1
    have hclosing : ∑ i, (w.thread i).closing n = 0 :=
      Finset.sum_eq_zero fun i _ => (hforgot i).2.1
    have hnot : n ∉ w.shared.openList := by
      intro hlist
      have hcount := h.count n
      rw [Shared.worth, if_pos hlist, outstanding, hclaims] at hcount
      have hone := h.closed n hlist hcount.symm
      omega
    have hp := h.place n
    simp only [Shared.listed, Shared.born, if_neg hnot, if_pos hlt] at hp
    omega
  tame := h.tame
  counted _ := h.nodes

theorem Begins.inv (h : Begins w) : Inv w := by
  obtain ⟨hlist, hnodes, hnext⟩ := h.empty
  have hzero : ∀ i n, (w.thread i).claims n = 0 ∧ (w.thread i).closing n = 0 ∧
      (w.thread i).owns n = 0 := by
    intro i n
    obtain ⟨hpc, hrefs⟩ := h.idle i
    simp [Thread.claims, Thread.closing, Thread.owns, Pc.claims, hpc, hrefs]
  refine ⟨?_, fun n => ?_, fun n => ?_, fun n => ?_, fun n hn => ?_, fun i n trunc hpc => ?_, ?_,
    h.tame⟩
  · rw [hlist]
    exact nodup_nil
  · simp [Shared.listed, Shared.born, hlist, hnext, h.unfreed n, hzero]
  · simp [outstanding, Shared.worth, hlist, hzero]
  · simp [Shared.listed, hzero]
  · rw [hlist] at hn
    cases hn
  · rw [(h.idle i).1] at hpc
    cases hpc
  · rw [hnodes, hlist]
    rfl

end Invariant

local instance twoThreads : NeZero 2 := ⟨two_ne_zero⟩

/-- The entry at position 3 of directory cluster 2. -/
def raceInfo : Info := ⟨[], [], 0x20, 9, 10, 0, 0, 2, 3⟩

def raceStart : World (Fin 2) Shared Thread :=
  ⟨⟨[], 0, fun _ => raceInfo, fun _ => 0, 0, fun _ => 0, false⟩, fun _ => ⟨.idle, []⟩⟩

/-- Thread 0 opens the file and releases it; in the gap of that release thread 1 opens the file
and releases it too. -/
def raceSchedule : List (Fin 2 × Choice) :=
  [(0, .open raceInfo false), (0, .go true), (0, .release 0), (0, .go true), (0, .go true),
    (1, .open raceInfo false), (1, .go true), (1, .go true), (1, .release 0), (1, .go true),
    (0, .go true), (0, .go true), (1, .go true), (1, .go true), (1, .go true)]

theorem raceStart_begins : Begins raceStart :=
  ⟨fun _ => ⟨rfl, rfl⟩, ⟨rfl, rfl, rfl⟩, fun _ => rfl, rfl⟩

/-- A test for `Alone` with two threads. -/
def testAlone (w : World (Fin 2) Shared Thread) (i : Fin 2) (_ : Choice) : Bool :=
  match (w.thread i).pc with
  | .release n => w.shared.opens n ≠ 1 ∨ ((w.thread 0).closing n = 0 ∧ (w.thread 1).closing n = 0)
  | _ => true

theorem alone_of_test (w : World (Fin 2) Shared Thread) (i : Fin 2) (a : Choice)
    (h : testAlone w i a = true) : Alone w i a := by
  intro n hpc hone j
  simp only [testAlone, hpc, decide_eq_true_eq] at h
  obtain ⟨h0, h1⟩ := h.resolve_left (fun hne => hne hone)
  fin_cases j
  · exact h0
  · exact h1

end Tach.VnodeThreads
