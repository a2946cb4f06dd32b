import Tach.PipeCounts

/-!
Pipes over whole runs. What was written into a pipe since it was made is what was read from it and
then the ring's contents; its counts are the numbers of slots whenever no operation is under way,
and a reader or a writer is told of the other side's end only when no slot is left there.
-/

namespace Tach.Pipes

open Function List Rings State Proc Pipe

variable {ι : Type*} {n q : ℕ} {k : Fin q}

section Bytes

/-- The bytes the writes put into a pipe, in order; a new pipe begins with none. -/
def Event.sent (k : Fin q) (l : List UInt8) : Event q → List UInt8
  | .opened k' => if k' = k then [] else l
  | .wrote k' bytes => if k' = k then l ++ bytes else l
  | _ => l

def Event.received (k : Fin q) (l : List UInt8) : Event q → List UInt8
  | .opened k' => if k' = k then [] else l
  | .got k' bytes => if k' = k then l ++ bytes else l
  | _ => l

def sent (k : Fin q) (history : List (Event q)) : List UInt8 := history.foldl (Event.sent k) []

def received (k : Fin q) (history : List (Event q)) : List UInt8 :=
  history.foldl (Event.received k) []

def Pipe.contents (p : Pipe) : List UInt8 := window bufferSize p.buffer p.readPos p.dataSize

/-- The positions fit, and what is held is what was sent and not yet received. -/
structure Pipe.Carries (p : Pipe) (sent received : List UInt8) : Prop where
  readPos : p.readPos < bufferSize
  writePos : p.writePos = advance bufferSize p.readPos p.dataSize
  room : p.dataSize ≤ bufferSize
  bytes : sent = received ++ p.contents

variable {p : Pipe} {l m : List UInt8}

namespace Pipe.Carries

/-- Only the ring counts. -/
theorem congr {p' : Pipe} (h : p.Carries l m) (hbuffer : p'.buffer = p.buffer)
    (hread : p'.readPos = p.readPos) (hwrite : p'.writePos = p.writePos)
    (hsize : p'.dataSize = p.dataSize) : p'.Carries l m := by
  refine ⟨by rw [hread]; exact h.readPos, by rw [hwrite, hread, hsize]; exact h.writePos,
    by rw [hsize]; exact h.room, ?_⟩
  rw [contents, hbuffer, hread, hsize]
  exact h.bytes

theorem take (h : p.Carries l m) {c : ℕ} (hc : c ≤ p.dataSize) :
    (p.take c).2.Carries l (m ++ (p.take c).1) := by
  have hsplit : c + (p.dataSize - c) = p.dataSize := by omega
  refine ⟨advance_lt h.readPos c, ?_, ?_, ?_⟩
  · simp only [Pipe.take]
    rw [h.writePos, ← advance_add, hsplit]
  · exact (Nat.sub_le _ _).trans h.room
  · simp only [Pipe.take, contents]
    rw [h.bytes, append_assoc, ← window_add, hsplit]
    rfl

theorem put (h : p.Carries l m) {bytes : List UInt8}
    (hroom : p.dataSize + bytes.length ≤ bufferSize) : (p.put bytes).Carries (l ++ bytes) m := by
  refine ⟨h.readPos, ?_, hroom, ?_⟩
  · simp only [Pipe.put]
    rw [h.writePos, advance_add]
  · simp only [Pipe.put, contents]
    rw [h.writePos, window_append h.readPos hroom, h.bytes, append_assoc]
    rfl

end Pipe.Carries

variable {pipes pipes' : Fin q → Pipe} {pr pr' : Proc ι n q} {ev history : List (Event q)}

theorem Moves.carries (h : Moves pipes pr pipes' pr' ev)
    (hk : (pipes k).Carries (sent k history) (received k history)) :
    (pipes' k).Carries (sent k (history ++ ev)) (received k (history ++ ev)) := by
  have other {k' : Fin q} {x : Pipe} (hne : k ≠ k') : update pipes k' x k = pipes k :=
    update_of_ne hne ..
  simp only [sent, received, foldl_append] at hk ⊢
  cases h with
  | @adjust k' =>
    by_cases hne : k = k'
    · subst hne
      rw [update_self]
      exact hk.congr rfl rfl rfl rfl
    · rwa [other hne]
  | @free k' =>
    by_cases hne : k = k'
    · subst hne
      rw [update_self]
      exact hk.congr rfl rfl rfl rfl
    · rwa [other hne]
  | @got k' c hset hc =>
    by_cases hne : k = k'
    · subst hne
      simp only [update_self, foldl_cons, foldl_nil, Event.sent, Event.received, if_true]
      exact hk.take hc
    · simpa only [other hne, foldl_cons, foldl_nil, Event.sent, Event.received,
        if_neg (Ne.symm hne)] using hk
  | @wrote k' bytes todo hset hbusy hroom =>
    by_cases hne : k = k'
    · subst hne
      simp only [update_self, foldl_cons, foldl_nil, Event.sent, Event.received, if_true]
      exact hk.put hroom
    · simpa only [other hne, foldl_cons, foldl_nil, Event.sent, Event.received,
        if_neg (Ne.symm hne)] using hk
  | @«open» k' =>
    by_cases hne : k = k'
    · subst hne
      simp only [update_self, foldl_cons, foldl_nil, Event.sent, Event.received, if_true]
      exact ⟨by decide, rfl, by decide, rfl⟩
    · simpa only [other hne, foldl_cons, foldl_nil, Event.sent, Event.received,
        if_neg (Ne.symm hne)] using hk
  | _ => exact hk

end Bytes

section Runs

variable [DecidableEq ι]

/-- No pipe is in use; some processes run, and have descriptors of other kinds. -/
def State.init (runs : ι → Bool) (files : ι → Fin n → Bool) : State ι n q where
  pipes _ := .unused
  proc i :=
    { status := if runs i then .running else .free
      table := fun fd => if runs i && files i fd then some .file else none
      clone := fun _ => none
      due := none
      todo := .idle }

variable {s t : State ι n q} {ev history : List (Event q)}

theorem Change.carries (h : Change s t ev)
    (hk : (s.pipes k).Carries (sent k history) (received k history)) :
    (t.pipes k).Carries (sent k (history ++ ev)) (received k (history ++ ev)) := by
  cases h with
  | own hm => exact hm.carries hk
  | fork | born | forgone => rwa [append_nil]

/-- A reader gets to the end only of an empty ring that nobody has the write end of. -/
theorem Change.eof (h : Change s t ev) (hev : .eof k ∈ ev) :
    (s.pipes k).dataSize = 0 ∧ (s.pipes k).count .write = 0 := by
  cases h with
  | own hm =>
    cases hm with
    | eof _ hdata hcount =>
      cases mem_singleton.mp hev
      exact ⟨hdata, hcount⟩
    | _ => simp at hev
  | _ => simp at hev

theorem Change.epipe (h : Change s t ev) (hev : .epipe k ∈ ev) : (s.pipes k).count .read = 0 := by
  cases h with
  | own hm =>
    cases hm with
    | epipe _ hcount =>
      cases mem_singleton.mp hev
      exact hcount
    | _ => simp at hev
  | _ => simp at hev

variable [Fintype ι]

/-- The slots of all descriptor tables that refer to an end, with those of a table that a fork is
about to hand over. -/
def slots (s : State ι n q) (k : Fin q) (e : End) : ℕ := ∑ i, (s.proc i).held k e

theorem sound_init (runs : ι → Bool) (files : ι → Fin n → Bool) :
    Sound (init runs files : State ι n q) := by
  have hrefs (i : ι) (k : Fin q) (e : End) :
      refs ((init runs files : State ι n q).proc i).table k e = 0 := by
    rw [refs_eq_zero]
    intro fd
    simp only [init]
    split_ifs <;> simp
  constructor
  · intro i
    refine ⟨fun hrun => ⟨?_, rfl, rfl, rfl⟩, fun k e hup => absurd hup (by simp [init]), rfl⟩
    have hruns : runs i = false := by simpa [init] using hrun
    funext fd
    simp [init, hruns]
  · intro k e
    have howed (i : ι) : ((init runs files : State ι n q).proc i).owed k e = 0 := by
      rw [owed, held, hrefs]
      simp [init, refs_empty, Todo.holds]
    simp only [howed]
    simp [init, unused, ups]
  · intro k
    simp [init, Pipe.Tracked, unused, dead, frees]
  · intro j
    simp only [init, Todo.claims, Finset.sum_const_zero]
    split_ifs <;> simp_all

theorem Run.sound {runs : ι → Bool} {files : ι → Fin n → Bool}
    (hrun : Run (init runs files) history t) :
    Sound t ∧ ∀ k, (t.pipes k).Carries (sent k history) (received k history) := by
  refine hrun.invariant (I := fun history t => Sound t ∧
    ∀ k, (t.pipes k).Carries (sent k history) (received k history))
    ⟨sound_init runs files, fun k =>
      show unused.Carries [] [] from ⟨by decide, rfl, by decide, rfl⟩⟩ ?_
  intro l u a v e hu _ hnext
  have hc := next_change hnext
  exact ⟨hu.1.change hc, fun k => hc.carries (hu.2 k)⟩

namespace Sound

theorem slots_of_count (h : Sound s) {e : End} (hcount : (s.pipes k).count e = 0) :
    slots s k e = 0 :=
  Finset.sum_eq_zero fun i _ => h.held_of_count_zero hcount i

theorem count_of_settled (h : Sound s) (hset : ∀ i, (s.proc i).settled) (k : Fin q) (e : End) :
    (s.pipes k).count e = slots s k e := by
  have hdue (i : ι) : (s.proc i).due = none := (settled_cases (hset i)).1
  have hups : ∑ i, (s.proc i).ups k e = 0 :=
    Finset.sum_eq_zero fun i _ => by rw [ups, hdue, adjusts_none]
  have howed : ∑ i, (s.proc i).owed k e = slots s k e :=
    Finset.sum_congr rfl fun i _ => by
      rw [owed, hdue, adjusts_none, holds_of_settled (hset i), Nat.add_zero]
  have hbalance := h.balance k e
  omega

theorem free_of_settled (h : Sound s) (hset : ∀ i, (s.proc i).settled)
    (hslots : ∀ e, slots s k e = 0) : (s.pipes k).inUse = false := by
  have hfrees : ∑ i, (s.proc i).frees k = 0 :=
    Finset.sum_eq_zero fun i _ => by
      rw [frees, (settled_cases (hset i)).1]
      rfl
  have hdead : (s.pipes k).dead = true := by
    simp [dead, h.count_of_settled hset, hslots]
  have ht := h.tracked k
  rw [hfrees, Pipe.Tracked, hdead] at ht
  simpa using ht

end Sound

end Runs

end Tach.Pipes
