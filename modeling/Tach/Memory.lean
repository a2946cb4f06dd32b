import Tach.Sectors

/-!
A block layer without a cache: a memory of `n` sectors and a script that says which of the
coming calls fail. A call that fails leaves the memory alone. The empty script never fails.
-/

namespace Tach.Memory

open Actions ByteBlock Sectors

structure Mem where
  data : View
  /-- One entry for each coming call, true where it fails; past its end nothing fails. -/
  script : List Bool

variable {α : Type} {s : Mem}

/-- A call within the device that the script lets through, or the error -EIO. -/
def call (inRange : Bool) (m : Act Mem Errno α) : Act Mem Errno α := fun s =>
  if inRange = false ∨ s.script.head? = some true then
    ⟨.error .eio, { s with script := s.script.tail }, false⟩
  else m { s with script := s.script.tail }

def withBuf (n lba : ℕ) (f : Sector → α × Option Sector) : Act Mem Errno α :=
  call (lba < n) fun s =>
    ⟨.ok (f (s.data lba)).1, { s with data := s.data.edit lba (f (s.data lba)).2 }, false⟩

def bnew (n lba : ℕ) : Act Mem Errno Unit :=
  call (lba < n) fun s =>
    ⟨.ok (), { s with data := Function.update s.data lba (Block.zero 512) }, false⟩

def blkRead (n lba count : ℕ) : Act Mem Errno (List UInt8) :=
  call (0 < count ∧ lba + count ≤ n) fun s => ⟨.ok (s.data.bytes lba count), s, false⟩

def blkWrite (n lba count : ℕ) (buf : ℕ → UInt8) : Act Mem Errno Unit :=
  call (0 < count ∧ lba + count ≤ n) fun s =>
    ⟨.ok (), { s with data := s.data.store lba count buf }, false⟩

def blkFlush : Act Mem Errno Unit := fun s => ⟨.ok (), s, false⟩

def Quiet (s : Mem) : Prop := true ∉ s.script

theorem Quiet.head_ne (h : Quiet s) : s.script.head? ≠ some true := by
  intro hhead
  exact h (List.mem_of_mem_head? hhead)

theorem Quiet.tail (h : Quiet s) (d : View) : Quiet ⟨d, s.script.tail⟩ := by
  intro hmem
  exact h (List.mem_of_mem_tail hmem)

theorem call_of_quiet {m : Act Mem Errno α} (h : Quiet s) :
    call true m s = m { s with script := s.script.tail } := by
  simp [call, h.head_ne]

/-- A call fails and leaves the memory alone, or it runs. -/
theorem call_cases (inRange : Bool) (m : Act Mem Errno α) (s : Mem) :
    call inRange m s = ⟨.error .eio, ⟨s.data, s.script.tail⟩, false⟩ ∨
      inRange = true ∧ call inRange m s = m ⟨s.data, s.script.tail⟩ := by
  unfold call
  split
  · exact Or.inl rfl
  · rename_i h
    exact Or.inr ⟨by simpa using fun hr => h (Or.inl hr), rfl⟩

theorem store_zero (v : View) (lba : ℕ) (buf : ℕ → UInt8) : v.store lba 0 buf = v := by
  funext l
  simp only [View.store]
  rw [if_neg (by omega)]

def layer (n : ℕ) : BlockLayer Mem where
  sectors := n
  readonly := false
  view := Mem.data
  device := Mem.data
  quiet := Quiet
  withBuf := withBuf n
  bnew := bnew n
  blkRead := blkRead n
  blkWrite := blkWrite n
  blkFlush := blkFlush
  withBuf_spec lba f s := by
    constructor
    · intro hs hlba _
      refine ⟨⟨s.data.edit lba (f (s.data lba)).2, s.script.tail⟩, ?_, hs.tail _, rfl⟩
      simp only [withBuf, hlba, decide_true]
      exact call_of_quiet hs
    · rcases call_cases (lba < n) (fun s : Mem => (⟨.ok (f (s.data lba)).1,
        { s with data := s.data.edit lba (f (s.data lba)).2 }, false⟩ : Outcome Mem Errno _)) s
        with h | ⟨hr, h⟩
      · exact ⟨_, _, h, Or.inr ⟨_, rfl, rfl⟩⟩
      · exact ⟨_, _, h, Or.inl ⟨rfl, by simpa using hr, rfl⟩⟩
  bnew_spec lba s := by
    constructor
    · intro hs hlba _
      refine ⟨⟨Function.update s.data lba (Block.zero 512), s.script.tail⟩, ?_, hs.tail _, rfl⟩
      simp only [bnew, hlba, decide_true]
      exact call_of_quiet hs
    · rcases call_cases (lba < n) (fun s : Mem => (⟨.ok (),
        { s with data := Function.update s.data lba (Block.zero 512) }, false⟩ :
          Outcome Mem Errno Unit)) s with h | ⟨hr, h⟩
      · exact ⟨_, _, h, Or.inr ⟨_, rfl, rfl⟩⟩
      · exact ⟨_, _, h, Or.inl ⟨rfl, by simpa using hr, rfl⟩⟩
  blkRead_spec lba count s := by
    constructor
    · intro hs hc hlba
      refine ⟨⟨s.data, s.script.tail⟩, ?_, hs.tail _, rfl⟩
      simp only [blkRead, hc, hlba, and_self, decide_true]
      exact call_of_quiet hs
    · rcases call_cases (0 < count ∧ lba + count ≤ n) (fun s : Mem =>
        (⟨.ok (s.data.bytes lba count), s, false⟩ : Outcome Mem Errno (List UInt8))) s
        with h | ⟨_, h⟩
      · exact ⟨_, _, h, rfl, Or.inr ⟨_, rfl⟩⟩
      · exact ⟨_, _, h, rfl, Or.inl rfl⟩
  blkWrite_spec lba count buf s := by
    constructor
    · intro hs hc hlba _
      refine ⟨⟨s.data.store lba count buf, s.script.tail⟩, ?_, hs.tail _, rfl⟩
      simp only [blkWrite, hc, hlba, and_self, decide_true]
      exact call_of_quiet hs
    · rcases call_cases (0 < count ∧ lba + count ≤ n) (fun s : Mem => (⟨.ok (),
        { s with data := s.data.store lba count buf }, false⟩ : Outcome Mem Errno Unit)) s
        with h | ⟨hr, h⟩
      · exact ⟨_, _, 0, h, Nat.zero_le _, by omega, (store_zero _ _ _).symm, Or.inr ⟨_, rfl⟩⟩
      · simp only [decide_eq_true_eq] at hr
        exact ⟨_, _, count, h, Nat.le_refl _, fun _ => hr.2, rfl, Or.inl ⟨rfl, rfl⟩⟩
  blkFlush_spec s := ⟨_, _, rfl, rfl, id, fun _ => rfl⟩

end Tach.Memory
