import Mathlib

/-!
The utility `tail`. It keeps the last 16384 bytes of what it reads, in whatever pieces its input
arrives, and writes the end of them: so many bytes, or so many lines.
-/

namespace Tach.Tails

open List

def tailCap : ℕ := 16384

/-- A round of the loop. Of `g_tail` the bytes `kept` are used, and `chunk` was read. -/
def keep (kept chunk : List UInt8) : List UInt8 :=
  if tailCap ≤ chunk.length then chunk.drop (chunk.length - tailCap)
  else if tailCap < kept.length + chunk.length then
    kept.drop (kept.length + chunk.length - tailCap) ++ chunk
  else kept ++ chunk

/-- The loop over the answers of `read`, where `none` is an error. -/
def readAll (kept : List UInt8) : List (Option (List UInt8)) → Option (List UInt8)
  | [] => some kept
  | none :: _ => none
  | some chunk :: answers => if chunk = [] then some kept else readAll (keep kept chunk) answers

/-- The loop that counts lines backwards from position `i`. -/
def startLoop (kept : List UInt8) (limit : ℕ) : ℕ → ℕ → ℕ
  | 0, _ => 0
  | i + 1, seen =>
    if kept.getD i 0 = 10 then
      if seen + 1 = limit then i + 1 else startLoop kept limit i (seen + 1)
    else startLoop kept limit i seen

def start (byBytes : Bool) (limit : ℕ) (kept : List UInt8) : ℕ :=
  if byBytes then if limit < kept.length then kept.length - limit else 0
  else
    let last := kept.length - 1
    startLoop kept limit (if kept.getD last 0 = 10 then last else kept.length) 0

def written (byBytes : Bool) (limit : ℕ) (kept : List UInt8) : List UInt8 :=
  if limit = 0 ∨ kept = [] then [] else kept.drop (start byBytes limit kept)

/-- What `tail_fd` writes, where `none` is an error of `read`. -/
def tailFd (byBytes : Bool) (limit : ℕ) (answers : List (Option (List UInt8))) :
    Option (List UInt8) :=
  (readAll [] answers).map (written byBytes limit)

/-- What `read` can give before the end of the input. -/
abbrev Chunk := { chunk : List UInt8 // chunk ≠ [] ∧ chunk.length ≤ 2048 }

/-- The lines of a text, each with its newline. -/
def lines (bytes : List UInt8) : List (List UInt8) := bytes.splitBy fun c _ => c ≠ 10

variable {kept : List UInt8} {limit i seen : ℕ}

theorem keep_eq (input chunk : List UInt8) :
    keep (input.rtake tailCap) chunk = (input ++ chunk).rtake tailCap := by
  unfold keep rtake
  generalize tailCap = cap
  rw [length_append, drop_append, length_drop]
  split_ifs with hlong hfull
  · rw [drop_eq_nil_of_le (show input.length ≤ input.length + chunk.length - cap by omega), nil_append]
    congr 1
    omega
  · rw [drop_drop, show input.length + chunk.length - cap - input.length = 0 by omega, drop_zero]
    congr 2
    omega
  · rw [show input.length + chunk.length - cap - input.length = 0 by omega, drop_zero]
    congr 2
    omega

/-- The window does not depend on how the input is cut. -/
theorem readAll_eq (input : List UInt8) (chunks : List Chunk) (rest : List (Option (List UInt8))) :
    readAll (input.rtake tailCap) (chunks.map (fun c => some c.val) ++ some [] :: rest) =
      some ((input ++ (chunks.map Subtype.val).flatten).rtake tailCap) := by
  induction chunks generalizing input with
  | nil => simp [readAll]
  | cons c chunks ih =>
    rw [map_cons, cons_append, readAll, if_neg c.property.1, keep_eq, ih, map_cons, flatten_cons,
      append_assoc]

theorem length_loop (r : UInt8 → UInt8 → Bool) (l g g' : List UInt8) (a : UInt8)
    (gs gs' : List (List UInt8)) (h : gs.length = gs'.length) :
    (splitBy.loop r l a g gs).length = (splitBy.loop r l a g' gs').length := by
  induction l generalizing a g g' gs gs' with
  | nil => simp [splitBy.loop, h]
  | cons b l ih =>
    rw [splitBy.loop, splitBy.loop]
    split
    · exact ih _ _ _ _ _ h
    · exact ih _ _ _ _ _ (by simp [h])

/-- A byte in front of others begins a new line if it is a newline. -/
theorem length_lines (c : UInt8) (bytes : List UInt8) (h : bytes ≠ []) :
    (lines (c :: bytes)).length = (lines bytes).length + if c = 10 then 1 else 0 := by
  obtain ⟨b, bytes, rfl⟩ := exists_cons_of_ne_nil h
  split_ifs with hc
  · rw [lines, ← singleton_append, splitBy_append_cons _ (by simp [hc]), length_append, Nat.add_comm]
    rfl
  · rw [lines, splitBy, splitBy.loop, decide_eq_true hc]
    exact length_loop _ _ _ _ _ _ _ rfl

/-- Where the loop stops: at the beginning, with few lines, or behind a newline. -/
theorem startLoop_spec (hi : i < kept.length) (hseen : (lines (kept.drop i)).length = seen + 1)
    (hlimit : seen < limit) : startLoop kept limit i seen = 0 ∧ (lines kept).length ≤ limit ∨
      ∃ j, startLoop kept limit i seen = j + 1 ∧ kept[j]? = some 10 ∧ j + 1 < kept.length ∧
        (lines (kept.drop (j + 1))).length = limit := by
  induction i generalizing seen with
  | zero => exact .inl ⟨rfl, hseen ▸ hlimit⟩
  | succ i ih =>
    have hcons := drop_eq_getElem_cons (show i < kept.length by omega)
    have hlength := length_lines kept[i] (kept.drop (i + 1)) (by simpa using hi)
    rw [← hcons] at hlength
    rw [startLoop, List.getD_eq_getElem _ _ (by omega)]
    split_ifs with hnew hstop
    · exact .inr ⟨i, rfl, by rw [getElem?_eq_getElem (by omega), hnew], hi, by omega⟩
    · rw [if_pos hnew] at hlength
      exact ih (by omega) (by omega) (by omega)
    · rw [if_neg hnew] at hlength
      exact ih (by omega) (by omega) hlimit

theorem written_bytes (limit : ℕ) (kept : List UInt8) :
    written true limit kept = kept.rtake limit := by
  unfold written
  split_ifs with hnone
  · rcases hnone with rfl | rfl <;> simp
  · rw [start, if_pos rfl, rtake]
    split_ifs with hlong
    · rfl
    · rw [Nat.sub_eq_zero_of_le (Nat.le_of_not_lt hlong)]

theorem written_lines (limit : ℕ) (kept : List UInt8) :
    written false limit kept = ((lines kept).rtake limit).flatten := by
  unfold written
  split_ifs with hnone
  · rcases hnone with rfl | rfl <;> simp [lines]
  obtain ⟨hlimit, hkept⟩ := not_or.mp hnone
  have hpos := length_pos_iff.mpr hkept
  -- whether or not there is a newline at the end, the last byte is not counted
  have hstart : start false limit kept = startLoop kept limit (kept.length - 1) 0 := by
    obtain ⟨n, hn⟩ := Nat.exists_eq_add_one.mpr hpos
    rw [start, if_neg Bool.false_ne_true, hn, Nat.add_sub_cancel]
    dsimp only
    split_ifs with hlast
    · rfl
    · rw [startLoop, if_neg hlast]
  have hone : (lines (kept.drop (kept.length - 1))).length = 0 + 1 := by
    rw [drop_length_sub_one hkept]
    rfl
  rw [hstart, rtake]
  rcases startLoop_spec (by omega) hone (Nat.pos_of_ne_zero hlimit) with
    ⟨hzero, hle⟩ | ⟨j, hj, hnew, hlt, hcount⟩
  · rw [hzero, Nat.sub_eq_zero_of_le hle, drop_zero, drop_zero, lines, flatten_splitBy]
  · have hsplit : lines kept = lines (kept.take (j + 1)) ++ lines (kept.drop (j + 1)) := by
      rw [lines, lines, lines, ← splitBy_append, take_append_drop]
      simp [getLast?_take, hnew]
    rw [hj, hsplit, length_append, hcount, Nat.add_sub_cancel, drop_left, lines, flatten_splitBy]

/-- `tail_fd` for every input and every way in which it arrives. -/
theorem tail_fd_writes (chunks : List Chunk) (rest : List (Option (List UInt8))) (limit : ℕ) :
    let answers := chunks.map (fun c => some c.val) ++ some [] :: rest
    let kept := (chunks.map Subtype.val).flatten.rtake 16384
    tailFd true limit answers = some (kept.rtake limit) ∧
      tailFd false limit answers = some ((lines kept).rtake limit).flatten := by
  intro answers kept
  have hread : readAll [] answers = some kept := readAll_eq [] chunks rest
  rw [tailFd, tailFd, hread]
  exact ⟨congrArg some (written_bytes limit kept), congrArg some (written_lines limit kept)⟩

end Tach.Tails
