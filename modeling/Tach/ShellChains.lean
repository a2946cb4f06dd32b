import Tach.Shell

/-!
Command chains. The operators `;`, `&&` and `||` cut a line into segments, which are read from the
left: the last status decides whether the segment behind an operator is run. `run_chain` finds the
segments and runs them in one loop over the words.
-/

namespace Tach.Shell

open List

def IsOperator (w : Word) : Prop := w.text ∈ [text ";", text "&&", text "||"]

/-- A segment and the operator behind it. -/
structure Link where
  words : List Word
  op : Word
  ne_nil : words ≠ []
  plain : ∀ w ∈ words, ¬IsOperator w
  operator : IsOperator op

def lineOf (links : List Link) : List Word := links.flatMap fun l => l.words ++ [l.op]

/-- The segments, each with the text of the operator before it. -/
def segments (op : Text) : List Link → List Word → List (Text × List Word)
  | [], last => if last = [] then [] else [(op, last)]
  | l :: links, last => (op, l.words) :: segments l.op.text links last

/-- Whether a segment behind this operator is run. -/
def Selects (op : Text) (status : Int) : Prop :=
  op = text ";" ∨ op = text "&&" ∧ status = 0 ∨ op = text "||" ∧ status ≠ 0

instance (op : Text) (status : Int) : Decidable (Selects op status) :=
  inferInstanceAs (Decidable (_ ∨ _ ∧ _ ∨ _ ∧ _))

def decimal (n : ℕ) : Text :=
  if n = 0 then [48] else (Nat.digits 10 n).reverse.map fun d => UInt8.ofNat (48 + d)

/-- The words with a status in the place of `$?`. -/
def withStatus (status : Int) (words : List Word) : List Word :=
  words.map fun w => if w.text = text "$?" then ⟨statusText status, false⟩ else w

section Reading

variable (oracle : Oracle)

/-- `run_line`, with what the commands return. -/
def runWords (history : List Event) (words : List Word) : List Event × Option Int :=
  match lineCommands byText words with
  | .error message => (history ++ [.message message], some 2)
  | .ok commands => (history ++ [.ran commands], oracle (history ++ [.ran commands]))

/-- What was done up to a segment and in it; nothing more once the shell was left. -/
def follow (done : List Event × Option Int) (segment : Text × List Word) : List Event × Option Int :=
  match done with
  | (history, none) => (history, none)
  | (history, some status) =>
    if Selects segment.1 status then runWords oracle history (withStatus status segment.2)
    else (history, some status)

/-- The reading of a chain from the left; the first segment is always run. -/
def reading (status : Int) (links : List Link) (last : List Word) : List Event × Option Int :=
  (segments (text ";") links last).foldl (follow oracle) ([], some status)

/-- An operator where a segment should be. -/
def misplaced : List Event × Option Int → List Event × Option Int
  | (history, none) => (history, none)
  | (history, some _) => (history ++ [.message (text "sh: syntax error near operator\n")], some 2)

end Reading

theorem isOperator_iff (w : Word) :
    byText w = .semi ∨ byText w = .and ∨ byText w = .or ↔ IsOperator w := by
  rw [IsOperator, byText]
  constructor
  · unfold symbolOf
    split_ifs <;> simp_all
  · intro h
    simp only [mem_cons, not_mem_nil, or_false] at h
    rcases h with h | h | h <;> rw [h] <;> decide +kernel

theorem runsNext_eq {w : Word} (hw : IsOperator w) (status : Int) :
    runsNext (byText w) status = decide (Selects w.text status) := by
  simp only [IsOperator, mem_cons, not_mem_nil, or_false] at hw
  rw [byText]
  rcases hw with h | h | h <;> simp [h, Selects, symbolOf, runsNext, text]

theorem runSegment_eq (oracle : Oracle) (history : List Event) (status : Int) (words : List Word) :
    runSegment byText oracle history status words =
      runWords oracle history (withStatus status words) := by
  have hiff (t : Text) : symbolOf t = .status ↔ t = text "$?" := by
    unfold symbolOf
    split_ifs <;> simp_all [text]
  rw [runSegment, runWords, expandStatus, withStatus]
  -- the two matches are one and the same only up to unfolding
  simp only [byText, hiff] <;> rfl

theorem decimal_small {v : ℕ} (h : v < 10) : decimal v = [UInt8.ofNat (48 + v % 10)] := by
  rw [Nat.mod_eq_of_lt h, decimal]
  split_ifs with hzero
  · rw [hzero]
    rfl
  · rw [Nat.digits_of_lt 10 v hzero h]
    rfl

/-- The digits that `expand_status_words` writes are those of the number. -/
theorem digits_eq {n v : ℕ} (h : v < 10 ^ (n + 1)) : digits (n + 1) v = decimal v := by
  induction n generalizing v with
  | zero => rw [digits, if_pos (by omega), nil_append, decimal_small h]
  | succ n ih =>
    rw [digits]
    by_cases hsmall : v / 10 = 0
    · rw [if_pos hsmall, nil_append, decimal_small (by omega)]
    · rw [if_neg hsmall, ih (by rw [Nat.pow_succ] at h; omega), decimal, decimal, if_neg hsmall,
        if_neg (by omega), Nat.digits_def' (by decide) (show 0 < v by omega), reverse_cons, map_append]
      rfl

section Chains

variable (oracle : Oracle) {words last : List Word} {op : Text}

theorem runChain_plain (h : ∀ w ∈ words, ¬IsOperator w) (history : List Event) (status : Int)
    (run : Bool) (current rest : List Word) :
    runChain byText oracle history status run current (words ++ rest) =
      runChain byText oracle history status run (current ++ words) rest := by
  induction words generalizing current with
  | nil => rw [append_nil, nil_append]
  | cons w words ih =>
    rw [cons_append, runChain, if_neg (mt (isOperator_iff w).mp (h w mem_cons_self)),
      ih fun x hx => h x (mem_cons_of_mem _ hx), append_assoc, singleton_append]

/-- The loop over one segment and the operator behind it. -/
theorem runChain_link (l : Link) (history : List Event) (status : Int) (rest : List Word) :
    runChain byText oracle history status (decide (Selects op status)) []
        (l.words ++ [l.op] ++ rest) = match follow oracle (history, some status) (op, l.words) with
      | (history, none) => (history, none) | (history, some status) =>
        runChain byText oracle history status (decide (Selects l.op.text status)) [] rest := by
  rw [append_assoc, runChain_plain oracle l.plain, nil_append, singleton_append, runChain,
    if_pos ((isOperator_iff l.op).mpr l.operator), if_neg l.ne_nil, runSegment_eq]
  simp only [runsNext_eq l.operator, follow, decide_eq_true_eq] <;> rfl

theorem foldl_left (history : List Event) (l : List (Text × List Word)) :
    l.foldl (follow oracle) (history, none) = (history, none) := by
  induction l with
  | nil => rfl
  | cons s l ih => exact ih

theorem runChain_reading (hlast : ∀ w ∈ last, ¬IsOperator w) (links : List Link)
    (history : List Event) (status : Int) :
    runChain byText oracle history status (decide (Selects op status)) [] (lineOf links ++ last) =
      (segments op links last).foldl (follow oracle) (history, some status) := by
  induction links generalizing op history status with
  | nil =>
    have hplain := runChain_plain oracle hlast history status (decide (Selects op status)) [] []
    rw [append_nil, nil_append] at hplain
    rw [segments, lineOf, flatMap_nil, nil_append, hplain, runChain, runSegment_eq]
    by_cases hnil : last = []
    · simp [hnil]
    · simp [hnil, follow]
  | cons l links ih =>
    rw [lineOf, flatMap_cons, append_assoc, ← lineOf, runChain_link, segments, foldl_cons]
    rcases follow oracle (history, some status) (op, l.words) with ⟨history', _ | status'⟩
    · exact (foldl_left oracle history' _).symm
    · exact ih history' status'

theorem runChain_misplaced {w : Word} (hw : IsOperator w) (rest : List Word) (links : List Link)
    (history : List Event) (status : Int) :
    runChain byText oracle history status (decide (Selects op status)) [] (lineOf links ++ w :: rest) =
      misplaced ((segments op links []).foldl (follow oracle) (history, some status)) := by
  induction links generalizing op history status with
  | nil =>
    rw [lineOf, flatMap_nil, nil_append, runChain, if_pos ((isOperator_iff w).mpr hw), if_pos rfl]
    rfl
  | cons l links ih =>
    rw [lineOf, flatMap_cons, append_assoc, ← lineOf, runChain_link, segments, foldl_cons]
    rcases follow oracle (history, some status) (op, l.words) with ⟨history', _ | status'⟩
    · rw [foldl_left]
      rfl
    · exact ih history' status'

/-- Every line is a chain of segments, or one up to an operator that is misplaced. -/
theorem exists_links (words current : List Word) (hcurrent : ∀ w ∈ current, ¬IsOperator w) :
    ∃ links, (∃ last, (∀ w ∈ last, ¬IsOperator w) ∧ current ++ words = lineOf links ++ last) ∨
      ∃ op rest, IsOperator op ∧ current ++ words = lineOf links ++ op :: rest := by
  induction words generalizing current with
  | nil => exact ⟨[], .inl ⟨current, hcurrent, append_nil _⟩⟩
  | cons w words ih =>
    by_cases hw : IsOperator w
    · by_cases hnil : current = []
      · exact ⟨[], .inr ⟨w, words, hw, by rw [hnil]; rfl⟩⟩
      · obtain ⟨links, hlinks⟩ := ih [] nofun
        refine ⟨⟨current, w, hnil, hcurrent, hw⟩ :: links, hlinks.imp ?_ ?_⟩
        · rintro ⟨last, hlast, heq⟩
          exact ⟨last, hlast, by simpa [lineOf] using heq⟩
        · rintro ⟨op, rest, hop, heq⟩
          exact ⟨op, rest, hop, by simpa [lineOf] using heq⟩
    · obtain ⟨links, hlinks⟩ := ih (current ++ [w]) (by
        simpa [or_imp, forall_and, hw] using hcurrent)
      exact ⟨links, by simpa using hlinks⟩

/-- `run_chain` on every list of words: the segments that the reading from the left selects, up to an
operator that is misplaced, if there is one. The status in the place of `$?` is written in decimal. -/
theorem chain_reading (oracle : Oracle) (status : Int) :
    (∀ links last, (∀ w ∈ last, ¬IsOperator w) →
      runLine byText oracle status (lineOf links ++ last) = reading oracle status links last) ∧
    (∀ links op rest, IsOperator op → runLine byText oracle status (lineOf links ++ op :: rest) =
        misplaced (reading oracle status links [])) ∧
    (∀ words, ∃ links, (∃ last, (∀ w ∈ last, ¬IsOperator w) ∧ words = lineOf links ++ last) ∨
      ∃ op rest, IsOperator op ∧ words = lineOf links ++ op :: rest) ∧
    ∀ n : Int, n.natAbs ≤ 2 ^ 31 →
      statusText n = (if n < 0 then text "-" else []) ++ decimal n.natAbs := by
  have hfirst : decide (Selects (text ";") status) = true := decide_eq_true (.inl rfl)
  refine ⟨fun links last hlast => ?_, fun links op rest hop => ?_, fun words => ?_, fun n hn => ?_⟩
  · rw [runLine, ← hfirst]
    exact runChain_reading oracle hlast links [] status
  · rw [runLine, ← hfirst]
    exact runChain_misplaced oracle hop rest links [] status
  · exact exists_links words [] nofun
  · rw [statusText, digits_eq (by omega)]

end Chains

end Tach.Shell
