import Tach.Shell

/-!
Quoted words and operators. The shell does what a shell does that takes quoted words for words, as
long as no quoted word has the text of an operator.
-/

namespace Tach.Shell

open List

/-- With room for fewer words, `parse_line` stops earlier. -/
theorem parseWords_take {n m : ℕ} (h : n ≤ m) (line : Text) :
    parseWords n line = (parseWords m line).take n := by
  induction n generalizing m line with
  | zero => rfl
  | succ n ih =>
    obtain ⟨m, rfl⟩ : ∃ k, m = k + 1 := ⟨m - 1, by omega⟩
    simp only [parseWords]
    split
    · rfl
    · split <;> rw [take_succ_cons, ih (Nat.le_of_succ_le_succ h)]

theorem parseLine_eq {line : Text} (h : (lineWords line).length < argvMax) :
    parseLine line = lineWords line := by
  have htake := parseWords_take (n := argvMax - 1) (m := line.length + argvMax) (by omega) line
  rw [parseLine, htake, ← lineWords]
  exact take_of_length_le (by omega)

section Reading

variable {look look' : Word → Symbol} {oracle : Oracle} {l : List Word}

theorem extractRedirects_congr (l : List Word) (h : ∀ w ∈ l, look w = look' w) (kept : List Word)
    (files : Option Word × Option (Word × Bool)) :
    extractRedirects look kept files l = extractRedirects look' kept files l := by
  match l, h with
  | [], _ => rfl
  | [w], h => simp only [extractRedirects, h w mem_cons_self]
  | w :: file :: rest, h =>
    have hrest := extractRedirects_congr rest fun x hx =>
      h x (mem_cons_of_mem _ (mem_cons_of_mem _ hx))
    have hfile := extractRedirects_congr (file :: rest) fun x hx => h x (mem_cons_of_mem _ hx)
    rw [extractRedirects, extractRedirects, h w mem_cons_self, hfile]
    simp only [hrest]
termination_by l.length

theorem stageCommands_congr {stages : List (List Word)}
    (h : ∀ stage ∈ stages, ∀ w ∈ stage, look w = look' w) :
    stageCommands look stages = stageCommands look' stages := by
  induction stages with
  | nil => rfl
  | cons stage rest ih =>
    rw [stageCommands, stageCommands, extractRedirects_congr stage (h stage mem_cons_self),
      ih fun s hs => h s (mem_cons_of_mem _ hs)]

theorem splitStages_congr (h : ∀ w ∈ l, look w = look' w)
    (stages : List (List Word)) (current : List Word) :
    splitStages look stages current l = splitStages look' stages current l := by
  induction l generalizing stages current with
  | nil => rfl
  | cons w rest ih =>
    have hrest := ih fun x hx => h x (mem_cons_of_mem _ hx)
    rw [splitStages, splitStages, h w mem_cons_self]
    simp only [hrest]

/-- The words of the stages are words of the line. -/
theorem mem_splitStages {stages stages' : List (List Word)} {current : List Word}
    (h : splitStages look stages current l = .ok stages') {stage : List Word} (hs : stage ∈ stages')
    {w : Word} (hw : w ∈ stage) : w ∈ l ∨ w ∈ current ∨ ∃ s ∈ stages, w ∈ s := by
  have hclose {stages stages' : List (List Word)} {current : List Word}
      (h : closeStage stages current = .ok stages') : stages' = stages ++ [current] := by
    unfold closeStage at h
    split at h
    · cases h
    · split at h <;> cases h
      rfl
  induction l generalizing stages current with
  | nil =>
    rw [hclose h] at hs
    rcases mem_append.mp hs with hs | hs
    · exact .inr (.inr ⟨stage, hs, hw⟩)
    · rw [mem_singleton.mp hs] at hw
      exact .inr (.inl hw)
  | cons x rest ih =>
    rw [splitStages] at h
    split at h
    · cases hcl : closeStage stages current with
      | error message => simp [hcl] at h
      | ok stages₁ =>
        rw [hcl] at h
        rcases ih h with hr | hr | ⟨s, hs', hr⟩
        · exact .inl (mem_cons_of_mem _ hr)
        · exact absurd hr not_mem_nil
        · rw [hclose hcl] at hs'
          rcases mem_append.mp hs' with hs' | hs'
          · exact .inr (.inr ⟨s, hs', hr⟩)
          · rw [mem_singleton.mp hs'] at hr
            exact .inr (.inl hr)
    · rcases ih h with hr | hr | hr
      · exact .inl (mem_cons_of_mem _ hr)
      · rcases mem_append.mp hr with hr | hr
        · exact .inr (.inl hr)
        · rw [mem_singleton.mp hr]
          exact .inl mem_cons_self
      · exact .inr (.inr hr)

theorem lineCommands_congr (h : ∀ w ∈ l, look w = look' w) :
    lineCommands look l = lineCommands look' l := by
  unfold lineCommands
  rw [splitStages_congr h]
  cases hs : splitStages look' [] [] l with
  | error message => rfl
  | ok stages =>
    refine stageCommands_congr fun stage hstage w hw => h w ?_
    rcases mem_splitStages hs hstage hw with hw | hw | ⟨s, hs, -⟩
    · exact hw
    · exact absurd hw not_mem_nil
    · exact absurd hs not_mem_nil

/-- Two ways to tell words that agree on a word that stands for a status. -/
theorem runSegment_congr (h : ∀ w ∈ l, look w = look' w)
    (hplain : ∀ t, look ⟨t, false⟩ = look' ⟨t, false⟩) (history : List Event) (status : Int) :
    runSegment look oracle history status l = runSegment look' oracle history status l := by
  have hexpand : expandStatus look status l = expandStatus look' status l :=
    map_congr_left fun w hw => by rw [h w hw]
  have hcommands : lineCommands look (expandStatus look' status l) =
      lineCommands look' (expandStatus look' status l) := by
    refine lineCommands_congr fun w hw => ?_
    obtain ⟨x, hx, rfl⟩ := mem_map.mp hw
    split
    · exact hplain _
    · exact h x hx
  unfold runSegment
  rw [hexpand, hcommands]

variable (look look') in
theorem runChain_congr {l : List Word} (h : ∀ w ∈ l, look w = look' w)
    (hplain : ∀ t, look ⟨t, false⟩ = look' ⟨t, false⟩) (history : List Event) (status : Int)
    (run : Bool) (current : List Word) (hcurrent : ∀ w ∈ current, look w = look' w) :
    runChain look oracle history status run current l =
      runChain look' oracle history status run current l := by
  induction l generalizing history status run current with
  | nil => rw [runChain, runChain, runSegment_congr hcurrent hplain]
  | cons w rest ih =>
    have hw := h w mem_cons_self
    have hnext := ih fun x hx => h x (mem_cons_of_mem _ hx)
    have hword : ∀ x ∈ current ++ [w], look x = look' x := by
      intro x hx
      rcases mem_append.mp hx with hx | hx
      · exact hcurrent x hx
      · rw [mem_singleton.mp hx, hw]
    have hnil : ∀ x ∈ ([] : List Word), look x = look' x := fun x hx => absurd hx not_mem_nil
    rw [runChain, runChain, runSegment_congr hcurrent hplain, hw]
    simp only [hnext _ _ _ _ hnil, hnext _ _ _ _ hword]

end Reading

theorem symbolOf_word {t : Text} (h : t ∉ operators) : symbolOf t = .word := by
  simp only [operators, mem_cons, not_mem_nil, or_false, not_or] at h
  simp [symbolOf, h]

/-- The command `echo` with this text in quotes. -/
def echoed (t : Text) : Text := text "echo '" ++ t ++ text "'"

theorem lineWords_echoed :
    ∀ t ∈ operators, lineWords (echoed t) = [⟨text "echo", false⟩, ⟨t, true⟩] := by decide +kernel

theorem echoed_differs : ∀ t ∈ operators, ¬shell (fun _ => some 0) 0 (echoed t) =
      markingShell (fun _ => some 0) 0 (echoed t) := by decide +kernel

end Tach.Shell
