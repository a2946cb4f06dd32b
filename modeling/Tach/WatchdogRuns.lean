import Tach.Watchdog

/-!
Whom the watchdog kills. The last event of an entry says whether it is armed, for which process and
with which deadline; a process is selected only if this deadline has passed. An expiry that comes late
finds the entry in another state or with a deadline that has not passed. The generation of an entry is
the number of its registrations, so a handle is never given out again.
-/

namespace Tach.Watchdog

open Function List Histories

variable {α β : Type} {s t : State α β} {l e : List Event} {i : Slot}

def Event.slot : Event → Option Slot
  | registered i _ => some i
  | armed i _ _ => some i
  | unregistered i => some i
  | selected i _ _ => some i
  | killed _ => none

def last (i : Slot) (l : List Event) : Option Event := (l.filter fun x => x.slot = some i).getLast?

theorem last_append (h : ∀ x ∈ e, x.slot ≠ some i) : last i (l ++ e) = last i l := by
  have hnone : e.filter (fun x => x.slot = some i) = [] :=
    filter_eq_nil_iff.mpr fun x hx => by simpa using h x hx
  rw [last, filter_append, hnone, append_nil, last]

theorem last_concat {x : Event} (h : x.slot = some i) : last i (l ++ [x]) = some x := by
  rw [last, filter_append, filter_singleton, decide_eq_true h, cond_true,
    List.getLast?_append_of_ne_nil _ (cons_ne_nil _ _), List.getLast?_singleton]

theorem last_mem (l l' : List Event) (h : ∃ x ∈ l', x.slot = some i) :
    ∃ x ∈ l', last i (l ++ l') = some x := by
  obtain ⟨x, hx, hslot⟩ := h
  have hmem : x ∈ l'.filter fun x => x.slot = some i :=
    mem_filter.mpr ⟨hx, decide_eq_true hslot⟩
  have hne := ne_nil_of_mem hmem
  refine ⟨(l'.filter fun x => x.slot = some i).getLast hne, (mem_filter.mp (getLast_mem hne)).1, ?_⟩
  rw [last, filter_append, List.getLast?_append_of_ne_nil _ hne, List.getLast?_eq_some_getLast hne]

def selections (l : List Event) : List ℕ :=
  l.filterMap fun x => match x with
    | .selected _ pid _ => some pid
    | _ => none

/-- The processes that were sent `SIGKILL`, in order. -/
def kills (l : List Event) : List ℕ :=
  l.filterMap fun x => match x with
    | .killed pid => some pid
    | _ => none

theorem registrations_append (i : Slot) (l e : List Event) :
    registrations i (l ++ e) = registrations i l + registrations i e := countP_append

/-- What a step does to the entry `i`. -/
inductive Alters (i : Slot) (s t : State α β) : List Event → Prop
  | other {e : List Event} (hi : ∀ x ∈ e, x.slot ≠ some i) (hentry : t.entry i = s.entry i)
      (hdeadline : t.deadline i = s.deadline i) : Alters i s t e
  | registered (pid : ℕ) (config : Config) (hentry : t.entry i =
      ⟨nextGeneration (s.entry i).generation, .armed, pid, config, 0⟩) :
      Alters i s t [.registered i (handleOf t i), armedEvent t i]
  | rearmed (pid restarts : ℕ)
      (hstate : (s.entry i).state = .armed ∧ restarts = (s.entry i).restarts ∨
        (s.entry i).state = .restart ∧ restarts = (s.entry i).restarts + 1)
      (hentry : t.entry i = { s.entry i with pid := pid, restarts := restarts, state := .armed }) :
      Alters i s t [armedEvent t i]
  | unregistered (hentry : t.entry i = { s.entry i with state := .free }) :
      Alters i s t [.unregistered i]
  | selected (state : Status) (harmed : (s.entry i).state = .armed)
      (hstate : state = .failed ∨
        state = .restart ∧ (s.entry i).restarts < (s.entry i).config.restartCountMax)
      (hentry : t.entry i = { s.entry i with state := state }) :
      Alters i s t [.selected i (s.entry i).pid s.wheel.now]

theorem Change.alters (h : Change s t e) (i : Slot) : Alters i s t e := by
  cases h with
  | quiet hentry hdeadline hvictims =>
    exact .other nofun (congrFun hentry i) (congrFun hdeadline i)
  | registered j pid config hfree hentry hdeadline hvictims =>
    by_cases hij : i = j
    · subst hij
      exact .registered pid config (by rw [hentry, update_self])
    · exact .other (by simp [Event.slot, armedEvent, Ne.symm hij])
        (by rw [hentry, update_of_ne hij]) (hdeadline i hij)
  | rearmed j pid restarts hstate hentry hdeadline hvictims =>
    by_cases hij : i = j
    · subst hij
      exact .rearmed pid restarts hstate (by rw [hentry, update_self])
    · exact .other (by simp [Event.slot, armedEvent, Ne.symm hij])
        (by rw [hentry, update_of_ne hij]) (hdeadline i hij)
  | unregistered j hentry hdeadline hvictims =>
    by_cases hij : i = j
    · subst hij
      exact .unregistered (by rw [hentry, update_self])
    · exact .other (by simp [Event.slot, Ne.symm hij]) (by rw [hentry, update_of_ne hij])
        (congrFun hdeadline i)
  | selected j state harmed hle hstate hentry hdeadline hvictims =>
    by_cases hij : i = j
    · subst hij
      exact .selected state harmed hstate (by rw [hentry, update_self])
    · exact .other (by simp [Event.slot, Ne.symm hij]) (by rw [hentry, update_of_ne hij])
        (congrFun hdeadline i)
  | killed pid hentry hdeadline hvictims =>
    exact .other (by simp [Event.slot]) (congrFun hentry i) (congrFun hdeadline i)

/-- An entry that is armed has been so since its last event, which has set its deadline. -/
def Dated (l : List Event) (s : State α β) : Prop :=
  ∀ i, (s.entry i).state = .armed → last i l = some (armedEvent s i)

theorem Change.dated (h : Change s t e) (hs : Dated l s) : Dated (l ++ e) t := by
  intro i harmed
  cases h.alters i with
  | other hi hentry hdeadline =>
    rw [hentry] at harmed
    rw [last_append hi, hs i harmed, armedEvent, armedEvent, hentry, hdeadline]
  | registered pid config hentry =>
    rw [← singleton_append, ← append_assoc]
    exact last_concat rfl
  | rearmed pid restarts hstate hentry => exact last_concat rfl
  | unregistered hentry =>
    rw [hentry] at harmed
    cases harmed
  | selected state hold hstate hentry =>
    rw [hentry] at harmed
    rcases hstate with rfl | ⟨rfl, -⟩
    · cases harmed
    · cases harmed

/-- Each process was selected when the deadline set by the last event of its entry had passed. -/
def Justified (l : List Event) : Prop :=
  ∀ l₁ i pid now l₂, l = l₁ ++ .selected i pid now :: l₂ →
    ∃ deadline, last i l₁ = some (.armed i pid deadline) ∧ deadline ≤ now

theorem Change.justified (h : Change s t e) (hs : Dated l s) (hl : Justified l) :
    Justified (l ++ e) := by
  intro l₁ i pid now l₂ heq
  have hbefore : .selected i pid now ∉ e →
      ∃ deadline, last i l₁ = some (.armed i pid deadline) ∧ deadline ≤ now := by
    intro hx
    obtain ⟨l', hl', -⟩ := split_left heq hx
    exact hl l₁ i pid now l' hl'
  cases h with
  | selected j state harmed hle hstate hentry hdeadline hvictims =>
    rcases split_concat heq with ⟨rfl, hsel, -⟩ | ⟨l', hl', -⟩
    · cases hsel
      exact ⟨s.deadline i, hs i harmed, hle⟩
    · exact hl l₁ i pid now l' hl'
  | quiet hentry hdeadline hvictims => exact hbefore not_mem_nil
  | registered j pid' config hfree hentry hdeadline hvictims =>
    refine hbefore fun hx => ?_
    rcases mem_pair.mp hx with hx | hx
    · cases hx
    · cases hx
  | _ => exact hbefore fun hx => by cases mem_singleton.mp hx

/-- The restarts of the entries are within their budgets. -/
def Budgeted (s : State α β) : Prop :=
  ∀ i, (s.entry i).restarts ≤ (s.entry i).config.restartCountMax ∧
    ((s.entry i).state = .restart → (s.entry i).restarts < (s.entry i).config.restartCountMax)

theorem Change.budgeted (h : Change s t e) (hs : Budgeted s) : Budgeted t := by
  intro i
  obtain ⟨hle, hlt⟩ := hs i
  cases h.alters i with
  | other hi hentry hdeadline =>
    rw [hentry]
    exact ⟨hle, hlt⟩
  | registered pid config hentry =>
    rw [hentry]
    exact ⟨Nat.zero_le _, nofun⟩
  | rearmed pid restarts hstate hentry =>
    rw [hentry]
    refine ⟨?_, nofun⟩
    rcases hstate with ⟨-, rfl⟩ | ⟨hrestart, rfl⟩
    · exact hle
    · exact hlt hrestart
  | unregistered hentry =>
    rw [hentry]
    exact ⟨hle, nofun⟩
  | selected state hold hstate hentry =>
    rw [hentry]
    refine ⟨hle, fun hrestart => ?_⟩
    rcases hstate with rfl | ⟨-, hspare⟩
    · cases hrestart
    · exact hspare

/-- Each process that was selected is sent one `SIGKILL`. -/
def Counted (l : List Event) (s : State α β) : Prop := (kills l ++ s.victims).Perm (selections l)

theorem Change.counted (h : Change s t e) (hs : Counted l s) : Counted (l ++ e) t := by
  have hsplit : ∀ {v : List ℕ}, ((kills l ++ kills e) ++ v).Perm (selections l ++ selections e) ↔
      (kills (l ++ e) ++ v).Perm (selections (l ++ e)) := by
    intro v
    rw [kills, kills, kills, selections, selections, selections, filterMap_append, filterMap_append]
  have hquiet : kills e = [] → selections e = [] → t.victims = s.victims → Counted (l ++ e) t := by
    intro hkills hselections hvictims
    refine hsplit.mp ?_
    rw [hkills, hselections, hvictims, append_nil, append_nil]
    exact hs
  cases h with
  | selected j state harmed hle hstate hentry hdeadline hvictims =>
    refine hsplit.mp ?_
    rw [hvictims, ← append_assoc]
    change ((kills l ++ []) ++ _ ++ _).Perm _
    rw [append_nil]
    exact List.Perm.append_right _ hs
  | killed pid hentry hdeadline hvictims =>
    refine hsplit.mp ?_
    rw [append_assoc, show selections [.killed pid] = [] from rfl, append_nil]
    exact (hvictims.symm.append_left (kills l)).trans hs
  | quiet hentry hdeadline hvictims => exact hquiet rfl rfl hvictims
  | registered j pid config hfree hentry hdeadline hvictims => exact hquiet rfl rfl hvictims
  | rearmed j pid restarts hstate hentry hdeadline hvictims => exact hquiet rfl rfl hvictims
  | unregistered j hentry hdeadline hvictims => exact hquiet rfl rfl hvictims

theorem Change.generation (h : Change s t e) (i : Slot) :
    registrations i e = 0 ∧ (t.entry i).generation = (s.entry i).generation ∨
    registrations i e = 1 ∧ (t.entry i).generation = nextGeneration (s.entry i).generation ∧
      e = [.registered i (handleOf t i), armedEvent t i] := by
  cases h.alters i with
  | other hi hentry hdeadline =>
    refine .inl ⟨countP_eq_zero.mpr fun x hx => ?_, by rw [hentry]⟩
    have hslot := hi x hx
    cases x with
    | registered j handle => simpa [Event.slot] using hslot
    | _ => exact Bool.false_ne_true
  | registered pid config hentry =>
    exact .inr ⟨by simp [registrations, armedEvent], by rw [hentry], rfl⟩
  | rearmed pid restarts hstate hentry => exact .inl ⟨rfl, by rw [hentry]⟩
  | unregistered hentry => exact .inl ⟨rfl, by rw [hentry]⟩
  | selected state hold hstate hentry => exact .inl ⟨rfl, by rw [hentry]⟩

/-- The generation of an entry is the number of its registrations. -/
def Numbered (l : List Event) (s : State α β) : Prop :=
  ∀ i, registrations i l < 2 ^ 24 → (s.entry i).generation = registrations i l

theorem nextGeneration_of_lt {g : ℕ} (h : g + 1 < 2 ^ 24) : nextGeneration g = g + 1 := by
  rw [nextGeneration, Nat.mod_eq_of_lt h]
  exact if_neg (Nat.succ_ne_zero g)

theorem Change.numbered (h : Change s t e) (hs : Numbered l s) : Numbered (l ++ e) t := by
  intro i hlt
  rw [registrations_append] at hlt ⊢
  rcases h.generation i with ⟨hzero, hsame⟩ | ⟨hone, hnext, -⟩
  · rw [hsame, hzero, Nat.add_zero]
    exact hs i (by omega)
  · have hgen := hs i (by omega)
    rw [hnext, hone, hgen, nextGeneration_of_lt (by omega)]

/-- The handle of a registration tells how many there were before it. -/
def Issued (l : List Event) : Prop :=
  ∀ l₁ i handle l₂, l = l₁ ++ .registered i handle :: l₂ → registrations i l < 2 ^ 24 →
    handle = (registrations i l₁ + 1) * 256 + (i.val + 1)

theorem Change.issued (h : Change s t e) (hs : Numbered l s) (hl : Issued l) : Issued (l ++ e) := by
  intro l₁ i handle l₂ heq hlt
  rw [registrations_append] at hlt
  by_cases hx : .registered i handle ∈ e
  · rcases h.generation i with ⟨hzero, -⟩ | ⟨hone, hnext, he⟩
    · have hnone := countP_eq_zero.mp hzero _ hx
      simp at hnone
    · rw [he, ← singleton_append, ← append_assoc] at heq
      rcases split_concat heq with ⟨-, harmed, -⟩ | ⟨l', heq', -⟩
      · cases harmed
      · rcases split_concat heq' with ⟨rfl, hhandle, -⟩ | ⟨l'', hl', -⟩
        · cases hhandle
          rw [handleOf, hnext, hs i (by omega), nextGeneration_of_lt (by omega)]
        · exact hl l₁ i handle l'' hl' (by omega)
  · obtain ⟨l', hl', -⟩ := split_left heq hx
    exact hl l₁ i handle l' hl' (by omega)

/-- An entry that is used was registered after it was last unregistered. -/
def Live (l : List Event) (s : State α β) : Prop :=
  ∀ i, (s.entry i).state ≠ .free → ∀ l₁ l₂, l = l₁ ++ .unregistered i :: l₂ →
    ∃ handle, .registered i handle ∈ l₂

theorem Change.revived (h : Change s t e) (hs : (s.entry i).state = .free)
    (ht : (t.entry i).state ≠ .free) : ∃ handle, .registered i handle ∈ e := by
  cases h.alters i with
  | other hi hentry hdeadline =>
    rw [hentry] at ht
    exact absurd hs ht
  | registered pid config hentry => exact ⟨_, mem_cons_self⟩
  | rearmed pid restarts hstate hentry =>
    rw [hs] at hstate
    exact hstate.elim nofun nofun
  | unregistered hentry =>
    rw [hentry] at ht
    exact absurd rfl ht
  | selected state harmed hstate hentry =>
    rw [hs] at harmed
    cases harmed

theorem Change.unregistered_free (h : Change s t e) (hi : .unregistered i ∈ e) :
    (t.entry i).state = .free := by
  cases h with
  | quiet hentry hdeadline hvictims => cases hi
  | registered j pid config hfree hentry hdeadline hvictims =>
    rcases mem_pair.mp hi with hi | hi
    · cases hi
    · cases hi
  | unregistered j hentry hdeadline hvictims =>
    cases mem_singleton.mp hi
    rw [hentry, update_self]
  | _ => cases mem_singleton.mp hi

theorem Change.live (h : Change s t e) (hs : Live l s) : Live (l ++ e) t := by
  intro i hi l₁ l₂ heq
  obtain ⟨l', hl', rfl⟩ := split_left heq fun hx => hi (h.unregistered_free hx)
  by_cases hfree : (s.entry i).state = .free
  · obtain ⟨handle, hhandle⟩ := h.revived hfree hi
    exact ⟨handle, mem_append_right _ hhandle⟩
  · obtain ⟨handle, hhandle⟩ := hs i hfree l₁ l' hl'
    exact ⟨handle, mem_append_left _ hhandle⟩

/-- The handle of a registration that has ended finds no entry. -/
theorem wdLookup_ended {handle : ℕ} {l₁ l₂ l₃ : List Event} (hnumbered : Numbered l s)
    (hissued : Issued l) (hlive : Live l s)
    (hl : l = l₁ ++ .registered i handle :: (l₂ ++ .unregistered i :: l₃))
    (hlt : registrations i l < 2 ^ 24) : wdLookup s handle = none := by
  by_contra hsome
  obtain ⟨j, hj⟩ := Option.ne_none_iff_exists'.mp hsome
  obtain ⟨hused, hgen, hslot⟩ := wdLookup_spec hj
  have hhandle := hissued l₁ i handle _ hl hlt
  have hji : j = i := by
    refine Fin.ext ?_
    have hi : i.val < 8 := i.isLt
    omega
  subst hji
  obtain ⟨handle', hhandle'⟩ := hlive j hused (l₁ ++ .registered j handle :: l₂) l₃ (by
    rw [hl, append_assoc, cons_append])
  have hone : 0 < registrations j l₃ := countP_pos_iff.mpr ⟨_, hhandle', by simp⟩
  have hcount : registrations j l =
      registrations j l₁ + (1 + (registrations j l₂ + registrations j l₃)) := by
    rw [hl, registrations_append]
    simp [registrations]
    omega
  have hgen' := hnumbered j hlt
  omega

section Main

/-- Between two processes that were selected for an entry its deadline was set. -/
theorem Justified.once (h : Justified l) {l₁ l₂ l₃ : List Event} {pid now pid' now' : ℕ}
    (hl : l = l₁ ++ .selected i pid now :: (l₂ ++ .selected i pid' now' :: l₃)) :
    ∃ deadline, .armed i pid' deadline ∈ l₂ := by
  obtain ⟨deadline, hlast, -⟩ := h (l₁ ++ .selected i pid now :: l₂) i pid' now' l₃ (by
    rw [hl, append_assoc, cons_append])
  obtain ⟨x, hx, hx'⟩ := last_mem l₁ (.selected i pid now :: l₂)
    ⟨_, mem_cons_self, rfl⟩
  rw [hlast, Option.some_inj] at hx'
  rw [← hx'] at hx
  rcases mem_cons.mp hx with hx | hx
  · cases hx
  · exact ⟨deadline, hx⟩

def Fresh (s : State α β) : Prop :=
  s.victims = [] ∧
    ∀ i, (s.entry i).state = .free ∧ (s.entry i).generation = 0 ∧ (s.entry i).restarts = 0

variable [DecidableEq α]

theorem Run.invariants (h : Run s l t) (hs : Fresh s) :
    (Dated l t ∧ Justified l ∧ Counted l t) ∧ Budgeted t ∧ Numbered l t ∧ Issued l ∧ Live l t := by
  obtain ⟨hvictims, hfree⟩ := hs
  refine Histories.Run.invariant (I := fun l t => (Dated l t ∧ Justified l ∧ Counted l t) ∧
    Budgeted t ∧ Numbered l t ∧ Issued l ∧ Live l t) h ⟨⟨fun i harmed => ?_, ?_, ?_⟩, fun i => ?_,
      fun i _ => (hfree i).2.1, ?_, fun i hused => absurd (hfree i).1 hused⟩ ?_
  · rw [(hfree i).1] at harmed
    cases harmed
  · intro l₁ i pid now l₂ heq
    simp at heq
  · rw [Counted, hvictims]
    exact List.Perm.refl _
  · rw [(hfree i).2.2, (hfree i).1]
    exact ⟨Nat.zero_le _, nofun⟩
  · intro l₁ i handle l₂ heq
    simp at heq
  · intro l u a v e ⟨⟨hdated, hjust, hcount⟩, hbudget, hnum, hissued, hlive⟩ _ hnext
    have hchange := next_change hnext
    exact ⟨⟨hchange.dated hdated, hchange.justified hdated hjust, hchange.counted hcount⟩,
      hchange.budgeted hbudget, hchange.numbered hnum, hchange.issued hnum hissued,
      hchange.live hlive⟩

def bootState : State Bool Unit :=
  ⟨fun _ => ⟨0, .free, 0, ⟨0, 0, false⟩, 0⟩, ⟨[], fun _ => ⟨0, none, false, 0⟩, 0, false, 0⟩, [], []⟩

end Main

end Tach.Watchdog
