import Tach.ExecImages
import Tach.ProcessViews

/-!
A `process_exec_image_args` that fails. The process keeps its address space and all of its fields
but for a kernel stack, and the frames of the new address space go back; one is lost where the
image had put a page at the place of the stack and the arguments did not fit.
-/

namespace Tach.Ownership

open Actions Frames KeyedLists Paging Vmm Processes Function List
open Sectors (Errno)

variable {A : Arch} {s t : System} {s₀ : Spaces} {own own₀ own' : ℕ → Owner} {extra extra' : ℕ → ℕ}
variable {c : Context} {sp : Space} {image : Image} {pid : Pid} {p : Process} {argv : List (List ℕ)}

theorem allocateKernelStack_ends (hp : s.procs pid = some p) (hs : s.spaces.mach.pmm.Sound) :
    Ends (allocateKernelStack pid) s fun r t =>
      (r = .error .enomem ∧ p.stack = none ∧ t = s) ∨ r = .ok () ∧ (p.stack ≠ none ∧ t = s ∨
        p.stack = none ∧ ∃ first mach,
          Grows s.spaces.mach mach (Finset.Ico first (first + processStackPages)) ∧
          mach.ram = s.spaces.mach.ram ∧
          t = { s with
            spaces := { s.spaces with mach := mach }
            procs := update s.procs pid (some { p with stack := some first }) }) := by
  unfold Ends allocateKernelStack
  rw [hp]
  dsimp only
  cases hstack : p.stack with
  | some first => exact .inr ⟨rfl, .inl ⟨nofun, rfl⟩⟩
  | none =>
    cases halloc : s.spaces.mach.pmm.allocPages processStackPages with
    | none => exact .inl ⟨rfl, rfl, rfl⟩
    | some r =>
      obtain ⟨first, pmm⟩ := r
      obtain ⟨rfl, hfree⟩ := allocPages_spec halloc
      refine .inr ⟨rfl, .inr ⟨rfl, first, _, grows_takeRun s.spaces.mach hs hfree, rfl, ?_⟩⟩
      simp only [System.onProcess, System.setProcess, hp, Option.map_some]
      rfl

/-- What the preparation of an image changes: the spaces, and the stack of the process. -/
def Prepared (pid : Pid) (p : Process) (F : Finset ℕ) (s t : System) : Prop :=
  ∃ stack, t = { s with
      spaces := t.spaces
      procs := update s.procs pid (some { p with stack := stack }) } ∧
    (stack = p.stack ∧ F = ∅ ∨ p.stack = none ∧ stack ≠ none ∧ F.card = processStackPages)

theorem Prepared.spaces {F : Finset ℕ} (h : Prepared pid p F s t) (v : Spaces) :
    Prepared pid p F s { t with spaces := v } := by
  obtain ⟨stack, ht, hstack⟩ := h
  exact ⟨stack, by rw [ht], hstack⟩

/-- The image was prepared: its context has the stack page. -/
def Built (A : Arch) (c : Context) (argv : List (List ℕ)) (r : Except Errno (ℕ × ℕ)) (t : Spaces) :
    Prop :=
  ∃ q F, r = .ok q ∧ page t c (userStackPage / pageSize) = some F ∧ Stacked A argv q.2 F

/-- The stack page and the arguments on it. A page that was there loses its frame. -/
theorem pushArguments_ends (h : Owned A s.spaces own extra) (hslot : s.spaces.slots c = some sp)
    (entry : ℕ) : Ends (do
      let frame ← vm (vmmMapAllocated A c (userStackPage / pageSize) userData)
      let sp ← vm (buildStack A frame argv)
      pure (entry, sp) : Sys (ℕ × ℕ)) s fun r t => ∃ v own' extra', t = { s with spaces := v } ∧
        Turn A c (all c) (all c) s.spaces own v own' extra' ∧ (∃ sp', v.slots c = some sp') ∧
        ((∃ e, r = .error e) ∧ (extra' = extra ∧
            s.spaces.mach.pmm.freePages ≤ v.mach.pmm.freePages + 4 ∧
            Stuck A c (userStackPage / pageSize) 1 s.spaces v ∨
          extra' = (fun f => extra f + hits (sp.find (userStackPage / pageSize)) f) ∧
            ¬ArgvFits A argv) ∨
          ArgvFits A argv ∧ Built A c argv r v) := by
  refine Ends.bind (vm_ends (vmmMapAllocated_ends h hslot _ _)) ?_ ?_
  swap
  · rintro e t ⟨v, rfl, hfew, own', ⟨e', -, hturn, hslots, hstuck⟩ | ⟨_, hr, -⟩⟩
    · exact ⟨v, own', extra, rfl, hturn.mono nofun nofun, ⟨sp, hslots ▸ hslot⟩,
        .inl ⟨⟨e, rfl⟩, .inl ⟨rfl, hfew, hstuck⟩⟩⟩
    · cases hr
  rintro frame t ⟨v, rfl, -, own', ⟨_, hr, -⟩ | ⟨p', hr, hfree, -, hturn, henters, -⟩⟩
  · cases hr
  cases hr
  obtain ⟨sp₀, l, -, hslot'⟩ := henters.slot
  have hall := fun F => (hturn.mono (fun _ _ hw => hw.1) fun _ _ hw => hw.1).trans
    (hturn.owned.turn_set (hturn.owned.data_of_find henters.find).1 (hturn.apart h hfree) F)
  refine Ends.bind (vm_ends (buildStack_sets argv v)) ?_ ?_
  · rintro a t ⟨_, rfl, ⟨F, rfl⟩, ⟨⟨_, hr⟩, -⟩ | ⟨_, hr, hfits, hstacked⟩⟩
    · cases hr
    cases hr
    exact Ends.ret ⟨_, own', _, rfl, hall F, ⟨_, hslot'⟩, .inr ⟨hfits, _, _, rfl,
      (congrArg _ henters.find).trans rfl, hstacked⟩⟩
  · rintro e t ⟨_, rfl, ⟨F, rfl⟩, ⟨-, hargs⟩ | ⟨_, hr, -⟩⟩
    · exact ⟨_, own', _, rfl, hall F, ⟨_, hslot'⟩, .inl ⟨⟨e, rfl⟩, .inr ⟨rfl, hargs⟩⟩⟩
    · cases hr

/-- The steps of `process_exec_image_args` up to the point where the image replaces the old one. -/
theorem prepareImage_ends (image : Image) (argv : List (List ℕ)) (h₀ : Owned A s₀ own₀ extra)
    (hc : s₀.slots c = none) (hturn : Turn A c (all c) (all c) s₀ own₀ s.spaces own extra)
    (hslot : s.spaces.slots c = some sp) (hempty : sp.mappings = []) (hp : s.procs pid = some p) :
    Ends (prepareImage A pid c image argv) s fun r t => ∃ F own' extra',
      Prepared pid p F s t ∧ Aside A c pid F s₀ own₀ t.spaces own' extra' ∧
      (∃ sp', t.spaces.slots c = some sp') ∧ ((∃ e, r = .error e) ∧ (extra' = extra ∨
        (Loads A image ∧ Asks A image (userStackPage / pageSize)) ∧ ¬ArgvFits A argv) ∨
      Built A c argv r t.spaces) := by
  have hsame : ∀ u, Prepared pid p ∅ s { s with spaces := u } := by
    refine fun u => ⟨p.stack, ?_, .inl ⟨rfl, rfl⟩⟩
    rw [← hp, update_eq_self]
  refine Ends.bind (vm_ends (elfLoad_loads hturn.owned hslot hempty)) ?_ ?_
  swap
  · rintro e t ⟨u, rfl, own₁, hload, hslot₁, -⟩
    exact ⟨∅, own₁, extra, hsame u, .of_turn (hturn.trans hload), hslot₁, .inl ⟨⟨e, rfl⟩, .inl rfl⟩⟩
  rintro entry t ⟨u, rfl, own₁, hload, ⟨sp₁, hslot₁⟩, hloads⟩
  have hall := hturn.trans hload
  refine Ends.bind (allocateKernelStack_ends hp hload.owned.sound)
    ?_ ?_
  swap
  · rintro e t (⟨-, -, rfl⟩ | ⟨hr, -⟩)
    · exact ⟨∅, own₁, extra, hsame u, .of_turn hall, ⟨sp₁, hslot₁⟩, .inl ⟨⟨e, rfl⟩, .inl rfl⟩⟩
    · cases hr
  have hcause : extra = (fun f => extra f + hits (sp₁.find (userStackPage / pageSize)) f) ∨
      Loads A image ∧ Asks A image (userStackPage / pageSize) := by
    obtain ⟨hloads, hasks⟩ := hloads entry rfl
    cases hfind : sp₁.find (userStackPage / pageSize) with
    | none => exact .inl rfl
    | some m =>
      refine .inr ⟨hloads, hasks _ ?_⟩
      rw [Spaces.find, hslot₁, Option.bind_some, hfind]
      simp
  intro _ t ht
  obtain ⟨F, own₂, hprepared, haside, hslot₂⟩ : ∃ F own', Prepared pid p F s t ∧
      Aside A c pid F s₀ own₀ t.spaces own' extra ∧ t.spaces.slots c = some sp₁ := by
    rcases ht with ⟨hr, -⟩ | ⟨-, ⟨-, rfl⟩ | ⟨hnone, first, mach, hg, hram, rfl⟩⟩
    · cases hr
    · exact ⟨∅, own₁, hsame u, .of_turn hall, hslot₁⟩
    · refine ⟨_, _, ⟨some first, rfl, .inr ⟨hnone, by simp, ?_⟩⟩, hall.aside h₀ hc hg hram, hslot₁⟩
      rw [Nat.card_Ico, Nat.add_sub_cancel_left]
  refine (pushArguments_ends haside.owned hslot₂ entry).mono ?_
  rintro r t ⟨v, own', extra', rfl, hpush, hslot', hr⟩
  refine ⟨F, own', extra', hprepared.spaces v, haside.turn hpush, hslot', ?_⟩
  rcases hr with ⟨he, ⟨hsame, -⟩ | ⟨rfl, hargs⟩⟩ | ⟨-, hbuilt⟩
  · exact .inl ⟨he, .inl hsame⟩
  · exact .inl ⟨he, hcause.imp Eq.symm fun hB => ⟨hB, hargs⟩⟩
  · exact .inr hbuilt

section Failed

variable {name : List UInt8} {v : ℕ} {F : ℕ → ℕ} {old : Context}

/-- A process as it was, with its address space and the number of free frames, but for a kernel
stack. -/
structure Untouched (A : Arch) (pid : Pid) (p : Process) (s t : System) : Prop where
  process : ∃ stack, t.procs pid = some { p with stack := stack } ∧
    (stack = p.stack ∧ t.spaces.mach.pmm.freePages = s.spaces.mach.pmm.freePages ∨
      p.stack = none ∧ stack ≠ none ∧
        t.spaces.mach.pmm.freePages + processStackPages = s.spaces.mach.pmm.freePages)
  space : t.spaces.slots p.mm = s.spaces.slots p.mm
  contents : ∀ v, page t.spaces p.mm v = page s.spaces p.mm v
  trans : ∀ sp, s.spaces.slots p.mm = some sp →
    A.trans t.spaces.mach.ram sp.root = A.trans s.spaces.mach.ram sp.root

theorem Untouched.refl (hp : s.procs pid = some p) : Untouched A pid p s s :=
  ⟨⟨p.stack, hp, .inl ⟨rfl, rfl⟩⟩, rfl, fun _ => rfl, fun _ _ => rfl⟩

theorem contents_of_spares {W : Context → ℕ → Prop} {s t : Spaces} (h : Spares A W W s t)
    (hW : ∀ v, ¬W c v) : (∀ v, page t c v = page s c v) ∧
      ∀ sp, s.slots c = some sp → A.trans t.mach.ram sp.root = A.trans s.mach.ram sp.root := by
  refine ⟨fun v => h.page _ v (hW v), fun sp hsp => funext fun w => ?_⟩
  obtain ⟨-, -, -, htrans⟩ := h.trans c sp w hsp fun v _ => hW v
  exact htrans

/-- The context of a failed preparation is destroyed. -/
theorem destroyed_untouched {F : Finset ℕ} (h : Owned A s.spaces own extra)
    (hc : s.spaces.slots c = none) (hmm : s.spaces.slots p.mm ≠ none)
    (hprepared : ∃ v, Prepared pid p F { s with spaces := v } t)
    (haside : Aside A c pid F s.spaces own t.spaces own' extra')
    (hslot : t.spaces.slots c = some sp) : Ends (vm (destroyContext A c)) t fun r u =>
      r = .ok () ∧ (extra' = extra → Untouched A pid p s u) := by
  refine (vm_ends (destroyContext_ends haside.owned c)).mono ?_
  rintro r u ⟨v, rfl, rfl, ⟨-, hnone | ⟨cpu, hactive⟩⟩ | ⟨hslots, -, own'', hturn, -⟩⟩
  · rw [hslot] at hnone
    cases hnone
  · rw [haside.active] at hactive
    exact absurd hc (h.active cpu c hactive)
  · have hall := haside.turn hturn
    have hback : v.slots = s.spaces.slots := by
      funext d
      by_cases hd : d = c
      · rw [hslots, hd, update_self, hc]
      · exact hall.slots d hd
    have hmm' : ∀ w, ¬all c p.mm w := fun w heq => hmm (heq ▸ hc)
    obtain ⟨hcontents, htrans⟩ := contents_of_spares hall.spares hmm'
    refine ⟨rfl, fun hextra => ⟨?_, congrFun hback _, hcontents, htrans⟩⟩
    subst hextra
    obtain ⟨v₀, stack, ht, hstack⟩ := hprepared
    refine ⟨stack, ?_, ?_⟩
    · rw [ht]
      exact update_self _ _ _
    · have howned := hall.owned
      rw [hall.restored h hback hc] at howned
      have hpages := h.freePages_stacked howned fun f hf => (hall.fresh f hf).1
      rcases hstack with ⟨hstack, rfl⟩ | ⟨hnone, hstack, hcard⟩
      · exact .inl ⟨hstack, hpages⟩
      · exact .inr ⟨hnone, hstack, hcard ▸ hpages⟩

theorem Owned.switch (h : Owned A s₀ own extra) (hc : s₀.slots c ≠ none) (cpu : Fin maxCpus) :
    Owned A { s₀ with active := Function.update s₀.active cpu (some c) } own extra := by
  refine ⟨h.sound, h.used, h.sole, h.data, h.rest, h.spare, h.vacant, h.kernel, h.spaces,
    fun k d hd => ?_⟩
  by_cases hk : k = cpu
  · rw [hk] at hd
    simp only [update_self, Option.some_inj] at hd
    exact hd ▸ hc
  · simp only [update_of_ne hk] at hd
    exact h.active k d hd

/-- The process `i` runs in the context `c`, on a stack at `sp`. -/
def Starts (i : Pid) (c : Context) (v sp : ℕ) (F : ℕ → ℕ) (t : System) : Prop :=
  page t.spaces c v = some F ∧ seen (fun p => (p.mm, p.context.sp)) t i = some (c, sp)

theorem Starts.onProcess {sp : ℕ} {f : Process → Process} (h : Starts pid c v sp F t)
    (hf : ∀ p, ((f p).mm, (f p).context.sp) = (p.mm, p.context.sp)) :
    Starts pid c v sp F (t.onProcess pid f) :=
  ⟨h.1, (congrFun (kept_onProcess hf t pid) pid).symm.trans h.2⟩

variable (h : Owned A s.spaces own extra)
include h

theorem startImage_ends
    (hp : seen Process.mm s pid = some c) (hc : c ≠ old) (hpage : page s.spaces c v = some F)
    (q : ℕ × ℕ) : Ends (startImage A pid old name q) s fun _ t => Starts pid c v q.2 F t := by
  refine Ends.bind (vm_ends (destroyContext_ends h old)) ?_ fun e t ⟨_, _, hr, _⟩ => nomatch hr
  rintro - t ⟨u, rfl, -, hu⟩
  obtain ⟨p, hproc, hmm⟩ := seen_eq_some.mp hp
  have hstart : Starts pid c v q.2 F
      (System.onProcess pid (execProcess q.1 q.2) { s with spaces := u }) := by
    refine ⟨?_, seen_eq_some.mpr ⟨execProcess q.1 q.2 p, ?_, Prod.ext hmm rfl⟩⟩
    · rcases hu with ⟨rfl, -⟩ | ⟨-, -, _, hturn, -⟩
      · exact hpage
      · exact (hturn.spares.page c v fun hold => hc hold).trans hpage
    · rw [onProcess_self]
      exact congrArg _ hproc
  refine Ends.modify_bind (Ends.modify_bind ?_)
  generalize System.onProcess pid (execProcess q.1 q.2) _ = t at hstart ⊢
  have hadd : Starts pid c v q.2 F ((schedulerAdd pid t).state) := by
    unfold schedulerAdd Act.modify
    dsimp only
    split
    · exact hstart
    · split
      · exact hstart
      · exact Starts.onProcess hstart fun _ => rfl
  split
  · exact Ends.ret hadd
  · exact Ends.modify (hadd.onProcess fun _ => rfl)

theorem replaceImage_ends (hslot : s.spaces.slots c ≠ none) (hp : s.procs pid ≠ none) (hc : c ≠ old)
    (hpage : page s.spaces c v = some F) (q : ℕ × ℕ) :
    Ends (replaceImage A pid old c name q) s fun _ t => Starts pid c v q.2 F t := by
  obtain ⟨p, hp⟩ := Option.ne_none_iff_exists'.mp hp
  have hmm : seen Process.mm (s.onProcess pid fun p => { p with mm := c }) pid = some c := by
    refine seen_eq_some.mpr ⟨{ p with mm := c }, ?_, rfl⟩
    rw [onProcess_self, hp]
    rfl
  refine Ends.modify_bind (Ends.read_bind ?_)
  split
  · refine Ends.modify_bind ?_
    split
    · exact startImage_ends (s := s.onProcess pid _) h hmm hc hpage q
    · exact startImage_ends (s := { System.onProcess pid _ s with spaces := _ }) (h.switch hslot _)
        hmm hc hpage q
  · exact startImage_ends (s := s.onProcess pid _) h hmm hc hpage q

/-- How `process_exec_image_args` ends: the image runs on its stack, or the process is as it was,
if the arguments fit or the image leaves the stack page alone. -/
theorem processExec_ends (hp : s.procs pid = some p) (hmm : s.spaces.slots p.mm ≠ none) :
    Ends (processExec A pid image name argv) s fun r t => (Balanced A →
      (Loads A image → Asks A image (userStackPage / pageSize) → ArgvFits A argv) →
        ∀ e, r = .error e → Untouched A pid p s t) ∧ (r = .ok () → ∃ c sp F,
      Starts pid c (userStackPage / pageSize) sp F t ∧ Stacked A argv sp F) := by
  refine Ends.read_bind ?_
  rw [hp]
  dsimp only
  split
  · exact Ends.fail ⟨fun _ _ _ _ => .refl hp, nofun⟩
  refine Ends.bind (vm_ends (createContext_ends h)) ?_ ?_
  swap
  · rintro e t ⟨v, rfl, ⟨_, own', extra', -, hown, hspares, hslots, -, -, hback⟩ | ⟨_, _, _, hr, -⟩⟩
    · refine ⟨fun hA _ _ _ => ?_, nofun⟩
      obtain ⟨rfl, rfl⟩ := hback hA
      obtain ⟨hcontents, htrans⟩ := contents_of_spares hspares fun _ => id
      exact ⟨⟨p.stack, hp, .inl ⟨rfl, h.freePages_stacked (i := 0) (F := ∅) hown nofun⟩⟩,
        congrFun hslots _, hcontents, htrans⟩
    · cases hr
  rintro c t ⟨v, rfl, ⟨_, _, _, hr, -⟩ | ⟨_, root, own₁, hr, hc, hturn, hslot, -⟩⟩
  · cases hr
  cases hr
  refine Ends.attempt_bind (prepareImage_ends image argv h hc
    (hturn.mono nofun nofun) hslot rfl hp) ?_
  rintro r t ⟨F, own', extra', hprepared, haside, ⟨sp, hslot'⟩, ⟨⟨e, rfl⟩, hcause⟩ |
    ⟨q, F', rfl, hpage, hstacked⟩⟩
  · refine Ends.bind (destroyed_untouched h hc hmm ⟨v, hprepared⟩ haside hslot') ?_ ?_
    · rintro - u ⟨-, hu⟩
      refine Ends.fail ⟨fun _ hfits _ _ => hu ?_, nofun⟩
      rcases hcause with hsame | ⟨⟨hloads, hasks⟩, hargs⟩
      · exact hsame
      · exact absurd (hfits hloads hasks) hargs
    · rintro e u ⟨hr, -⟩
      cases hr
  · obtain ⟨stack, ht, -⟩ := hprepared
    have hp' : t.procs pid ≠ none := by
      rw [ht]
      simp
    have hstarts : Ends (replaceImage A pid p.mm c name q) t fun _ u => Starts pid c _ q.2 _ u :=
      replaceImage_ends haside.owned (hslot' ▸ Option.some_ne_none sp) hp'
      (fun heq : c = p.mm => hmm (heq ▸ hc)) hpage q
    refine ((total_replaceImage A pid p.mm c name q t).and hstarts).mono ?_
    rintro r u ⟨⟨_, rfl⟩, hstarts⟩
    exact ⟨fun _ _ => nofun, fun _ => ⟨c, q.2, F', hstarts, hstacked⟩⟩

end Failed

section Leak

variable {name : List UInt8}

/-- Arguments that do not fit, after an image with a page at the place of the stack. -/
theorem prepareImage_leaks (hs : Holding A c [] 4000 s.spaces) (h : Owned A s.spaces own extra)
    (hp : s.procs pid = some p) (hstack : p.stack ≠ none) (hloads : Loads A image)
    (hasks : Asks A image (userStackPage / pageSize)) (hargs : ¬ArgvFits A argv) :
    Ends (prepareImage A pid c image argv) s fun r t => ∃ e v own' extra' f, r = .error e ∧
      t = { s with spaces := v } ∧ Turn A c (all c) (all c) s.spaces own v own' extra' ∧
      (∃ sp, v.slots c = some sp) ∧ Loose c (own f) ∧ extra' f ≠ 0 := by
  refine Ends.bind (vm_ends (hloads.elfLoad_ok hs h)) ?_ ?_
  swap
  · rintro e t ⟨_, -, _, _, hr, -⟩
    cases hr
  rintro entry t ⟨u, rfl, _, own₁, hr, hload, ⟨sp, hslot⟩, hmapped, huser, hpages⟩
  cases hr
  obtain ⟨m, hm⟩ := Option.ne_none_iff_exists'.mp (hmapped _ hasks)
  have hfind : sp.find (userStackPage / pageSize) = some m := by
    rwa [Spaces.find, hslot] at hm
  refine Ends.bind (allocateKernelStack_ends hp hload.owned.sound) ?_ ?_
  swap
  · rintro e t (⟨-, hnone, -⟩ | ⟨hr, -⟩)
    · exact absurd hnone hstack
    · cases hr
  rintro ⟨⟩ t (⟨hr, -⟩ | ⟨-, ⟨-, rfl⟩ | ⟨hnone, -⟩⟩)
  · cases hr
  · refine (pushArguments_ends hload.owned hslot entry).mono ?_
    rintro r t ⟨v, own', _, rfl, hpush, hslot', ⟨⟨e, rfl⟩, ⟨-, hfew, hstuck⟩ | ⟨rfl, -⟩⟩ | ⟨hfits, -⟩⟩
    · rcases hstuck with hzero | ⟨hnone, -⟩ | hless | hcovered
      · exact absurd hzero (by decide)
      · rw [hm] at hnone
        cases hnone
      · dsimp only at hfew
        omega
      · exact absurd hcovered (huser.not_covered _)
    · refine ⟨e, v, own', _, m.phys, rfl, rfl, hload.trans hpush, hslot', ?_, ?_⟩
      · have hdata := (hload.owned.data_of_find hm).1
        rcases hload.settled m.phys with heq | ⟨hloose, -⟩
        · rw [← heq, hdata]
          exact .inr (.inl rfl)
        · exact hloose
      · simp [hfind, hits]
    · exact absurd hfits hargs
  · exact absurd hnone hstack

/-- After that the process is not as it was. -/
theorem processExec_leaks (h : Owned A s.spaces own extra) (hnone : ∀ f, own f ≠ .data)
    (hp : s.procs pid = some p) (hstack : p.stack ≠ none)
    (hkernel : ∀ w, A.trans s.spaces.mach.ram s.spaces.kernelRoot w = none)
    (hok : (createContext A s.spaces).result.toOption = some c)
    (hpages : 4000 ≤ (createContext A s.spaces).state.mach.pmm.freePages) (himage : image ≠ [])
    (hloads : Loads A image) (hasks : Asks A image (userStackPage / pageSize))
    (hargs : ¬ArgvFits A argv) :
    Ends (processExec A pid image name argv) s fun r t =>
      (∃ e, r = .error e) ∧ ¬Untouched A pid p s t := by
  have hholds := holding_created h hkernel hok hpages
  refine Ends.read_bind ?_
  rw [hp]
  dsimp only
  rw [if_neg himage]
  have hcreate : Ends (createContext A) s.spaces fun r v => r.toOption = some c ∧
      Holding A c [] 4000 v := ⟨hok, hholds⟩
  refine Ends.bind (vm_ends (hcreate.and (createContext_ends h))) ?_ ?_
  swap
  · rintro e t ⟨v, -, ⟨hr, -⟩, -⟩
    cases hr
  rintro d t ⟨v, rfl, ⟨hr, hholds⟩, ⟨_, _, _, hr', -⟩ | ⟨_, root, own₁, hr', hc, hturn, -⟩⟩
  · cases hr'
  cases hr
  cases hr'
  refine Ends.attempt_bind (prepareImage_leaks hholds hturn.owned hp hstack
    hloads hasks hargs) ?_
  rintro r t ⟨e, v', own', extra', f, rfl, rfl, hturn', ⟨sp, hslot⟩, hloose, hextra⟩
  have hall := (hturn.mono nofun nofun).trans hturn'
  refine Ends.bind (vm_ends (destroyContext_ends hall.owned c)) ?_ ?_
  swap
  · rintro e u ⟨_, -, hr, -⟩
    cases hr
  rintro - u ⟨v'', rfl, -, ⟨-, hnone | ⟨cpu, hactive⟩⟩ | ⟨hslots, -, own'', hdestroy, -⟩⟩
  · rw [hslot] at hnone
    cases hnone
  · rw [hall.active] at hactive
    exact absurd hc (h.active cpu c hactive)
  · refine Ends.fail ⟨⟨e, rfl⟩, fun huntouched => ?_⟩
    have hfree : own f = .free := by
      have hloose' : Loose c (own f) := by
        rcases hturn.settled f with heq | ⟨hloose', -⟩
        · exact heq ▸ hloose
        · exact hloose'
      rcases hloose' with ho | ho | ho
      · exact ho
      · exact absurd ho (hnone f)
      · exact absurd hc (h.vacant c f ho)
    have hless := (hall.trans hdestroy).freePages_lt h hc hnone hfree hextra
    obtain ⟨stack, hprocess, ⟨-, hsame⟩ | ⟨hnone, -⟩⟩ := huntouched.process
    · exact absurd hsame (Nat.ne_of_lt hless)
    · exact hstack hnone

end Leak

/-- A process with an empty address space, on a machine of `n` frames. -/
def execSystem (A : Arch) (n : ℕ) (stack : Option ℕ) : System :=
  { smallSystem n with
    spaces := (createContext A (smallSpaces n)).state
    procs := update (fun _ => none) 0
      (some { freshProcess 1 0 [105] 0 ⟨0, Descriptors.tablePoolSize_pos⟩ with stack }) }

theorem execSystem_owned {n : ℕ} (hn : n ≤ maxFrames) (stack : Option ℕ)
    (hok : (createContext A (smallSpaces n)).result.toOption = some 0) : ∃ own extra,
    Owned A (execSystem A n stack).spaces own extra ∧ (execSystem A n stack).spaces.slots 0 ≠ none ∧
      (∀ f, own f ≠ .data) ∧ ∀ w, A.trans (execSystem A n stack).spaces.mach.ram
        (execSystem A n stack).spaces.kernelRoot w = none := by
  have howned := owned_smallSpaces A hn
  obtain ⟨e, -, -, hr, -⟩ | ⟨c, root, own, hr, hc, hturn, hslot, -⟩ := createContext_ends howned
  · rw [hr] at hok
    cases hok
  rw [hr] at hok
  cases hok
  refine ⟨own, _, hturn.owned, by rw [execSystem, hslot]; nofun, fun f hf => ?_, fun w => ?_⟩
  · obtain ⟨hrefs, hpos, -⟩ := hturn.owned.data f hf
    have huses : uses (createContext A (smallSpaces n)).state f = 0 := by
      refine Finset.sum_eq_zero fun d _ => ?_
      by_cases hd : d = 0
      · rw [hd, hslot]
        rfl
      · rw [hturn.slots d hd]
        rfl
    have hlow : f < 2 := by
      by_contra hlow
      rw [hrefs, huses, if_neg hlow] at hpos
      cases hpos
    rcases hturn.settled f with heq | ⟨hloose, -⟩
    · rw [hf, smallOwner, if_pos (show f < 2 ∨ n ≤ f from .inl hlow)] at heq
      split at heq
      · cases heq
      · cases heq
    · rw [smallOwner, if_pos (show f < 2 ∨ n ≤ f from .inl hlow)] at hloose
      split at hloose
      · simp [Loose] at hloose
      · simp [Loose] at hloose
  · have hkernel := congrFun hturn.spares.kernel w
    rw [smallSpaces_trans] at hkernel
    rw [← hkernel, ← hturn.spares.root]
    rfl

def stackImage : Image := ((tinyImage.set 61 0xf0).set 62 0xef).set 63 0x7f

end Tach.Ownership
