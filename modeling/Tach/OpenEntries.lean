import Tach.DirSteps

/-!
An open file has its directory entry: the steps of the vnode layer, the whole run, and the run
in which an unlink comes between the lookup of an open and the open list.
-/

namespace Tach.DirThreads

open Function List FatData Interleaving

variable {ι : Type*} {s : Shared} {e : Entry} {n : ℕ} {t t' : Thread}

section Steps

variable [Fintype ι] [DecidableEq ι] {w : World ι Shared Thread} {i : ι}
  {v : VnodeThreads.Thread} {pc : Pc}

variable {a : VnodeThreads.Choice}

/-- The moving thread's step in the vnode layer. -/
theorem vnodes_step {vn : VnodeThreads.Shared} {v' : VnodeThreads.Thread}
    (h : Inv w) (ht : w.thread i = ⟨v, pc⟩) (halone : VnodeThreads.Alone (vnodes w) i a)
    (hp : VnodeThreads.program a w.shared.vn v = some (vn, v')) (hs : s.vn = vn) (hv : t.vn = v') :
    VnodeThreads.Inv (vnodes (w.put s i t)) := by
  refine h.vn.step halone ?_
  have hvi : (vnodes w).thread i = v := by simp [vnodes, ht]
  have hshared : (vnodes w).shared = w.shared.vn := rfl
  simp only [World.step, hvi, hshared, hp, Option.map_some, Option.some.injEq]
  have hthread : ((vnodes w).put vn i v').thread = (vnodes (w.put s i t)).thread := by
    funext j
    by_cases hj : j = i
    · simp [vnodes, hj, hv]
    · rw [World.put_other hj]
      simp [vnodes, World.put_other hj]
  calc (vnodes w).put vn i v' = ⟨vn, ((vnodes w).put vn i v').thread⟩ := rfl
    _ = ⟨s.vn, (vnodes (w.put s i t)).thread⟩ := by rw [hthread, hs]

/-- A step of the vnode layer other than the making of a vnode. -/
theorem inv_vnodeStep (h : Inv w) (ht : w.thread i = ⟨v, pc⟩)
    (halone : VnodeThreads.Alone (vnodes w) i a) (ha : ∀ info trunc, a ≠ .open info trunc)
    (hs : vnodeStep a w.shared ⟨v, pc⟩ = some (s, t)) : Inv (w.put s i t) := by
  obtain ⟨⟨vn, v'⟩, hp, heq⟩ := Option.map_eq_some_iff.mp hs
  cases heq
  obtain ⟨info, trunc, hopen, -⟩ | ⟨hpc, hinfo, hnext, hlist⟩ := VnodeThreads.program_cases hp
  · exact absurd hopen (ha info trunc)
  have hvn := vnodes_step (s := { w.shared with vn := vn }) (t := ⟨v', .calm⟩) h ht halone hp rfl rfl
  have hgrow : Grows w.shared { w.shared with vn := vn } := by
    refine ⟨fun _ _ h => h, fun _ h => h, hnext.ge, fun n _ => ?_⟩
    simp only [Shared.entry, hinfo]
    exact .refl _
  have hin : Within (w.thread i) ⟨v', .calm⟩ := by
    refine ⟨fun ho => ?_, by rintro ⟨⟩, by rintro ⟨⟩⟩
    simp only [Thread.opening, Pc.opening, Bool.false_or] at ho
    cases ho
  have hfiles : ∀ n, w.shared.dirty n = true → (vn.info n).isDir = false := by
    rw [hinfo]
    exact h.files
  have hself : Thread.Ok { w.shared with vn := vn } ⟨v', .calm⟩ :=
    ⟨trivial, fun n trunc heq => absurd heq (hpc n trunc)⟩
  have hwell : Well { w.shared with vn := vn } := h.well.of_live rfl rfl rfl
  obtain ⟨own, trunc, hshare, hcons⟩ | hsub := hlist
  · -- the new vnode's entry is live, and no removal is under way
    have hopen : (w.thread i).opening = true := by
      rw [ht]
      exact opening_of_share hshare
    have hok := h.ok i
    refine h.move hin hvn hwell hfiles (fun n hn => ?_)
      (fun j _ => hgrow.ok (h.apart i j hopen) (h.ok j)) hself rfl
    rw [hcons] at hn
    obtain hn | hn := mem_cons.mp hn
    · rw [hn]
      rw [ht] at hok
      obtain ⟨hlt, hk⟩ := hok.fresh own trunc hshare
      exact hgrow.entry hlt hk
    · exact hgrow.entry (h.nodes n hn).1 (h.nodes n hn).2
  · have hkeep : Keeps w.shared { w.shared with vn := vn } := by
      refine ⟨hgrow, fun _ h => h, fun e he n hn => ?_⟩
      simp only [hinfo]
      exact he n (hsub n hn)
    refine h.move hin hvn hwell hfiles (fun n hn => ?_) (fun j _ => hkeep.ok (h.ok j)) hself rfl
    have hn := hsub n hn
    exact hgrow.entry (h.nodes n hn).1 (h.nodes n hn).2

/-- An open makes its vnode. -/
theorem inv_found {trunc : Bool} (h : Inv w) (ht : w.thread i = ⟨v, .found e trunc⟩)
    (halone : VnodeThreads.Alone (vnodes w) i (.open e.info trunc))
    (hs : vnodeStep (.open e.info trunc) { w.shared with
        serial := update w.shared.serial w.shared.vn.next e.serial
        dirty := update w.shared.dirty w.shared.vn.next false } ⟨v, .found e trunc⟩ =
      some (s, t)) : Inv (w.put s i t) := by
  obtain ⟨⟨vn, v'⟩, hp, heq⟩ := Option.map_eq_some_iff.mp hs
  cases heq
  obtain ⟨info, trunc', hopen, hvn', hpc⟩ | ⟨hbad, -⟩ := VnodeThreads.program_cases hp
  · cases hopen
    have hok := h.ok i
    rw [ht] at hok
    have hknown : Known w.shared e := hok.pc
    set s' : Shared := { w.shared with
      vn := vn
      serial := update w.shared.serial w.shared.vn.next e.serial
      dirty := update w.shared.dirty w.shared.vn.next false } with hs'
    have hinfo : vn.info = update w.shared.vn.info w.shared.vn.next e.info := by rw [hvn']; rfl
    have hnext : vn.next = w.shared.vn.next + 1 := by rw [hvn']; rfl
    have hlist : vn.openList = w.shared.vn.openList := by rw [hvn']; rfl
    have hold : ∀ n < w.shared.vn.next, s'.entry n = w.shared.entry n := by
      intro n hn
      have hne : n ≠ w.shared.vn.next := by omega
      simp [hs', Shared.entry, hinfo, hne]
    have hkeep : Keeps w.shared s' := by
      refine ⟨⟨fun _ _ h => h, fun _ h => h, ?_, fun n hn => ?_⟩, fun _ h => h, fun a ha n hn => ?_⟩
      · simp [hs', hnext]
      · rw [hold n hn]
        exact .refl _
      · rw [hs', hlist] at hn
        have heq := congrArg Entry.info (hold n (h.nodes n hn).1)
        rw [show s'.vn.info n = w.shared.vn.info n from heq]
        exact ha n hn
    refine h.move ⟨fun _ => ?_, by rintro ⟨⟩, by rintro ⟨⟩⟩ (vnodes_step h ht halone hp rfl rfl)
      (h.well.of_live rfl rfl rfl) (fun n hn => ?_) (fun n hn => ?_)
      (fun j _ => hkeep.ok (h.ok j)) ⟨trivial, fun n trunc hshare => ?_⟩ rfl
    · simp [ht, Thread.opening, Pc.opening]
    · by_cases hne : n = w.shared.vn.next
      · simp [hs', hne] at hn
      · simp only [hs', update_of_ne hne] at hn
        simp only [hs', hinfo, update_of_ne hne]
        exact h.files n hn
    · rw [hs', hlist] at hn
      exact hkeep.entry (h.nodes n hn).1 (h.nodes n hn).2
    · rw [hpc] at hshare
      cases hshare
      refine ⟨by simp [hs', hnext], ?_⟩
      have hentry : s'.entry w.shared.vn.next = e := by simp [hs', Shared.entry, hinfo]
      exact hentry.symm ▸ hkeep.known hknown
  · obtain ⟨pc, refs⟩ := v
    cases pc with
    | idle =>
      cases hp
      exact absurd rfl (hbad _ _)
    | _ => cases hp

omit [DecidableEq ι] in
theorem Inv.isFile (h : Inv w) (ht : w.thread i = ⟨v, pc⟩) (hv : Holds v.pc n)
    (hd : (w.shared.vn.info n).isDir = false) : IsFile w.shared n :=
  ⟨(h.nodes n (h.listed ht hv)).1, hd⟩

theorem inv_calmStep {ok : Bool} (h : Inv w) (ht : w.thread i = ⟨v, .calm⟩)
    (halone : VnodeThreads.Alone (vnodes w) i (.go ok))
    (hs : calmStep ok w.shared ⟨v, .calm⟩ = some (s, t)) : Inv (w.put s i t) := by
  unfold calmStep at hs
  split at hs
  · rename_i n hpc
    have hhold : Holds v.pc n := .inl hpc
    split at hs
    · cases hs
      exact h.go ht (leads_file rfl rfl ⟨n, hhold⟩)
    · rename_i hcond
      cases hs
      have hfile := h.isFile ht hhold (by grind)
      refine h.setInfo ht hfile rfl ?_ (leads_file rfl rfl ⟨setInfo_isFile hfile ?_, hhold⟩) <;>
        exact (FileOps.isDir_or_arch _).trans hfile.2
  · rename_i n hpc
    have hhold : Holds v.pc n := .inr hpc
    split at hs
    · rename_i hdirty
      cases hs
      have hfile := h.isFile ht hhold (h.files n hdirty)
      refine h.setInfo ht hfile rfl hfile.2
        (leads_file rfl rfl ⟨setInfo_isFile hfile hfile.2, hhold, ?_⟩)
      simp [Shared.setInfo]
    · cases hs
      exact h.go ht (leads_file rfl rfl ⟨n, hhold⟩)
  · exact inv_vnodeStep h ht halone (by simp) hs

omit [Fintype ι] [DecidableEq ι] in
theorem start_cases {u : Shared} (h : start s t pc = some (u, t')) :
    t.pc = .calm ∧ u = s ∧ t' = ⟨t.vn, pc⟩ := by
  obtain ⟨hcond, heq⟩ := Option.ite_none_right_eq_some.mp h
  obtain ⟨hs, ht⟩ := Prod.mk.inj (Option.some.inj heq)
  exact ⟨hcond.1, hs.symm, ht.symm⟩

theorem Inv.step {g : Geom} {a : Choice} {u : World ι Shared Thread} (h : Inv w) (hok : Apart w i a)
    (hs : w.step (program g) i a = some u) : Inv u := by
  obtain ⟨s, t, hp, rfl⟩ := World.step_cases hs
  generalize ht : w.thread i = old at hp
  obtain ⟨v, pc⟩ := old
  have hremoves : ∀ job, pc = .enter job → job.removes = true → w.shared.dirBusy = false →
      ∀ j, (w.thread j).opening = false := by
    intro job hpc
    apply hok.removes job
    rw [ht]
    exact hpc
  have halone : ∀ a, VnodeThreads.Alone (vnodes w) i a := fun _ => hok.alone
  -- an open starts only when no removal is under way
  cases a with
  | «open» path create write trunc =>
    obtain ⟨-, rfl, heq⟩ := start_cases hp
    cases heq
    have hrem := hok.opens path create write trunc rfl
    have hoki := h.ok i
    rw [ht] at hoki
    exact h.put (vnodes_put h.vn rfl (by rw [ht])) h.well h.files h.nodes
      (fun j _ => h.ok j) ⟨.inl rfl, fun n b => hoki.fresh n b⟩
      (fun _ => ⟨rfl, fun j _ => hrem j⟩) nofun nofun fun j _ => h.busy j
  | dup n =>
    obtain ⟨-, hp⟩ := Option.ite_none_right_eq_some.mp hp
    exact inv_vnodeStep h ht (halone _) (fun _ _ heq => by cases heq) hp
  | release n =>
    obtain ⟨-, hp⟩ := Option.ite_none_right_eq_some.mp hp
    exact inv_vnodeStep h ht (halone _) (fun _ _ heq => by cases heq) hp
  | remove path wantDir =>
    obtain ⟨-, rfl, heq⟩ := start_cases hp
    cases heq
    exact h.go ht (leads_file rfl rfl trivial)
  | rename old new =>
    obtain ⟨-, rfl, heq⟩ := start_cases hp
    cases heq
    exact h.go ht (leads_file rfl rfl trivial)
  | go ok =>
    cases pc with
    | calm => exact inv_calmStep h ht (halone _) hp
    | finished ok' => exact inv_vnodeStep h ht (halone _) (fun _ _ heq => by cases heq) hp
    | found e trunc => exact inv_found h ht (halone _) hp
    | _ =>
      simp only [program, goStep] at hp
      obtain ⟨⟨s', pc'⟩, hd, heq⟩ := Option.map_eq_some_iff.mp hp
      cases heq
      exact inv_dirStep h ht hremoves hd
  | add info pos =>
    obtain ⟨hfree, hp⟩ := Option.ite_none_right_eq_some.mp hp
    obtain ⟨⟨s', pc'⟩, hd, heq⟩ := Option.map_eq_some_iff.mp hp
    cases heq
    exact inv_addStep h ht hfree hd

end Steps

variable [Fintype ι] {w : World ι Shared Thread}

theorem Begins.inv (h : Begins w) : Inv w := by
  have hidle : ∀ i, (w.thread i).vn.pc = .idle := fun i => (h.vnodes.idle i).1
  have hlist : w.shared.vn.openList = [] := h.vnodes.empty.1
  refine ⟨h.vnodes.inv, h.well, fun n hn => ?_, fun n hn => ?_, fun i => ⟨?_, fun n b hpc => ?_⟩,
    fun i j ho => ?_, fun i hb => ?_, fun i j hb => ?_⟩
  · cases (h.clean n).symm.trans hn
  · rw [hlist] at hn
    cases hn
  · rw [h.calm i]
    trivial
  · cases (hidle i).symm.trans hpc
  · rw [h.calm j]
    rfl
  all_goals
    rw [h.calm i] at hb
    cases hb

theorem Inv.attached (h : Inv w) : Attached w.shared := by
  intro n hn hreal
  obtain h0 | ⟨d, e, hmem, hag⟩ := (h.nodes n hn).2
  · exact absurd h0 hreal
  · refine ⟨⟨d, e, hmem, hag.place, hag.first⟩, fun hgone => ?_⟩
    exact (h.well.gone _ hgone).2 _ hmem hag.serial

/-- Any number of threads open, release, remove and rename files of a volume. In a run that
keeps opens and removals apart, every vnode on the list has its entry in every state. -/
theorem open_files_attached [DecidableEq ι] (g : Geom) (h : Begins w) {u : World ι Shared Thread}
    (hrun : Runs (program g) Apart w u) : Attached u.shared :=
  (hrun.invariant h.inv fun _ _ _ _ hi hok hs => hi.step hok hs).attached

local instance twoThreads : NeZero 2 := ⟨two_ne_zero⟩

def raceEntry : Entry := ⟨1, ⟨[0x41], [0x41], 0x20, 9, 10, 0, 0, 2, 0⟩⟩

def raceStart : World (Fin 2) Shared Thread :=
  ⟨⟨⟨[], 0, fun _ => raceEntry.info, fun _ => 0, 0, fun _ => 0, false⟩, [(2, raceEntry)],
    fun _ => 0, fun _ => false, false, 2, []⟩, fun _ => ⟨⟨.idle, []⟩, .calm⟩⟩

theorem raceStart_begins : Begins raceStart where
  vnodes := ⟨fun _ => ⟨rfl, rfl⟩, ⟨rfl, rfl, rfl⟩, fun _ => rfl, rfl⟩
  calm _ := rfl
  clean _ := rfl
  idle := rfl
  well := ⟨by simp [raceStart], by simp [raceStart], by simp [raceStart, raceEntry],
    by simp [raceStart, raceEntry], by simp [raceStart]⟩

/-- Thread 0 looks A up in order to open it; thread 1 unlinks A; thread 0 puts its vnode on the
list. -/
def raceSchedule : List (Fin 2 × Choice) :=
  [(0, .open [[0x41]] false false false), (0, .go true), (0, .go true),
    (1, .remove [[0x41]] false), (1, .go true), (1, .go true), (1, .go true), (1, .go true),
    (1, .go true), (1, .go true), (1, .go true), (0, .go true), (0, .go true)]

/-- The open returns a file whose entry is deleted and whose chain is free. -/
theorem open_file_unlinked : ∃ u, Begins raceStart ∧
    Runs (program Smallest.geom) (fun _ _ _ => True) raceStart u ∧
    u.shared.vn.openList = [0] ∧ u.shared.live = [] ∧ u.shared.gone = [u.shared.serial 0] ∧
    ¬ Attached u.shared := by
  have hrun : ((raceStart.run (program Smallest.geom) (fun _ _ _ => true) raceSchedule).map fun u =>
      (u.shared.vn.openList, u.shared.live, u.shared.gone, u.shared.serial 0,
        (u.shared.vn.info 0).dirCluster)) = some ([0], [], [1], 1, 2) := by decide +kernel
  obtain ⟨u, hu, hvals⟩ := Option.map_eq_some_iff.mp hrun
  simp only [Prod.mk.injEq] at hvals
  obtain ⟨hlist, hlive, hgone, hserial, hdir⟩ := hvals
  refine ⟨u, raceStart_begins, Runs.of_run (fun _ _ _ _ => trivial) hu, hlist, hlive, ?_, fun hatt => ?_⟩
  · rw [hgone, hserial]
  · obtain ⟨⟨d, e, hmem, -⟩, -⟩ := hatt 0 (by simp [hlist]) (by simp [hdir])
    rw [hlive] at hmem
    cases hmem

/-- A test for `Apart` with two threads. -/
def testApart (w : World (Fin 2) Shared Thread) (i : Fin 2) (a : Choice) : Bool :=
  (match a with
    | .open _ _ _ _ => !(w.thread 0).pc.removing && !(w.thread 1).pc.removing
    | _ => true) &&
  (match (w.thread i).pc with
    | .enter job => !job.removes || w.shared.dirBusy ||
        (!(w.thread 0).opening && !(w.thread 1).opening)
    | _ => true) &&
  VnodeThreads.testAlone (vnodes w) i (.go true)

theorem apart_of_test (w : World (Fin 2) Shared Thread) (i : Fin 2) (a : Choice)
    (h : testApart w i a = true) : Apart w i a := by
  simp only [testApart, Bool.and_eq_true] at h
  obtain ⟨⟨hopen, hrem⟩, halone⟩ := h
  refine ⟨fun path create write trunc ha j => ?_, fun job hpc hjob hbusy j => ?_,
    VnodeThreads.alone_of_test _ _ _ halone⟩
  · simp only [ha, Bool.and_eq_true, Bool.not_eq_true'] at hopen
    fin_cases j
    · exact hopen.1
    · exact hopen.2
  · simp only [hpc, hjob, hbusy, Bool.not_true, Bool.false_or, Bool.and_eq_true,
      Bool.not_eq_true'] at hrem
    fin_cases j
    · exact hrem.1
    · exact hrem.2

/-- Thread 0 opens A and truncates it; thread 1 cannot unlink it then, and makes a file B,
which it opens too. -/
theorem open_files_attached_two : ∃ u, Runs (program Smallest.geom) Apart raceStart u ∧
    u.shared.vn.openList = [1, 0] ∧ u.shared.live.length = 2 ∧ Attached u.shared := by
  have hrun : ((raceStart.run (program Smallest.geom) testApart
      [(0, .open [[0x41]] false true true), (0, .go true), (0, .go true), (0, .go true), (0, .go true),
        (1, .remove [[0x41]] false), (1, .go true), (1, .go true), (1, .go true), (1, .go true),
        (1, .go true), (0, .go true), (0, .go true), (0, .go true), (0, .go true),
        (1, .open [[0x42]] true true false), (1, .go true), (1, .go true), (1, .go true),
        (1, .go true), (1, .add ⟨[0x42], [0x42], 0, 0, 0, 0, 0, 2, 1⟩ 1), (1, .go true),
        (1, .go true), (1, .go true)]).map fun u =>
      (u.shared.vn.openList, u.shared.live.length)) = some ([1, 0], 2) := by decide +kernel
  obtain ⟨u, hu, hvals⟩ := Option.map_eq_some_iff.mp hrun
  obtain ⟨hlist, hlen⟩ := Prod.mk.inj hvals
  have hruns := Runs.of_run apart_of_test hu
  exact ⟨u, hruns, hlist, hlen, open_files_attached Smallest.geom raceStart_begins hruns⟩

end Tach.DirThreads
