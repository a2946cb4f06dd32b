import Tach.EntryViews

/-!
The steps of the directory calls. The invariant keeps opens and removals apart: an open that
found its entry relies on the entry being there until the vnode is on the list, and a removal
that looked in the list relies on nobody opening the entry until it is deleted. A step is
judged by the point of the call it leads to (`Leads`) and by what it changes.
-/

namespace Tach.DirThreads

open Function List FatData Interleaving

variable {ι : Type*} {s s' : Shared} {e e' : Entry} {d n : ℕ} {t t' : Thread}

structure Inv [Fintype ι] (w : World ι Shared Thread) : Prop where
  vn : VnodeThreads.Inv (vnodes w)
  well : Well w.shared
  files : ∀ n, w.shared.dirty n = true → (w.shared.vn.info n).isDir = false
  nodes : ∀ n ∈ w.shared.vn.openList, n < w.shared.vn.next ∧ Known w.shared (w.shared.entry n)
  ok : ∀ i, (w.thread i).Ok w.shared
  apart : ∀ i j, (w.thread i).opening = true → (w.thread j).pc.removing = false
  busy : ∀ i, (w.thread i).pc.busy = true → w.shared.dirBusy = true
  one : ∀ i j, (w.thread i).pc.busy = true → (w.thread j).pc.busy = true → i = j

theorem opening_of_share {trunc : Bool} (h : t.vn.pc = .openShare n trunc) : t.opening = true := by
  simp only [Thread.opening, h, Bool.or_true]

section Steps

variable [Fintype ι] [DecidableEq ι] {w : World ι Shared Thread} {i : ι}
  {v : VnodeThreads.Thread} {pc pc' : Pc}

/-- A step that leaves the lists and counts of the vnodes alone. -/
theorem vnodes_put (h : VnodeThreads.Inv (vnodes w)) {f : ℕ → Info}
    (hs : s.vn = { w.shared.vn with info := f }) (ht : t.vn = (w.thread i).vn) :
    VnodeThreads.Inv (vnodes (w.put s i t)) := by
  have hthread : (vnodes (w.put s i t)).thread = (vnodes w).thread := by
    funext j
    by_cases hj : j = i
    · simp [vnodes, hj, ht]
    · simp [vnodes, World.put_other hj]
  have hput : vnodes (w.put s i t) = ⟨{ w.shared.vn with info := f }, (vnodes w).thread⟩ := by
    rw [← hs, ← hthread]
    rfl
  rw [hput]
  exact ⟨h.nodup, h.place, h.count, h.closers, h.closed, h.fresh, h.nodes, h.tame⟩

theorem busy_of_removing (h : pc.removing = true) : pc.busy = true := by
  cases pc with
  | scan cur todo goal =>
    cases goal with
    | openPath => cases h
    | _ => rfl
  | leaf => rfl
  | createAdd => rfl
  | leave => rfl
  | _ => exact h

namespace Inv

/-- The roles of the moving thread must fit with those of the others. -/
theorem put (h : Inv w) (hvn : VnodeThreads.Inv (vnodes (w.put s i t))) (hwell : Well s)
    (hfiles : ∀ n, s.dirty n = true → (s.vn.info n).isDir = false)
    (hnodes : ∀ n ∈ s.vn.openList, n < s.vn.next ∧ Known s (s.entry n))
    (hothers : ∀ j, j ≠ i → (w.thread j).Ok s) (hself : t.Ok s) (hopen : t.opening = true →
      t.pc.removing = false ∧ ∀ j, j ≠ i → (w.thread j).pc.removing = false)
    (hrem : t.pc.removing = true → ∀ j, j ≠ i → (w.thread j).opening = false)
    (hbusy : t.pc.busy = true → s.dirBusy = true ∧ ∀ j, j ≠ i → (w.thread j).pc.busy = false)
    (hstay : ∀ j, j ≠ i → (w.thread j).pc.busy = true → s.dirBusy = true) : Inv (w.put s i t) := by
  have hthread := w.put_cases s i t
  refine ⟨hvn, hwell, hfiles, hnodes, fun j => ?_, fun j k ho => ?_, fun j hb => ?_,
    World.put_unique (P := fun t : Thread => t.pc.busy = true) h.one fun hb j hj => ?_⟩
  · rcases hthread j with ⟨-, heq⟩ | ⟨hj, heq⟩ <;> rw [heq]
    · exact hself
    · exact hothers j hj
  · rcases hthread j with ⟨-, heq⟩ | ⟨hj, heq⟩ <;> rcases hthread k with ⟨-, heq'⟩ | ⟨hk, heq'⟩ <;>
      rw [heq] at ho <;> rw [heq']
    · exact (hopen ho).1
    · exact (hopen ho).2 k hk
    · by_contra hr
      have := hrem (Bool.of_not_eq_false hr) j hj
      rw [this] at ho
      cases ho
    · exact h.apart j k ho
  · rcases hthread j with ⟨-, heq⟩ | ⟨hj, heq⟩ <;> rw [heq] at hb
    · exact (hbusy hb).1
    · exact hstay j hj hb
  · exact Bool.not_eq_true _ ▸ (hbusy hb).2 j hj

omit [DecidableEq ι] in
theorem point (h : Inv w) (ht : w.thread i = ⟨v, pc⟩) : Thread.Ok w.shared ⟨v, pc⟩ := ht ▸ h.ok i

omit [DecidableEq ι] in
theorem not_busy (h : Inv w) (hb : (w.thread i).pc.busy = true) {j : ι} (hj : j ≠ i) :
    (w.thread j).pc.busy = false := by
  by_contra hne
  exact hj (h.one j i (Bool.of_not_eq_false hne) hb)

omit [DecidableEq ι] in
theorem not_removing (h : Inv w) (hb : (w.thread i).pc.busy = true) {j : ι} (hj : j ≠ i) :
    (w.thread j).pc.removing = false := by
  by_contra hne
  have := h.not_busy hb hj
  rw [busy_of_removing (Bool.of_not_eq_false hne)] at this
  cases this

omit [DecidableEq ι] in
theorem not_opening (h : Inv w) (hr : (w.thread i).pc.removing = true) (j : ι) :
    (w.thread j).opening = false := by
  by_contra hne
  have := h.apart j i (Bool.of_not_eq_false hne)
  rw [hr] at this
  cases this

end Inv

structure Within (t t' : Thread) : Prop where
  opening : t'.opening = true → t.opening = true
  removing : t'.pc.removing = true → t.pc.removing = true
  busy : t'.pc.busy = true → t.pc.busy = true

theorem Inv.move (h : Inv w) (hin : Within (w.thread i) t)
    (hvn : VnodeThreads.Inv (vnodes (w.put s i t))) (hwell : Well s)
    (hfiles : ∀ n, s.dirty n = true → (s.vn.info n).isDir = false)
    (hnodes : ∀ n ∈ s.vn.openList, n < s.vn.next ∧ Known s (s.entry n))
    (hothers : ∀ j, j ≠ i → (w.thread j).Ok s) (hself : t.Ok s)
    (hbusy : s.dirBusy = w.shared.dirBusy) : Inv (w.put s i t) := by
  refine h.put hvn hwell hfiles hnodes hothers hself (fun ho => ?_) (fun hr j _ => ?_)
    (fun hb => ?_) fun j _ hb => ?_
  · have hold := hin.opening ho
    refine ⟨?_, fun j _ => h.apart i j hold⟩
    by_contra hr
    have := h.apart i i hold
    rw [hin.removing (Bool.of_not_eq_false hr)] at this
    cases this
  · exact h.not_opening (hin.removing hr) j
  · exact ⟨hbusy.trans (h.busy i (hin.busy hb)), fun j hj => h.not_busy (hin.busy hb) hj⟩
  · exact hbusy.trans (h.busy j hb)

/-- A step within the parts of a directory call, on the vnodes as they are. -/
theorem Inv.change (h : Inv w) (ht : w.thread i = ⟨v, pc⟩) {f : ℕ → Info}
    (hin : Within ⟨v, pc⟩ ⟨v, pc'⟩) (hvn : s.vn = { w.shared.vn with info := f }) (hwell : Well s)
    (hfiles : ∀ n, s.dirty n = true → (s.vn.info n).isDir = false)
    (hkeep : Keeps w.shared s) (hbusy : s.dirBusy = w.shared.dirBusy)
    (hself : pc'.Ok s v.pc) : Inv (w.put s i ⟨v, pc'⟩) := by
  refine h.move (ht ▸ hin) (vnodes_put h.vn hvn (by rw [ht])) hwell hfiles (fun n hn => ?_)
    (fun j _ => hkeep.ok (h.ok j)) ⟨hself, fun n trunc => hkeep.fresh (h.point ht) n trunc⟩ hbusy
  rw [hvn] at hn
  obtain ⟨hlt, hk⟩ := h.nodes n hn
  exact hkeep.entry hlt hk

/-- A step that changes nothing but the point the thread is at. -/
theorem Inv.quiet (h : Inv w) (ht : w.thread i = ⟨v, pc⟩) (hin : Within ⟨v, pc⟩ ⟨v, pc'⟩)
    (hself : pc'.Ok w.shared v.pc) : Inv (w.put w.shared i ⟨v, pc'⟩) :=
  h.change ht hin rfl h.well h.files (.refl _) rfl hself

/-- A point of a call that the thread may go to from `pc`. -/
structure Leads (s : Shared) (v : VnodeThreads.Thread) (pc pc' : Pc) : Prop where
  opening : pc'.opening = true → pc.opening = true
  removing : pc'.removing = true → pc.removing = true
  busy : pc'.busy = true → pc.busy = true
  ok : pc'.Ok s v.pc

theorem Leads.within (h : Leads s v pc pc') : Within ⟨v, pc⟩ ⟨v, pc'⟩ := by
  refine ⟨fun ho => ?_, h.removing, h.busy⟩
  simp only [Thread.opening, Bool.or_eq_true] at ho ⊢
  exact ho.imp_left h.opening

theorem Inv.go (h : Inv w) (ht : w.thread i = ⟨v, pc⟩) (hl : Leads w.shared v pc pc') :
    Inv (w.put w.shared i ⟨v, pc'⟩) :=
  h.quiet ht hl.within hl.ok

theorem leads_calm : Leads s v pc .calm :=
  ⟨nofun, nofun, nofun, trivial⟩

theorem leads_leave (h : pc.busy = true) : Leads s v pc (.leave none) :=
  ⟨nofun, nofun, fun _ => h, trivial⟩

theorem leads_removing (h : pc.removing = true) (ho : pc'.opening = false) (hok : pc'.Ok s v.pc) :
    Leads s v pc pc' :=
  ⟨fun ho' => absurd ho' (by simp [ho]), fun _ => h, fun _ => busy_of_removing h, hok⟩

section Walk

variable {g : Geom} {r : Renaming} {cur parent : Entry} {todo : List Name} {goal : Goal}

variable {name : Name}

theorem mem_of_find (h : s.find d name = some e) : (d, e) ∈ s.live := by
  have hmem := mem_of_find?_eq_some h
  obtain ⟨p, hp, rfl⟩ := mem_map.mp hmem
  obtain ⟨hp, hd⟩ := mem_filter.mp hp
  rw [← of_decide_eq_true hd]
  exact hp

theorem LiveIn.real (h : LiveIn s d e) (hs : Well s) : e.info.dirCluster ≠ 0 := by
  obtain ⟨e', hmem, hag⟩ := h
  rw [← hag.dirCluster]
  exact hs.real _ hmem

theorem notOpen_of_isOpen (h : s.isOpen e = false) (he : e.info.dirCluster ≠ 0) : NotOpen s e := by
  intro n hn hplace
  have hnone : VnodeThreads.openFind s.vn e.info = none := by
    simpa [Shared.isOpen] using h
  have hnot := List.find?_eq_none.mp hnone n hn
  obtain ⟨hc, hp⟩ := Prod.mk.inj hplace
  simp [VnodeThreads.sameEntry, he, hc, hp] at hnot

theorem leads_next (hr : Ren s r) (hn : NotOpen s r.old) (hpc : pc.removing = true) :
    Leads s v pc r.next := by
  unfold Renaming.next
  split
  · rename_i hnone
    refine leads_removing hpc rfl fun _ => ⟨hr.old, hn, fun t ht => ?_⟩
    rw [hnone] at ht
    cases ht
  · rename_i t hsome
    split
    · rename_i hsame
      refine leads_removing hpc rfl ⟨hr, hn, hsome, fun hs => ?_⟩
      rw [hsame] at hs
      cases hs
    · rename_i hsame
      split
      · exact leads_leave (busy_of_removing hpc)
      · exact leads_removing hpc rfl ⟨hr, hn, hsome, Bool.of_not_eq_true hsame⟩

theorem leads_walk (hr : Ren s r) (hn : NotOpen s r.old) (hpc : pc.removing = true)
    (rest : List (List Name)) : Leads s v pc (r.walk g rest) := by
  cases rest with
  | nil => exact leads_next hr hn hpc
  | cons pre rest => exact leads_removing hpc rfl ⟨hr, hn⟩

theorem leads_resolved (hr : Ren s r) (hpc : pc.removing = true) : Leads s v pc r.resolved := by
  unfold Renaming.resolved
  split
  · exact leads_leave (busy_of_removing hpc)
  · exact leads_removing hpc rfl hr

theorem leads_arrive (hok : goal.Ok s cur) :
    Leads s v (.scan cur todo goal) (arrive g cur goal) := by
  cases goal with
  | openPath path create trunc write =>
    simp only [arrive]
    split
    · exact leads_calm
    · exact ⟨fun _ => rfl, nofun, nofun, hok⟩
  | createIn leaf trunc =>
    simp only [arrive]
    split
    · exact ⟨fun _ => rfl, nofun, fun _ => rfl, trivial⟩
    · exact leads_leave rfl
  | removeIn leaf wantDir =>
    simp only [arrive]
    split
    · exact leads_removing rfl rfl trivial
    · exact leads_leave rfl
  | renameOldIn leaf newPath =>
    simp only [arrive]
    split
    · exact leads_removing rfl rfl trivial
    · exact leads_leave rfl
  | renameNewIn r =>
    simp only [arrive]
    split
    · exact leads_removing rfl rfl ⟨hok, rfl⟩
    · exact leads_leave rfl
  | renameWalk r rest =>
    simp only [arrive]
    split
    · exact leads_leave rfl
    · exact leads_walk hok.1 hok.2 rfl rest

theorem leads_missing : Leads s v (.scan cur todo goal) (missing goal) := by
  cases goal with
  | openPath path create trunc write =>
    cases create with
    | true => exact ⟨fun _ => rfl, nofun, nofun, trivial⟩
    | false => exact leads_calm
  | _ => exact leads_leave rfl

theorem leads_refused : Leads s v (.scan cur todo goal) (refused goal) := by
  cases goal with
  | openPath => exact leads_calm
  | _ => exact leads_leave rfl

theorem leads_scan {rest : List Name} (hok : goal.Ok s cur) (he : Known s e) :
    Leads s v (.scan cur todo goal) (.scan e rest goal) := by
  refine ⟨id, id, ?_, ?_⟩
  · cases goal with
    | openPath => exact id
    | _ => exact fun _ => rfl
  · cases goal with
    | openPath => exact he
    | _ => exact hok

theorem leads_scanStep (hok : goal.Ok s cur) :
    Leads s v (.scan cur todo goal) (scanStep g s cur todo goal) := by
  cases todo with
  | nil => exact leads_arrive hok
  | cons name rest =>
    simp only [scanStep]
    split
    · exact leads_refused
    · split
      · refine ⟨id, id, ?_, hok⟩
        cases goal with
        | openPath => exact id
        | _ => exact fun _ => rfl
      · split
        · exact leads_refused
        · split
          · rename_i e hfind
            exact leads_scan hok (.inr ⟨_, liveIn_of_mem (mem_of_find hfind)⟩)
          · exact leads_missing

theorem leads_present {goal : Leaf} (hok : goal.Ok s parent)
    (he : LiveIn s parent.info.firstCluster e) :
    Leads s v (.leaf parent name goal) (present g parent e goal) := by
  cases goal with
  | create trunc => exact leads_leave rfl
  | remove wantDir =>
    simp only [present]
    split
    · exact leads_leave rfl
    · exact leads_removing rfl rfl he
  | renameOld leaf newPath =>
    simp only [present]
    split
    · exact leads_leave rfl
    · unfold resolve
      split
      · exact leads_leave rfl
      · split
        · exact leads_leave rfl
        · exact leads_removing rfl rfl he
  | renameNew r =>
    refine leads_resolved ⟨hok.1, fun t ht => ?_⟩ rfl
    cases ht
    rw [hok.2]
    exact he

theorem leads_absent {goal : Leaf} (hok : goal.Ok s parent) :
    Leads s v (.leaf parent name goal) (absent parent goal) := by
  cases goal with
  | create trunc => exact ⟨fun _ => rfl, nofun, fun _ => rfl, trivial⟩
  | renameNew r => exact leads_resolved ⟨hok.1, fun t ht => by cases ht⟩ rfl
  | _ => exact leads_leave rfl

end Walk

/-- Outside opens and removals a thread relies on its vnode only. -/
theorem Thread.Ok.of_rest (h : t.Ok s) (ho : t.opening = false) (hr : t.pc.removing = false)
    (hvn : s'.vn = s.vn) : t.Ok s' := by
  obtain ⟨v, pc⟩ := t
  simp only [Thread.opening, Bool.or_eq_false_iff] at ho
  obtain ⟨ho, hv⟩ := ho
  refine ⟨?_, fun n trunc hpc => ?_⟩
  · have hpc := h.pc
    cases pc with
    | scan cur todo goal =>
      cases goal with
      | openPath => cases ho
      | createIn => cases ho
      | _ => cases hr
    | leaf parent name goal =>
      cases goal with
      | create => cases ho
      | _ => cases hr
    | leave made =>
      cases made with
      | none => trivial
      | some p => cases ho
    | marked n saved => simpa [Pc.Ok, IsFile, hvn] using hpc
    | storing n fields saved => simpa [Pc.Ok, IsFile, hvn] using hpc
    | redirty n saved => simpa [Pc.Ok, IsFile, hvn] using hpc
    | undo n saved => simpa [Pc.Ok, IsFile, hvn] using hpc
    | finished ok => exact hpc
    | found e trunc => cases ho
    | calm => trivial
    | enter job => trivial
    | createAdd parent trunc => cases ho
    | _ => cases hr
  · simp only at hpc hv
    rw [hpc] at hv
    cases hv

variable {info : Info} {b : Bool}

section

variable (h : Inv w) (ht : w.thread i = ⟨v, pc⟩)
include h ht

/-- A removal deletes an entry that no vnode on the list designates. -/
theorem Inv.delete (hr : pc.removing = true) (hnot : NotOpen w.shared e) (ho : pc'.opening = false)
    (hok : pc'.Ok (w.shared.delete d e) v.pc) : Inv (w.put (w.shared.delete d e) i ⟨v, pc'⟩) := by
  have hri : (w.thread i).pc.removing = true := by rw [ht]; exact hr
  have hopen := h.not_opening hri
  have hvopen : ∀ n trunc, v.pc ≠ .openShare n trunc := by
    intro n trunc hpc
    have hi := hopen i
    rw [ht, opening_of_share hpc] at hi
    cases hi
  refine h.move ⟨fun ho' => ?_, fun _ => hri, fun _ => busy_of_removing hri⟩
    (vnodes_put h.vn rfl (by rw [ht])) h.well.delete h.files (fun n hn => ?_)
    (fun j hj => (h.ok j).of_rest (hopen j) (h.not_removing (busy_of_removing hri) hj) rfl)
    ⟨hok, fun n trunc hpc => absurd hpc (hvopen n trunc)⟩ rfl
  · rw [ht]
    simp only [Thread.opening, ho, Bool.false_or] at ho' ⊢
    rw [ho', Bool.or_true]
  · obtain ⟨hlt, hk⟩ := h.nodes n hn
    refine ⟨hlt, ?_⟩
    obtain h0 | ⟨d', hd'⟩ := hk
    · exact .inl h0
    · exact .inr ⟨d', hd'.delete (hnot n hn)⟩

/-- The holder of `dir_busy` adds an entry in a free slot. -/
theorem Inv.add {pos : ℕ} (hb : pc.busy = true) (hfree : w.shared.isFree info = true)
    (hl : Leads (w.shared.add d info pos) v pc pc') :
    Inv (w.put (w.shared.add d info pos) i ⟨v, pc'⟩) := by
  have hbi : (w.thread i).pc.busy = true := by rw [ht]; exact hb
  have hgrow : Grows w.shared (w.shared.add d info pos) := grows_add info pos
  obtain ⟨hreal, hplace⟩ := isFree_iff.mp hfree
  refine h.move (ht ▸ hl.within) (vnodes_put h.vn rfl (by rw [ht]))
    (h.well.add hreal hplace) h.files (fun n hn => ?_)
    (fun j hj => hgrow.ok (h.not_removing hbi hj) (h.ok j)) ⟨hl.ok, fun n trunc => hgrow.fresh (h.point ht) n trunc⟩ rfl
  obtain ⟨hlt, hk⟩ := h.nodes n hn
  exact hgrow.entry hlt hk

/-- The steps of a truncation or a sync change the vnode of a file. -/
theorem Inv.setInfo (hn : IsFile w.shared n) (hplace : place info = place (w.shared.vn.info n))
    (hdir : info.isDir = false) (hl : Leads (w.shared.setInfo n info b) v pc pc') :
    Inv (w.put (w.shared.setInfo n info b) i ⟨v, pc'⟩) := by
  have hag : Agrees ⟨w.shared.serial n, info⟩ (w.shared.entry n) := by
    refine ⟨rfl, hplace, hdir.trans hn.2.symm, fun hd => ?_⟩
    exact absurd hd (by simp [Shared.entry, hn.2])
  refine h.change ht hl.within rfl
    (h.well.of_live rfl rfl rfl) (fun m hm => ?_) (keeps_setInfo hag b) rfl hl.ok
  by_cases hmn : m = n
  · simpa [Shared.setInfo, hmn] using hdir
  · simp only [Shared.setInfo, update_of_ne hmn] at hm ⊢
    exact h.files m hm

end

omit [DecidableEq ι] in
theorem Inv.listed (h : Inv w) (ht : w.thread i = ⟨v, pc⟩) (hv : Holds v.pc n) :
    n ∈ w.shared.vn.openList := by
  have hvi : (vnodes w).thread i = v := by simp [vnodes, ht]
  obtain hv | hv := hv
  · refine (h.vn.claimed (i := i) ?_).1
    simp [hvi, VnodeThreads.Thread.claims, VnodeThreads.Pc.claims, hv]
  · refine h.vn.closing_listed (i := i) ?_
    simp [hvi, VnodeThreads.Thread.closing, hv]

omit [DecidableEq ι] in
/-- The entry `dirent_store` writes is that of a file. -/
theorem Inv.store_file (h : Inv w) (hn : n ∈ w.shared.vn.openList) (hf : IsFile w.shared n)
    {fields : Info} (hplace : place fields = place (w.shared.vn.info n)) :
    ∀ p ∈ w.shared.live, place p.2.info = place fields → p.2.info.isDir = false := by
  intro p hp hpp
  obtain h0 | ⟨d, e', hmem, hag⟩ := (h.nodes n hn).2
  · have hc : p.2.info.dirCluster = (w.shared.vn.info n).dirCluster :=
      congrArg Prod.fst (hpp.trans hplace)
    exact absurd (hc.trans h0) (h.well.real p hp)
  · have hsame : p = (d, e') := by
      apply inj_on_of_nodup_map h.well.places hp hmem
      exact (hpp.trans hplace).trans hag.place.symm
    rw [hsame]
    exact hag.isDir.trans hf.2

section Moves

variable {g : Geom} {ok : Bool} {r : Renaming}

theorem inv_enter {job : Job} (h : Inv w) (ht : w.thread i = ⟨v, .enter job⟩)
    (hfree : w.shared.dirBusy = false)
    (hapart : job.removes = true → ∀ j, (w.thread j).opening = false) :
    Inv (w.put { w.shared with dirBusy := true } i ⟨v, begin g job⟩) := by
  have hbusy : ∀ j, (w.thread j).pc.busy = false := by
    intro j
    by_contra hne
    have := h.busy j (Bool.of_not_eq_false hne)
    rw [hfree] at this
    cases this
  have hrem : ∀ j, (w.thread j).pc.removing = false := by
    intro j
    by_contra hne
    have := hbusy j
    rw [busy_of_removing (Bool.of_not_eq_false hne)] at this
    cases this
  have hkeep := keeps_dirBusy w.shared true
  have hoki := h.point ht
  -- what the first point of the call is
  have hbegin : (begin g job).Ok { w.shared with dirBusy := true } v.pc ∧
      ((begin g job).removing = true → job.removes = true) ∧
      ((begin g job).opening = true → (begin g job).removing = false) := by
    cases job with
    | create path trunc =>
      simp only [begin, resolve]
      split
      · exact ⟨trivial, nofun, nofun⟩
      · split
        · exact ⟨trivial, nofun, nofun⟩
        · exact ⟨trivial, nofun, fun _ => rfl⟩
    | remove | rename =>
      simp only [begin, resolve]
      split
      · exact ⟨trivial, nofun, nofun⟩
      · split
        · exact ⟨trivial, nofun, nofun⟩
        · exact ⟨trivial, fun _ => rfl, nofun⟩
  obtain ⟨hok, hrems, hopens⟩ := hbegin
  refine h.put (vnodes_put h.vn rfl (by rw [ht])) (h.well.of_live rfl rfl rfl)
    h.files (fun n hn => hkeep.entry (h.nodes n hn).1 (h.nodes n hn).2)
    (fun j _ => hkeep.ok (h.ok j)) ⟨hok, fun n trunc => hkeep.fresh hoki n trunc⟩ (fun ho => ⟨?_, fun j _ => hrem j⟩)
    (fun hr j _ => hapart (hrems hr) j) (fun _ => ⟨rfl, fun j _ => hbusy j⟩) (fun _ _ _ => rfl)
  by_contra hr
  have hr := Bool.of_not_eq_false hr
  have hi := hapart (hrems hr) i
  rw [ht] at hi
  simp only [Thread.opening, Bool.or_eq_true, Bool.or_eq_false_iff] at ho hi
  obtain ho | ho := ho
  · rw [hopens ho] at hr
    cases hr
  · rw [hi.2] at ho
    cases ho

theorem inv_leave {made : Option (Entry × Bool)} (h : Inv w) (ht : w.thread i = ⟨v, .leave made⟩) :
    Inv (w.put { w.shared with dirBusy := false } i ⟨v, afterLeave made⟩) := by
  have hbusy : (w.thread i).pc.busy = true := by rw [ht]; rfl
  have hkeep := keeps_dirBusy w.shared false
  have hoki := h.point ht
  have hother : ∀ j, j ≠ i → ¬(w.thread j).pc.busy = true := by
    intro j hj hb
    rw [h.not_busy hbusy hj] at hb
    cases hb
  refine h.put (vnodes_put h.vn rfl (by rw [ht])) (h.well.of_live rfl rfl rfl)
    h.files (fun n hn => hkeep.entry (h.nodes n hn).1 (h.nodes n hn).2)
    (fun j _ => hkeep.ok (h.ok j)) ⟨?_, fun n trunc => hkeep.fresh hoki n trunc⟩ (fun ho => ⟨?_, fun j hj => ?_⟩)
    (fun hr j _ => ?_) (fun hb => ?_) (fun j hj hb => absurd hb (hother j hj))
  · cases made with
    | none => trivial
    | some p => exact hoki.pc
  · cases made with
    | none => rfl
    | some p => rfl
  · exact h.not_removing hbusy hj
  · cases made with
    | none => cases hr
    | some p => cases hr
  · cases made with
    | none => cases hb
    | some p => cases hb

theorem vacant_of_all {c : ℕ} (h : s.live.all (fun p => p.1 ≠ c) = true) : Vacant s c := by
  intro p hp
  simpa using all_eq_true.mp h p hp

theorem inv_removeCheck {parent : Entry} (h : Inv w) (ht : w.thread i = ⟨v, .removeCheck parent e⟩) :
    Inv (w.put w.shared i ⟨v, if w.shared.isOpen e then .leave none
      else if e.info.isDir then .removeEmpty parent e else .removeDelete parent e⟩) := by
  have hlive := (h.point ht).pc
  apply h.go ht
  split
  · exact leads_leave rfl
  · rename_i hopen
    have hnot := notOpen_of_isOpen (Bool.of_not_eq_true hopen) (LiveIn.real hlive h.well)
    split
    · exact leads_removing rfl rfl ⟨hlive, hnot⟩
    · rename_i hd
      exact leads_removing rfl rfl ⟨hlive, hnot, fun hd' => absurd hd' hd⟩

theorem Inv.free (h : Inv w) (ht : w.thread i = ⟨v, pc⟩) (hb : pc.busy = true)
    (hg : Gone w.shared e) : Inv (w.put (w.shared.free e) i ⟨v, .leave none⟩) :=
  h.change ht (leads_leave (s := w.shared.free e) hb).within rfl
    (h.well.free hg) h.files (keeps_free hg) rfl trivial

theorem inv_renameTarget (h : Inv w) (ht : w.thread i = ⟨v, .renameTarget r e⟩) :
    Inv (w.put w.shared i ⟨v, if w.shared.isOpen e then .leave none
      else if e.info.isDir then .renameEmpty r e else .renameDrop r e⟩) := by
  have hpc := (h.point ht).pc
  obtain ⟨hren, hold, htarget, hsame⟩ := hpc
  apply h.go ht
  split
  · exact leads_leave rfl
  · rename_i hopen
    have hnot := notOpen_of_isOpen (Bool.of_not_eq_true hopen) ((hren.target e htarget).real h.well)
    split
    · exact leads_removing rfl rfl ⟨hren, hold, hnot, htarget, hsame⟩
    · rename_i hd
      exact leads_removing rfl rfl ⟨hren, hold, htarget, fun _ => ⟨hnot, fun hd' => absurd hd' hd⟩⟩

/-- The first deletion of a rename. When it deletes the target, the old entry stays. -/
theorem inv_renameDrop (h : Inv w) (ht : w.thread i = ⟨v, .renameDrop r e⟩) :
    Inv (w.put (w.shared.delete r.dropParent.info.firstCluster (r.dropped e)) i
      ⟨v, .renameAdd r⟩) := by
  have hpc := (h.point ht).pc
  obtain ⟨hren, hold, htarget, hother⟩ := hpc
  by_cases hsame : r.same = true
  · simp only [Renaming.dropParent, Renaming.dropped, hsame, if_true]
    refine h.delete ht rfl hold rfl fun hs => ?_
    rw [hsame] at hs
    cases hs
  · simp only [Renaming.dropParent, Renaming.dropped, hsame, Bool.false_eq_true, if_false]
    obtain ⟨hnot, hvac⟩ := hother (Bool.of_not_eq_true hsame)
    have hlive := hren.target e htarget
    refine h.delete ht rfl hnot rfl fun _ => ⟨hren.old.delete fun heq => ?_, hold, fun t ht' => ?_⟩
    · exact hsame (by simp [Renaming.same, htarget, heq])
    · rw [htarget] at ht'
      cases ht'
      refine ⟨hlive.gone_delete h.well hvac, fun hd heq => ?_⟩
      obtain ⟨e', hmem, -⟩ := hlive
      exact hvac hd _ hmem heq.symm

theorem inv_renameDelete (h : Inv w) (ht : w.thread i = ⟨v, .renameDelete r⟩)
    (hsame : r.same = false) :
    Inv (w.put (w.shared.delete r.oldParent.info.firstCluster r.old) i ⟨v, .renameFree r⟩) := by
  have hpc := (h.point ht).pc
  obtain ⟨hlive, hnot, htarget⟩ := hpc hsame
  refine h.delete ht rfl hnot rfl fun _ t ht' => ?_
  have hg := htarget t ht'
  exact ⟨hg.dead.delete, fun hd => (hg.vacant hd).delete⟩

theorem inv_storing {fields : Info} {saved : Option (Info × Bool)} (h : Inv w)
    (ht : w.thread i = ⟨v, .storing n fields saved⟩) :
    Inv (w.put (w.shared.store fields) i ⟨v, .finished ok⟩) := by
  have hpc := (h.point ht).pc
  obtain ⟨hfile, hhold, hplace⟩ := hpc
  obtain ⟨hkeep, hwell⟩ := keeps_store h.well (h.store_file (h.listed ht hhold) hfile hplace)
  have hvn : (w.shared.store fields).vn = w.shared.vn ∧ (w.shared.store fields).dirty = w.shared.dirty ∧
      (w.shared.store fields).dirBusy = w.shared.dirBusy := by
    unfold Shared.store
    split <;> exact ⟨rfl, rfl, rfl⟩
  refine h.change ht ⟨fun ho => ?_, nofun, nofun⟩ hvn.1 hwell ?_ hkeep hvn.2.2
    ⟨n, hhold⟩
  · simpa [Thread.opening, Pc.opening] using ho
  · rw [hvn.1, hvn.2.1]
    exact h.files

theorem leads_file (ho : pc'.opening = false) (hr : pc'.busy = false) (hok : pc'.Ok s v.pc) :
    Leads s v pc pc' := by
  refine ⟨fun h => absurd h (by simp [ho]), fun h => ?_, fun h => absurd h (by simp [hr]), hok⟩
  exact absurd (busy_of_removing h) (by simp [hr])

theorem setInfo_isFile (h : IsFile s n) (hd : info.isDir = false) : IsFile (s.setInfo n info b) n :=
  ⟨h.1, by simpa [Shared.setInfo] using hd⟩

theorem inv_dirStep (h : Inv w) (ht : w.thread i = ⟨v, pc⟩)
    (hapart : ∀ job, pc = .enter job → job.removes = true → w.shared.dirBusy = false →
      ∀ j, (w.thread j).opening = false)
    (hs : dirStep g ok w.shared pc = some (s, pc')) : Inv (w.put s i ⟨v, pc'⟩) := by
  have hpc := (h.point ht).pc
  cases pc with
  | scan cur todo goal =>
    cases hs
    apply h.go ht
    split
    · exact leads_scanStep hpc
    · exact leads_refused
  | leaf parent name goal =>
    cases hs
    apply h.go ht
    split
    · split
      · rename_i e hfind
        exact leads_present hpc (liveIn_of_mem (mem_of_find hfind))
      · exact leads_absent hpc
    · exact leads_leave rfl
  | enter job =>
    simp only [dirStep] at hs
    split at hs
    · cases hs
      exact h.go ht leads_calm
    · rename_i hbusy
      cases hs
      exact inv_enter h ht (Bool.of_not_eq_true hbusy) fun hr =>
        hapart job rfl hr (Bool.of_not_eq_true hbusy)
  | leave made =>
    cases hs
    exact inv_leave h ht
  | createAdd parent trunc =>
    cases hs
    exact h.go ht (leads_leave rfl)
  | removeCheck parent e =>
    cases hs
    exact inv_removeCheck h ht
  | removeEmpty parent e =>
    cases hs
    apply h.go ht
    split
    · rename_i hcond
      exact leads_removing rfl rfl ⟨hpc.1, hpc.2, fun _ => vacant_of_all hcond.2.2⟩
    · exact leads_leave rfl
  | removeDelete parent e =>
    simp only [dirStep] at hs
    split at hs
    · cases hs
      obtain ⟨hlive, hnot, hvac⟩ := hpc
      exact h.delete ht rfl hnot rfl (hlive.gone_delete h.well hvac)
    · cases hs
      exact h.go ht (leads_leave rfl)
  | removeFree e =>
    cases hs
    split
    · exact h.free ht rfl hpc
    · exact h.go ht (leads_leave rfl)
  | renameCheck r =>
    cases hs
    apply h.go ht
    split
    · exact leads_leave rfl
    · rename_i hopen
      have hnot := notOpen_of_isOpen (Bool.of_not_eq_true hopen) (Ren.old hpc |>.real h.well)
      split
      · split
        · exact leads_leave rfl
        · exact leads_walk hpc hnot rfl _
      · exact leads_next hpc hnot rfl
  | renameTarget r t =>
    cases hs
    exact inv_renameTarget h ht
  | renameEmpty r t =>
    cases hs
    apply h.go ht
    split
    · rename_i hcond
      obtain ⟨hren, hold, hnot, htarget, -⟩ := hpc
      exact leads_removing rfl rfl ⟨hren, hold, htarget, fun _ =>
        ⟨hnot, fun _ => vacant_of_all hcond.2.2⟩⟩
    · exact leads_leave rfl
  | renameDrop r t =>
    simp only [dirStep] at hs
    split at hs
    · cases hs
      exact inv_renameDrop h ht
    · cases hs
      exact h.go ht (leads_leave rfl)
  | renameAdd r =>
    cases hs
    exact h.go ht (leads_leave rfl)
  | renameDelete r =>
    simp only [dirStep] at hs
    split at hs
    · rename_i hsame
      cases hs
      refine h.go ht (leads_removing rfl rfl fun hne => ?_)
      rw [hsame] at hne
      cases hne
    · rename_i hsame
      split at hs
      · cases hs
        exact inv_renameDelete h ht (Bool.of_not_eq_true hsame)
      · cases hs
        exact h.go ht (leads_leave rfl)
  | renameFree r =>
    cases hs
    split
    · rename_i t htarget
      split
      · rename_i hcond
        exact h.free ht rfl (hpc hcond.2.1 t htarget)
      · exact h.go ht (leads_leave rfl)
    · exact h.go ht (leads_leave rfl)
  | marked n saved =>
    simp only [dirStep] at hs
    split at hs
    · cases hs
      refine h.setInfo ht hpc.1 rfl hpc.1.2 (leads_file rfl rfl ⟨setInfo_isFile hpc.1 hpc.1.2, hpc.2, ?_⟩)
      simp [Shared.setInfo]
    · cases hs
      exact h.go ht (leads_file rfl rfl ⟨n, hpc.2⟩)
  | storing n fields saved =>
    simp only [dirStep] at hs
    split at hs
    · cases hs
      exact inv_storing h ht
    · cases hs
      exact h.go ht (leads_file rfl rfl ⟨hpc.1, hpc.2.1⟩)
  | redirty n saved =>
    cases hs
    cases saved with
    | none =>
      exact h.setInfo ht hpc.1 rfl hpc.1.2 (leads_file rfl rfl ⟨n, hpc.2⟩)
    | some old =>
      exact h.setInfo ht hpc.1 rfl hpc.1.2
        (leads_file rfl rfl ⟨setInfo_isFile hpc.1 hpc.1.2, hpc.2⟩)
  | undo n saved =>
    cases hs
    exact h.setInfo ht hpc.1 rfl hpc.1.2 (leads_file rfl rfl ⟨n, hpc.2⟩)
  | _ => cases hs

theorem isFree_congr {a b : Info} (h : place a = place b) : s.isFree a = s.isFree b := by
  have hc : a.dirCluster = b.dirCluster := congrArg Prod.fst h
  simp only [Shared.isFree, h, hc]

theorem inv_addStep {pos : ℕ} (h : Inv w) (ht : w.thread i = ⟨v, pc⟩)
    (hfree : w.shared.isFree info = true) (hs : addStep w.shared info pos pc = some (s, pc')) :
    Inv (w.put s i ⟨v, pc'⟩) := by
  have hpc := (h.point ht).pc
  cases pc with
  | createAdd parent trunc =>
    cases hs
    refine h.add ht rfl ((isFree_congr rfl).trans hfree) ⟨fun _ => rfl, nofun, fun _ => rfl, ?_⟩
    exact .inr ⟨_, liveIn_of_mem (mem_add.mpr (.inl rfl))⟩
  | renameAdd r =>
    cases hs
    refine h.add ht rfl ((isFree_congr rfl).trans hfree) (leads_removing rfl rfl fun hsame => ?_)
    obtain ⟨hold, hnot, htarget⟩ := hpc hsame
    refine ⟨(grows_add _ _).live _ _ hold, hnot, fun t ht' => ?_⟩
    obtain ⟨hg, hne⟩ := htarget t ht'
    exact ⟨(grows_add _ _).dead _ hg.dead, fun hd => (hg.vacant hd).add (hne hd)⟩
  | _ => cases hs

end Moves

end Steps

end Tach.DirThreads
