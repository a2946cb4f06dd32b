import Tach.Inodes

/-!
When two files have different inode numbers. A vnode in the image has a place of its own, and an
open vnode of FAT32 has a page of its own as long as it is open. A file that is not open gets the
first free page for the time of a call, and so the next one gets the same.
-/

namespace Tach.Inodes

open Function List

open Shell (Text text)
open Frames (Pmm pageSize maxFrames firstFree_spec freeFrame_spec takes_take)
open VfsPaths (Vfs Vnode pathSize procPaths)

variable {f : ℕ}

section Numbers

variable {L : Layout} {slot p : Static × ℕ} {frame : ℕ}

theorem inodeOf_ne {a b : ℕ} (h : a + 16 ≤ b) (hb : b < 2 ^ 36) : inodeOf a ≠ inodeOf b := by
  unfold inodeOf
  rw [Nat.mod_eq_of_lt (by omega), Nat.mod_eq_of_lt (by omega)]
  omega

theorem stride_large (L : Layout) (a : Static) : 16 ≤ L.stride a := by
  have hv := L.vnode_large
  have ht := L.tmpfile_large
  cases a <;> simp only [Places.stride] <;> omega

/-- An element ends before the object does. -/
theorem element_stop (h : slot.2 < slot.1.count) : L.element slot + 16 ≤ L.stop slot.1 := by
  have hmul : L.stride slot.1 * (slot.2 + 1) ≤ L.stride slot.1 * slot.1.count :=
    Nat.mul_le_mul_left _ h
  have hlarge := stride_large L slot.1
  rw [Nat.mul_succ] at hmul
  unfold Places.element Places.stop
  omega

theorem element_low (h : slot.2 < slot.1.count) : L.element slot + 16 ≤ L.image * pageSize :=
  (element_stop h).trans (L.inside slot.1)

theorem image_bound (L : Layout) : L.image * pageSize < 2 ^ 36 := by
  have h := L.image_low
  simp only [pageSize, maxFrames] at h ⊢
  omega

theorem element_step (a : Static) {i j : ℕ} (h : i < j) :
    L.element (a, i) + 16 ≤ L.element (a, j) := by
  have hlarge := stride_large L a
  have hmul : L.stride a * (i + 1) ≤ L.stride a * j := Nat.mul_le_mul_left _ h
  rw [Nat.mul_succ] at hmul
  dsimp only [Places.element]
  omega

/-- Different elements have different numbers. -/
theorem inodeOf_element {q : Static × ℕ} (hp : p.2 < p.1.count) (hq : q.2 < q.1.count)
    (hne : p ≠ q) : inodeOf (L.element p) ≠ inodeOf (L.element q) := by
  have hplow := element_low (L := L) hp
  have hqlow := element_low (L := L) hq
  have hbound := image_bound L
  obtain ⟨a, i⟩ := p
  obtain ⟨b, j⟩ := q
  by_cases hab : a = b
  · subst b
    have hij : i ≠ j := fun h => hne (by rw [h])
    rcases Nat.lt_or_gt_of_ne hij with hlt | hlt
    · exact inodeOf_ne (element_step a hlt) (by omega)
    · exact (inodeOf_ne (element_step a hlt) (by omega)).symm
  · have hpstop := element_stop (L := L) hp
    have hqstop := element_stop (L := L) hq
    have hpbase : L.base a ≤ L.element (a, i) := Nat.le_add_right _ _
    have hqbase : L.base b ≤ L.element (b, j) := Nat.le_add_right _ _
    dsimp only at hpstop hqstop
    rcases L.apart a b hab with h | h
    · exact inodeOf_ne (by omega) (by omega)
    · exact (inodeOf_ne (by omega) (by omega)).symm

theorem inPage_bound (h : frame < maxFrames) : L.inPage frame < 2 ^ 36 := by
  have hheader := L.header_small
  simp only [maxFrames] at h
  simp only [Places.inPage, pageSize] at hheader ⊢
  omega

theorem inodeOf_element_page (hp : p.2 < p.1.count)
    (himage : L.image ≤ frame) (hframe : frame < maxFrames) :
    inodeOf (L.element p) ≠ inodeOf (L.inPage frame) := by
  refine inodeOf_ne ((element_low hp).trans ?_) (inPage_bound hframe)
  exact (Nat.mul_le_mul_right _ himage).trans (Nat.le_add_right _ _)

theorem inodeOf_pages {g : ℕ} (hf : f < maxFrames) (hg : g < maxFrames) (hne : f ≠ g) :
    inodeOf (L.inPage f) ≠ inodeOf (L.inPage g) := by
  have hfar : ∀ {f g : ℕ}, f < g → L.inPage f + 16 ≤ L.inPage g := by
    intro f g h
    simp only [Places.inPage, pageSize]
    omega
  rcases Nat.lt_or_gt_of_ne hne with h | h
  · exact inodeOf_ne (hfar h) (inPage_bound hg)
  · exact (inodeOf_ne (hfar h) (inPage_bound hf)).symm

end Numbers

section Slots

variable {S T : Vfs} {v w : Vnode} {path : Text}

def Held (S : Vfs) : Vnode → Prop
  | .disk name => name ∈ S.devices
  | .tmpFile path => some path ∈ S.tmpfiles
  | .proc path => path ∈ procPaths
  | .mem path => path ∈ S.memfiles
  | .dir path => path ∈ S.dirs
  | _ => True

structure Grown (S T : Vfs) : Prop where
  devices : T.devices = S.devices
  memfiles : T.memfiles = S.memfiles
  tmpfiles : T.tmpfiles = S.tmpfiles
  dirs : S.dirs <+: T.dirs

theorem Grown.refl (S : Vfs) : Grown S S := ⟨rfl, rfl, rfl, prefix_refl _⟩

def vnodeAt (S : Vfs) : Static × ℕ → Option Vnode
  | (.root, _) => some .root
  | (.console, _) => some .console
  | (.null, _) => some .null
  | (.zero, _) => some .zero
  | (.disks, i) => S.devices[i]?.map .disk
  | (.memfiles, i) => S.memfiles[i]?.map .mem
  | (.dirs, i) => S.dirs[i]?.map .dir
  | (.procs, i) => procPaths[i]?.map .proc
  | (.tmpDir, _) => some .tmpDir
  | (.tmpfiles, i) => S.tmpfiles[i]?.bind fun path => path.map .tmpFile

theorem vnodeAt_slotOf (h : Held S v) : vnodeAt S (slotOf S v) = some v := by
  cases v with
  | disk name => simp only [slotOf, vnodeAt, getElem?_idxOf h, Option.map_some]
  | tmpFile path =>
    simp only [slotOf, vnodeAt, getElem?_idxOf h, Option.bind_some, Option.map_some]
  | proc path => simp only [slotOf, vnodeAt, getElem?_idxOf h, Option.map_some]
  | mem path => simp only [slotOf, vnodeAt, getElem?_idxOf h, Option.map_some]
  | dir path => simp only [slotOf, vnodeAt, getElem?_idxOf h, Option.map_some]
  | _ => rfl

theorem slotOf_ne (hv : Held S v) (hw : Held S w) (hne : v ≠ w) : slotOf S v ≠ slotOf S w := by
  intro h
  have hslot := vnodeAt_slotOf hv
  rw [h, vnodeAt_slotOf hw] at hslot
  exact hne (Option.some.inj hslot).symm

theorem slotOf_lt (h : Held S v) : (slotOf S v).2 < (slotOf S v).1.count := by
  cases v with
  | disk name => exact (idxOf_lt_length_iff.2 h).trans_le S.devices_count
  | tmpFile path => exact (idxOf_lt_length_iff.2 h).trans_le S.tmpfiles_count
  | proc path => exact idxOf_lt_length_iff.2 h
  | mem path => exact (idxOf_lt_length_iff.2 h).trans_le S.memfiles_count
  | dir path => exact (idxOf_lt_length_iff.2 h).trans_le S.dirs_count
  | _ => exact Nat.one_pos

theorem Grown.held (h : Grown S T) (hv : Held S v) : Held T v := by
  cases v with
  | disk name =>
    unfold Held at hv ⊢
    rwa [h.devices]
  | tmpFile path =>
    unfold Held at hv ⊢
    rwa [h.tmpfiles]
  | proc path => exact hv
  | mem path =>
    unfold Held at hv ⊢
    rwa [h.memfiles]
  | dir path => exact h.dirs.subset hv
  | _ => trivial

theorem Grown.slotOf_eq (h : Grown S T) (hv : Held S v) : slotOf T v = slotOf S v := by
  cases v with
  | dir path =>
    obtain ⟨l, hl⟩ := h.dirs
    simp only [slotOf, ← hl, idxOf_append_of_mem hv]
  | _ => simp only [slotOf, h.devices, h.tmpfiles, h.memfiles]

theorem held_of_lookup (h : VfsPaths.lookup S path = .ok (some v)) : Held S v := by
  unfold VfsPaths.lookup at h
  split at h
  · cases h
    trivial
  split at h
  · cases h
    trivial
  split at h
  · cases h
    trivial
  split at h
  · cases h
    trivial
  split at h
  next w hdisk =>
    cases h
    unfold VfsPaths.diskLookup at hdisk
    split at hdisk
    next hmem =>
      cases hdisk
      exact hmem.2.2
    · cases hdisk
  split at h
  · unfold VfsPaths.tmpfsLookup at h
    split at h
    · cases h
    next hw =>
      cases h
      split at hw
      · cases hw
        trivial
      split at hw
      · cases hw
      split at hw
      next hmem =>
        cases hw
        exact hmem
      · cases hw
  split at h
  next hmem =>
    cases h
    exact hmem
  split at h
  next hmem =>
    cases h
    exact hmem
  · cases h

/-- A vnode that was opened has a slot, and the others keep theirs. -/
theorem vfsOpenErr_held (h : VfsPaths.vfsOpenErr S path = (.ok v, T)) : Held T v ∧ Grown S T := by
  unfold VfsPaths.vfsOpenErr at h
  split at h
  · cases h
  next hlookup =>
    cases h
    exact ⟨held_of_lookup hlookup, Grown.refl S⟩
  · split at h
    · unfold VfsPaths.dirVnode at h
      split at h
      · cases h
      split at h
      next hmem =>
        cases h
        exact ⟨hmem, Grown.refl S⟩
      split at h
      · cases h
        exact ⟨mem_append_right _ (mem_singleton_self path), rfl, rfl, rfl, prefix_append _ _⟩
      · cases h
    · cases h

end Slots

section Pages

variable {p p' : Pmm} {f : ℕ}

theorem findRun_one (p : Pmm) (n f first : ℕ) : p.findRun 1 1 n f 0 first = p.firstFree n f := by
  induction n generalizing f first with
  | zero => rfl
  | succ n ih =>
    unfold Pmm.findRun Pmm.firstFree
    rw [if_neg (by simp)]
    split
    · rfl
    · exact ih (f + 1) first

theorem allocPages_one (p : Pmm) :
    p.allocPages 1 = (p.firstFree (p.limit - 1) 1).map fun f => (f, p.take f) := by
  unfold Pmm.allocPages Pmm.allocAlignedPages
  rw [if_neg (by decide), findRun_one]
  cases p.firstFree (p.limit - 1) 1 with
  | none => rfl
  | some f => rfl

theorem firstFree_congr (h : p'.used = p.used) (n f : ℕ) : p'.firstFree n f = p.firstFree n f := by
  induction n generalizing f with
  | zero => rfl
  | succ n ih =>
    unfold Pmm.firstFree
    rw [h, ih]

/-- The same frames are in use, and referred to as often. -/
structure SameFrames (p p' : Pmm) : Prop where
  used : p'.used = p.used
  limit : p'.limit = p.limit
  refs : ∀ f, p.used f = true → p'.refs f = p.refs f

theorem SameFrames.refl (p : Pmm) : SameFrames p p := ⟨rfl, rfl, fun _ _ => rfl⟩

/-- A page that was allocated and freed again. -/
theorem sameFrames_return (h : p.firstFree (p.limit - 1) 1 = some f) :
    SameFrames p ((p.take f).freePagesFrom f 1) := by
  obtain ⟨hunused, hpos, hlt⟩ := firstFree_spec h
  have htakes := takes_take hunused
  have hused : (p.take f).used f = true := by rw [htakes.used, update_self]
  have hone : (p.take f).refs f = 1 := by rw [htakes.refs, update_self]
  obtain ⟨hrefs, hfree, hlimit⟩ := freeFrame_spec (by omega)
    (by rw [htakes.limit]; omega : f < (p.take f).limit) hused (by omega)
  refine ⟨hfree.trans ?_, hlimit, fun g hg => ?_⟩
  · rw [hone, htakes.used, update_idem, decide_eq_false (not_not.mpr rfl), ← hunused, update_eq_self]
  · have hgf : g ≠ f := by
      rintro rfl
      rw [hg] at hunused
      cases hunused
    refine (congrFun hrefs g).trans ?_
    rw [update_of_ne hgf, htakes.refs, update_of_ne hgf]

end Pages

variable {n : Node}

section Files

/-- A vnode of the image, or an entry of a volume. -/
inductive File
  | static (vnode : Vnode)
  | fat (vol : ℕ) (key : ℕ × ℕ)
  deriving DecidableEq

def fileOf (s : State) (path : Text) : Option File :=
  match mounted s path with
  | some (vol, rel) =>
    if pathSize ≤ rel.length then none
    else
      match (s.volumes vol).lookup rel with
      | .error _ => none
      | .ok info => some (.fat vol info.key)
  | none =>
    match (VfsPaths.vfsOpenErr s.vfs path).1 with
    | .error _ => none
    | .ok vnode => some (.static vnode)

/-- An entry of a volume that no descriptor refers to. -/
def Closed (s : State) : File → Prop
  | .static _ => False
  | .fat vol key => ∀ n ∈ s.nodes vol, n.info.key ≠ key

/-- The frames of the image are in use, and each open vnode of a volume has a page of its own. -/
structure Sound (L : Layout) (s : State) : Prop where
  image : ∀ f < L.image, s.pmm.used f = true
  limit : s.pmm.limit ≤ maxFrames
  used : ∀ vol, ∀ n ∈ s.nodes vol, s.pmm.used n.frame = true ∧ s.pmm.refs n.frame = 1
  range : ∀ vol, ∀ n ∈ s.nodes vol, L.image ≤ n.frame ∧ 1 ≤ n.frame ∧ n.frame < s.pmm.limit
  opens : ∀ vol, ∀ n ∈ s.nodes vol, 0 < n.opens
  frames : ∀ vol vol' n n', n ∈ s.nodes vol → n' ∈ s.nodes vol' → n.frame = n'.frame →
    vol = vol' ∧ n = n'
  keys : ∀ vol, ∀ n ∈ s.nodes vol, ∀ n' ∈ s.nodes vol, n.info.key = n'.info.key → n = n'

/-- What a call of `vfs_stat` leaves. -/
structure Alike (s t : State) : Prop where
  volumes : t.volumes = s.volumes
  mounts : t.mounts = s.mounts
  frames : SameFrames s.pmm t.pmm
  vfs : Grown s.vfs t.vfs

variable {L : Layout} {s t : State} {vol : ℕ} {path : Text}

theorem sameEntry_iff {i : Info} : sameEntry i n = true ↔ n.info.key = i.key := by
  unfold sameEntry Info.key
  rw [decide_eq_true_iff, Prod.mk.injEq]
  refine and_congr_right fun h => ?_
  rw [h]
  by_cases hzero : i.dirCluster = 0
  · have hdir := n.info.root_dir (h.trans hzero)
    simp only [hzero, hdir, ne_eq, not_true_eq_false, if_false, if_true]
  · simp only [hzero, ne_eq, not_false_eq_true, if_true, if_false]

theorem Alike.nodes (h : Alike s t) (vol : ℕ) : t.nodes vol = s.nodes vol := by
  unfold State.nodes
  rw [h.volumes]

theorem Alike.sound (h : Alike s t) (hs : Sound L s) : Sound L t := by
  refine ⟨fun f hf => ?_, ?_, fun vol n hn => ?_, fun vol n hn => ?_, fun vol n hn => ?_,
    fun vol vol' n n' hn hn' => ?_, fun vol n hn n' hn' => ?_⟩
  · rw [h.frames.used]
    exact hs.image f hf
  · rw [h.frames.limit]
    exact hs.limit
  · rw [h.nodes] at hn
    obtain ⟨hused, hrefs⟩ := hs.used vol n hn
    rw [h.frames.used, h.frames.refs _ hused]
    exact ⟨hused, hrefs⟩
  · rw [h.nodes] at hn
    rw [h.frames.limit]
    exact hs.range vol n hn
  · rw [h.nodes] at hn
    exact hs.opens vol n hn
  · rw [h.nodes] at hn hn'
    exact hs.frames vol vol' n n' hn hn'
  · rw [h.nodes] at hn hn'
    exact hs.keys vol n hn n' hn'

theorem Alike.closed (h : Alike s t) {f : File} : Closed t f ↔ Closed s f := by
  cases f with
  | static v => exact Iff.rfl
  | fat vol key =>
    change (∀ n ∈ t.nodes vol, n.info.key ≠ key) ↔ ∀ n ∈ s.nodes vol, n.info.key ≠ key
    rw [h.nodes]

/-- The nodes of a volume change and change back. -/
theorem setNodes_back (s : State) (vol : ℕ) (nodes : List Node) (p q : Pmm) :
    (((s.setNodes vol nodes).setPmm p).setNodes vol (s.nodes vol)).setPmm q = s.setPmm q := by
  unfold State.setNodes State.setPmm State.nodes
  simp only [update_self, update_idem, update_eq_self]

theorem nodes_set (s : State) (vol : ℕ) (nodes : List Node) (p : Pmm) :
    ((s.setNodes vol nodes).setPmm p).nodes vol = nodes := by
  unfold State.setNodes State.setPmm State.nodes
  dsimp only
  rw [update_self]

theorem alike_setPmm {p : Pmm} (h : SameFrames s.pmm p) : Alike s (s.setPmm p) :=
  ⟨rfl, rfl, h, Grown.refl _⟩

variable (hs : Sound L s) (hf : s.pmm.firstFree (s.pmm.limit - 1) 1 = some f)
include hs hf

/-- The vnode of a file that was not open lives for one call. -/
theorem alike_release_fresh (info : Info) (path : Text) :
    Alike s (fvRelease ((s.setNodes vol (⟨info, path, f, 1, info.size⟩ :: s.nodes vol)).setPmm
      (s.pmm.take f)) vol f) := by
  have hunused := (firstFree_spec hf).1
  have hfilter : ((⟨info, path, f, 1, info.size⟩ : Node) :: s.nodes vol).filter
      (fun n => n.frame ≠ f) = s.nodes vol := by
    rw [filter_cons_of_neg (by simp)]
    refine filter_eq_self.2 fun n hn => decide_eq_true fun heq => ?_
    have hused := (hs.used vol n hn).1
    rw [heq, hunused] at hused
    cases hused
  unfold fvRelease
  rw [nodes_set, find?_cons_of_pos (by simp)]
  dsimp only
  rw [if_neg Nat.one_ne_zero, if_pos rfl, hfilter, setNodes_back]
  exact alike_setPmm (sameFrames_return hf)

/-- The vnode of an open file has one descriptor more for one call. -/
theorem alike_release_shared (hn : n ∈ s.nodes vol) :
    Alike s (fvRelease ((s.setNodes vol ((s.nodes vol).map (setOpens n.frame (n.opens + 1)))).setPmm
      ((s.pmm.take f).freePagesFrom f 1)) vol n.frame) := by
  have hown : ∀ m ∈ s.nodes vol, m.frame = n.frame → m = n := fun m hm heq =>
    (hs.frames vol vol m n hm hn heq).2
  have hpos := hs.opens vol n hn
  have hfound : ((s.nodes vol).map (setOpens n.frame (n.opens + 1))).find? (fun m => m.frame = n.frame) =
      some { n with opens := n.opens + 1 } := by
    rw [find?_map]
    have hsame : ((fun m => decide (m.frame = n.frame)) ∘ setOpens n.frame (n.opens + 1)) =
        fun m => decide (m.frame = n.frame) := by
      funext m
      rw [Function.comp_apply, setOpens]
      split <;> rfl
    rw [hsame]
    cases hfind : (s.nodes vol).find? fun m => decide (m.frame = n.frame) with
    | none => exact absurd (decide_eq_true rfl) (find?_eq_none.1 hfind n hn)
    | some m =>
      have heq := find?_some hfind
      rw [hown m (mem_of_find?_eq_some hfind) (of_decide_eq_true heq), Option.map_some, setOpens,
        if_pos rfl]
  have hback : ((s.nodes vol).map (setOpens n.frame (n.opens + 1))).map (setOpens n.frame n.opens) =
      s.nodes vol := by
    rw [map_map]
    refine (map_congr_left fun m hm => ?_).trans (map_id _)
    rw [Function.comp_apply]
    by_cases heq : m.frame = n.frame
    · rw [hown m hm heq]
      simp [setOpens]
    · simp [setOpens, heq]
  unfold fvRelease
  rw [nodes_set, hfound]
  dsimp only
  rw [if_neg (by omega), if_neg (by omega), Nat.add_sub_cancel, hback]
  have hset := setNodes_back s vol ((s.nodes vol).map (setOpens n.frame (n.opens + 1)))
    ((s.pmm.take f).freePagesFrom f 1) ((s.pmm.take f).freePagesFrom f 1)
  have hsame : ∀ u : State, u.setPmm u.pmm = u := fun u => rfl
  rw [← hsame (State.setNodes _ _ _)]
  change Alike s (State.setPmm _ ((s.pmm.take f).freePagesFrom f 1))
  rw [hset]
  exact alike_setPmm (sameFrames_return hf)

end Files

section Invariant

variable {s : State} {vol : ℕ}

theorem fat32VnodeOpen_cases (s : State) (vol : ℕ) (path : Text) :
    (∃ e, fat32VnodeOpen s vol path = (.error e, s)) ∨
    ∃ info f, path.length < pathSize ∧ (s.volumes vol).lookup path = .ok info ∧
      s.pmm.firstFree (s.pmm.limit - 1) 1 = some f ∧
      ((∃ n ∈ s.nodes vol, n.info.key = info.key ∧ fat32VnodeOpen s vol path =
          (.ok n, (s.setNodes vol ((s.nodes vol).map (setOpens n.frame (n.opens + 1)))).setPmm
            ((s.pmm.take f).freePagesFrom f 1))) ∨
        (∀ n ∈ s.nodes vol, n.info.key ≠ info.key) ∧ fat32VnodeOpen s vol path =
          (.ok ⟨info, path, f, 1, info.size⟩,
            (s.setNodes vol (⟨info, path, f, 1, info.size⟩ :: s.nodes vol)).setPmm (s.pmm.take f))) := by
  unfold fat32VnodeOpen
  by_cases hlen : pathSize ≤ path.length
  · rw [if_pos hlen]
    exact .inl ⟨_, rfl⟩
  rw [if_neg hlen]
  cases hlookup : (s.volumes vol).lookup path with
  | error e => exact .inl ⟨_, rfl⟩
  | ok info =>
    rw [allocPages_one]
    cases hfree : s.pmm.firstFree (s.pmm.limit - 1) 1 with
    | none => exact .inl ⟨_, rfl⟩
    | some f =>
      refine .inr ⟨info, f, Nat.lt_of_not_le hlen, rfl, rfl, ?_⟩
      rw [Option.map_some]
      dsimp only
      cases hfind : (s.nodes vol).find? (sameEntry info) with
      | some n =>
        exact .inl ⟨n, mem_of_find?_eq_some hfind, sameEntry_iff.1 (find?_some hfind), rfl⟩
      | none =>
        exact .inr ⟨fun n hn hkey => find?_eq_none.1 hfind n hn (sameEntry_iff.2 hkey), rfl⟩

end Invariant

section Stats

variable {L : Layout} {s t u : State} {path : Text} {i : Stat} {vol : ℕ}

/-- Where the vnode of a file lies during a call of `vfs_stat` from `s` to `t`. -/
inductive Place (L : Layout) (s t : State) : File → ℕ → Prop
  | static {v : Vnode} (h : Held t.vfs v) : Place L s t (.static v) (L.element (slotOf t.vfs v))
  | shared {vol : ℕ} {n : Node} (h : n ∈ s.nodes vol) :
      Place L s t (.fat vol n.info.key) (L.inPage n.frame)
  | fresh {vol : ℕ} {key : ℕ × ℕ} {f : ℕ} (h : Closed s (.fat vol key))
      (hf : s.pmm.firstFree (s.pmm.limit - 1) 1 = some f) : Place L s t (.fat vol key) (L.inPage f)

theorem vfsStat_place (hs : Sound L s) (h : vfsStat L.toPlaces s path = (.ok i, t)) :
    ∃ f a, fileOf s path = some f ∧ Place L s t f a ∧ i.ino = inodeOf a ∧ Alike s t := by
  unfold vfsStat Inodes.vfsOpenErr at h
  unfold fileOf
  cases hm : mounted s path with
  | some m =>
    obtain ⟨vol, rel⟩ := m
    rw [hm] at h
    dsimp only at h ⊢
    rcases fat32VnodeOpen_cases s vol rel with
      ⟨e, he⟩ | ⟨info, f, hlen, hlookup, hf, ⟨n, hn, hkey, ho⟩ | ⟨hnone, ho⟩⟩
    · rw [he] at h
      cases h
    · rw [ho] at h
      cases h
      rw [if_neg (by omega), hlookup]
      refine ⟨_, _, rfl, ?_, rfl, alike_release_shared hs hf hn⟩
      rw [← hkey]
      exact .shared hn
    · rw [ho] at h
      cases h
      rw [if_neg (by omega), hlookup]
      exact ⟨_, _, rfl, .fresh hnone hf, rfl, alike_release_fresh hs hf info rel⟩
  | none =>
    rw [hm] at h
    rcases hopen : VfsPaths.vfsOpenErr s.vfs path with ⟨e | v, S⟩
    · rw [hopen] at h
      cases h
    · rw [hopen] at h
      cases h
      obtain ⟨hheld, hgrown⟩ := vfsOpenErr_held hopen
      exact ⟨_, _, rfl, .static hheld, rfl, rfl, rfl, SameFrames.refl _, hgrown⟩

theorem Grown.lookup_eq {S T : Vfs} (h : Grown S T) (q : Text) :
    VfsPaths.lookup T q = VfsPaths.lookup S q := by
  unfold VfsPaths.lookup VfsPaths.diskLookup VfsPaths.tmpfsLookup
  rw [h.devices, h.memfiles, h.tmpfiles]

/-- A vnode that was opened is in the pool of directories, or what the lookups gave. -/
theorem vnode_of_open {S T : Vfs} {q : Text} {v : Vnode} (h : VfsPaths.vfsOpenErr S q = (.ok v, T)) :
    VfsPaths.lookup S q = .ok (some v) ∨ VfsPaths.lookup S q = .ok none ∧ v = .dir q := by
  unfold VfsPaths.vfsOpenErr at h
  split at h
  · cases h
  next hlookup =>
    cases h
    exact .inl hlookup
  next hlookup =>
    refine .inr ⟨hlookup, ?_⟩
    split at h
    · unfold VfsPaths.dirVnode at h
      split at h
      · cases h
      split at h
      · cases h
        rfl
      split at h
      · cases h
        rfl
      · cases h
    · cases h

/-- A call of `vfs_stat` does not change what a path names. -/
theorem Alike.fileOf_eq (h : Alike s t) {f g : File} (hf : fileOf s path = some f)
    (hg : fileOf t path = some g) : f = g := by
  have hmounted : mounted t path = mounted s path := by
    unfold mounted
    rw [h.mounts]
  unfold fileOf at hf hg
  rw [hmounted] at hg
  cases hm : mounted s path with
  | some m =>
    rw [hm] at hf hg
    rw [h.volumes, hf] at hg
    exact Option.some.inj hg
  | none =>
    rw [hm] at hf hg
    rcases hs : VfsPaths.vfsOpenErr s.vfs path with ⟨e | v, S⟩
    · rw [hs] at hf
      cases hf
    rcases ht : VfsPaths.vfsOpenErr t.vfs path with ⟨e | w, T⟩
    · rw [ht] at hg
      cases hg
    rw [hs] at hf
    rw [ht] at hg
    cases hf
    cases hg
    have hlookup := h.vfs.lookup_eq path
    rcases vnode_of_open hs with hv | ⟨hv, rfl⟩ <;> rcases vnode_of_open ht with hw | ⟨hw, rfl⟩
    · rw [hlookup, hv] at hw
      cases hw
      rfl
    · cases (hlookup.symm.trans hw).symm.trans hv
    · cases (hlookup.trans hv).symm.trans hw
    · rfl

theorem fresh_range (hs : Sound L s) (hf : s.pmm.firstFree (s.pmm.limit - 1) 1 = some f) :
    L.image ≤ f ∧ f < maxFrames := by
  obtain ⟨hunused, hpos, hlt⟩ := firstFree_spec hf
  have hlimit := hs.limit
  refine ⟨?_, by omega⟩
  by_contra hlow
  rw [hs.image f (by omega)] at hunused
  cases hunused

theorem shared_range (hs : Sound L s) (hn : n ∈ s.nodes vol) :
    L.image ≤ n.frame ∧ n.frame < maxFrames := by
  obtain ⟨himage, -, hlt⟩ := hs.range vol n hn
  exact ⟨himage, hlt.trans_le hs.limit⟩

theorem not_closed_shared (hn : n ∈ s.nodes vol) :
    ¬Closed s (.fat vol n.info.key) := fun h => h n hn rfl

theorem shared_ne_fresh (hs : Sound L s) (hn : n ∈ s.nodes vol)
    (hf : s.pmm.firstFree (s.pmm.limit - 1) 1 = some f) : n.frame ≠ f := by
  rintro rfl
  have hunused := (firstFree_spec hf).1
  rw [(hs.used vol n hn).1] at hunused
  cases hunused

/-- The places of two files during two calls have different numbers, unless both files are closed:
then they are the same place. -/
theorem Place.inode_ne_iff (hs : Sound L s) {f g : File} {a b : ℕ} (hne : f ≠ g)
    (hf : Place L s t f a) (hst : Alike s t) (hg : Place L t u g b) (htu : Alike t u) :
    inodeOf a ≠ inodeOf b ↔ ¬(Closed s f ∧ Closed s g) := by
  have ht := hst.sound hs
  rw [← hst.closed (f := g)]
  cases hf with
  | static hv =>
    refine iff_of_true ?_ fun h => h.1
    cases hg with
    | static hw =>
      rw [← htu.vfs.slotOf_eq hv]
      have hvw := fun h => hne (congrArg File.static h)
      exact inodeOf_element (slotOf_lt (htu.vfs.held hv)) (slotOf_lt hw)
        (slotOf_ne (htu.vfs.held hv) hw hvw)
    | shared hn =>
      obtain ⟨himage, hlt⟩ := shared_range ht hn
      exact inodeOf_element_page (slotOf_lt hv) himage hlt
    | fresh _ hfree =>
      obtain ⟨himage, hlt⟩ := fresh_range ht hfree
      exact inodeOf_element_page (slotOf_lt hv) himage hlt
  | shared hn =>
    refine iff_of_true ?_ fun h => not_closed_shared hn h.1
    obtain ⟨himage, hlt⟩ := shared_range hs hn
    cases hg with
    | static hw => exact (inodeOf_element_page (slotOf_lt hw) himage hlt).symm
    | shared hm =>
      rw [hst.nodes] at hm
      refine inodeOf_pages hlt (shared_range hs hm).2 fun heq => hne ?_
      obtain ⟨rfl, rfl⟩ := hs.frames _ _ _ _ hn hm heq
      rfl
    | fresh _ hfree =>
      refine inodeOf_pages hlt (fresh_range ht hfree).2 ?_
      rw [← hst.nodes] at hn
      exact shared_ne_fresh ht hn hfree
  | fresh hclosed hfree =>
    obtain ⟨himage, hlt⟩ := fresh_range hs hfree
    cases hg with
    | static hw =>
      exact iff_of_true (inodeOf_element_page (slotOf_lt hw) himage hlt).symm fun h => h.2
    | shared hm =>
      refine iff_of_true ?_ fun h => not_closed_shared hm h.2
      rw [hst.nodes] at hm
      exact inodeOf_pages hlt (shared_range hs hm).2 (shared_ne_fresh hs hm hfree).symm
    | fresh hclosed' hfree' =>
      rw [hst.frames.limit, firstFree_congr hst.frames.used, hfree] at hfree'
      cases hfree'
      exact iff_of_false (fun h => h rfl) fun h => h ⟨hclosed, hclosed'⟩

def Static.order : Static → ℕ
  | .root => 0
  | .console => 1
  | .null => 2
  | .zero => 3
  | .disks => 4
  | .memfiles => 5
  | .dirs => 6
  | .procs => 7
  | .tmpDir => 8
  | .tmpfiles => 9

def smallPlaces : Places := ⟨fun a => 0x4000 * a.order, 184, 216, 48, 40⟩

theorem smallPlaces_stop (a : Static) : smallPlaces.stop a ≤ smallPlaces.base a + 0x4000 := by
  cases a <;> decide

def smallLayout : Layout where
  toPlaces := smallPlaces
  vnode_large := by decide
  tmpfile_large := by decide
  header_small := by decide
  apart := by
    intro a b hab
    have ha := smallPlaces_stop a
    have hb := smallPlaces_stop b
    have horder : a.order ≠ b.order := by
      intro h
      cases a <;> cases b <;> first | exact hab rfl | cases h
    have hbase : ∀ c : Static, smallPlaces.base c = 0x4000 * c.order := fun _ => rfl
    rw [hbase] at ha hb ⊢
    rw [hbase]
    omega
  inside := by
    intro a
    cases a <;> decide
  image_low := by decide

/-- The files `a` and `b` of a volume, 5 bytes each. -/
def smallVolume : Volume where
  lookup path :=
    if path = text "/a" then .ok ⟨2, 0, 5, false, nofun⟩
    else if path = text "/b" then .ok ⟨2, 1, 5, false, nofun⟩
    else .error .enoent
  nodes := []

/-- The volume is mounted at `/m`; there is one memory file, of 9 bytes. -/
def smallState : State where
  vfs := ⟨[], [text "/bin/sh"], [], [], VfsPaths.no_device_name, List.nodup_nil, by decide, by decide,
    Nat.zero_le _, by decide, Nat.zero_le _, Nat.zero_le _⟩
  sizes _ := 9
  mounts := [some (text "/m", 0)]
  volumes _ := smallVolume
  pmm := ⟨fun f => f < 40, fun f => if f < 40 then 1 else 0, 64, 40, 24, 64⟩

theorem sound_smallState : Sound smallLayout smallState :=
  ⟨fun _ hf => decide_eq_true hf, by decide, nofun, nofun, nofun, nofun, nofun⟩

end Stats

end Tach.Inodes
