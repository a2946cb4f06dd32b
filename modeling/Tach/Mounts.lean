import Tach.FatMount

/-!
The mount table of vfs.c and the system calls that change it. A mounted volume covers sectors of a
disk; no call looks at the volumes that are mounted already, only at their paths, so that two
volumes can cover the same sectors. They never do exactly if every mount is of sectors that no
mounted volume covers.

What `fetch_path` gives for the arguments is open, as are the contents of the disks at each call.
-/

namespace Tach.Mounts

open List Sectors FatData FatMount
open Shell (Text text)
open VfsPaths (slash component)

/-- Back over the last component, in `vfs_normalize_path`. -/
def popComponent (out : Text) : Text :=
  let kept := (out.reverse.dropWhile fun c => c ≠ slash).reverse
  if 1 < kept.length then kept.dropLast else kept

def pushComponent (out part : Text) : Text := if 1 < out.length then out ++ slash :: part else out ++ part

/-- The loop of `vfs_normalize_path` for at most so many components. What is written never reaches
what is still to be read. -/
def normalizeLoop : ℕ → Text → Text → Text
  | 0, out, _ => out
  | n + 1, out, rest =>
    match rest.dropWhile fun c => c = slash with
    | [] => out
    | c :: rest =>
      let part := component (c :: rest)
      let rest := (c :: rest).drop part.length
      if part = text "." then normalizeLoop n out rest
      else if part = text ".." then normalizeLoop n (popComponent out) rest
      else normalizeLoop n (pushComponent out part) rest

/-- `vfs_normalize_path` of a path that starts with a slash. -/
def normalizePath (path : Text) : Text := normalizeLoop path.length (text "/") (path.drop 1)

/-- `struct vfs_mount`. -/
structure Mount where
  path : Text
  vol : Vol

/-- `g_mounts`; free slots are `none`. -/
abbrev Table := List (Option Mount)

/-- `VFS_MAX_MOUNTS`. -/
def mountsMax : ℕ := 8

/-- `VFS_MOUNT_PATH_MAX`. -/
def mountPathMax : ℕ := 64

def Table.mounted (T : Table) : List Mount := T.filterMap id

/-- The first free slot is filled, if there is one. -/
def Table.fill (m : Mount) : Table → Option Table
  | [] => none
  | none :: rest => some (some m :: rest)
  | some m' :: rest => (Table.fill m rest).map fun T => some m' :: T

def vfsMountFs (T : Table) (m : Mount) : Except Errno Table :=
  if m.path.head? ≠ some slash then .error .einval
  else if m.path.length < 2 then .error .einval
  else if mountPathMax ≤ m.path.length then .error .enametoolong
  else if normalizePath m.path ≠ m.path then .error .einval
  else if T.mounted.any fun m' => m'.path = m.path then .error .ebusy
  else
    match T.fill m with
    | none => .error .enospc
    | some T => .ok T

/-- `vfs_umount`, with the answers of the file system to `sync` and `unmount`. -/
def vfsUmount (path : Text) (sync unmount : Option Errno) : Table → Except Errno Table
  | [] => .error .einval
  | slot :: rest =>
    if slot.any fun m => m.path = path then
      match sync, unmount with
      | some e, _ => .error e
      | none, some e => .error e
      | none, none => .ok (none :: rest)
    else (vfsUmount path sync unmount rest).map fun T => slot :: T

structure Registry where
  devs : List Blkdev
  inside : ∀ dev ∈ devs, dev.Inside
  names_nodup : (devs.map Blkdev.name).Nodup

/-- A system call, with the user and what is found for its arguments and on the device. -/
inductive Call
  | mount (uid : ℕ) (fstype : Option (Except Errno Text)) (source target : Except Errno Text)
      (found : Found)
  | umount (uid : ℕ) (target : Except Errno Text) (sync unmount : Option Errno)

/-- The file system types that `sys_mount` knows. -/
def fstypes : List Text := [text "fat32", text "vfat"]

/-- `blk_find` of the name behind `/dev/`. -/
def findDevice (R : Registry) (source : Text) : Except Errno Blkdev :=
  if (text "/dev/").isPrefixOf source then
    match R.devs.find? fun dev => dev.name = source.drop 5 with
    | none => .error .enodev
    | some dev => .ok dev
  else .error .enodev

local instance lawfulText : LawfulBEq Text := List.instLawfulBEq

/-- `sys_mount` up to `vfs_mount_fs`: the volume and where it is to be mounted. -/
def prepareMount (R : Registry) (uid : ℕ) (fstype : Option (Except Errno Text))
    (source target : Except Errno Text) (found : Found) : Except Errno Mount := do
  if uid ≠ 0 then throw .eperm
  match fstype with
  | none => pure ()
  | some type => if (← type) ∉ fstypes then throw .enotsup
  let source ← source
  let target ← target
  let dev ← findDevice R source
  let vol ← fat32Mount dev found
  pure ⟨target, vol⟩

def attempt (R : Registry) (T : Table) : Call → Except Errno Table
  | .mount uid fstype source target found =>
    match prepareMount R uid fstype source target found with
    | .error e => .error e
    | .ok m => vfsMountFs T m
  | .umount uid target sync unmount =>
    if uid ≠ 0 then .error .eperm
    else
      match target with
      | .error e => .error e
      | .ok path => vfsUmount path sync unmount T

def step (R : Registry) (T : Table) (call : Call) : Table :=
  match attempt R T call with
  | .error _ => T
  | .ok T => T

def run (R : Registry) (calls : List Call) : Table :=
  calls.foldl (step R) (List.replicate mountsMax none)

def Covers (v : Vol) (disk lba : ℕ) : Prop := ∃ k < v.geom.total, v.dev.rootOf k = (disk, lba)

def Apart (v w : Vol) : Prop := ∀ disk lba, ¬(Covers v disk lba ∧ Covers w disk lba)

def NoOverlap (T : Table) : Prop := T.mounted.Pairwise fun m m' => Apart m.vol m'.vol

/-- If the call mounts a volume, no mounted volume covers a sector of it. -/
def Fits (R : Registry) (T : Table) : Call → Prop
  | .mount uid fstype source target found =>
    ∀ m T', prepareMount R uid fstype source target found = .ok m → vfsMountFs T m = .ok T' →
      ∀ m' ∈ T.mounted, Apart m.vol m'.vol
  | .umount _ _ _ _ => True

theorem Apart.symm {v w : Vol} (h : Apart v w) : Apart w v := fun disk lba hc => h disk lba hc.symm

theorem total_pos (g : Geom) : 0 < g.total := by
  have hdata := g.data_fits
  have hreserved := g.reserved_pos
  have heq := g.data_eq
  omega

theorem covers_iff {v : Vol} {disk lba : ℕ} : Covers v disk lba ↔ disk = (v.dev.rootOf 0).1 ∧
    (v.dev.rootOf 0).2 ≤ lba ∧ lba < (v.dev.rootOf 0).2 + v.geom.total := by
  constructor
  · rintro ⟨k, hk, hroot⟩
    rw [v.dev.rootOf_eq k] at hroot
    cases hroot
    exact ⟨rfl, Nat.le_add_right _ _, Nat.add_lt_add_left hk _⟩
  · rintro ⟨rfl, hle, hlt⟩
    refine ⟨lba - (v.dev.rootOf 0).2, by omega, ?_⟩
    rw [v.dev.rootOf_eq, Nat.add_sub_of_le hle]

/-- The volumes lie on different disks, or one behind the other. -/
theorem apart_iff {v w : Vol} : Apart v w ↔ (v.dev.rootOf 0).1 ≠ (w.dev.rootOf 0).1 ∨
    (v.dev.rootOf 0).2 + v.geom.total ≤ (w.dev.rootOf 0).2 ∨
    (w.dev.rootOf 0).2 + w.geom.total ≤ (v.dev.rootOf 0).2 := by
  have hv := total_pos v.geom
  have hw := total_pos w.geom
  constructor
  · intro h
    by_contra hno
    obtain ⟨hdisk, hbehind⟩ := not_or.1 hno
    -- the start of the one that lies behind is covered by both
    refine h _ (max (v.dev.rootOf 0).2 (w.dev.rootOf 0).2) ⟨covers_iff.2 ⟨rfl, ?_⟩, covers_iff.2
      ⟨not_not.1 hdisk, ?_⟩⟩
    · omega
    · omega
  · rintro h disk lba ⟨hc, hc'⟩
    obtain ⟨rfl, hle, hlt⟩ := covers_iff.1 hc
    obtain ⟨hdisk, hle', hlt'⟩ := covers_iff.1 hc'
    rcases h with h | h | h
    · exact h hdisk
    · omega
    · omega

instance (v w : Vol) : Decidable (Apart v w) := decidable_of_iff _ apart_iff.symm

instance (T : Table) : Decidable (NoOverlap T) :=
  inferInstanceAs (Decidable (List.Pairwise _ _))

section Runs

variable {R : Registry} {T T' : Table} {m : Mount}

theorem mounted_cons (o : Option Mount) (T : Table) :
    Table.mounted (o :: T) = o.toList ++ T.mounted := by
  cases o with
  | none => rfl
  | some m => rfl

/-- Filling a slot adds one mount. -/
theorem mounted_fill (h : T.fill m = some T') :
    ∃ l l', T.mounted = l ++ l' ∧ T'.mounted = l ++ m :: l' := by
  induction T generalizing T' with
  | nil => cases h
  | cons o rest ih =>
    cases o with
    | none =>
      cases h
      exact ⟨[], Table.mounted rest, rfl, rfl⟩
    | some m' =>
      obtain ⟨T'', hfill, rfl⟩ := Option.map_eq_some_iff.1 h
      obtain ⟨l, l', hold, hnew⟩ := ih hfill
      refine ⟨m' :: l, l', ?_, ?_⟩
      · rw [mounted_cons, hold]
        rfl
      · rw [mounted_cons, hnew]
        rfl

/-- Filling a slot keeps the volumes apart exactly if the new one is apart from the others. -/
theorem noOverlap_fill (h : T.fill m = some T') :
    NoOverlap T' ↔ NoOverlap T ∧ ∀ m' ∈ T.mounted, Apart m.vol m'.vol := by
  obtain ⟨l, l', hold, hnew⟩ := mounted_fill h
  unfold NoOverlap
  rw [hold, hnew, pairwise_middle fun h => h.symm, pairwise_cons, and_comm]

theorem vfsMountFs_ok (h : vfsMountFs T m = .ok T') :
    T.fill m = some T' ∧ m.path ≠ [] ∧ ∀ m' ∈ T.mounted, m'.path ≠ m.path := by
  unfold vfsMountFs at h
  split_ifs at h with hslash hshort hlong hnorm hbusy
  refine ⟨?_, fun hnil => hshort (by simp [hnil]), by simpa using hbusy⟩
  cases hfill : T.fill m with
  | none =>
    rw [hfill] at h
    cases h
  | some T'' =>
    rw [hfill] at h
    cases h
    rfl

/-- Unmounting takes one mount away. -/
theorem mounted_vfsUmount {path : Text} {sync unmount : Option Errno}
    (h : vfsUmount path sync unmount T = .ok T') : T'.mounted.Sublist T.mounted := by
  induction T generalizing T' with
  | nil => cases h
  | cons slot rest ih =>
    unfold vfsUmount at h
    split at h
    · cases sync with
      | some e => cases h
      | none =>
        cases unmount with
        | some e => cases h
        | none =>
          cases h
          rw [mounted_cons slot]
          exact sublist_append_right _ _
    · cases hrest : vfsUmount path sync unmount rest with
      | error e =>
        rw [hrest] at h
        cases h
      | ok T'' =>
        rw [hrest] at h
        cases h
        rw [mounted_cons, mounted_cons]
        exact (ih hrest).append_left _

/-- A call keeps the volumes apart exactly if it is a mount of sectors that are not covered, or no
mount. -/
theorem noOverlap_step (h : NoOverlap T) (call : Call) :
    NoOverlap (step R T call) ↔ Fits R T call := by
  cases call with
  | mount uid fstype source target found =>
    unfold step attempt Fits
    dsimp only
    cases hprep : prepareMount R uid fstype source target found with
    | error e =>
      refine iff_of_true h fun m T' hm => ?_
      cases hm
    | ok m =>
      dsimp only
      cases hmount : vfsMountFs T m with
      | error e =>
        refine iff_of_true h fun m' T' hm' hT' => ?_
        cases hm'
        rw [hmount] at hT'
        cases hT'
      | ok T' =>
        rw [noOverlap_fill (vfsMountFs_ok hmount).1]
        constructor
        · rintro ⟨-, hapart⟩ m' T'' hm' -
          cases hm'
          exact hapart
        · exact fun hfits => ⟨h, hfits m T' rfl hmount⟩
  | umount uid target sync unmount =>
    refine iff_of_true ?_ trivial
    unfold step attempt
    dsimp only
    by_cases huid : uid = 0
    · rw [if_neg (not_not.2 huid)]
      cases target with
      | error e => exact h
      | ok path =>
        dsimp only
        cases hcall : vfsUmount path sync unmount T with
        | error e => exact h
        | ok T' => exact List.Pairwise.sublist (mounted_vfsUmount hcall) h
    · rw [if_pos huid]
      exact h

theorem run_append (R : Registry) (l : List Call) (call : Call) :
    run R (l ++ [call]) = step R (run R l) call := by
  unfold run
  rw [foldl_append]
  rfl

/-- In a sequence of calls the mounted volumes are always apart exactly if each of its mounts is of
sectors that no volume mounted at that time covers. -/
theorem volumes_apart_iff (R : Registry) (calls : List Call) :
    (∀ l, l <+: calls → NoOverlap (run R l)) ↔
      ∀ l call, l ++ [call] <+: calls → Fits R (run R l) call := by
  constructor
  · intro h l call hl
    have hbefore := h l ((prefix_append l [call]).trans hl)
    rw [← noOverlap_step hbefore, ← run_append]
    exact h _ hl
  · intro h l
    induction l using List.reverseRecOn with
    | nil =>
      intro _
      exact List.Pairwise.nil
    | append_singleton l call ih =>
      intro hl
      have hbefore := ih ((prefix_append l [call]).trans hl)
      rw [run_append, noOverlap_step hbefore]
      exact h l call hl

/-- A boot sector: 70000 sectors, 32 of them reserved, one FAT of 550 sectors, clusters of one
sector. -/
def smallBoot : Sector :=
  ((((((((ByteBlock.Block.zero 512).put16 510 0xAA55).put16 11 512).set 13 1).put16 14 32).set 16 1).put32
    32 70000).put32 36 550).put32 44 2

def smallFound : Found :=
  ⟨fun lba => .ok (if lba = 0 then smallBoot else ByteBlock.Block.zero 512), true, .ok 100⟩

def smallRegistry : Registry where
  devs :=
    [.disk 0 (text "hda") 80000 false, .part (text "hda1") 75000 false (.disk 0 (text "hda") 80000 false) 63]
  inside := by
    intro dev hdev
    rcases List.mem_cons.1 hdev with rfl | hdev
    · trivial
    · rw [List.mem_singleton.1 hdev]
      exact ⟨by decide, trivial⟩
  names_nodup := by decide

/-- `mount` of a device by the superuser. -/
def mountAt (source target : String) : Call :=
  .mount 0 none (.ok (text source)) (.ok (text target)) smallFound

/-- A disk that is mounted twice, and a disk that is mounted with its partition. -/
theorem volumes_overlap :
    ¬NoOverlap (run smallRegistry [mountAt "/dev/hda" "/a", mountAt "/dev/hda" "/b"]) ∧
    ¬NoOverlap (run smallRegistry [mountAt "/dev/hda" "/a", mountAt "/dev/hda1" "/b"]) := by
  decide +kernel

end Runs

section Finding

/-- The comparisons of `mount_find`. -/
def Mount.holds (m : Mount) (path : Text) : Bool :=
  m.path.isPrefixOf path && (path.drop m.path.length).head?.all (· = slash)

/-- The length of the best path so far. -/
def bestLength (best : Option (ℕ × Mount)) : ℕ := best.elim 0 fun b => b.2.path.length

/-- One round of `mount_find`, with the slot and its number. -/
def better (path : Text) (best : Option (ℕ × Mount)) : Option Mount × ℕ → Option (ℕ × Mount)
  | (none, _) => best
  | (some m, i) => if m.holds path ∧ bestLength best < m.path.length then some (i, m) else best

/-- `mount_find`: the number of the slot, the mount and the rest of the path. -/
def mountFind (T : Table) (path : Text) : Option (ℕ × Mount × Text) :=
  (T.zipIdx.foldl (better path) none).map fun b =>
    let rel := path.drop b.2.path.length
    (b.1, b.2, if rel = [] then text "/" else rel)

/-- `vfs_rename` up to the call of the file system, which gets two relative paths. -/
def vfsRename (T : Table) (old new : Text) : Except Errno (Mount × Text × Text) :=
  match mountFind T old, mountFind T new with
  | none, none => .error .erofs
  | some (i, m, rel), some (j, _, rel') => if i ≠ j then .error .exdev else .ok (m, rel, rel')
  | _, _ => .error .exdev

/-- The path is that of the mount, or goes on behind it with a new component. -/
def Mount.Above (m : Mount) (path : Text) : Prop :=
  path = m.path ∨ ∃ rel, path = m.path ++ slash :: rel

/-- The tables that calls of `vfs_mount_fs` and `vfs_umount` lead to; one that fails changes nothing. -/
inductive Reached : Table → Prop
  | start : Reached (List.replicate mountsMax none)
  | mount {T T' : Table} {m : Mount} (h : Reached T) (hm : vfsMountFs T m = .ok T') : Reached T'
  | umount {T T' : Table} {path : Text} {sync unmount : Option Errno} (h : Reached T)
      (hu : vfsUmount path sync unmount T = .ok T') : Reached T'

variable {T : Table} {m : Mount} {path : Text}

theorem holds_iff : m.holds path = true ↔ m.Above path := by
  simp only [Mount.holds, Bool.and_eq_true, isPrefixOf_iff_prefix]
  constructor
  · rintro ⟨⟨rel, rfl⟩, hrel⟩
    rw [drop_left] at hrel
    cases rel with
    | nil => exact .inl (append_nil _)
    | cons c rel =>
      obtain rfl : c = slash := by simpa using hrel
      exact .inr ⟨rel, rfl⟩
  · rintro (rfl | ⟨rel, rfl⟩)
    · exact ⟨prefix_rfl, by simp⟩
    · exact ⟨prefix_append _ _, by simp⟩

theorem Reached.distinct (h : Reached T) :
    (T.mounted.map Mount.path).Nodup ∧ ∀ m ∈ T.mounted, m.path ≠ [] := by
  induction h with
  | start => exact ⟨.nil, nofun⟩
  | mount _ hm ih =>
    obtain ⟨hfill, hne, hnew⟩ := vfsMountFs_ok hm
    obtain ⟨l, l', hold, hT⟩ := mounted_fill hfill
    rw [hold] at ih hnew
    rw [hT]
    refine ⟨?_, fun m' hm' => ?_⟩
    · rw [map_append, map_cons, nodup_middle, nodup_cons, ← map_append]
      refine ⟨fun hmem => ?_, ih.1⟩
      obtain ⟨m', hm', heq⟩ := mem_map.1 hmem
      exact hnew m' hm' heq
    · rcases mem_cons.1 (perm_middle.mem_iff.1 hm') with rfl | hm'
      · exact hne
      · exact ih.2 m' hm'
  | umount _ hu ih =>
    have hsub := mounted_vfsUmount hu
    exact ⟨ih.1.sublist (hsub.map _), fun m hm => ih.2 m (hsub.subset hm)⟩

/-- The loop ends with a slot that it came by, and no mount that holds the path has a longer one. -/
theorem better_foldl (path : Text) (l : List (Option Mount × ℕ)) (best : Option (ℕ × Mount)) :
    (l.foldl (better path) best = best ∨ ∃ i m, (some m, i) ∈ l ∧ m.holds path = true ∧
      l.foldl (better path) best = some (i, m)) ∧
    bestLength best ≤ bestLength (l.foldl (better path) best) ∧
    ∀ i m, (some m, i) ∈ l → m.holds path = true →
      m.path.length ≤ bestLength (l.foldl (better path) best) := by
  induction l generalizing best with
  | nil => exact ⟨.inl rfl, le_rfl, nofun⟩
  | cons s l ih =>
    obtain ⟨hend, hle, hall⟩ := ih (better path best s)
    rw [foldl_cons]
    have hround : (better path best s = best ∨ ∃ m, s.1 = some m ∧ m.holds path = true ∧
        better path best s = some (s.2, m)) ∧ bestLength best ≤ bestLength (better path best s) ∧
        ∀ m, s.1 = some m → m.holds path = true →
          m.path.length ≤ bestLength (better path best s) := by
      rcases s with ⟨_ | m, i⟩
      · exact ⟨.inl rfl, le_rfl, nofun⟩
      · rw [better]
        split_ifs with hbetter
        · refine ⟨.inr ⟨m, rfl, hbetter.1, rfl⟩, hbetter.2.le, ?_⟩
          rintro _ ⟨⟩ _
          exact le_rfl
        · refine ⟨.inl rfl, le_rfl, ?_⟩
          rintro _ ⟨⟩ hm
          exact not_lt.1 fun hlt => hbetter ⟨hm, hlt⟩
    refine ⟨?_, hround.2.1.trans hle, fun i m hm hholds => ?_⟩
    · rcases hend with hend | ⟨i, m, hm, hend⟩
      · rw [hend]
        refine hround.1.imp_right fun ⟨m, hs, hm⟩ => ⟨s.2, m, ?_, hm⟩
        rw [← hs]
        exact mem_cons_self
      · exact .inr ⟨i, m, mem_cons_of_mem _ hm, hend⟩
    · rcases mem_cons.1 hm with rfl | hm
      · exact (hround.2.2 m rfl hholds).trans hle
      · exact hall i m hm hholds

theorem mem_mounted : m ∈ T.mounted ↔ ∃ i, (some m, i) ∈ T.zipIdx := by
  rw [Table.mounted, mem_filterMap]
  simp only [id, exists_eq_right, mem_zipIdx_iff_getElem?]
  exact mem_iff_getElem?

theorem Mount.Above.isPrefix (h : m.Above path) : m.path <+: path := by
  rcases h with rfl | ⟨rel, rfl⟩
  · exact prefix_rfl
  · exact prefix_append _ _

theorem mountFind_some {i : ℕ} {rel : Text} (hfind : mountFind T path = some (i, m, rel)) :
    T[i]? = some (some m) ∧ m.Above path ∧
      (∀ m' ∈ T.mounted, m'.Above path → m'.path.length ≤ m.path.length) ∧
      rel = if path.drop m.path.length = [] then text "/" else path.drop m.path.length := by
  obtain ⟨hend, -, hall⟩ := better_foldl path T.zipIdx none
  obtain ⟨b, hb, heq⟩ := Option.map_eq_some_iff.1 hfind
  cases heq
  rw [hb] at hend hall
  rcases hend with hend | ⟨i, m, hm, hholds, hend⟩
  · cases hend
  · cases hend
    refine ⟨mem_zipIdx_iff_getElem?.1 hm, holds_iff.1 hholds, fun m' hm' habove => ?_, rfl⟩
    obtain ⟨j, hj⟩ := mem_mounted.1 hm'
    exact hall j m' hj (holds_iff.2 habove)

/-- `mount_find` finds the mount with the longest path that is above a path, wherever it stands in
the table, and `vfs_rename` passes on two paths of one mount. -/
theorem mount_dispatch (T : Table) (h : Reached T) (path : Text) :
    (T.mounted.map Mount.path).Nodup ∧ ((mountFind T path).isSome ↔ ∃ m ∈ T.mounted, m.Above path) ∧
    (∀ i m rel, mountFind T path = some (i, m, rel) → T[i]? = some (some m) ∧ m.Above path ∧
      (∀ m' ∈ T.mounted, m'.Above path → m'.path ≠ m.path → m'.path.length < m.path.length) ∧
      rel.head? = some slash ∧ if path = m.path then rel = text "/" else m.path ++ rel = path) ∧
    ∀ new m rel rel', vfsRename T path new = .ok (m, rel, rel') →
      ∃ i, mountFind T path = some (i, m, rel) ∧ mountFind T new = some (i, m, rel') := by
  refine ⟨h.distinct.1, ⟨fun hsome => ?_, fun ⟨m, hm, habove⟩ => ?_⟩, fun i m rel hfind => ?_,
    fun new m rel rel' hrename => ?_⟩
  · obtain ⟨⟨i, m, rel⟩, hfind⟩ := Option.isSome_iff_exists.1 hsome
    obtain ⟨hslot, habove, -⟩ := mountFind_some hfind
    exact ⟨m, mem_mounted.2 ⟨i, mem_zipIdx_iff_getElem?.2 hslot⟩, habove⟩
  · obtain ⟨i, hi⟩ := mem_mounted.1 hm
    have hle := (better_foldl path T.zipIdx none).2.2 i m hi (holds_iff.2 habove)
    have hpos := length_pos_of_ne_nil (h.distinct.2 m hm)
    rw [mountFind, Option.isSome_map]
    cases hfold : T.zipIdx.foldl (better path) none with
    | none =>
      rw [hfold] at hle
      exact absurd hle (not_le.2 hpos)
    | some b => rfl
  · obtain ⟨hslot, habove, hlongest, rfl⟩ := mountFind_some hfind
    refine ⟨hslot, habove, fun m' hm' habove' hne => ?_, ?_⟩
    · refine (hlongest m' hm' habove').lt_of_ne fun heq => hne ?_
      exact (prefix_of_prefix_length_le habove'.isPrefix habove.isPrefix heq.le).eq_of_length heq
    · rcases habove with rfl | ⟨rel, rfl⟩
      · simp [text, slash]
      · simp
  · unfold vfsRename at hrename
    split at hrename
    · cases hrename
    · rename_i i m₁ rel₁ j m₂ rel₂ hold hnew
      split_ifs at hrename with hne
      cases hrename
      obtain rfl := not_not.1 hne
      have hslot := (mountFind_some hold).1
      rw [(mountFind_some hnew).1] at hslot
      cases hslot
      exact ⟨i, hold, hnew⟩
    · cases hrename

theorem run_reached (R : Registry) (calls : List Call) : Reached (run R calls) := by
  induction calls using List.reverseRecOn with
  | nil => exact .start
  | append_singleton l call ih =>
    rw [run_append, step]
    split
    · exact ih
    · rename_i T hcall
      cases call with
      | mount uid fstype source target found =>
        simp only [attempt] at hcall
        split at hcall
        · cases hcall
        · exact .mount ih hcall
      | umount uid target sync unmount =>
        simp only [attempt] at hcall
        split_ifs at hcall
        split at hcall
        · cases hcall
        · exact .umount ih hcall

/-- A volume is mounted below another one. -/
theorem mount_dispatch_nested :
    ∃ m ∈ (run smallRegistry [mountAt "/dev/hda" "/a", mountAt "/dev/hda1" "/a/b"]).mounted,
      m.Above (text "/a/b/c") :=
  (mount_dispatch _ (run_reached _ _) _).2.1.1 (by decide +kernel)

end Finding

end Tach.Mounts
