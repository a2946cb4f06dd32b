import Tach.Frames
import Tach.VfsPaths

/-!
The inode numbers of vfs.c. `vfs_stat` opens a vnode, takes its address for the number and releases
it. Most vnodes lie in arrays of the kernel's image; those of FAT32 are allocated when a file is
opened and freed with its last descriptor. The kernel's heap has no arena, so such a vnode has a page
of its own, behind the header of its block.

Of a volume only the answers of `fat32_lookup` and the list of open vnodes are in the state, of
allocations only the frames.
-/

namespace Tach.Inodes

open Shell (Text text)
open Sectors (Errno)
open Frames (Pmm pageSize maxFrames)
open VfsPaths (Vfs Vnode Kind slash pathSize procPaths)

/-- The static objects of vfs.c, procfs.c and tmpfs.c that hold vnodes. -/
inductive Static
  | root
  | console
  | null
  | zero
  | disks
  | memfiles
  | dirs
  | procs
  | tmpDir
  | tmpfiles
  deriving DecidableEq

def Static.count : Static → ℕ
  | .disks => VfsPaths.blkMaxDevices
  | .memfiles => VfsPaths.memfilesMax
  | .dirs => VfsPaths.dirsMax
  | .procs => procPaths.length
  | .tmpfiles => VfsPaths.tmpfsMaxFiles
  | _ => 1

/-- Where the linker puts the objects, the sizes of `struct vnode`, `struct tmpfs_file` and of the
header of a block, and the number of frames up to the end of the image. -/
structure Places where
  base : Static → ℕ
  vnodeSize : ℕ
  tmpfileSize : ℕ
  header : ℕ
  image : ℕ

def Places.stride (P : Places) : Static → ℕ
  | .tmpfiles => P.tmpfileSize
  | _ => P.vnodeSize

def Places.stop (P : Places) (a : Static) : ℕ := P.base a + P.stride a * a.count

/-- The objects do not overlap and lie in the image. -/
structure Layout extends Places where
  vnode_large : 16 ≤ vnodeSize
  tmpfile_large : vnodeSize ≤ tmpfileSize
  header_small : header < pageSize
  apart : ∀ a b, a ≠ b → toPlaces.stop a ≤ base b ∨ toPlaces.stop b ≤ base a
  inside : ∀ a, toPlaces.stop a ≤ image * pageSize
  image_low : image ≤ maxFrames

def slotOf (S : Vfs) : Vnode → Static × ℕ
  | .root => (.root, 0)
  | .console => (.console, 0)
  | .null => (.null, 0)
  | .zero => (.zero, 0)
  | .disk name => (.disks, S.devices.idxOf name)
  | .tmpDir => (.tmpDir, 0)
  | .tmpFile path => (.tmpfiles, S.tmpfiles.idxOf (some path))
  | .proc path => (.procs, procPaths.idxOf path)
  | .mem path => (.memfiles, S.memfiles.idxOf path)
  | .dir path => (.dirs, S.dirs.idxOf path)

/-- The address of element `i` of an object. -/
def Places.element (P : Places) (slot : Static × ℕ) : ℕ := P.base slot.1 + P.stride slot.1 * slot.2

def Places.inPage (P : Places) (frame : ℕ) : ℕ := frame * pageSize + P.header

/-- `st_ino`. -/
def inodeOf (address : ℕ) : ℕ := address / 16 % 2 ^ 32

/-- What is used of `struct fat32_info`. Without a directory cluster it is the root. -/
structure Info where
  dirCluster : ℕ
  dirPos : ℕ
  size : ℕ
  isDir : Bool
  root_dir : dirCluster = 0 → isDir = true

/-- `struct fat32_vnode`, in the page `frame`. -/
structure Node where
  info : Info
  path : Text
  frame : ℕ
  opens : ℕ
  size : ℕ

structure Volume where
  lookup : Text → Except Errno Info
  nodes : List Node

def Info.key (i : Info) : ℕ × ℕ := (i.dirCluster, if i.dirCluster = 0 then 0 else i.dirPos)

/-- The comparison of `open_find`. -/
def sameEntry (i : Info) (n : Node) : Bool :=
  n.info.dirCluster = i.dirCluster ∧
    if i.dirCluster ≠ 0 then n.info.dirPos = i.dirPos else n.info.isDir

/-- The paths known without a volume, the sizes of their vnodes, the mount table, the volumes and
the frames. -/
structure State where
  vfs : Vfs
  sizes : Vnode → ℕ
  mounts : List (Option (Text × ℕ))
  volumes : ℕ → Volume
  pmm : Pmm

def State.nodes (s : State) (vol : ℕ) : List Node := (s.volumes vol).nodes

def State.setNodes (s : State) (vol : ℕ) (nodes : List Node) : State :=
  { s with volumes := Function.update s.volumes vol { s.volumes vol with nodes := nodes } }

def State.setPmm (s : State) (pmm : Pmm) : State := { s with pmm := pmm }

/-- The loop of `mount_find`. -/
def mountFind (path : Text) (best : Option (Text × ℕ)) :
    List (Option (Text × ℕ)) → Option (Text × ℕ)
  | [] => best
  | none :: rest => mountFind path best rest
  | some m :: rest =>
    if m.1.isPrefixOf path ∧ (path.drop m.1.length).head?.all (· = slash) ∧
        (best.elim 0 fun b => b.1.length) < m.1.length then
      mountFind path (some m) rest
    else mountFind path best rest

def mounted (s : State) (path : Text) : Option (ℕ × Text) :=
  (mountFind path none s.mounts).map fun m =>
    (m.2, if path.drop m.1.length = [] then text "/" else path.drop m.1.length)

def setOpens (frame opens : ℕ) (n : Node) : Node :=
  if n.frame = frame then { n with opens := opens } else n

/-- `fat32_vnode_open` for reading. -/
def fat32VnodeOpen (s : State) (vol : ℕ) (path : Text) : Except Errno Node × State :=
  if pathSize ≤ path.length then (.error .enametoolong, s)
  else
    match (s.volumes vol).lookup path with
    | .error e => (.error e, s)
    | .ok info =>
      match s.pmm.allocPages 1 with
      | none => (.error .enomem, s)
      | some (frame, pmm) =>
        match (s.nodes vol).find? (sameEntry info) with
        | some shared =>
          (.ok shared, (s.setNodes vol ((s.nodes vol).map (setOpens shared.frame (shared.opens + 1)))).setPmm
            (pmm.freePagesFrom frame 1))
        | none =>
          let node : Node := ⟨info, path, frame, 1, info.size⟩
          (.ok node, (s.setNodes vol (node :: s.nodes vol)).setPmm pmm)

/-- `fv_release` of the vnode in the page `frame`; its entry on the disk is up to date. -/
def fvRelease (s : State) (vol frame : ℕ) : State :=
  match (s.nodes vol).find? fun n => n.frame = frame with
  | none => s
  | some n =>
    if n.opens = 0 then s
    else if n.opens = 1 then
      (s.setNodes vol ((s.nodes vol).filter fun n => n.frame ≠ frame)).setPmm
        (s.pmm.freePagesFrom frame 1)
    else s.setNodes vol ((s.nodes vol).map (setOpens frame (n.opens - 1)))

inductive Handle
  | static (vnode : Vnode)
  | fat (vol : ℕ) (node : Node)

/-- `vfs_open_err` for reading. -/
def vfsOpenErr (s : State) (path : Text) : Except Errno Handle × State :=
  match mounted s path with
  | some (vol, rel) =>
    match fat32VnodeOpen s vol rel with
    | (.error e, t) => (.error e, t)
    | (.ok node, t) => (.ok (.fat vol node), t)
  | none =>
    match VfsPaths.vfsOpenErr s.vfs path with
    | (.error e, S) => (.error e, { s with vfs := S })
    | (.ok vnode, S) => (.ok (.static vnode), { s with vfs := S })

def vfsRelease (s : State) : Handle → State
  | .static _ => s
  | .fat vol node => fvRelease s vol node.frame

/-- `struct tach_stat`. -/
structure Stat where
  ino : ℕ
  mode : ℕ
  size : ℕ
  deriving DecidableEq

def modeOf (path : Text) : Kind → ℕ
  | .dir => 0o040000 + 0o755
  | .char => 0o020000 + 0o666
  | .block => 0o060000 + 0o660
  | .file =>
    0o100000 + if (text "/bin/").isPrefixOf path ∨ (text "/sbin/").isPrefixOf path then 0o755
      else if (text "/proc/").isPrefixOf path then 0o444
      else 0o644

def pathOf : Vnode → Text
  | .tmpDir => text "/tmp"
  | .tmpFile path | .proc path | .mem path | .dir path => path
  | _ => []

/-- `vfs_stat_vnode`. -/
def statVnode (P : Places) (s : State) : Handle → Stat
  | .static v =>
    ⟨inodeOf (P.element (slotOf s.vfs v)), modeOf (pathOf v) v.kind,
      if v.kind = .dir then 0 else s.sizes v⟩
  | .fat _ n =>
    ⟨inodeOf (P.inPage n.frame), modeOf n.path (if n.info.isDir then .dir else .file),
      if n.info.isDir then 0 else n.size⟩

def vfsStat (P : Places) (s : State) (path : Text) : Except Errno Stat × State :=
  match vfsOpenErr s path with
  | (.error e, t) => (.error e, t)
  | (.ok handle, t) => (.ok (statVnode P t handle), vfsRelease t handle)

/-- The test of `copy_one` and `move_one`. -/
def sameFile (src dst : Text) (a b : Stat) : Bool :=
  src = dst ∨ a.ino = b.ino ∧ a.mode = b.mode ∧ a.size = b.size

end Tach.Inodes
