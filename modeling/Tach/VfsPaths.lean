import Tach.Sectors
import Tach.Shell

/-!
The paths of vfs.c without mounted file systems. There are no nodes for directories: a path is a
directory if a known path is below it, and listings are made from the known paths as well. Known are
the fixed entries, the block devices below `/dev`, the memory files and the files of procfs.
-/

namespace Tach.VfsPaths

open Shell (Text text)
open Sectors (Errno)

/-- `VNODE_FILE`, `VNODE_DIR`, `VNODE_CHAR` and `VNODE_BLOCK`. -/
inductive Kind
  | file
  | dir
  | char
  | block
  deriving DecidableEq

structure Known where
  path : Text
  kind : Kind
  deriving DecidableEq

def slash : UInt8 := 47

/-- `g_fixed`. -/
def fixed : List Known :=
  [⟨text "/dev/console", .char⟩, ⟨text "/dev/tty", .char⟩, ⟨text "/dev/null", .char⟩,
    ⟨text "/dev/zero", .char⟩, ⟨text "/tmp", .dir⟩]

/-- The paths of `g_table` of procfs.c. -/
def procPaths : List Text :=
  [text "/proc/version", text "/proc/uname", text "/proc/meminfo", text "/proc/self/status",
    text "/proc/ps", text "/proc/syscalls", text "/proc/mounts"]

def blkNameMax : ℕ := 16

/-- The size of `path` in `struct vnode`. -/
def pathSize : ℕ := 128

def blkMaxDevices : ℕ := 32

/-- `VFS_MAX_MEMFILES`. -/
def memfilesMax : ℕ := 64

def tmpfsMaxFiles : ℕ := 32

/-- `VFS_MAX_DIRS`. -/
def dirsMax : ℕ := 16

/-- The names of the block devices, the paths of the memory files, of the files in the slots of tmpfs
and of the directories in `g_dirs`. -/
structure Vfs where
  devices : List Text
  memfiles : List Text
  tmpfiles : List (Option Text)
  dirs : List Text
  device_name : ∀ name ∈ devices, name ≠ [] ∧ name.length < blkNameMax
  devices_nodup : devices.Nodup
  memfile_path : ∀ path ∈ memfiles, path.head? = some slash ∧ path.length < pathSize
  memfiles_nodup : memfiles.Nodup
  devices_count : devices.length ≤ blkMaxDevices
  memfiles_count : memfiles.length ≤ memfilesMax
  tmpfiles_count : tmpfiles.length ≤ tmpfsMaxFiles
  dirs_count : dirs.length ≤ dirsMax

theorem no_device_name : ∀ name ∈ ([] : List Text), name ≠ [] ∧ name.length < blkNameMax := nofun

theorem no_memfile_path :
    ∀ path ∈ ([] : List Text), path.head? = some slash ∧ path.length < pathSize := nofun

/-- The path of a device in `candidate_at`. -/
def diskPath (name : Text) : Text := text "/dev/" ++ name.take (blkNameMax - 1)

/-- What `candidate_at` gives, in the order of its indexes. -/
def candidates (S : Vfs) : List Known :=
  fixed ++ S.devices.map (fun name => ⟨diskPath name, .block⟩) ++
    S.memfiles.map (fun path => ⟨path, .file⟩) ++ procPaths.map fun path => ⟨path, .file⟩

/-- `vfs_register_memfile` of a file that has contents. -/
def registerMemfile (S : Vfs) (path : Text) : Except Errno Vfs :=
  if hslash : path.head? ≠ some slash then .error .einval
  else if hlen : pathSize ≤ path.length then .error .enametoolong
  else if hnew : path ∈ S.memfiles then .error .eexist
  else if hfull : memfilesMax ≤ S.memfiles.length then .error .enospc
  else .ok
    { S with
      memfiles := S.memfiles ++ [path]
      memfile_path := by
        intro p hp
        rcases List.mem_append.1 hp with hp | hp
        · exact S.memfile_path p hp
        · rw [List.mem_singleton.1 hp]
          exact ⟨not_not.1 hslash, Nat.lt_of_not_le hlen⟩
      memfiles_nodup := by
        refine List.nodup_append.2 ⟨S.memfiles_nodup, List.nodup_singleton _, ?_⟩
        rintro p hp q hq rfl
        exact hnew (List.mem_singleton.1 hq ▸ hp)
      memfiles_count := by
        rw [List.length_append, List.length_singleton]
        exact Nat.lt_of_not_le hfull }

def component (t : Text) : Text := t.takeWhile fun c => c ≠ slash

/-- `child_of`: the component behind the prefix, and whether there are more. -/
def childOf (path front : Text) : Option (Text × Bool) :=
  if front.isPrefixOf path then
    let name := component (path.drop front.length)
    if name = [] then none
    else some (name, (path.drop (front.length + name.length)).head? = some slash)
  else none

def below (dir : Text) : Text := if dir.length ≠ 1 then dir ++ [slash] else dir

def dirPrefix (dir : Text) : Option Text :=
  if pathSize + 2 < dir.length + 2 then none else some (below dir)

def isDirectory (S : Vfs) (path : Text) : Bool :=
  if path = text "/" then true
  else if path = [] ∨ path.getLast? = some slash then false
  else
    match dirPrefix path with
    | none => false
    | some front => (candidates S).any fun c => (childOf c.path front).isSome

inductive Vnode
  | root
  | console
  | null
  | zero
  | disk (name : Text)
  | tmpDir
  | tmpFile (path : Text)
  | proc (path : Text)
  | mem (path : Text)
  | dir (path : Text)
  deriving DecidableEq

def Vnode.kind : Vnode → Kind
  | .root | .tmpDir | .dir _ => .dir
  | .console | .null | .zero => .char
  | .disk _ => .block
  | .tmpFile _ | .proc _ | .mem _ => .file

def diskLookup (S : Vfs) (path : Text) : Option Vnode :=
  if (text "/dev/").isPrefixOf path ∧ path.drop 5 ≠ [] ∧ path.drop 5 ∈ S.devices then
    some (.disk (path.drop 5))
  else none

def tmpfsOwns (path : Text) : Bool := path = text "/tmp" ∨ (text "/tmp/").isPrefixOf path

def tmpfsNameMax : ℕ := 48

def checkName (name : Text) : Except Errno Unit :=
  if name = [] then .error .eisdir
  else if tmpfsNameMax < name.length then .error .enametoolong
  else if slash ∈ name then .error .enotdir
  else .ok ()

/-- `tmpfs_lookup` for reading. -/
def tmpfsLookup (S : Vfs) (path : Text) : Except Errno Vnode :=
  if path = text "/tmp" then .ok .tmpDir
  else
    match checkName (path.drop 5) with
    | .error e => .error e
    | .ok () => if some path ∈ S.tmpfiles then .ok (.tmpFile path) else .error .enoent

/-- The lookups of `vfs_open_err` that are made before the one for directories. -/
def lookup (S : Vfs) (path : Text) : Except Errno (Option Vnode) :=
  if path = text "/" then .ok (some .root)
  else if path = text "/dev/console" ∨ path = text "/dev/tty" then .ok (some .console)
  else if path = text "/dev/null" then .ok (some .null)
  else if path = text "/dev/zero" then .ok (some .zero)
  else
    match diskLookup S path with
    | some vnode => .ok (some vnode)
    | none =>
      if tmpfsOwns path then
        match tmpfsLookup S path with
        | .error e => .error e
        | .ok vnode => .ok (some vnode)
      else if path ∈ procPaths then .ok (some (.proc path))
      else if path ∈ S.memfiles then .ok (some (.mem path))
      else .ok none

def dirVnode (S : Vfs) (path : Text) : Except Errno Vnode × Vfs :=
  if pathSize ≤ path.length then (.error .enametoolong, S)
  else if path ∈ S.dirs then (.ok (.dir path), S)
  else if hfull : S.dirs.length < dirsMax then
    (.ok (.dir path), { S with
        dirs := S.dirs ++ [path]
        dirs_count := by rwa [List.length_append, List.length_singleton] })
  else (.error .enospc, S)

/-- `vfs_open_err` for reading; no `open` of these vnodes refuses it. -/
def vfsOpenErr (S : Vfs) (path : Text) : Except Errno Vnode × Vfs :=
  match lookup S path with
  | .error e => (.error e, S)
  | .ok (some vnode) => (.ok vnode, S)
  | .ok none => if isDirectory S path then dirVnode S path else (.error .enoent, S)

structure Dirent where
  name : Text
  kind : Kind
  ino : ℕ
  off : ℕ
  deriving DecidableEq

/-- The size of `d_name`. -/
def nameSize : ℕ := 256

/-- The inner loop of `vfs_readdir`: whether the name was listed for one of these. -/
def repeated (front name : Text) (before : List Known) : Bool :=
  before.any fun c => (childOf c.path front).any fun child => child.1 = name

/-- The loop of `vfs_readdir`, behind the candidates of `before`. -/
def readdirLoop (front : Text) (index : ℕ) (before : List Known) (seen : ℕ) :
    List Known → Option Dirent
  | [] => none
  | c :: rest =>
    match childOf c.path front with
    | none => readdirLoop front index (before ++ [c]) seen rest
    | some (name, nested) =>
      if nameSize ≤ name.length ∨ repeated front name before then
        readdirLoop front index (before ++ [c]) seen rest
      else if seen ≠ index then readdirLoop front index (before ++ [c]) (seen + 1) rest
      else some ⟨name, if nested then .dir else c.kind, before.length + 1, index + 1⟩

/-- The loop of `tmpfs_list`, at slot `i`. -/
def tmpfsList (index seen i : ℕ) : List (Option Text) → Option Dirent
  | [] => none
  | none :: rest => tmpfsList index seen (i + 1) rest
  | some path :: rest =>
    if seen ≠ index then tmpfsList index (seen + 1) (i + 1) rest
    else some ⟨path.drop 5, .file, i + 1, index + 1⟩

def Vnode.dirPath : Vnode → Text
  | .root => text "/"
  | .tmpDir => text "/tmp"
  | .dir path => path
  | _ => []

/-- `vfs_readdir`; at the end of the listing there is no entry. -/
def vfsReaddir (S : Vfs) (dir : Vnode) (index : ℕ) : Except Errno (Option Dirent) :=
  if dir.kind ≠ .dir then .error .enotdir
  else if dir.dirPath = [] then .error .einval
  else if dir.dirPath = text "/tmp" then .ok (tmpfsList index 0 0 S.tmpfiles)
  else
    match dirPrefix dir.dirPath with
    | none => .error .enametoolong
    | some front => .ok (readdirLoop front index [] 0 (candidates S))

end Tach.VfsPaths
