import Tach.VnodeThreads
import Tach.Directory

/-!
Opens and removals in several threads: `fat32_vnode_open`, `fv_release`, `fat32_unlink`,
`fat32_rmdir` and `fat32_rename` on one volume, by their critical sections of `vol->lock` and
the directory scans and entry updates between them. The vnodes themselves move as
`VnodeThreads` says: a step here is a step there, or leaves the lists and counts there alone.

The directories are listings of their live short entries. An entry carries a serial number
that is never used again, so that an entry can be told from a later one in the same slot;
`gone` has the entries whose chain an unlink, a rmdir or a rename freed.

A removal looks in the open list and deletes the entry later; an open finds the entry and
puts its vnode on the list later. Nothing orders the two: `dir_busy` is not taken by an open.
In runs in which no open is between its lookup and the list while a removal or a rename is
under way (`Apart`), every vnode on the list has its entry.
-/

namespace Tach.DirThreads

open FatData FatNames Directory Interleaving

abbrev Name := List UInt8

structure Entry where
  serial : ℕ
  info : Info
  deriving DecidableEq

def place (i : Info) : ℕ × ℕ := (i.dirCluster, i.dirPos)

structure Shared where
  vn : VnodeThreads.Shared
  /-- The live entries, each with the first cluster of its directory. -/
  live : List (ℕ × Entry)
  /-- The entry a vnode was opened for, by its serial number. -/
  serial : ℕ → ℕ
  dirty : ℕ → Bool
  dirBusy : Bool
  nextSerial : ℕ
  gone : List ℕ

/-- The locals of `rename_locked`; `target` is `ni` when the new name was found. -/
structure Renaming where
  oldParent : Entry
  old : Entry
  newParent : Entry
  target : Option Entry
  oldLeaf : Name
  newLeaf : Name
  newParentPath : List Name
  deriving DecidableEq

/-- What a walk down a path is for: the file to open, or the parent of a leaf. -/
inductive Goal
  | openPath (path : List Name) (create trunc write : Bool)
  | createIn (leaf : Name) (trunc : Bool)
  | removeIn (leaf : Name) (wantDir : Bool)
  | renameOldIn (leaf : Name) (newPath : List Name)
  | renameNewIn (r : Renaming)
  /-- `path_has_cluster`, with the prefixes that are still to be looked up. -/
  | renameWalk (r : Renaming) (rest : List (List Name))
  deriving DecidableEq

/-- What the last lookup of `resolve_leaf_ex` is for. -/
inductive Leaf
  | create (trunc : Bool)
  | remove (wantDir : Bool)
  | renameOld (leaf : Name) (newPath : List Name)
  | renameNew (r : Renaming)
  deriving DecidableEq

/-- A call that takes `dir_busy`. -/
inductive Job
  | create (path : List Name) (trunc : Bool)
  | remove (path : List Name) (wantDir : Bool)
  | rename (old new : List Name)
  deriving DecidableEq

inductive Pc
  /-- Between calls, or in a step of `VnodeThreads`. -/
  | calm
  | scan (cur : Entry) (todo : List Name) (goal : Goal)
  | leaf (parent : Entry) (name : Name) (goal : Leaf)
  | found (e : Entry) (trunc : Bool)
  | enter (job : Job)
  | leave (made : Option (Entry × Bool))
  | createAdd (parent : Entry) (trunc : Bool)
  | removeCheck (parent e : Entry)
  | removeEmpty (parent e : Entry)
  | removeDelete (parent e : Entry)
  | removeFree (e : Entry)
  | renameCheck (r : Renaming)
  | renameTarget (r : Renaming) (target : Entry)
  | renameEmpty (r : Renaming) (target : Entry)
  | renameDrop (r : Renaming) (target : Entry)
  | renameAdd (r : Renaming)
  | renameDelete (r : Renaming)
  | renameFree (r : Renaming)
  /-- `fat32_truncate` between its section and `fat32_node_sync`, with what it saved. -/
  | marked (n : ℕ) (saved : Info × Bool)
  /-- `fat32_node_sync` before `dirent_store`, with the fields it copied. -/
  | storing (n : ℕ) (fields : Info) (saved : Option (Info × Bool))
  | redirty (n : ℕ) (saved : Option (Info × Bool))
  | undo (n : ℕ) (saved : Info × Bool)
  | finished (ok : Bool)
  deriving DecidableEq

structure Thread where
  vn : VnodeThreads.Thread
  pc : Pc

/-- A call, or the next step of the call under way: `ok` says whether its disk accesses
succeed, `add` where `dir_add_entry` puts the new entry (`at` is its place in the listing). -/
inductive Choice
  | open (path : List Name) (create write trunc : Bool)
  | dup (n : ℕ)
  | release (n : ℕ)
  | remove (path : List Name) (wantDir : Bool)
  | rename (old new : List Name)
  | go (ok : Bool)
  | add (info : Info) (pos : ℕ)

def rootEntry (g : Geom) : Entry := ⟨0, rootInfo g⟩

namespace Shared

def find (s : Shared) (dir : ℕ) (name : Name) : Option Entry :=
  ((s.live.filter fun p => p.1 = dir).map Prod.snd).find? fun e => matchesName name e.info

/-- `entry_is_open`. -/
def isOpen (s : Shared) (e : Entry) : Bool := (VnodeThreads.openFind s.vn e.info).isSome

/-- `entry_delete`: the entry in this slot of the directory is marked deleted. -/
def delete (s : Shared) (dir : ℕ) (e : Entry) : Shared :=
  { s with live := s.live.filter fun p => ¬(p.1 = dir ∧ place p.2.info = place e.info) }

def has (s : Shared) (dir : ℕ) (e : Entry) : Bool :=
  s.live.any fun p => p.1 = dir ∧ place p.2.info = place e.info

/-- `dir_add_entry`: a new short entry in the directory. -/
def add (s : Shared) (dir : ℕ) (info : Info) (pos : ℕ) : Shared :=
  { s with
    live := s.live.take pos ++ (dir, ⟨s.nextSerial, info⟩) :: s.live.drop pos
    nextSerial := s.nextSerial + 1 }

/-- `cluster_free_chain` on the chain of a deleted entry; with a directory go its slots. -/
def free (s : Shared) (e : Entry) : Shared :=
  { s with
    live := if e.info.isDir then s.live.filter fun p => p.1 ≠ e.info.firstCluster else s.live
    gone := e.serial :: s.gone }

end Shared

/-- `dirent_store`. -/
def patch (m i : Info) : Info :=
  { i with
    firstCluster := m.firstCluster, size := m.size, wdate := m.wdate, wtime := m.wtime
    attr := i.attr ||| attrArch }

def Shared.store (s : Shared) (m : Info) : Shared :=
  if m.dirCluster = 0 then s
  else
    { s with live := s.live.map fun p =>
        if place p.2.info = place m then (p.1, { p.2 with info := patch m p.2.info }) else p }

def Shared.isFree (s : Shared) (info : Info) : Bool :=
  info.dirCluster ≠ 0 ∧ s.live.all fun p => place p.2.info ≠ place info

def Shared.setInfo (s : Shared) (n : ℕ) (info : Info) (dirty : Bool) : Shared :=
  { s with
    vn := { s.vn with info := Function.update s.vn.info n info }
    dirty := Function.update s.dirty n dirty }

def Renaming.same (r : Renaming) : Bool :=
  match r.target with
  | some t => place t.info = place r.old.info
  | none => false

def Renaming.dropped (r : Renaming) (target : Entry) : Entry := if r.same then r.old else target

def Renaming.dropParent (r : Renaming) : Entry := if r.same then r.oldParent else r.newParent

def prefixes (path : List Name) : List (List Name) := path.inits.tail

/-- After `path_has_cluster`: the target of another entry is checked, the same entry is
deleted, a free name is used. -/
def Renaming.next (r : Renaming) : Pc :=
  match r.target with
  | none => .renameAdd r
  | some t =>
    if r.same then .renameDrop r t
    else if r.old.info.isDir ≠ t.info.isDir ∨ t.info.isRo ∨ t.info.dirCluster = 0 then .leave none
    else .renameTarget r t

def Renaming.walk (g : Geom) (r : Renaming) : List (List Name) → Pc
  | [] => r.next
  | pre :: rest => .scan (rootEntry g) pre (.renameWalk r rest)

def Renaming.resolved (r : Renaming) : Pc :=
  if r.same ∧ r.oldLeaf = r.newLeaf then .leave none else .renameCheck r

/-- `resolve_leaf_ex` before the lookup of the parent. -/
def resolve (g : Geom) (path : List Name) (goal : Name → Goal) : Pc :=
  match path.getLast? with
  | none => .leave none
  | some leaf =>
    if leaf = [dot] ∨ leaf = [dot, dot] then .leave none
    else .scan (rootEntry g) path.dropLast (goal leaf)

/-- A walk ends at `e`. -/
def arrive (g : Geom) (e : Entry) : Goal → Pc
  | .openPath _ _ trunc write =>
    if write ∧ (e.info.isDir ∨ e.info.isRo) then .calm else .found e trunc
  | .createIn leaf trunc => if e.info.isDir then .leaf e leaf (.create trunc) else .leave none
  | .removeIn leaf wantDir => if e.info.isDir then .leaf e leaf (.remove wantDir) else .leave none
  | .renameOldIn leaf newPath =>
    if e.info.isDir then .leaf e leaf (.renameOld leaf newPath) else .leave none
  | .renameNewIn r =>
    if e.info.isDir then .leaf e r.newLeaf (.renameNew { r with newParent := e }) else .leave none
  | .renameWalk r rest =>
    if e.info.firstCluster = r.old.info.firstCluster then .leave none else r.walk g rest

def present (g : Geom) (parent e : Entry) : Leaf → Pc
  | .create _ => .leave none
  | .remove wantDir =>
    if wantDir ≠ e.info.isDir ∨ e.info.isRo ∨ e.info.dirCluster = 0 then .leave none
    else .removeCheck parent e
  | .renameOld leaf newPath =>
    if e.info.dirCluster = 0 then .leave none
    else
      resolve g newPath fun newLeaf =>
        .renameNewIn ⟨parent, e, parent, none, leaf, newLeaf, newPath.dropLast⟩
  | .renameNew r => { r with target := some e }.resolved

def absent (parent : Entry) : Leaf → Pc
  | .create trunc => .createAdd parent trunc
  | .renameNew r => { r with target := none }.resolved
  | _ => .leave none

def missing : Goal → Pc
  | .openPath path true trunc _ => .enter (.create path trunc)
  | .openPath _ false _ _ => .calm
  | _ => .leave none

def refused : Goal → Pc
  | .openPath _ _ _ _ => .calm
  | _ => .leave none

def scanStep (g : Geom) (s : Shared) (cur : Entry) (todo : List Name) (goal : Goal) : Pc :=
  match todo with
  | [] => arrive g cur goal
  | name :: rest =>
    if nameMax < name.length then refused goal
    else if name = [dot] then .scan cur rest goal
    else if cur.info.isDir = false then refused goal
    else
      match s.find cur.info.firstCluster name with
      | some e => .scan e rest goal
      | none => missing goal

def begin (g : Geom) : Job → Pc
  | .create path trunc => resolve g path fun leaf => .createIn leaf trunc
  | .remove path wantDir => resolve g path fun leaf => .removeIn leaf wantDir
  | .rename old new => resolve g old fun leaf => .renameOldIn leaf new

def afterLeave : Option (Entry × Bool) → Pc
  | some (e, trunc) => .found e trunc
  | none => .calm

def dirStep (g : Geom) (ok : Bool) (s : Shared) : Pc → Option (Shared × Pc)
  | .scan cur todo goal => some (s, if ok then scanStep g s cur todo goal else refused goal)
  | .leaf parent name goal =>
    some (s, if ok then
        match s.find parent.info.firstCluster name with
        | some e => present g parent e goal
        | none => absent parent goal
      else .leave none)
  | .enter job => if s.dirBusy then some (s, .calm) else some ({ s with dirBusy := true }, begin g job)
  | .leave made =>
    some ({ s with dirBusy := false }, afterLeave made)
  | .createAdd _ _ => some (s, .leave none)
  | .removeCheck parent e =>
    some (s, if s.isOpen e then .leave none
      else if e.info.isDir then .removeEmpty parent e else .removeDelete parent e)
  | .removeEmpty parent e =>
    some (s, if ok ∧ e.info.firstCluster ≠ 0 ∧ s.live.all (fun p => p.1 ≠ e.info.firstCluster)
      then .removeDelete parent e else .leave none)
  | .removeDelete parent e =>
    if ok ∧ s.has parent.info.firstCluster e then
      some (s.delete parent.info.firstCluster e, .removeFree e)
    else some (s, .leave none)
  | .removeFree e => some (if e.info.firstCluster ≠ 0 then s.free e else s, .leave none)
  | .renameCheck r =>
    some (s, if s.isOpen r.old then .leave none
      else if r.old.info.isDir then
        if r.newParent.info.firstCluster = r.old.info.firstCluster then .leave none
        else r.walk g (prefixes r.newParentPath)
      else r.next)
  | .renameTarget r t =>
    some (s, if s.isOpen t then .leave none
      else if t.info.isDir then .renameEmpty r t else .renameDrop r t)
  | .renameEmpty r t =>
    some (s, if ok ∧ t.info.firstCluster ≠ 0 ∧ s.live.all (fun p => p.1 ≠ t.info.firstCluster)
      then .renameDrop r t else .leave none)
  | .renameDrop r t =>
    if ok ∧ s.has r.dropParent.info.firstCluster (r.dropped t) then
      some (s.delete r.dropParent.info.firstCluster (r.dropped t), .renameAdd r)
    else some (s, .leave none)
  | .renameAdd _ => some (s, .leave none)
  | .renameDelete r =>
    if r.same then some (s, .renameFree r)
    else if ok ∧ s.has r.oldParent.info.firstCluster r.old then
      some (s.delete r.oldParent.info.firstCluster r.old, .renameFree r)
    else some (s, .leave none)
  | .renameFree r =>
    -- `set_dotdot` may fail before the chain of the target is freed
    some (match r.target with
      | some t => if ok ∧ r.same = false ∧ t.info.firstCluster ≠ 0 then s.free t else s
      | none => s, .leave none)
  | .marked n saved =>
    if s.dirty n then
      some (s.setInfo n (s.vn.info n) false, .storing n (s.vn.info n) (some saved))
    else some (s, .finished ok)
  | .storing n fields saved =>
    if ok ∧ (fields.dirCluster = 0 ∨ s.live.any fun p => place p.2.info = place fields) then
      some (s.store fields, .finished ok)
    else some (s, .redirty n saved)
  | .redirty n saved =>
    some (s.setInfo n (s.vn.info n) true,
      match saved with
      | some old => .undo n old
      | none => .finished true)
  | .undo n saved =>
    some (s.setInfo n
      { s.vn.info n with
        firstCluster := saved.1.firstCluster, size := saved.1.size
        wdate := saved.1.wdate, wtime := saved.1.wtime } saved.2, .finished false)
  | _ => none

def addStep (s : Shared) (info : Info) (pos : ℕ) : Pc → Option (Shared × Pc)
  | .createAdd parent trunc =>
    let i := { info with attr := attrArch, firstCluster := 0, size := 0 }
    some (s.add parent.info.firstCluster i pos, .leave (some (⟨s.nextSerial, i⟩, trunc)))
  | .renameAdd r =>
    let i := { info with
      attr := r.old.info.attr, firstCluster := r.old.info.firstCluster, size := r.old.info.size
      wdate := r.old.info.wdate, wtime := r.old.info.wtime }
    some (s.add r.newParent.info.firstCluster i pos, .renameDelete r)
  | _ => none

def vnodeStep (a : VnodeThreads.Choice) (s : Shared) (t : Thread) : Option (Shared × Thread) :=
  (VnodeThreads.program a s.vn t.vn).map fun r => ({ s with vn := r.1 }, ⟨r.2, .calm⟩)

/-- A step of a thread between the directory calls. The truncation of an open and the update
of the entry in a release start here. -/
def calmStep (ok : Bool) (s : Shared) (t : Thread) : Option (Shared × Thread) :=
  match t.vn.pc with
  | .openTrunc n =>
    if ok = false ∨ (s.vn.info n).isDir ∨ (s.vn.info n).size = 0 then
      some (s, ⟨t.vn, .finished (ok || (s.vn.info n).isDir)⟩)
    else
      some (s.setInfo n
        { s.vn.info n with
          firstCluster := 0, size := 0, attr := (s.vn.info n).attr ||| attrArch } true,
        ⟨t.vn, .marked n (s.vn.info n, s.dirty n)⟩)
  | .sync n =>
    if s.dirty n then
      some (s.setInfo n (s.vn.info n) false, ⟨t.vn, .storing n (s.vn.info n) none⟩)
    else some (s, ⟨t.vn, .finished true⟩)
  | _ => vnodeStep (.go ok) s t

def start (s : Shared) (t : Thread) (pc : Pc) : Option (Shared × Thread) :=
  if t.pc = .calm ∧ t.vn.pc = .idle then some (s, ⟨t.vn, pc⟩) else none

def goStep (g : Geom) (ok : Bool) (s : Shared) (t : Thread) : Option (Shared × Thread) :=
  match t.pc with
  | .calm => calmStep ok s t
  | .finished result => vnodeStep (.go result) s t
  | .found e trunc =>
    vnodeStep (.open e.info trunc)
      { s with
        serial := Function.update s.serial s.vn.next e.serial
        dirty := Function.update s.dirty s.vn.next false } t
  | pc => (dirStep g ok s pc).map fun r => (r.1, ⟨t.vn, r.2⟩)

def program (g : Geom) : Program Choice Shared Thread
  | .open path create write trunc, s, t =>
    start s t (.scan (rootEntry g) path (.openPath path create trunc (write || trunc)))
  | .dup n, s, t => if t.pc = .calm then vnodeStep (.dup n) s t else none
  | .release n, s, t => if t.pc = .calm then vnodeStep (.release n) s t else none
  | .remove path wantDir, s, t => start s t (.enter (.remove path wantDir))
  | .rename old new, s, t => start s t (.enter (.rename old new))
  | .go ok, s, t => goStep g ok s t
  | .add info pos, s, t =>
    if s.isFree info then (addStep s info pos t.pc).map fun r => (r.1, ⟨t.vn, r.2⟩) else none

/-! The parts of the calls that must be kept apart. -/

def Goal.opens : Goal → Bool
  | .openPath _ _ _ _ => true
  | .createIn _ _ => true
  | _ => false

def Leaf.opens : Leaf → Bool
  | .create _ => true
  | _ => false

def Pc.opening : Pc → Bool
  | .scan _ _ goal => goal.opens
  | .leaf _ _ goal => goal.opens
  | .found _ _ => true
  | .enter (.create _ _) => true
  | .leave (some _) => true
  | .createAdd _ _ => true
  | _ => false

def Thread.opening (t : Thread) : Bool :=
  t.pc.opening ||
    match t.vn.pc with
    | .openShare _ _ => true
    | _ => false

/-- A removal or a rename that has `dir_busy`. -/
def Pc.removing : Pc → Bool
  | .scan _ _ goal => !goal.opens
  | .leaf _ _ goal => !goal.opens
  | .removeCheck _ _ => true
  | .removeEmpty _ _ => true
  | .removeDelete _ _ => true
  | .removeFree _ => true
  | .renameCheck _ => true
  | .renameTarget _ _ => true
  | .renameEmpty _ _ => true
  | .renameDrop _ _ => true
  | .renameAdd _ => true
  | .renameDelete _ => true
  | .renameFree _ => true
  | _ => false

/-- The thread has `dir_busy`. -/
def Pc.busy : Pc → Bool
  | .scan _ _ (.openPath _ _ _ _) => false
  | .scan _ _ _ => true
  | .leaf _ _ _ => true
  | .createAdd _ _ => true
  | .leave _ => true
  | pc => pc.removing

def Job.removes : Job → Bool
  | .create _ _ => false
  | _ => true

variable {ι : Type*}

def vnodes (w : World ι Shared Thread) : World ι VnodeThreads.Shared VnodeThreads.Thread :=
  ⟨w.shared.vn, fun i => (w.thread i).vn⟩

/-- An open does not start while a removal or a rename has `dir_busy`, none of these takes
`dir_busy` while an open is between its lookup and the list, and two releases of a vnode do
not overlap. -/
structure Apart (w : World ι Shared Thread) (i : ι) (a : Choice) : Prop where
  opens : ∀ path create write trunc, a = .open path create write trunc →
    ∀ j, (w.thread j).pc.removing = false
  removes : ∀ job, (w.thread i).pc = .enter job → job.removes = true →
    w.shared.dirBusy = false → ∀ j, (w.thread j).opening = false
  alone : VnodeThreads.Alone (vnodes w) i (.go true)

/-- Every vnode on the list, the root's apart, designates a live short entry, with the same
first cluster when it is a directory, and the chain of its entry was not freed. -/
def Attached (s : Shared) : Prop :=
  ∀ n ∈ s.vn.openList, (s.vn.info n).dirCluster ≠ 0 →
    (∃ d e, (d, e) ∈ s.live ∧ place e.info = place (s.vn.info n) ∧
      ((s.vn.info n).isDir = true → e.info.firstCluster = (s.vn.info n).firstCluster)) ∧
    s.serial n ∉ s.gone

def Dead (s : Shared) (k : ℕ) : Prop := k < s.nextSerial ∧ ∀ p ∈ s.live, p.2.serial ≠ k

/-- The entries of a volume: no slot and no serial number twice. -/
structure Well (s : Shared) : Prop where
  places : (s.live.map fun p => place p.2.info).Nodup
  serials : (s.live.map fun p => p.2.serial).Nodup
  below : ∀ p ∈ s.live, p.2.serial < s.nextSerial
  real : ∀ p ∈ s.live, p.2.info.dirCluster ≠ 0
  gone : ∀ k ∈ s.gone, Dead s k

/-- A volume just mounted, whose entries lie in different slots, and idle threads. -/
structure Begins (w : World ι Shared Thread) : Prop where
  vnodes : VnodeThreads.Begins (vnodes w)
  calm : ∀ i, (w.thread i).pc = .calm
  clean : ∀ n, w.shared.dirty n = false
  idle : w.shared.dirBusy = false
  well : Well w.shared

end Tach.DirThreads
