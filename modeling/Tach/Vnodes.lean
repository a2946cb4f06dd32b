import Tach.Files

/-!
Open files of fat32.c. All descriptors of one file share a vnode, kept on the volume's open
list and found by its address. Reads and writes of a descriptor run on the vnode's node.
-/

namespace Tach.Vnodes

open Actions FatData Files

variable {σ : Type} (V : Volume σ)

/-- `flags & O_CREAT`. -/
def wantsCreate (flags : ℕ) : Bool := flags / 0x200 % 2 = 1

/-- `flags & O_TRUNC`. -/
def wantsTrunc (flags : ℕ) : Bool := flags / 0x400 % 2 = 1

/-- `(flags & O_ACCMODE) != O_RDONLY || (flags & O_TRUNC)`. -/
def wantsWrite (flags : ℕ) : Bool := flags % 4 ≠ 0 || wantsTrunc flags

def findVnode (id : ℕ) (v : VolState) : Option Vnode := v.openList.find? (fun fv => fv.id = id)

def mapVnode (id : ℕ) (f : Vnode → Vnode) (v : VolState) : VolState :=
  { v with openList := v.openList.map (fun fv => if fv.id = id then f fv else fv) }

def putNode (id : ℕ) (p : Fs σ × Node) : Fs σ :=
  { p.1 with vol := mapVnode id (fun fv => { fv with node := p.2 }) p.1.vol }

/-- A node function run on an open vnode; a descriptor that is not open is refused before it
gets to the driver. -/
def onNode {α : Type} (id : ℕ) (m : NodeM σ α) : FatM σ α := do
  match ← readVol (findVnode id) with
  | none => Act.fail .ebadf
  | some fv => Act.zoom (fun s => (s, fv.node)) (fun p _ => putNode id p) m

/-- `fv->vn.size = fv->node.info.size`. -/
def noteSize (id : ℕ) : FatM σ Unit :=
  modifyVol (mapVnode id (fun fv => { fv with size := fv.node.info.size }))

def fvRead (id : ℕ) (offset : Int) (count : ℕ) : FatM σ (List UInt8) :=
  if offset < 0 then Act.fail .einval
  else if 0xFFFFFFFF < offset then pure []
  else onNode id (fat32Read V offset.toNat count)

def fvWrite (id : ℕ) (offset : Int) (buf : ℕ → UInt8) (count : ℕ) : FatM σ ℕ :=
  if offset < 0 then Act.fail .einval
  else if 0xFFFFFFFF < offset then Act.fail .efbig
  else do
    let r ← Act.attempt (onNode id (fat32Write V offset.toNat buf count))
    noteSize id
    match r with
    | .ok n => pure n
    | .error e => Act.fail e

end Tach.Vnodes
