import Tach.Sectors

/-!
The data model of fat32.c. `Geom` holds the fields of `struct fat32_vol` that `fat32_mount`
sets once, with the facts about them that it checked; `VolState` holds the fields guarded by
the volume lock. A `Volume` puts the geometry on a block layer, and `Fs` is what a call of
the driver reads and changes. The volume label is left out: nothing modelled reads it.
-/

namespace Tach.FatData

open Actions Sectors

def eocMin : ℕ := 0x0FFFFFF8

def eoc : ℕ := 0x0FFFFFFF

/-- `FAT32_UNKNOWN`. -/
def unknown : ℕ := 0xFFFFFFFF

/-- `FAT32_MAX_SIZE`: 4 GiB - 1. -/
def maxSize : ℕ := 0xFFFFFFFF

def nameMax : ℕ := 255

def minClusters : ℕ := 65525

def maxClusters : ℕ := 0x0FFFFFF5

/-- Arithmetic of `uint32_t`. -/
def u32 (n : ℕ) : ℕ := n % 4294967296

structure Geom where
  readonly : Bool
  numFats : ℕ
  fatSize : ℕ
  fatActive : ℕ
  mirror : Bool
  fat0Lba : ℕ
  fatLba : ℕ
  fsinfoLba : ℕ
  dataLba : ℕ
  clusters : ℕ
  rootCluster : ℕ
  spc : ℕ
  spcShift : ℕ
  entriesPerCluster : ℕ
  /-- The sector count of the boot sector, a local of `fat32_mount`. -/
  total : ℕ
  spc_eq : spc = 2 ^ spcShift
  shift_le : spcShift ≤ 7
  entries_eq : entriesPerCluster = spc * 16
  active_lt : fatActive < numFats
  mirror_active : mirror = true → fatActive = 0
  fatLba_eq : fatLba = fat0Lba + fatActive * fatSize
  reserved_pos : 0 < fat0Lba
  fsinfo_lt : fsinfoLba < fat0Lba
  data_eq : dataLba = fat0Lba + numFats * fatSize
  clusters_ge : minClusters ≤ clusters
  clusters_le : clusters ≤ maxClusters
  fat_fits : clusters + 2 ≤ fatSize * 128
  data_fits : dataLba + clusters * spc ≤ total
  root_ge : 2 ≤ rootCluster
  root_lt : rootCluster < clusters + 2

def Geom.InRange (g : Geom) (c : ℕ) : Prop := 2 ≤ c ∧ c < g.clusters + 2

instance (g : Geom) (c : ℕ) : Decidable (g.InRange c) :=
  inferInstanceAs (Decidable (_ ∧ _))

/-- The difference `cluster - 2u` wraps around for the numbers 0 and 1. -/
def Geom.clusterLba (g : Geom) (cluster : ℕ) : ℕ :=
  g.dataLba + u32 (cluster + 4294967294) * 2 ^ g.spcShift

def Geom.csize (g : Geom) : ℕ := g.spc * 512

structure Volume (σ : Type) extends Geom where
  layer : BlockLayer σ
  fits : total ≤ layer.sectors
  ro : readonly = layer.readonly

/-- `struct fat32_info`; the names are C strings without the terminating NUL. -/
structure Info where
  name : List UInt8
  shortName : List UInt8
  attr : UInt8
  firstCluster : ℕ
  size : ℕ
  wdate : ℕ
  wtime : ℕ
  dirCluster : ℕ
  dirPos : ℕ
  deriving DecidableEq, Repr

def attrRo : UInt8 := 0x01
def attrDir : UInt8 := 0x10
def attrArch : UInt8 := 0x20

/-- `attr & FAT32_ATTR_DIR`. -/
def Info.isDir (i : Info) : Bool := i.attr &&& attrDir != 0

/-- `attr & FAT32_ATTR_RO`. -/
def Info.isRo (i : Info) : Bool := i.attr &&& attrRo != 0

/-- `struct fat32_dircur`. -/
structure DirCur where
  cluster : ℕ
  pos : ℕ
  steps : ℕ
  deriving DecidableEq, Repr

/-- `struct fat32_node`. -/
structure Node where
  info : Info
  chainIndex : ℕ
  chainCluster : ℕ
  rdNext : ℕ
  rdCur : DirCur
  rdValid : Bool
  dirty : Bool
  deriving DecidableEq, Repr

/-- `struct fat32_vnode`; `id` stands for its address. -/
structure Vnode where
  id : ℕ
  path : List UInt8
  isDir : Bool
  size : ℕ
  node : Node
  opens : ℕ
  deriving DecidableEq, Repr

structure VolState where
  freeCount : ℕ
  nextFree : ℕ
  fsinfoDirty : Bool
  dirBusy : Bool
  openNodes : ℕ
  openList : List Vnode
  /-- The address the next `kzalloc` returns. -/
  nextVnode : ℕ
  /-- The date and time `fat_now` reports. -/
  now : ℕ × ℕ

structure Fs (σ : Type) where
  io : σ
  vol : VolState

abbrev FatM (σ α : Type) := Act (Fs σ) Errno α

variable {σ : Type}

def Volume.view (V : Volume σ) (s : Fs σ) : View := V.layer.view s.io

def Volume.quiet (V : Volume σ) (s : Fs σ) : Prop := V.layer.quiet s.io

def onBlk {α : Type} (m : Act σ Errno α) : FatM σ α :=
  Act.zoom Fs.io (fun io s => { s with io := io }) m

/-- `bread`, a look at the data, `brelse`. -/
def readBuf {α : Type} (V : Volume σ) (lba : ℕ) (f : Sector → α) : FatM σ α :=
  onBlk (V.layer.withBuf lba (fun d => (f d, none)))

/-- `bread`, a look at the data that may change it and then calls `bdirty`, `brelse`. -/
def editBuf {α : Type} (V : Volume σ) (lba : ℕ) (f : Sector → α × Option Sector) : FatM σ α :=
  onBlk (V.layer.withBuf lba f)

/-- `bread`, a change of the data, `bdirty`, `brelse`. -/
def writeBuf (V : Volume σ) (lba : ℕ) (f : Sector → Sector) : FatM σ Unit :=
  onBlk (V.layer.withBuf lba (fun d => ((), some (f d))))

def modifyVol (f : VolState → VolState) : FatM σ Unit :=
  Act.modify (fun s => { s with vol := f s.vol })

def readVol {α : Type} (f : VolState → α) : FatM σ α := Act.read (fun s => f s.vol)

def fatNow : FatM σ (ℕ × ℕ) := readVol VolState.now

end Tach.FatData
