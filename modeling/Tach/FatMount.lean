import Tach.FatData
import Tach.VfsPaths

/-!
`fat32_mount`: the checks on the boot sector and the geometry they leave. The fields of `Geom` that
state what a geometry satisfies are proved here from these checks.
-/

namespace Tach.FatMount

open Sectors FatData
open Shell (Text)

def shiftOf (spc : ℕ) : ℕ := ((List.range 8).find? fun shift => spc ≤ 2 ^ shift).getD 8

def totalOf (bs : Sector) : ℕ := if bs.le16 19 ≠ 0 then bs.le16 19 else bs.le32 32

/-- The active FAT; without bit 7 all of them are. -/
def activeOf (bs : Sector) : ℕ := if bs.le16 40 &&& 0x80 ≠ 0 then bs.le16 40 &&& 0x0F else 0

def isFsinfo (f : Sector) : Bool :=
  f.le32 0 = 0x41615252 ∧ f.le32 484 = 0x61417272 ∧ f.le32 508 = 0xAA550000

/-- The FSInfo sector, if it is named in the reserved area, can be read and has its marks. -/
def fsinfoOf (read : ℕ → Except Errno Sector) (bs : Sector) : Option Sector :=
  if 1 ≤ bs.le16 48 ∧ bs.le16 48 < bs.le16 14 then
    match read (bs.le16 48) with
    | .ok f => if isFsinfo f then some f else none
    | .error _ => none
  else none

/-- `meta`: the sectors in front of the clusters. -/
def dataOf (bs : Sector) : ℕ := bs.le16 14 + (bs 16).toNat * bs.le32 36

def roomOf (bs : Sector) : ℕ := (totalOf bs - dataOf bs) / 2 ^ shiftOf (bs 13).toNat

def clustersOf (bs : Sector) : ℕ := min (roomOf bs) maxClusters

/-- The checks of `fat32_mount` on the boot sector of a device with so many sectors, in their order;
the answer to each of them is `EINVAL`. -/
structure BootOk (sectors : ℕ) (bs : Sector) : Prop where
  signature : ¬(bs 510 ≠ 0x55 ∨ bs 511 ≠ 0xAA)
  sectorSize : ¬bs.le16 11 ≠ 512
  spc : ¬((bs 13).toNat = 0 ∨ (bs 13).toNat &&& ((bs 13).toNat - 1) ≠ 0 ∨ 128 < (bs 13).toNat)
  fats : ¬(bs.le16 14 = 0 ∨ (bs 16).toNat = 0 ∨ 4 < (bs 16).toNat)
  fat32 : ¬(bs.le16 17 ≠ 0 ∨ bs.le16 22 ≠ 0)
  sizes : ¬(totalOf bs = 0 ∨ bs.le32 36 = 0)
  device : ¬sectors < totalOf bs
  data : ¬totalOf bs ≤ dataOf bs
  clusters : ¬roomOf bs < minClusters
  fat : ¬bs.le32 36 * 128 < clustersOf bs + 2
  root : ¬(bs.le32 44 < 2 ∨ clustersOf bs + 2 ≤ bs.le32 44)
  active : ¬(bs.le16 40 &&& 0x80 ≠ 0 ∧ (bs 16).toNat ≤ activeOf bs)

instance (sectors : ℕ) (bs : Sector) : Decidable (BootOk sectors bs) :=
  decidable_of_iff (_ ∧ _ ∧ _ ∧ _ ∧ _ ∧ _ ∧ _ ∧ _ ∧ _ ∧ _ ∧ _ ∧ _)
    ⟨fun ⟨h1, h2, h3, h4, h5, h6, h7, h8, h9, h10, h11, h12⟩ =>
      ⟨h1, h2, h3, h4, h5, h6, h7, h8, h9, h10, h11, h12⟩,
    fun h => ⟨h.signature, h.sectorSize, h.spc, h.fats, h.fat32, h.sizes, h.device, h.data, h.clusters,
      h.fat, h.root, h.active⟩⟩

namespace BootOk

variable {sectors : ℕ} {bs : Sector}

theorem spc_eq (h : BootOk sectors bs) :
    (bs 13).toNat = 2 ^ shiftOf (bs 13).toNat ∧ shiftOf (bs 13).toNat ≤ 7 := by
  have hall : ∀ spc < 256, ¬(spc = 0 ∨ spc &&& (spc - 1) ≠ 0 ∨ 128 < spc) →
      spc = 2 ^ shiftOf spc ∧ shiftOf spc ≤ 7 := by decide +kernel
  exact hall _ (bs 13).toNat_lt h.spc

theorem data_fits (h : BootOk sectors bs) :
    dataOf bs + clustersOf bs * (bs 13).toNat ≤ totalOf bs := by
  have hle : clustersOf bs * (bs 13).toNat ≤ totalOf bs - dataOf bs := by
    calc clustersOf bs * (bs 13).toNat = clustersOf bs * 2 ^ shiftOf (bs 13).toNat :=
          congrArg (clustersOf bs * ·) h.spc_eq.1
      _ ≤ roomOf bs * 2 ^ shiftOf (bs 13).toNat := Nat.mul_le_mul_right _ (Nat.min_le_left _ _)
      _ ≤ totalOf bs - dataOf bs := Nat.div_mul_le_self _ _
  have hdata := h.data
  omega

theorem active_lt (h : BootOk sectors bs) : activeOf bs < (bs 16).toNat := by
  by_cases hbit : bs.le16 40 &&& 0x80 = 0
  · have hzero : activeOf bs = 0 := if_neg (not_not.2 hbit)
    have hfats := h.fats
    omega
  · exact Nat.lt_of_not_le fun hle => h.active ⟨hbit, hle⟩

def geom (h : BootOk sectors bs) (readonly : Bool) (fsinfo : Option Sector) : Geom where
  readonly := readonly
  numFats := (bs 16).toNat
  fatSize := bs.le32 36
  fatActive := activeOf bs
  mirror := bs.le16 40 &&& 0x80 = 0
  fat0Lba := bs.le16 14
  fatLba := bs.le16 14 + activeOf bs * bs.le32 36
  fsinfoLba := if fsinfo.isSome ∧ bs.le16 48 < bs.le16 14 then bs.le16 48 else 0
  dataLba := dataOf bs
  clusters := clustersOf bs
  rootCluster := bs.le32 44
  spc := (bs 13).toNat
  spcShift := shiftOf (bs 13).toNat
  entriesPerCluster := (bs 13).toNat * 16
  total := totalOf bs
  spc_eq := h.spc_eq.1
  shift_le := h.spc_eq.2
  entries_eq := rfl
  active_lt := h.active_lt
  mirror_active := fun hbit => if_neg (not_not.2 (of_decide_eq_true hbit))
  fatLba_eq := rfl
  reserved_pos := Nat.pos_of_ne_zero fun heq => h.fats (.inl heq)
  fsinfo_lt := by
    split
    next hlt => exact hlt.2
    · exact Nat.pos_of_ne_zero fun heq => h.fats (.inl heq)
  data_eq := rfl
  clusters_ge := Nat.le_min.2 ⟨Nat.le_of_not_lt h.clusters, by decide⟩
  clusters_le := Nat.min_le_right _ _
  fat_fits := Nat.le_of_not_lt h.fat
  data_fits := h.data_fits
  root_ge := Nat.le_of_not_lt fun hlt => h.root (.inl hlt)
  root_lt := Nat.lt_of_not_le fun hle => h.root (.inr hle)

end BootOk

/-- `struct blkdev`: a disk with its number, or a partition, a window on another device. -/
inductive Blkdev
  | disk (id : ℕ) (name : Text) (sectors : ℕ) (readonly : Bool)
  | part (name : Text) (sectors : ℕ) (readonly : Bool) (parent : Blkdev) (start : ℕ)

namespace Blkdev

def name : Blkdev → Text
  | disk _ name _ _ => name
  | part name _ _ _ _ => name

def sectors : Blkdev → ℕ
  | disk _ _ sectors _ => sectors
  | part _ sectors _ _ _ => sectors

def readonly : Blkdev → Bool
  | disk _ _ _ readonly => readonly
  | part _ _ readonly _ _ => readonly

/-- `root_of`: the disk, and the sector of it. -/
def rootOf : Blkdev → ℕ → ℕ × ℕ
  | disk id _ _ _, lba => (id, lba)
  | part _ _ _ parent start, lba => rootOf parent (lba + start)

/-- What `blk_register` checks of a partition. -/
def Inside : Blkdev → Prop
  | disk _ _ _ _ => True
  | part _ sectors _ parent start => start + sectors ≤ parent.sectors ∧ parent.Inside

/-- The sectors of a device follow one another on its disk. -/
theorem rootOf_eq (dev : Blkdev) (lba : ℕ) :
    dev.rootOf lba = ((dev.rootOf 0).1, (dev.rootOf 0).2 + lba) := by
  induction dev generalizing lba with
  | disk id name sectors readonly =>
    unfold rootOf
    rw [Nat.zero_add]
  | part name sectors readonly parent start ih =>
    unfold rootOf
    rw [ih (lba + start), ih (0 + start)]
    rw [Nat.zero_add, Nat.add_comm lba start, Nat.add_assoc]

end Blkdev

/-- What is used of `struct fat32_vol`. -/
structure Vol where
  dev : Blkdev
  geom : Geom
  freeCount : ℕ
  nextFree : ℕ
  fsinfoDirty : Bool
  fits : geom.total ≤ dev.sectors

/-- What `fat32_mount` meets: the sectors of the device, or errors, whether there is memory, and the
answer of `fat_count_free`. -/
structure Found where
  read : ℕ → Except Errno Sector
  memory : Bool
  count : Except Errno ℕ

/-- `free_count` as the FSInfo sector has it. -/
def fsinfoCount (g : Geom) (fsinfo : Option Sector) : ℕ :=
  fsinfo.elim unknown fun f => if f.le32 488 ≤ g.clusters then f.le32 488 else unknown

/-- `next_free` as the FSInfo sector has it. -/
def fsinfoNext (g : Geom) (fsinfo : Option Sector) : ℕ :=
  fsinfo.elim 2 fun f => if 2 ≤ f.le32 492 ∧ f.le32 492 < g.clusters + 2 then f.le32 492 else 2

def fat32Mount (dev : Blkdev) (found : Found) : Except Errno Vol :=
  match found.read 0 with
  | .error e => .error e
  | .ok bs =>
    if h : BootOk dev.sectors bs then
      let fsinfo := fsinfoOf found.read bs
      let g := h.geom dev.readonly fsinfo
      if found.memory = false then .error .enomem
      else if fsinfoCount g fsinfo = unknown ∧ g.readonly = false then
        match found.count with
        | .error e => .error e
        | .ok count =>
          .ok ⟨dev, g, count, fsinfoNext g fsinfo, g.fsinfoLba ≠ 0, Nat.le_of_not_lt h.device⟩
      else
        .ok ⟨dev, g, fsinfoCount g fsinfo, fsinfoNext g fsinfo, false, Nat.le_of_not_lt h.device⟩
    else .error .einval

end Tach.FatMount
