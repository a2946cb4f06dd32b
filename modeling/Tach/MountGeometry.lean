import Tach.FatMount
import Tach.FatView
import Tach.Records

/-!
The geometry that `fat32_mount` accepts. The reserved area, the copies of the table and the clusters
are areas of sectors that do not overlap and end on the device. The checks and values of `fat32_mount`
in the words of the machine are those in natural numbers: nothing wraps around.
-/

namespace Tach.MountGeometry

open ByteBlock Sectors FatData FatMount FatView
open Records (Separate)

section Words

/-- Arithmetic of `uint64_t`. -/
def u64 (n : ℕ) : ℕ := n % 18446744073709551616

/-- The difference of two values of `uint32_t`. -/
def sub32 (a b : ℕ) : ℕ := u32 (a + (4294967296 - b))

theorem sub32_eq {a b : ℕ} (hb : b ≤ a) (ha : a < 4294967296) : sub32 a b = a - b := by
  unfold sub32 u32
  omega

/-- `while ((1u << shift) < spc) shift++`. -/
def shiftLoop (spc : ℕ) : ℕ → ℕ → ℕ
  | 0, shift => shift
  | rounds + 1, shift => if u32 (2 ^ shift) < spc then shiftLoop spc rounds (shift + 1) else shift

def shiftWord (bs : Sector) : ℕ := shiftLoop (bs 13).toNat 32 0

def dataWord (bs : Sector) : ℕ := u64 (bs.le16 14 + u64 ((bs 16).toNat * bs.le32 36))

def roomWord (bs : Sector) : ℕ := sub32 (totalOf bs) (u32 (dataWord bs)) / 2 ^ shiftWord bs

def clustersWord (bs : Sector) : ℕ :=
  if maxClusters < roomWord bs then maxClusters else roomWord bs

/-- The checks of `fat32_mount` with the arithmetic of the machine. -/
structure BootWords (sectors : ℕ) (bs : Sector) : Prop where
  signature : ¬(bs 510 ≠ 0x55 ∨ bs 511 ≠ 0xAA)
  sectorSize : ¬bs.le16 11 ≠ 512
  spc : ¬((bs 13).toNat = 0 ∨ (bs 13).toNat &&& sub32 (bs 13).toNat 1 ≠ 0 ∨ 128 < (bs 13).toNat)
  fats : ¬(bs.le16 14 = 0 ∨ (bs 16).toNat = 0 ∨ 4 < (bs 16).toNat)
  fat32 : ¬(bs.le16 17 ≠ 0 ∨ bs.le16 22 ≠ 0)
  sizes : ¬(totalOf bs = 0 ∨ bs.le32 36 = 0)
  device : ¬sectors < totalOf bs
  data : ¬totalOf bs ≤ dataWord bs
  clusters : ¬roomWord bs < minClusters
  fat : ¬u64 (bs.le32 36 * 128) < u64 (clustersWord bs + 2)
  root : ¬(bs.le32 44 < 2 ∨ u32 (clustersWord bs + 2) ≤ bs.le32 44)
  active : ¬(bs.le16 40 &&& 0x80 ≠ 0 ∧ (bs 16).toNat ≤ activeOf bs)

/-- The fields of `struct fat32_vol` that `fat32_mount` computes. -/
structure Layout where
  fatLba : ℕ
  dataLba : ℕ
  clusters : ℕ
  spcShift : ℕ
  entriesPerCluster : ℕ

def layoutWord (bs : Sector) : Layout where
  fatLba := u64 (bs.le16 14 + u64 (activeOf bs * bs.le32 36))
  dataLba := dataWord bs
  clusters := clustersWord bs
  spcShift := shiftWord bs
  entriesPerCluster := u32 ((bs 13).toNat * 16)

def layoutOf (g : Geom) : Layout :=
  ⟨g.fatLba, g.dataLba, g.clusters, g.spcShift, g.entriesPerCluster⟩

variable {sectors : ℕ} {bs : Sector}

theorem totalOf_lt (bs : Sector) : totalOf bs < 4294967296 := by
  have h16 := bs.le16_lt 19
  have h32 := bs.le32_lt 32
  unfold totalOf
  split <;> omega

/-- A multiple of the size of a copy by a byte is no more than 40 bits. -/
theorem mul_fatSize_lt (bs : Sector) {k : ℕ} (hk : k < 256) : k * bs.le32 36 < 1099511627776 := by
  have hsize := bs.le32_lt 36
  calc k * bs.le32 36 ≤ 255 * bs.le32 36 := Nat.mul_le_mul_right _ (by omega)
    _ < 1099511627776 := by omega

theorem dataWord_eq (bs : Sector) : dataWord bs = dataOf bs := by
  have hres := bs.le16_lt 14
  have hmul := mul_fatSize_lt bs (bs 16).toNat_lt
  unfold dataWord dataOf u64
  omega

theorem spc_check_iff (bs : Sector) :
    ((bs 13).toNat = 0 ∨ (bs 13).toNat &&& sub32 (bs 13).toNat 1 ≠ 0 ∨ 128 < (bs 13).toNat) ↔
      ((bs 13).toNat = 0 ∨ (bs 13).toNat &&& ((bs 13).toNat - 1) ≠ 0 ∨ 128 < (bs 13).toNat) := by
  have hlt := (bs 13).toNat_lt
  by_cases h0 : (bs 13).toNat = 0
  · simp [h0]
  · rw [sub32_eq (by omega) (by omega)]

theorem shiftWord_eq
    (h : ¬((bs 13).toNat = 0 ∨ (bs 13).toNat &&& ((bs 13).toNat - 1) ≠ 0 ∨ 128 < (bs 13).toNat)) :
    shiftWord bs = shiftOf (bs 13).toNat := by
  have hall : ∀ spc < 256, ¬(spc = 0 ∨ spc &&& (spc - 1) ≠ 0 ∨ 128 < spc) →
      shiftLoop spc 32 0 = shiftOf spc := by decide +kernel
  exact hall _ (bs 13).toNat_lt h

theorem clustersWord_eq
    (hspc : ¬((bs 13).toNat = 0 ∨ (bs 13).toNat &&& ((bs 13).toNat - 1) ≠ 0 ∨ 128 < (bs 13).toNat))
    (hdata : ¬totalOf bs ≤ dataOf bs) :
    roomWord bs = roomOf bs ∧ clustersWord bs = clustersOf bs := by
  have htotal := totalOf_lt bs
  have hroom : roomWord bs = roomOf bs := by
    rw [roomWord, roomOf, shiftWord_eq hspc, dataWord_eq, u32, Nat.mod_eq_of_lt (by omega),
      sub32_eq (by omega) htotal]
  refine ⟨hroom, ?_⟩
  rw [clustersWord, clustersOf, hroom]
  split <;> omega

theorem bootWords_iff : BootWords sectors bs ↔ BootOk sectors bs := by
  have hsize := bs.le32_lt 36
  have hmax : clustersOf bs ≤ maxClusters := Nat.min_le_right _ _
  simp only [maxClusters] at hmax
  have hfat : u64 (bs.le32 36 * 128) = bs.le32 36 * 128 := Nat.mod_eq_of_lt (by omega)
  have hend : u64 (clustersOf bs + 2) = clustersOf bs + 2 := Nat.mod_eq_of_lt (by omega)
  have hend' : u32 (clustersOf bs + 2) = clustersOf bs + 2 := Nat.mod_eq_of_lt (by omega)
  constructor
  · intro h
    have hspc := mt (spc_check_iff bs).mpr h.spc
    have hdata := h.data
    rw [dataWord_eq] at hdata
    obtain ⟨hroom, hclusters⟩ := clustersWord_eq hspc hdata
    refine ⟨h.signature, h.sectorSize, hspc, h.fats, h.fat32, h.sizes, h.device, hdata,
      hroom ▸ h.clusters, ?_, ?_, h.active⟩
    · have := h.fat
      rwa [hclusters, hfat, hend] at this
    · have := h.root
      rwa [hclusters, hend'] at this
  · intro h
    obtain ⟨hroom, hclusters⟩ := clustersWord_eq h.spc h.data
    refine ⟨h.signature, h.sectorSize, mt (spc_check_iff bs).mp h.spc, h.fats, h.fat32, h.sizes,
      h.device, ?_, hroom ▸ h.clusters, ?_, ?_, h.active⟩
    · rw [dataWord_eq]
      exact h.data
    · rw [hclusters, hfat, hend]
      exact h.fat
    · rw [hclusters, hend']
      exact h.root

theorem layoutWord_eq (h : BootOk sectors bs) (readonly : Bool) (fsinfo : Option Sector) :
    layoutWord bs = layoutOf (h.geom readonly fsinfo) := by
  have hres := bs.le16_lt 14
  have hmul := mul_fatSize_lt bs (show activeOf bs < 256 by
    have := h.active_lt
    have := (bs 16).toNat_lt
    omega)
  have hspc := (bs 13).toNat_lt
  have hfat : u64 (bs.le16 14 + u64 (activeOf bs * bs.le32 36)) =
      bs.le16 14 + activeOf bs * bs.le32 36 := by
    unfold u64
    omega
  have hentries : u32 ((bs 13).toNat * 16) = (bs 13).toNat * 16 := by
    unfold u32
    omega
  rw [layoutWord, hfat, hentries, dataWord_eq, (clustersWord_eq h.spc h.data).2, shiftWord_eq h.spc]
  rfl

end Words

section Areas

inductive Area
  | reserved
  | copy (k : ℕ)
  | cluster (c : ℕ)

variable (g : Geom)

def Area.Valid : Area → Prop
  | reserved => True
  | copy k => k < g.numFats
  | cluster c => g.InRange c

def Area.start : Area → ℕ
  | reserved => 0
  | copy k => g.fat0Lba + k * g.fatSize
  | cluster c => g.dataLba + (c - 2) * g.spc

def Area.size : Area → ℕ
  | reserved => g.fat0Lba
  | copy _ => g.fatSize
  | cluster _ => g.spc

variable {g}

theorem copy_end {k : ℕ} (hk : k < g.numFats) : g.fat0Lba + k * g.fatSize + g.fatSize ≤ g.dataLba := by
  have hmul : (k + 1) * g.fatSize ≤ g.numFats * g.fatSize := Nat.mul_le_mul_right _ hk
  rw [Nat.add_mul, Nat.one_mul] at hmul
  rw [g.data_eq]
  omega

theorem cluster_end {c : ℕ} (hc : g.InRange c) : g.dataLba + (c - 2) * g.spc + g.spc ≤ g.total := by
  have hmul : (c - 2 + 1) * g.spc ≤ g.clusters * g.spc :=
    Nat.mul_le_mul_right _ (by have := hc.1; have := hc.2; omega)
  rw [Nat.add_mul, Nat.one_mul] at hmul
  have := g.data_fits
  omega

/-- Multiples of a size are apart by this size. -/
theorem separate_mul {a b size base : ℕ} (h : a ≠ b) :
    Separate (base + a * size) size (base + b * size) size := by
  rcases Nat.lt_or_gt_of_ne h with hlt | hlt
  · have hmul := Nat.mul_le_mul_right size (show a + 1 ≤ b from hlt)
    rw [Nat.add_mul, Nat.one_mul] at hmul
    exact Or.inl (by omega)
  · have hmul := Nat.mul_le_mul_right size (show b + 1 ≤ a from hlt)
    rw [Nat.add_mul, Nat.one_mul] at hmul
    exact Or.inr (by omega)

open Area

theorem areas_separate {a b : Area} (ha : a.Valid g) (hb : b.Valid g) (hne : a ≠ b) :
    Separate (a.start g) (a.size g) (b.start g) (b.size g) := by
  have hdata := g.data_eq
  cases a with
  | reserved =>
    cases b with
    | reserved => exact absurd rfl hne
    | copy k => exact Or.inl (by simp only [start, size]; omega)
    | cluster c => exact Or.inl (by simp only [start, size]; omega)
  | copy k =>
    have hk := copy_end ha
    cases b with
    | reserved => exact Or.inr (by simp only [start, size]; omega)
    | copy k' => exact separate_mul fun h => hne (by rw [h])
    | cluster c => exact Or.inl (by simp only [start, size]; omega)
  | cluster c =>
    cases b with
    | reserved => exact Or.inr (by simp only [start, size]; omega)
    | copy k =>
      have hk := copy_end hb
      exact Or.inr (by simp only [start, size]; omega)
    | cluster c' =>
      refine separate_mul fun h => hne ?_
      have h2 : 2 ≤ c := ha.1
      have h2' : 2 ≤ c' := hb.1
      rw [show c = c' by omega]

theorem area_end {a : Area} (ha : a.Valid g) : a.start g + a.size g ≤ g.total := by
  have hfits := g.data_fits
  have hdata := g.data_eq
  cases a with
  | reserved => simp only [start, size]; omega
  | copy k =>
    have hk := copy_end ha
    simp only [start, size]
    omega
  | cluster c => exact cluster_end ha

theorem fsinfoNext_inRange (fsinfo : Option Sector) : g.InRange (fsinfoNext g fsinfo) := by
  have hge : minClusters ≤ g.clusters := g.clusters_ge
  simp only [minClusters] at hge
  have h2 : g.InRange 2 := ⟨Nat.le_refl 2, by omega⟩
  cases fsinfo with
  | none => exact h2
  | some f =>
    change g.InRange (if 2 ≤ f.le32 492 ∧ f.le32 492 < g.clusters + 2 then f.le32 492 else 2)
    split
    · assumption
    · exact h2

end Areas

/-- What `fat32_mount` leaves if it succeeds comes from the checks on the boot sector. -/
theorem fat32Mount_ok {dev : Blkdev} {found : Found} {vol : Vol}
    (h : fat32Mount dev found = .ok vol) : ∃ (bs : Sector) (hbs : BootOk dev.sectors bs),
      found.read 0 = .ok bs ∧ vol.dev = dev ∧
        vol.geom = hbs.geom dev.readonly (fsinfoOf found.read bs) ∧
        vol.nextFree = fsinfoNext vol.geom (fsinfoOf found.read bs) := by
  unfold fat32Mount at h
  cases hread : found.read 0 with
  | error e =>
    rw [hread] at h
    cases h
  | ok bs =>
    rw [hread] at h
    dsimp only at h
    by_cases hbs : BootOk dev.sectors bs
    swap
    · rw [dif_neg hbs] at h
      cases h
    refine ⟨bs, hbs, rfl, ?_⟩
    rw [dif_pos hbs] at h
    split at h
    · cases h
    · split at h
      · cases hcount : found.count with
        | error e =>
          rw [hcount] at h
          cases h
        | ok count =>
          rw [hcount] at h
          cases h
          exact ⟨rfl, rfl, rfl⟩
      · cases h
        exact ⟨rfl, rfl, rfl⟩

/-- The geometry of every volume that `fat32_mount` accepts is sound, and nothing wrapped around when
it was computed. -/
theorem mount_geometry_sound (dev : Blkdev) (found : Found) (vol : Vol)
    (h : fat32Mount dev found = .ok vol) :
    (∀ a b : Area, a.Valid vol.geom → b.Valid vol.geom → a ≠ b →
      Separate (a.start vol.geom) (a.size vol.geom) (b.start vol.geom) (b.size vol.geom)) ∧
    (∀ a : Area, a.Valid vol.geom → a.start vol.geom + a.size vol.geom ≤ dev.sectors) ∧
    vol.geom.clusters + 2 ≤ vol.geom.fatSize * 128 ∧
    (vol.geom.fsinfoLba = 0 ∨ 1 ≤ vol.geom.fsinfoLba ∧ vol.geom.fsinfoLba < vol.geom.fat0Lba) ∧
    vol.geom.InRange vol.geom.rootCluster ∧ vol.geom.InRange vol.nextFree ∧
    vol.geom.fatActive < vol.geom.numFats ∧
    (∃ bs, found.read 0 = .ok bs ∧ BootWords dev.sectors bs ∧ layoutWord bs = layoutOf vol.geom) ∧
    (∀ c, vol.geom.InRange c → vol.geom.clusterLba c = (Area.cluster c).start vol.geom) ∧
    (vol.geom.clusters + 2) + 128 < 4294967296 ∧
    ∀ sectors bs, BootWords sectors bs ↔ BootOk sectors bs := by
  obtain ⟨bs, hbs, hread, hdev, hgeom, hnext⟩ := fat32Mount_ok h
  have hfits : vol.geom.total ≤ dev.sectors := by
    rw [← hdev]
    exact vol.fits
  have hmax : vol.geom.clusters ≤ maxClusters := vol.geom.clusters_le
  simp only [maxClusters] at hmax
  refine ⟨fun a b => areas_separate, fun a ha => Nat.le_trans (area_end ha) hfits,
    vol.geom.fat_fits, ?_, ⟨vol.geom.root_ge, vol.geom.root_lt⟩, ?_, vol.geom.active_lt,
    ⟨bs, hread, bootWords_iff.mpr hbs, ?_⟩, fun c hc => clusterLba_eq hc, by omega,
    fun _ _ => bootWords_iff⟩
  · have hlt := vol.geom.fsinfo_lt
    omega
  · rw [hnext]
    exact fsinfoNext_inRange _
  · rw [hgeom]
    exact layoutWord_eq hbs _ _

def bootSector : Sector :=
  (((((((((Block.zero 512).put16 11 512).set 13 1).put16 14 32).set 16 2).put32 32 66581).put32 36
    512).put32 44 2).set 510 0x55).set 511 0xAA

theorem mount_geometry_sound_smallest : ∃ vol, fat32Mount (.disk 0 [] 66581 false)
    ⟨fun _ => .ok bootSector, true, .ok 65524⟩ = .ok vol ∧ vol.geom.InRange vol.nextFree := by
  obtain ⟨vol, hvol⟩ : ∃ vol, fat32Mount (.disk 0 [] 66581 false)
      ⟨fun _ => .ok bootSector, true, .ok 65524⟩ = .ok vol := by
    have hboot : BootOk (Blkdev.disk 0 [] 66581 false).sectors bootSector := by decide +kernel
    unfold fat32Mount
    dsimp only
    rw [dif_pos hboot, if_neg (by decide)]
    split
    · exact ⟨_, rfl⟩
    · exact ⟨_, rfl⟩
  exact ⟨vol, hvol, (mount_geometry_sound _ _ vol hvol).2.2.2.2.2.1⟩

end Tach.MountGeometry
