import Tach.BlkDevices

/-!
The discovery of partitions in blk_part.c: the MBR with its chains of extended partitions, the GPT
with its checksums, and `add_partition`, which registers what they find.

The sectors are those of the disk as the cache shows them. `Scan.script` says which of the next reads
and allocations fail. A run is marked where one of them fails, where the registry is full and where
the name of a partition is cut.
-/

namespace Tach.Partitions

open Actions ByteBlock Sectors BlkDevices
open Shell (Text)

/-- `struct blkdev`; `is_gpt` says whether there is a GUID. -/
inductive Device
  | disk (name : Text) (sectors : ℕ) (readonly : Bool)
  | part (name : Text) (sectors : ℕ) (readonly : Bool) (parent : Device) (start : ℕ) (type : UInt8)
      (guid : Option (List UInt8))
  deriving DecidableEq

namespace Device

def name : Device → Text
  | disk name _ _ => name
  | part name _ _ _ _ _ _ => name

def sectors : Device → ℕ
  | disk _ sectors _ => sectors
  | part _ sectors _ _ _ _ _ => sectors

def readonly : Device → Bool
  | disk _ _ readonly => readonly
  | part _ _ readonly _ _ _ _ => readonly

def parent : Device → Option Device
  | disk _ _ _ => none
  | part _ _ _ parent _ _ _ => some parent

def start : Device → ℕ
  | disk _ _ _ => 0
  | part _ _ _ _ start _ _ => start

def depth : Device → ℕ
  | disk _ _ _ => 0
  | part _ _ _ parent _ _ _ => parent.depth + 1

end Device

def devices : Devices Device where
  name := Device.name
  sectors := Device.sectors
  start := Device.start
  parent := Device.parent
  reads _ := true
  owned d := d.parent.isSome
  depth := Device.depth
  depth_eq {d p} h := by
    cases d with
    | disk => cases h
    | part => cases h; rfl

/-- The digits of `part_name`, the last one first. -/
def digits : ℕ → ℕ → Text
  | 0, _ => []
  | room + 1, v => UInt8.ofNat (48 + v % 10) :: if v / 10 = 0 then [] else digits room (v / 10)

def endsInDigit (disk : Text) : Bool :=
  match disk.getLast? with
  | none => false
  | some c => 48 ≤ c ∧ c ≤ 57

/-- The name of partition `number`, before it is cut. -/
def fullName (disk : Text) (number : ℕ) : Text :=
  disk ++ ((if endsInDigit disk then [112] else []) ++ (digits 11 number).reverse)

/-- `part_name`, in `BLK_NAME_MAX` bytes with the NUL. -/
def partName (disk : Text) (number : ℕ) : Text := (fullName disk number).take 15

def bitStep (crc : UInt32) : UInt32 := (crc >>> 1) ^^^ (0xEDB88320 &&& (0 - (crc &&& 1)))

def byteStep (crc : UInt32) (byte : UInt8) : UInt32 := bitStep^[8] (crc ^^^ byte.toUInt32)

def blkCrc32 (crc : UInt32) (data : List UInt8) : UInt32 := ~~~(data.foldl byteStep (~~~crc))

section Model

structure Scan where
  devs : List (Option Device)
  /-- The errors of the next reads and allocations. -/
  script : List (Option Errno)

def Scan.registered (s : Scan) : List Device := s.devs.reduceOption

abbrev ScanM (α : Type) := Act Scan Errno α

def ask : ScanM (Option Errno) := do
  let answer ← Act.read fun s => s.script.head?.join
  Act.markIf fun _ => answer.isSome
  Act.modify fun s => { s with script := s.script.tail }
  pure answer

variable (disk : Device) (v : View)

/-- `blk_read_bytes` of one sector. -/
def readSector (lba : ℕ) : ScanM Sector :=
  let size := disk.sectors * 512 % 2 ^ 64
  let offset := lba * 512 % 2 ^ 64
  if size < offset ∨ size - offset < 512 then Act.fail .einval
  else do
    match ← ask with
    | some e => Act.fail e
    | none => pure (v (offset / 512))

/-- The partition that `add_partition` fills in. -/
def partition (number start sectors : ℕ) (type : UInt8) (guid : Option (List UInt8)) : Device :=
  .part (partName disk.name number) sectors disk.readonly disk start type guid

def addPartition (number start sectors : ℕ) (type : UInt8) (guid : Option (List UInt8)) :
    ScanM Unit :=
  if sectors = 0 ∨ disk.sectors < start ∨ disk.sectors - start < sectors then Act.fail .einval
  else do
    match ← ask with
    | some _ => Act.fail .enomem
    | none =>
      Act.markIf fun _ => 15 < (fullName disk.name number).length
      let result ← Act.read fun s =>
        blkRegister devices (partition disk number start sectors type guid) s.devs
      match result with
      | .ok devs => Act.modify fun s => { s with devs := devs }
      | .error e =>
        Act.markIf fun _ => e = .enospc
        Act.fail e

/-- Whether `add_partition` returned 0. -/
def added (number start sectors : ℕ) (type : UInt8) (guid : Option (List UInt8)) : ScanM Bool := do
  match ← Act.attempt (addPartition disk number start sectors type guid) with
  | .ok _ => pure true
  | .error _ => pure false

def looksLikeFatVbr (s : Sector) : Bool :=
  if s 0 ≠ 0xEB ∧ s 0 ≠ 0xE9 then false
  else if s.le16 11 ≠ 512 ∨ s 13 = 0 ∨ s 13 &&& (s 13 - 1) ≠ 0 then false
  else if s 16 = 0 ∨ 2 < s 16 then false
  else s.le16 14 ≠ 0

def rd64 (s : Sector) (o : ℕ) : ℕ := s.le32 o + 4294967296 * s.le32 (o + 4)

/-- The first `n` bytes of a sector. -/
def bytesOf (s : Sector) (n : ℕ) : List UInt8 := (List.range n).map s.byte

structure Gpt where
  firstUsable : ℕ
  lastUsable : ℕ
  entriesLba : ℕ
  count : ℕ
  entrySize : ℕ
  entriesCrc : ℕ

def gptOf (h : Sector) : Gpt :=
  ⟨rd64 h 40, rd64 h 48, rd64 h 72, h.le32 80, h.le32 84, h.le32 88⟩

def Gpt.tableSectors (g : Gpt) : ℕ := (g.count * g.entrySize + 511) / 512

def Gpt.perSector (g : Gpt) : ℕ := 512 / g.entrySize

/-- The header with its own checksum cleared, as it is summed up. -/
def cleared (h : Sector) : Sector := Block.ofFn 512 fun i => if 16 ≤ i ∧ i < 20 then 0 else h i

/-- The checks that `scan_gpt` makes of the header, in their order; each gives -EINVAL. -/
def HeaderOk (h : Sector) : Prop :=
  bytesOf h 8 = [0x45, 0x46, 0x49, 0x20, 0x50, 0x41, 0x52, 0x54] ∧
  92 ≤ h.le32 12 ∧ h.le32 12 ≤ 512 ∧
  (blkCrc32 0 (bytesOf (cleared h) (h.le32 12))).toNat = h.le32 16 ∧
  (gptOf h).count ≠ 0 ∧ (gptOf h).count ≤ 1024 ∧
  ((gptOf h).entrySize = 128 ∨ (gptOf h).entrySize = 256 ∨ (gptOf h).entrySize = 512) ∧
  (gptOf h).firstUsable ≤ (gptOf h).lastUsable ∧ (gptOf h).lastUsable < disk.sectors ∧
  2 ≤ (gptOf h).entriesLba ∧ (gptOf h).entriesLba ≤ disk.sectors ∧
  (gptOf h).tableSectors ≤ disk.sectors - (gptOf h).entriesLba

instance (h : Sector) : Decidable (HeaderOk disk h) := by
  unfold HeaderOk
  infer_instance

def gptRead (lba : ℕ) : ScanM Sector := do
  match ← Act.attempt (readSector disk v lba) with
  | .ok s => pure s
  | .error _ => Act.fail .eio

/-- The checksum of the table, sector by sector. -/
def tableCrc : ℕ → ℕ → ℕ → UInt32 → ScanM UInt32
  | 0, _, _, crc => pure crc
  | sectors + 1, lba, remaining, crc => do
    let s ← gptRead disk v lba
    tableCrc sectors (lba + 1) (remaining - 512) (blkCrc32 crc (bytesOf s (min remaining 512)))

/-- First sector, number of sectors and GUID of a used entry inside the usable sectors. -/
def gptEntry (g : Gpt) (s : Sector) (o : ℕ) : Option (ℕ × ℕ × List UInt8) :=
  if ∀ i < 16, s (o + i) = 0 then none
  else if rd64 s (o + 32) < g.firstUsable ∨ g.lastUsable < rd64 s (o + 40) ∨
      rd64 s (o + 40) < rd64 s (o + 32) then none
  else some (rd64 s (o + 32), rd64 s (o + 40) - rd64 s (o + 32) + 1,
    (List.range 16).map fun i => s (o + i))

/-- The sector with entry `index`, read where a new one begins. -/
def entrySector (g : Gpt) (index : ℕ) (last : Sector) : ScanM Sector :=
  if index % g.perSector = 0 then gptRead disk v (g.entriesLba + index / g.perSector) else pure last

def addEntry (g : Gpt) (s : Sector) (index : ℕ) : ScanM Bool :=
  match gptEntry g s (index % g.perSector * g.entrySize) with
  | none => pure false
  | some (first, sectors, guid) => added disk (index + 1) first sectors 0 (some guid)

def gptEntries (g : Gpt) : ℕ → ℕ → Sector → ℕ → ScanM ℕ
  | 0, _, _, created => pure created
  | left + 1, index, last, created => do
    let s ← entrySector disk v g index last
    let ok ← addEntry disk g s index
    gptEntries g left (index + 1) s (if ok then created + 1 else created)

def scanGpt : ScanM ℕ := do
  let h ← gptRead disk v 1
  if HeaderOk disk h then do
    let g := gptOf h
    let crc ← tableCrc disk v g.tableSectors g.entriesLba (g.count * g.entrySize) 0
    if crc.toNat = g.entriesCrc then gptEntries disk v g g.count 0 h 0 else Act.fail .einval
  else Act.fail .einval

def isExtended (type : UInt8) : Bool := type = 0x05 ∨ type = 0x0F ∨ type = 0x85

def addLogical (s : Sector) (ebr number : ℕ) : ScanM Bool :=
  if s 450 ≠ 0 ∧ s.le32 458 ≠ 0 then
    added disk number (ebr + s.le32 454) (s.le32 458) (s 450) none
  else pure false

/-- `scan_extended`, whose loop makes at most `MBR_EXT_MAX` hops. -/
def scanExtended (extStart extSectors : ℕ) : ℕ → ℕ → ℕ → ℕ → ScanM ℕ
  | 0, _, _, created => pure created
  | hops + 1, ebr, number, created =>
    if disk.sectors ≤ ebr then pure created
    else do
      match ← Act.attempt (readSector disk v ebr) with
      | .error _ => pure created
      | .ok s =>
        if s.le16 510 ≠ 0xAA55 then pure created
        else do
          let ok ← addLogical disk s ebr number
          let created := if ok then created + 1 else created
          let number := if ok then number + 1 else number
          if s.le32 470 = 0 ∨ isExtended (s 466) = false then pure created
          else if extSectors ≤ s.le32 470 then pure created
          else scanExtended extStart extSectors hops (extStart + s.le32 470) number created

/-- The loop over the entries of the MBR, each of 16 bytes from byte 446 on. -/
def scanEntries (s : Sector) : List ℕ → ℕ → ScanM ℕ
  | [], created => pure created
  | i :: rest, created => do
    let e := 446 + i * 16
    if (s e ≠ 0x00 ∧ s e ≠ 0x80) ∨ s (e + 4) = 0 ∨ s.le32 (e + 12) = 0 then
      scanEntries s rest created
    else if s (e + 4) = 0xEE then scanEntries s rest created
    else if isExtended (s (e + 4)) then do
      let created ← scanExtended disk v (s.le32 (e + 8)) (s.le32 (e + 12)) 32 (s.le32 (e + 8)) 5
        created
      scanEntries s rest created
    else do
      let ok ← added disk (i + 1) (s.le32 (e + 8)) (s.le32 (e + 12)) (s (e + 4)) none
      scanEntries s rest (if ok then created + 1 else created)

def blkScanPartitions : ScanM ℕ :=
  if disk.parent ≠ none then Act.fail .einval
  else if disk.sectors < 2 then pure 0
  else do
    let s ← readSector disk v 0
    if s.le16 510 ≠ 0xAA55 then pure 0
    else if looksLikeFatVbr s then pure 0
    else if s 450 = 0xEE then do
      match ← Act.attempt (scanGpt disk v) with
      | .ok created => pure created
      | .error _ => scanEntries disk v s [0, 1, 2, 3] 0
    else scanEntries disk v s [0, 1, 2, 3] 0

end Model

end Tach.Partitions
