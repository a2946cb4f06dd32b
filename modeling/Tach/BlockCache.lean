import Tach.Sectors

/-!
The write-back sector cache of blk.c. A pool of 128 buffers is indexed by the root disk and
the absolute LBA; a buffer is found through its hash chain and given away again in the order
of its last use. The chains and the order are lists of buffer numbers.

`Setup` is what stays fixed: the disks, the hash function (the source hashes the address of
the disk) and the answers of the drivers. The answer to the n-th driver call of the run may
be an error; a failed driver call leaves its disk alone.
-/

namespace Tach.BlockCache

open Actions ByteBlock Sectors

/-- `BCACHE_BUFFERS`. -/
def buffers : ℕ := 128

/-- `BLK_READ_RUN`. -/
def readRunMax : ℕ := 64

/-- A root disk; `writes` and `flushes` say which operations its driver has. -/
structure Disk where
  sectors : ℕ
  readonly : Bool
  writes : Bool
  flushes : Bool

structure Setup (δ : Type) where
  disk : δ → Disk
  hash : δ → ℕ → ℕ
  fault : δ → ℕ → Option Errno

/-- `struct blkbuf` without its links. -/
structure Buf (δ : Type) where
  dev : Option δ
  lba : ℕ
  refs : ℕ
  dirty : Bool
  data : Sector

structure Cache (δ : Type) where
  ready : Bool
  pool : ℕ → Buf δ
  /-- `g_buckets`. -/
  chain : ℕ → List ℕ
  /-- From `g_lru_head` to `g_lru_tail`. -/
  lru : List ℕ
  /-- The sectors on the disks. -/
  disk : δ → View
  /-- The driver calls made so far. -/
  calls : ℕ

inductive Dev (δ : Type)
  | disk (d : δ)
  | part (parent : Dev δ) (start sectors : ℕ) (readonly : Bool)

variable {δ : Type} [DecidableEq δ] {α : Type}

abbrev CacheM (δ α : Type) := Act (Cache δ) Errno α

namespace Dev

/-- `root_of`. -/
def root : Dev δ → δ
  | disk d => d
  | part parent _ _ _ => parent.root

def absolute : Dev δ → ℕ → ℕ
  | disk _, lba => lba
  | part parent start _ _, lba => parent.absolute (lba + start)

def sectors (E : Setup δ) : Dev δ → ℕ
  | disk d => (E.disk d).sectors
  | part _ _ sectors _ => sectors

def readonly (E : Setup δ) : Dev δ → Bool
  | disk d => (E.disk d).readonly
  | part _ _ _ readonly => readonly

/-- The check of `blk_register`. -/
def Fits (E : Setup δ) : Dev δ → Prop
  | disk _ => True
  | part parent start sectors _ => start + sectors ≤ parent.sectors E ∧ parent.Fits E

end Dev

def rangeOk (sectors lba count : ℕ) : Bool := 0 < count ∧ lba ≤ sectors ∧ count ≤ sectors - lba

section Driver

variable (E : Setup δ)

/-- A call of the driver of `d`, which does `f` unless it fails. -/
def driver (d : δ) (f : Cache δ → α × Cache δ) : CacheM δ α := fun s =>
  match E.fault d s.calls with
  | some e => ⟨.error e, { s with calls := s.calls + 1 }, false⟩
  | none => ⟨.ok (f { s with calls := s.calls + 1 }).1, (f { s with calls := s.calls + 1 }).2, false⟩

def drvRead (d : δ) (lba count : ℕ) : CacheM δ (ℕ → Sector) :=
  if rangeOk (E.disk d).sectors lba count then driver E d fun s => (fun k => s.disk d (lba + k), s)
  else Act.fail .einval

def drvWrite (d : δ) (lba count : ℕ) (buf : ℕ → Sector) : CacheM δ Unit :=
  if (E.disk d).readonly then Act.fail .erofs
  else if (E.disk d).writes = false then Act.fail .erofs
  else if rangeOk (E.disk d).sectors lba count then
    driver E d fun s => ((), { s with
      disk := Function.update s.disk d fun l =>
        if lba ≤ l ∧ l < lba + count then buf (l - lba) else s.disk d l })
  else Act.fail .einval

end Driver

namespace Cache

def setBuf (s : Cache δ) (b : ℕ) (x : Buf δ) : Cache δ := { s with pool := Function.update s.pool b x }

def lookup (E : Setup δ) (s : Cache δ) (d : δ) (lba : ℕ) : Option ℕ :=
  (s.chain (E.hash d lba)).find? fun b => (s.pool b).dev = some d ∧ (s.pool b).lba = lba

/-- `lru_touch`. -/
def touch (s : Cache δ) (b : ℕ) : Cache δ := { s with lru := b :: s.lru.erase b }

def editChain (s : Cache δ) (h : ℕ) (f : List ℕ → List ℕ) : Cache δ :=
  { s with chain := Function.update s.chain h (f (s.chain h)) }

def hashRemove (E : Setup δ) (s : Cache δ) (b : ℕ) : Cache δ :=
  match (s.pool b).dev with
  | none => s
  | some d => s.editChain (E.hash d (s.pool b).lba) fun l => l.erase b

def hashInsert (E : Setup δ) (s : Cache δ) (b : ℕ) (d : δ) (lba : ℕ) : Cache δ :=
  s.editChain (E.hash d lba) fun l => b :: l

/-- The buffer `take_victim` stops at: the least recently used one without references. -/
def victim (s : Cache δ) : Option ℕ := s.lru.reverse.find? fun b => (s.pool b).refs = 0

end Cache

open Cache

variable (E : Setup δ)

/-- `write_back`. A dirty buffer belongs to a disk. -/
def writeBack (b : ℕ) : CacheM δ Unit := do
  let x ← Act.read fun s => s.pool b
  match x.dirty, x.dev with
  | true, some d => do
    drvWrite E d x.lba 1 fun _ => x.data
    Act.modify fun s => s.setBuf b { x with dirty := false }
  | _, _ => pure ()

def takeVictim : CacheM δ ℕ := do
  let v ← Act.read victim
  match v with
  | none => Act.fail .ebusy
  | some b => do
    writeBack E b
    Act.modify fun s => (s.hashRemove E b).setBuf b { s.pool b with dev := none }
    pure b

/-- The end of `get_buf`: the victim becomes the buffer of the sector. -/
def install (d : δ) (lba b : ℕ) (data : Sector) (s : Cache δ) : Cache δ :=
  ((s.setBuf b ⟨some d, lba, 1, false, data⟩).hashInsert E b d lba).touch b

/-- `get_buf`, with one reference to the buffer. -/
def getBuf (d : δ) (lba : ℕ) (fromDisk : Bool) : CacheM δ ℕ := do
  let hit ← Act.read fun s => s.lookup E d lba
  match hit with
  | some b => do
    Act.modify fun s => (s.setBuf b { s.pool b with refs := (s.pool b).refs + 1 }).touch b
    pure b
  | none => do
    let b ← takeVictim E
    if fromDisk then do
      let data ← drvRead E d lba 1
      Act.modify (install E d lba b (data 0))
      pure b
    else do
      Act.modify (install E d lba b (Block.zero 512))
      pure b

/-- `flush_root_locked`: the first error, after all dirty buffers of the disk were tried. -/
def flushBuffers (d : δ) : List ℕ → CacheM δ (Option Errno)
  | [] => pure none
  | b :: rest => do
    let x ← Act.read fun s => s.pool b
    if x.dev = some d ∧ x.dirty then do
      let r ← Act.attempt (writeBack E b)
      let later ← flushBuffers d rest
      pure (match r with
        | .error e => some e
        | .ok _ => later)
    else flushBuffers d rest

def flushRoot (d : δ) : CacheM δ Unit := do
  let ready ← Act.read Cache.ready
  let first ← if ready then flushBuffers E d (List.range buffers) else pure none
  match first with
  | some e => Act.fail e
  | none => if (E.disk d).flushes then driver E d fun s => ((), s) else pure ()

/-- The sectors of one direct read: up to the first that is in the cache. -/
def readRun (hit : ℕ → Bool) (count : ℕ) : ℕ → ℕ → ℕ
  | 0, step => step
  | fuel + 1, step =>
    if step < count ∧ step < readRunMax ∧ hit step = false then readRun hit count fuel (step + 1)
    else step

def blkReadLoop (d : δ) : ℕ → ℕ → ℕ → CacheM δ (List Sector)
  | 0, _, _ => pure []
  | fuel + 1, lba, count =>
    if count = 0 then pure []
    else do
      let hit ← Act.read fun s => s.lookup E d lba
      match hit with
      | some b => do
        let data ← Act.read fun s => (s.pool b).data
        Act.modify fun s => s.touch b
        let rest ← blkReadLoop d fuel (lba + 1) (count - 1)
        pure (data :: rest)
      | none => do
        let step ← Act.read fun s =>
          readRun (fun k => (s.lookup E d (lba + k)).isSome) count readRunMax 1
        let data ← drvRead E d lba step
        let rest ← blkReadLoop d fuel (lba + step) (count - step)
        pure ((List.range step).map data ++ rest)

def blkRead (dev : Dev δ) (lba count : ℕ) : CacheM δ (List Sector) := do
  if rangeOk (dev.sectors E) lba count = false then Act.fail .einval
  else do
    let ready ← Act.read Cache.ready
    if ready then blkReadLoop E dev.root count (dev.absolute lba) count
    else do
      let data ← drvRead E dev.root (dev.absolute lba) count
      pure ((List.range count).map data)

/-- One sector of `blk_write`. -/
def writeSector (d : δ) (lba : ℕ) (data : Sector) : CacheM δ Unit := do
  let b ← getBuf E d lba false
  Act.modify fun s => s.setBuf b { s.pool b with data := data, dirty := true, refs := (s.pool b).refs - 1 }

def blkWriteLoop (d : δ) (buf : ℕ → Sector) : ℕ → ℕ → ℕ → CacheM δ Unit
  | _, _, 0 => pure ()
  | lba, k, count + 1 => do
    writeSector E d (lba + k) (buf k)
    blkWriteLoop d buf lba (k + 1) count

def blkWrite (dev : Dev δ) (lba count : ℕ) (buf : ℕ → Sector) : CacheM δ Unit := do
  if rangeOk (dev.sectors E) lba count = false then Act.fail .einval
  else if dev.readonly E ∨ (E.disk dev.root).readonly then Act.fail .erofs
  else do
    let ready ← Act.read Cache.ready
    if ready then blkWriteLoop E dev.root buf (dev.absolute lba) 0 count
    else drvWrite E dev.root (dev.absolute lba) count buf

def blkFlush (dev : Dev δ) : CacheM δ Unit := flushRoot E dev.root

/-- `buf_get`. A buffer of `bnew` is zeroed and dirty, also when it was in the cache. -/
def bufGet (dev : Dev δ) (lba : ℕ) (fromDisk : Bool) : CacheM δ ℕ := do
  if rangeOk (dev.sectors E) lba 1 = false then Act.fail .einval
  else do
    let ready ← Act.read Cache.ready
    if ready = false then Act.fail .enomem
    else if fromDisk = false ∧ (dev.readonly E ∨ (E.disk dev.root).readonly) then Act.fail .erofs
    else do
      let b ← getBuf E dev.root (dev.absolute lba) fromDisk
      if fromDisk then pure b
      else do
        Act.modify fun s => s.setBuf b { s.pool b with data := Block.zero 512, dirty := true }
        pure b

def bread (dev : Dev δ) (lba : ℕ) : CacheM δ ℕ := bufGet E dev lba true

def bnew (dev : Dev δ) (lba : ℕ) : CacheM δ ℕ := bufGet E dev lba false

/-- A caller that holds the buffer changes its data. -/
def fill (b : ℕ) (data : Sector) : CacheM δ Unit :=
  Act.modify fun s => s.setBuf b { s.pool b with data := data }

def bdirty (b : ℕ) : CacheM δ Unit := Act.modify fun s => s.setBuf b { s.pool b with dirty := true }

def brelse (b : ℕ) : CacheM δ Unit :=
  Act.modify fun s => s.setBuf b { s.pool b with refs := (s.pool b).refs - 1 }

/-- `blk_init`, on disks with the given sectors. -/
def blkInit (disk : δ → View) : Cache δ where
  ready := true
  pool _ := ⟨none, 0, 0, false, Block.zero 512⟩
  chain _ := []
  lru := (List.range buffers).reverse
  disk := disk
  calls := 0

end Tach.BlockCache
