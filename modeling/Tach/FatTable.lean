import Tach.FatData

/-!
The file allocation table of fat32.c: following a link, writing an entry to one copy or to
all of them, reserving a free cluster, giving a chain back and zeroing a cluster.
-/

namespace Tach.FatTable

open Actions Sectors FatData

variable {σ : Type} (V : Volume σ)

def entryBits (x : ℕ) : ℕ := x % 268435456

/-- `(old & 0xF0000000) | (value & 0x0FFFFFFF)`. -/
def entryWith (old value : ℕ) : ℕ := old / 268435456 * 268435456 + entryBits value

/-- The next cluster of the chain, or none at its end. A link to a free, reserved or bad
cluster or out of the volume is a corrupt table. -/
def fatNext (cluster : ℕ) : FatM σ (Option ℕ) :=
  if cluster < 2 ∨ V.clusters + 2 ≤ cluster then Act.fail .eio
  else do
    let value ← readBuf V (V.fatLba + cluster / 128)
      (fun d => entryBits (d.le32 (cluster % 128 * 4)))
    if eocMin ≤ value then pure none
    else if value < 2 ∨ V.clusters + 2 ≤ value then Act.fail .eio
    else pure (some value)

def fatPutCopy (copy cluster value : ℕ) : FatM σ Unit :=
  writeBuf V (V.fat0Lba + copy * V.fatSize + cluster / 128) (fun d =>
    d.put32 (cluster % 128 * 4) (entryWith (d.le32 (cluster % 128 * 4)) value))

/-- The entry is written to every copy, or only to the active one without mirroring. -/
def fatSet (cluster value : ℕ) : FatM σ Unit :=
  if cluster < 2 ∨ V.clusters + 2 ≤ cluster then Act.fail .eio
  else if V.mirror = false then fatPutCopy V V.fatActive cluster value
  else Act.each (fun copy => fatPutCopy V copy cluster value) (List.range V.numFats)

/-- The scan of one sector in `cluster_alloc`: the first free entry among `span` entries from
index `first` on becomes an end-of-chain mark. -/
def reserveIn (cl first span : ℕ) (d : Sector) : Option ℕ × Option Sector :=
  match (List.range span).find? (fun i => entryBits (d.le32 ((first + i) * 4)) = 0) with
  | none => (none, none)
  | some i =>
    (some (cl + i), some (d.put32 ((first + i) * 4) (entryWith (d.le32 ((first + i) * 4)) eoc)))

/-- The mirror copies of a reservation. When one cannot be written the reservation is undone. -/
def clusterAllocMirror (found : ℕ) : List ℕ → FatM σ Unit
  | [] => pure ()
  | copy :: rest => do
    match ← Act.attempt (fatPutCopy V copy found eoc) with
    | .ok () => clusterAllocMirror found rest
    | .error e => do
      let _ ← Act.attempt (fatPutCopy V V.fatActive found 0)
      modifyVol (fun v =>
        { v with freeCount := if v.freeCount = unknown then v.freeCount else u32 (v.freeCount + 1) })
      Act.fail e

/-- The counters after cluster `found` was reserved. -/
def noteAlloc (found : ℕ) (v : VolState) : VolState :=
  { v with
    freeCount := if v.freeCount = unknown ∨ v.freeCount = 0 then v.freeCount
      else v.freeCount - 1
    nextFree := if found + 1 < V.clusters + 2 then found + 1 else 2
    fsinfoDirty := true }

/-- The circular search; each round looks at the entries of one sector, so `remaining` rounds
are enough. -/
def clusterAllocLoop : ℕ → ℕ → ℕ → FatM σ ℕ
  | 0, _, _ => Act.fail .enospc
  | fuel + 1, cl, remaining =>
    if remaining = 0 then Act.fail .enospc
    else do
      let span := min (min (128 - cl % 128) remaining) (V.clusters + 2 - cl)
      match ← editBuf V (V.fatLba + cl / 128) (reserveIn cl (cl % 128) span) with
      | some found => do
        modifyVol (noteAlloc V found)
        if V.mirror then
          clusterAllocMirror V found ((List.range V.numFats).filter (· ≠ V.fatActive))
        pure found
      | none =>
        clusterAllocLoop fuel (if V.clusters + 2 ≤ cl + span then 2 else cl + span)
          (remaining - span)

/-- Reserve a free cluster and mark it as the end of a chain. Its contents stay as they are. -/
def clusterAlloc : FatM σ ℕ :=
  if V.readonly then Act.fail .erofs
  else do
    let hint ← readVol VolState.nextFree
    let cl := if hint < 2 ∨ V.clusters + 2 ≤ hint then 2 else hint
    clusterAllocLoop V V.clusters cl V.clusters

/-- What the loop of `cluster_free_chain` leaves: clusters freed, the lowest of them, error. -/
structure Freed where
  freed : ℕ
  lowest : ℕ
  error : Option Errno

/-- `budget` counts down from the number of clusters: when it is used up the chain loops. -/
def clusterFreeLoop : ℕ → ℕ → ℕ → ℕ → FatM σ Freed
  | 0, cl, freed, lowest =>
    pure ⟨freed, lowest, if V.InRange cl then some .eio else none⟩
  | budget + 1, cl, freed, lowest =>
    if V.InRange cl then do
      let link ← Act.attempt (fatNext V cl)
      match ← Act.attempt (fatSet V cl 0) with
      | .error e => pure ⟨freed, lowest, some e⟩
      | .ok () =>
        match link with
        | .error e => pure ⟨freed + 1, min cl lowest, some e⟩
        | .ok none => pure ⟨freed + 1, min cl lowest, none⟩
        | .ok (some next) => clusterFreeLoop budget next (freed + 1) (min cl lowest)
    else pure ⟨freed, lowest, none⟩

def noteFree (f : Freed) (v : VolState) : VolState :=
  if f.freed = 0 then v
  else
    { v with
      freeCount := if v.freeCount = unknown then v.freeCount
        else if V.clusters < u32 (v.freeCount + f.freed) then V.clusters
        else u32 (v.freeCount + f.freed)
      nextFree := min f.lowest v.nextFree
      fsinfoDirty := true }

/-- Free the chain from `first` on; 0 frees nothing. -/
def clusterFreeChain (first : ℕ) : FatM σ Unit := do
  let f ← clusterFreeLoop V V.clusters first 0 0xFFFFFFFF
  modifyVol (noteFree V f)
  match f.error with
  | none => pure ()
  | some e => Act.fail e

def clusterZero (cluster : ℕ) : FatM σ Unit :=
  Act.each (fun i => onBlk (V.layer.bnew (V.clusterLba cluster + i))) (List.range V.spc)

/-- Reserve a cluster, zero it if asked to and link it behind `prev` (0: no link). The mark
records a torn link: the write failed when the active copy already pointed to the new
cluster, which is freed next. -/
def chainGrow (prev : ℕ) (zero : Bool) : FatM σ ℕ := do
  let fresh ← clusterAlloc V
  let linked ← Act.attempt do
    if zero then clusterZero V fresh
    if prev ≠ 0 then fatSet V prev fresh
  match linked with
  | .ok () => pure fresh
  | .error e => do
    Act.markIf (fun s => prev ≠ 0 ∧ entryBits ((V.view s (V.fatLba + prev / 128)).le32
      (prev % 128 * 4)) = fresh)
    let _ ← Act.attempt (clusterFreeChain V fresh)
    Act.fail e

end Tach.FatTable
