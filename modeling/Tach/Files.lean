import Tach.Directory

/-!
Files of fat32.c: reading, the write engine `file_put` with its growing chain, `fat32_write`
with the zero fill of a hole, and `fat32_readdir`. A node function runs on the file system state
together with the node it was given; loops that a device error only interrupts return the error
with what was done.
-/

namespace Tach.Files

open Actions ByteBlock Sectors FatData FatTable Directory

variable {σ : Type} (V : Volume σ)

abbrev NodeM (σ α : Type) := Act (Fs σ × Node) Errno α

def onFs {α : Type} (m : FatM σ α) : NodeM σ α := Act.zoom Prod.fst (fun s p => (s, p.2)) m

def readNode {α : Type} (f : Node → α) : NodeM σ α := Act.read (fun p => f p.2)

def modifyNode (f : Node → Node) : NodeM σ Unit := Act.modify (fun p => (p.1, f p.2))

/-- Where a walk to cluster `index` of the file starts: the cached position if it is not
behind `index`, else the first cluster. -/
def Node.walkStart (n : Node) (index : ℕ) : ℕ × ℕ :=
  if n.chainCluster ≠ 0 ∧ n.chainIndex ≤ index then (n.chainIndex, n.chainCluster)
  else (0, n.info.firstCluster)

def Node.cacheAt (n : Node) (index cluster : ℕ) : Node :=
  { n with chainIndex := index, chainCluster := cluster }

/-- `steps` links on from `cluster`; the end of the chain counts as an error. -/
def readWalk : ℕ → ℕ → FatM σ ℕ
  | 0, cluster => pure cluster
  | steps + 1, cluster => do
    match ← fatNext V cluster with
    | none => Act.fail .eio
    | some next => readWalk steps next

/-- How a reading or writing loop over the clusters of a file ended: its position in the chain
and the error that interrupted it, if any. -/
structure LoopEnd (α : Type) where
  value : α
  index : ℕ
  cluster : ℕ
  error : Option Errno

def sectorBytes (d : Sector) (from_ n : ℕ) : List UInt8 :=
  (List.range n).map (fun i => d (from_ + i))

/-- One round copies the whole sectors left in the cluster, or a piece of one sector. -/
def readChunk (pos cluster left : ℕ) : FatM σ (List UInt8) :=
  let inCluster := pos % V.csize
  let sector := inCluster / 512
  let inSector := inCluster % 512
  if inSector = 0 ∧ 512 ≤ left then
    onBlk (V.layer.blkRead (V.clusterLba cluster + sector) (min (left / 512) (V.spc - sector)))
  else
    readBuf V (V.clusterLba cluster + sector)
      (fun d => sectorBytes d inSector (min (512 - inSector) left))

def readLoop (count : ℕ) : ℕ → List UInt8 → ℕ → ℕ → ℕ → FatM σ (LoopEnd (List UInt8))
  | 0, out, _, index, cluster => pure ⟨out, index, cluster, none⟩
  | fuel + 1, out, pos, index, cluster =>
    if out.length < count then do
      match ← Act.attempt (readChunk V pos cluster (count - out.length)) with
      | .error e => pure ⟨out, index, cluster, some e⟩
      | .ok bytes =>
        let out := out ++ bytes
        let pos := pos + bytes.length
        if out.length < count ∧ pos % V.csize = 0 then do
          match ← Act.attempt (fatNext V cluster) with
          | .error e => pure ⟨out, index, cluster, some e⟩
          | .ok none => pure ⟨out, index, cluster, some .eio⟩
          | .ok (some next) => readLoop count fuel out pos (index + 1) next
        else readLoop count fuel out pos index cluster
    else pure ⟨out, index, cluster, none⟩

/-- The bytes read; fewer than asked for at the end of the file, after an error behind the
first byte, or past 2 GiB - 1. -/
def fat32Read (offset count : ℕ) : NodeM σ (List UInt8) := do
  let n ← readNode id
  if n.info.isDir then Act.fail .eisdir
  else if n.info.size ≤ offset ∨ count = 0 then pure []
  else do
    let count := min (min count (n.info.size - offset)) 0x7FFFFFFF
    let index := offset / V.csize
    let start := Node.walkStart n index
    if start.2 < 2 then Act.fail .eio
    else do
      let cluster ← onFs (readWalk V (index - start.1) start.2)
      let r ← onFs (readLoop V count count [] offset index cluster)
      modifyNode (fun n => Node.cacheAt n r.index r.cluster)
      if r.value = [] then Act.fail (r.error.getD .eio) else pure r.value

/-- The node was changed now; `grow` is a size it must at least have. -/
def Node.touched (n : Node) (now : ℕ × ℕ) (grow : Option ℕ) : Node :=
  { n with
    info := { n.info with
      size := max n.info.size (grow.getD 0)
      wdate := now.1
      wtime := now.2
      attr := n.info.attr ||| attrArch }
    dirty := true }

def nodeTouch (grow : Option ℕ) : NodeM σ Unit := do
  let now ← onFs fatNow
  modifyNode (fun n => Node.touched n now grow)

/-- The walk of `file_put` to the cluster of the offset, which extends a chain that ends
before it; `covered` says that the cluster of the offset will be written as a whole. -/
def putWalk (covered : Bool) : ℕ → ℕ → FatM σ ℕ
  | 0, cluster => pure cluster
  | steps + 1, cluster => do
    match ← fatNext V cluster with
    | some next => putWalk covered steps next
    | none => do
      let next ← chainGrow V cluster (!(steps = 0 ∧ covered))
      putWalk covered steps next

def putSeek (offset count : ℕ) : NodeM σ ℕ := do
  let n ← readNode id
  let index := offset / V.csize
  let covered : Bool := offset % V.csize = 0 ∧ V.csize ≤ count
  let start := Node.walkStart n index
  if start.2 < 2 then do
    let cluster ← onFs (chainGrow V 0 (!(index = 0 ∧ covered)))
    modifyNode (fun n =>
      { n with info := { n.info with firstCluster := cluster }, chainIndex := 0,
               chainCluster := cluster, dirty := true })
    onFs (putWalk V covered index cluster)
  else onFs (putWalk V covered (index - start.1) start.2)

/-- Byte `i` of the source; a null pointer stands for zeros. -/
def srcByte (src : Option (ℕ → UInt8)) (i : ℕ) : UInt8 :=
  match src with
  | some buf => buf i
  | none => 0

/-- One round stores whole sectors up to the end of the cluster, or a piece of one sector; the
result is the number of bytes. -/
def putChunk (src : Option (ℕ → UInt8)) (pos done cluster left : ℕ) : FatM σ ℕ :=
  let inCluster := pos % V.csize
  let sector := inCluster / 512
  let inSector := inCluster % 512
  let lba := V.clusterLba cluster + sector
  if inSector = 0 ∧ 512 ≤ left then
    let want := min (left / 512) (V.spc - sector)
    match src with
    | some buf => do
      onBlk (V.layer.blkWrite lba want (fun i => buf (done + i)))
      pure (want * 512)
    | none => do
      Act.each (fun w => onBlk (V.layer.bnew (lba + w))) (List.range want)
      pure (want * 512)
  else do
    let chunk := min (512 - inSector) left
    writeBuf V lba (fun d => Block.ofFn 512 (fun i =>
      if inSector ≤ i ∧ i < inSector + chunk then srcByte src (done + (i - inSector)) else d i))
    pure chunk

def putLoop (offset : ℕ) (src : Option (ℕ → UInt8)) (count : ℕ) :
    ℕ → ℕ → ℕ → ℕ → FatM σ (LoopEnd ℕ)
  | 0, done, index, cluster => pure ⟨done, index, cluster, none⟩
  | fuel + 1, done, index, cluster =>
    if done < count then do
      match ← Act.attempt (putChunk V src (offset + done) done cluster (count - done)) with
      | .error e => pure ⟨done, index, cluster, some e⟩
      | .ok chunk =>
        let done := done + chunk
        if done < count ∧ (offset + done) % V.csize = 0 then do
          match ← Act.attempt (fatNext V cluster) with
          | .error e => pure ⟨done, index, cluster, some e⟩
          | .ok (some next) => putLoop offset src count fuel done (index + 1) next
          | .ok none => do
            match ← Act.attempt (chainGrow V cluster (count - done < V.csize)) with
            | .error e => pure ⟨done, index, cluster, some e⟩
            | .ok next => putLoop offset src count fuel done (index + 1) next
        else putLoop offset src count fuel done index cluster
    else pure ⟨done, index, cluster, none⟩

/-- The write engine. The result is the number of bytes stored and the error, if any. -/
def filePut (offset : ℕ) (src : Option (ℕ → UInt8)) (count : ℕ) :
    NodeM σ (ℕ × Option Errno) := do
  match ← Act.attempt (putSeek V offset count) with
  | .error e => pure (0, some e)
  | .ok cluster => do
    let r ← onFs (putLoop V offset src count count 0 (offset / V.csize) cluster)
    modifyNode (fun n => Node.cacheAt n r.index r.cluster)
    pure (r.value, r.error)

def writeCheck : NodeM σ Unit := do
  let n ← readNode id
  if n.info.isDir then Act.fail .eisdir
  else if V.readonly then Act.fail .erofs
  else if n.info.isRo then Act.fail .eacces
  else pure ()

/-- `return error`, none standing for 0. -/
def failWith : Option Errno → NodeM σ Unit
  | none => pure ()
  | some e => Act.fail e

/-- Zeros from the end of the file up to `newSize`; the size grows by what was stored. -/
def fillZeros (newSize : ℕ) : NodeM σ Unit := do
  let size ← readNode (fun n => n.info.size)
  let r ← filePut V size none (newSize - size)
  if r.1 ≠ 0 then nodeTouch (some (size + r.1))
  failWith r.2

/-- The last part of `fat32_write`, behind the fill of a hole. -/
def writeTail (offset : ℕ) (buf : ℕ → UInt8) (count : ℕ) : NodeM σ ℕ := do
  let r ← filePut V offset (some buf) count
  nodeTouch (if r.1 = 0 then none else some (offset + r.1))
  if r.1 ≠ 0 then pure r.1 else Act.fail (r.2.getD .eio)

/-- The number of bytes written from `buf`, after a hole was filled with zeros. -/
def fat32Write (offset : ℕ) (buf : ℕ → UInt8) (count : ℕ) : NodeM σ ℕ := do
  writeCheck V
  if count = 0 then pure 0
  else if offset = maxSize then Act.fail .efbig
  else do
    let count := min (min count 0x7FFFFFFF) (maxSize - offset)
    let size ← readNode (fun n => n.info.size)
    if size < offset then fillZeros V offset
    writeTail V offset buf count

def readdirLoop (index : ℕ) : ℕ → DirCur → ℕ → FatM σ (Option Info × DirCur × ℕ)
  | 0, _, _ => Act.fail .eio
  | fuel + 1, cur, at_ => do
    let r ← dirNext V cur
    match r.1 with
    | none => pure (none, r.2, at_)
    | some i =>
      if at_ = index then pure (some i, r.2, at_ + 1) else readdirLoop index fuel r.2 (at_ + 1)

/-- Entry number `index` of a directory node, resumed from the cursor of the last call. -/
def fat32Readdir (index : ℕ) : NodeM σ (Option Info) := do
  let n ← readNode id
  if n.info.isDir = false then Act.fail .enotdir
  else do
    let resume : Bool := n.rdValid ∧ n.rdNext ≤ index
    let cur := if resume then n.rdCur else curInit n.info.firstCluster
    let r ← onFs (readdirLoop V index (dirFuel V) cur (if resume then n.rdNext else 0))
    modifyNode (fun n => { n with rdCur := r.2.1, rdNext := r.2.2, rdValid := true })
    pure r.1

end Tach.Files
