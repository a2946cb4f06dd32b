import Tach.FatNames
import Tach.FatTable

/-!
Reading directories in fat32.c: the cursor over the 32-byte slots of a cluster chain and the
iterator over visible entries with their long names.

The scanning loops of the source all have one shape: look at the slot under the cursor,
decide, advance. `scanDir` is that shape; each loop is given by what it decides on a slot.
-/

namespace Tach.Directory

open Actions ByteBlock FatData FatTable FatNames

variable {σ : Type} (V : Volume σ)

abbrev Slot := Block 32

def curInit (first : ℕ) : DirCur := ⟨first, 0, 0⟩

def curPeek (cur : DirCur) : FatM σ (Option Slot) :=
  if cur.cluster = 0 then pure none
  else readBuf V (V.clusterLba cur.cluster + cur.pos / 16)
    (fun d => some (d.window (cur.pos % 16 * 32) 32))

def curAdvance (cur : DirCur) : FatM σ DirCur :=
  if cur.pos + 1 < V.entriesPerCluster then pure { cur with pos := cur.pos + 1 }
  else if V.clusters < cur.steps + 1 then Act.fail .eio
  else do
    let next ← fatNext V cur.cluster
    pure ⟨next.getD 0, 0, cur.steps + 1⟩

/-- What a loop decides on a slot: go on, stop at it, or advance once more and stop. -/
inductive Visit (α β : Type)
  | next (a : α)
  | stop (b : β)
  | stopAfter (f : DirCur → β)

def scanDir {α β : Type} (visit : DirCur → Slot → α → Visit α β) (atEnd : DirCur → α → β) :
    ℕ → DirCur → α → FatM σ β
  | 0, _, _ => Act.fail .eio
  | fuel + 1, cur, a => do
    match ← curPeek V cur with
    | none => pure (atEnd cur a)
    | some e =>
      match visit cur e a with
      | .stop b => pure b
      | .stopAfter f => do
        let cur' ← curAdvance V cur
        pure (f cur')
      | .next a' => do
        let cur' ← curAdvance V cur
        scanDir visit atEnd fuel cur' a'

/-- More slots than a scan can look at: the cursor gives up after `clusters` links. -/
def dirFuel : ℕ := (V.clusters + 1) * V.entriesPerCluster + 1

/-- The locals of `dir_next` that collect a long name. -/
structure LfnState where
  units : ℕ → ℕ
  pending : ℕ
  totalSlots : ℕ
  checksum : ℕ

def LfnState.init : LfnState := ⟨fun _ => 0, 0, 0, 0⟩

def LfnState.drop (st : LfnState) : LfnState := { st with pending := 0 }

def lfnOffsets : List ℕ := [1, 3, 5, 7, 9, 14, 16, 18, 20, 22, 24, 28, 30]

def slotUnit (e : Slot) (i : ℕ) : ℕ := e.le16 (lfnOffsets.getD i 0)

/-- `(attr & 0x3F) == 0x0F`. -/
def isLfn (e : Slot) : Bool := (e 11).toNat % 64 = 15

def isDeleted (e : Slot) : Bool := e 0 = 0xE5

/-- `attr & 0x08`. -/
def isLabel (e : Slot) : Bool := (e 11).toNat / 8 % 2 = 1

def isDots (e : Slot) : Bool := e 0 = 0x2E ∧ (e 1 = 0x20 ∨ (e 1 = 0x2E ∧ e 2 = 0x20))

def LfnState.take (st : LfnState) (e : Slot) (slot total sum : ℕ) : LfnState where
  units := fun k => if (slot - 1) * 13 ≤ k ∧ k < (slot - 1) * 13 + 13
    then slotUnit e (k - (slot - 1) * 13) else st.units k
  pending := slot
  totalSlots := total
  checksum := sum

def LfnState.step (st : LfnState) (e : Slot) : LfnState :=
  let seq := (e 0).toNat
  if e 12 ≠ 0 ∨ e 26 ≠ 0 ∨ e 27 ≠ 0 then st.drop
  else if seq / 64 % 2 = 1 then
    if seq % 64 = 0 ∨ 20 < seq % 64 then st.drop
    else st.take e (seq % 64) (seq % 64) (e 13).toNat
  else if st.pending < 2 ∨ seq ≠ st.pending - 1 ∨ (e 13).toNat ≠ st.checksum then st.drop
  else st.take e seq st.totalSlots st.checksum

def rawOf (e : Slot) : List UInt8 := (List.range 11).map e

/-- The name shown for a short entry, after the long-name slots collected in `st`. -/
def entryName (st : LfnState) (e : Slot) : List UInt8 :=
  if st.pending = 1 ∧ shortChecksum (rawOf e) = st.checksum then
    (utf16ToUtf8 (nameMax + 1) 0 ((List.range (st.totalSlots * 13)).map st.units)).getD
      (buildShortName e).2
  else (buildShortName e).2

def entryInfo (st : LfnState) (cur : DirCur) (e : Slot) : Info where
  name := entryName st e
  shortName := (buildShortName e).1
  attr := e 11
  firstCluster := e.le16 20 * 65536 + e.le16 26
  size := if (e 11) &&& attrDir != 0 then 0 else e.le32 28
  wdate := e.le16 24
  wtime := e.le16 22
  dirCluster := cur.cluster
  dirPos := cur.pos

/-- What `dir_next` makes of a slot: the end mark, a slot it passes over, or an entry. -/
inductive Seen
  | endMark
  | skip (st : LfnState)
  | entry

def seeSlot (st : LfnState) (e : Slot) : Seen :=
  if e 0 = 0 then .endMark
  else if isDeleted e then .skip st.drop
  else if isLfn e then .skip (st.step e)
  else if isLabel e then .skip st.drop
  else if isDots e then .skip st.drop
  else .entry

def visitNext (cur : DirCur) (e : Slot) (st : LfnState) : Visit LfnState (Option Info × DirCur) :=
  match seeSlot st e with
  | .endMark => .stop (none, { cur with cluster := 0 })
  | .skip st' => .next st'
  | .entry => .stopAfter (fun cur' => (some (entryInfo st cur e), cur'))

def dirNext (cur : DirCur) : FatM σ (Option Info × DirCur) :=
  scanDir V visitNext (fun cur _ => (none, cur)) (dirFuel V) cur LfnState.init

def matchesName (name : List UInt8) (i : Info) : Bool :=
  nameEq i.name name || nameEq i.shortName name

def rootInfo (g : Geom) : Info := ⟨[], [], attrDir, g.rootCluster, 0, 0, 0, 0, 0⟩

end Tach.Directory
