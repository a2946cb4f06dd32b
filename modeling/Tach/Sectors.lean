import Tach.Actions
import Tach.ByteBlock

/-!
The block layer as a file system driver sees it: sectors of one device, reached through
`bread`/`bdirty`/`brelse` brackets, `bnew`, `blk_read`, `blk_write` and `blk_flush`. A
`BlockLayer` bundles these calls with what they do to the view, the sectors as they read
through the cache. Any call may fail; a failed call leaves the view alone, except that a
failed `blk_write` may have stored a prefix. From a quiet state no call in range fails.

A memory with a script of failing calls is one such layer.
-/

namespace Tach.Sectors

open Actions ByteBlock

/-- The codes of errno.h that the modelled sources return, without the sign, and the internal
code of fat32.c for a missing parent directory. -/
inductive Errno
  | eperm | enoent | esrch | eintr | eio | ebadf | echild | enomem | eacces | efault | ebusy
  | eexist | exdev | enodev | enotdir | eisdir | einval | enfile | emfile | efbig | enospc
  | espipe | erofs | epipe | enametoolong | enotempty | enotsup | eoverflow | e2big | enoexec
  | resolveNoParent
  deriving DecidableEq, Repr

abbrev Sector := Block 512

abbrev View := ℕ → Sector

/-- Sector `k` of the bytes at `buf`, as `memcpy` copies them. -/
def sectorOf (buf : ℕ → UInt8) (k : ℕ) : Sector := Block.ofFn 512 (fun i => buf (512 * k + i))

/-- The view after the first `k` sectors at `buf` were stored from `lba` on. -/
def View.store (v : View) (lba k : ℕ) (buf : ℕ → UInt8) : View := fun l =>
  if lba ≤ l ∧ l < lba + k then sectorOf buf (l - lba) else v l

/-- The bytes of `count` sectors from `lba` on. -/
def View.bytes (v : View) (lba count : ℕ) : List UInt8 :=
  (List.range (512 * count)).map (fun i => v (lba + i / 512) (i % 512))

/-- A change of the sector at `lba`, when the visitor of its buffer made one. -/
def View.edit (v : View) (lba : ℕ) : Option Sector → View
  | none => v
  | some d => Function.update v lba d

structure BlockLayer (σ : Type) where
  sectors : ℕ
  readonly : Bool
  /-- The sectors as they read through the cache. -/
  view : σ → View
  /-- The sectors on the device itself. -/
  device : σ → View
  /-- No call of the driver fails from this state on. -/
  quiet : σ → Prop
  /-- `bread`, an inspection of the data that may also change it and call `bdirty`, `brelse`. -/
  withBuf : {α : Type} → ℕ → (Sector → α × Option Sector) → Act σ Errno α
  /-- `bnew` and `brelse`. -/
  bnew : ℕ → Act σ Errno Unit
  blkRead : ℕ → ℕ → Act σ Errno (List UInt8)
  blkWrite : ℕ → ℕ → (ℕ → UInt8) → Act σ Errno Unit
  blkFlush : Act σ Errno Unit
  withBuf_spec : ∀ {α : Type} (lba : ℕ) (f : Sector → α × Option Sector) (s : σ),
    (quiet s → lba < sectors → (f (view s lba)).2 = none ∨ readonly = false →
      ∃ t, withBuf lba f s = ⟨.ok (f (view s lba)).1, t, false⟩ ∧ quiet t ∧
        view t = (view s).edit lba (f (view s lba)).2) ∧
    ∃ r t, withBuf lba f s = ⟨r, t, false⟩ ∧ ((r = .ok (f (view s lba)).1 ∧ lba < sectors ∧
          view t = (view s).edit lba (f (view s lba)).2) ∨
        (∃ e, r = .error e ∧ view t = view s))
  bnew_spec : ∀ (lba : ℕ) (s : σ), (quiet s → lba < sectors → readonly = false →
      ∃ t, bnew lba s = ⟨.ok (), t, false⟩ ∧ quiet t ∧
        view t = Function.update (view s) lba (Block.zero 512)) ∧
    ∃ r t, bnew lba s = ⟨r, t, false⟩ ∧
      ((r = .ok () ∧ lba < sectors ∧ view t = Function.update (view s) lba (Block.zero 512)) ∨
        (∃ e, r = .error e ∧ view t = view s))
  blkRead_spec : ∀ (lba count : ℕ) (s : σ), (quiet s → 0 < count → lba + count ≤ sectors →
      ∃ t, blkRead lba count s = ⟨.ok ((view s).bytes lba count), t, false⟩ ∧ quiet t ∧
        view t = view s) ∧
    ∃ r t, blkRead lba count s = ⟨r, t, false⟩ ∧ view t = view s ∧
      (r = .ok ((view s).bytes lba count) ∨ ∃ e, r = .error e)
  blkWrite_spec : ∀ (lba count : ℕ) (buf : ℕ → UInt8) (s : σ),
    (quiet s → 0 < count → lba + count ≤ sectors → readonly = false →
      ∃ t, blkWrite lba count buf s = ⟨.ok (), t, false⟩ ∧ quiet t ∧
        view t = (view s).store lba count buf) ∧
    ∃ r t k, blkWrite lba count buf s = ⟨r, t, false⟩ ∧ k ≤ count ∧
      (0 < k → lba + count ≤ sectors) ∧ view t = (view s).store lba k buf ∧
      ((r = .ok () ∧ k = count) ∨ ∃ e, r = .error e)
  blkFlush_spec : ∀ s : σ,
    ∃ r t, blkFlush s = ⟨r, t, false⟩ ∧ view t = view s ∧ (quiet s → quiet t) ∧
      (r = .ok () → device t = view t)

end Tach.Sectors
