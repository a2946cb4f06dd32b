import Tach.FatView

/-!
Rules for the calls the driver makes to the block layer of a device without faults. `Reads V v m x`
is for computations that only look: on every state with view `v` they return `x`. The rules for
writes say which sector of the view changes.
-/

namespace Tach.DriverRules

open Actions ByteBlock Sectors FatData FatView

variable {σ α β : Type} {V : Volume σ}

/-- The entries of the table copies, the active table and the cluster contents in a state. -/
def raw (V : Volume σ) (s : Fs σ) : ℕ → ℕ → ℕ := rawEntry V.toGeom (V.view s)

def table (V : Volume σ) (s : Fs σ) : ℕ → ℕ := fat V.toGeom (V.view s)

def contents (V : Volume σ) (s : Fs σ) : ℕ → ℕ → UInt8 := cdata V.toGeom (V.view s)

def Same (V : Volume σ) (s t : Fs σ) : Prop := V.view t = V.view s ∧ t.vol = s.vol

namespace Same

variable {s t u : Fs σ}

theorem refl (s : Fs σ) : Same V s s := ⟨rfl, rfl⟩

theorem trans (h : Same V s t) (h' : Same V t u) : Same V s u :=
  ⟨h'.1.trans h.1, h'.2.trans h.2⟩

theorem raw_eq (h : Same V s t) : raw V t = raw V s := by rw [raw, raw, h.1]

theorem table_eq (h : Same V s t) : table V t = table V s := by rw [table, table, h.1]

theorem contents_eq (h : Same V s t) : contents V t = contents V s := by
  rw [contents, contents, h.1]

end Same

section Calls

variable {s : Fs σ} {lba count : ℕ}

/-- A call of the block layer, from what it does in a quiet state. -/
theorem runs_onBlk {m : Act σ Errno α} {a : α} {w : View} (h : V.quiet s →
      ∃ t, m s.io = ⟨.ok a, t, false⟩ ∧ V.layer.quiet t ∧ V.layer.view t = w) :
    Runs V.quiet (onBlk m) s fun r t => r = .ok a ∧ t.vol = s.vol ∧ V.view t = w := by
  intro hq
  obtain ⟨t, hm, hqt, hw⟩ := h hq
  unfold Ends onBlk Act.zoom
  rw [hm]
  exact ⟨hqt, rfl, rfl, hw⟩

theorem runs_editBuf (f : Sector → α × Option Sector) (hlba : lba < V.total)
    (hrw : V.readonly = false) : Runs V.quiet (editBuf V lba f) s fun r t =>
      r = .ok (f (V.view s lba)).1 ∧ t.vol = s.vol ∧
        V.view t = (V.view s).edit lba (f (V.view s lba)).2 :=
  runs_onBlk fun hq => (V.layer.withBuf_spec lba f s.io).1 hq (Nat.lt_of_lt_of_le hlba V.fits)
    (Or.inr (V.ro.symm.trans hrw))

theorem runs_writeBuf (f : Sector → Sector) (hlba : lba < V.total) (hrw : V.readonly = false) :
    Runs V.quiet (writeBuf V lba f) s fun r t => r = .ok () ∧ t.vol = s.vol ∧
      V.view t = Function.update (V.view s) lba (f (V.view s lba)) :=
  runs_editBuf (fun d => ((), some (f d))) hlba hrw

theorem runs_bnew (hlba : lba < V.total) (hrw : V.readonly = false) :
    Runs V.quiet (onBlk (V.layer.bnew lba)) s fun r t => r = .ok () ∧ t.vol = s.vol ∧
      V.view t = Function.update (V.view s) lba (Block.zero 512) :=
  runs_onBlk fun hq => (V.layer.bnew_spec lba s.io).1 hq (Nat.lt_of_lt_of_le hlba V.fits)
    (V.ro.symm.trans hrw)

theorem runs_blkWrite (buf : ℕ → UInt8) (hcount : 0 < count) (hlba : lba + count ≤ V.total)
    (hrw : V.readonly = false) :
    Runs V.quiet (onBlk (V.layer.blkWrite lba count buf)) s fun r t => r = .ok () ∧
      t.vol = s.vol ∧ V.view t = (V.view s).store lba count buf :=
  runs_onBlk fun hq => (V.layer.blkWrite_spec lba count buf s.io).1 hq hcount
    (Nat.le_trans hlba V.fits) (V.ro.symm.trans hrw)

end Calls

def Reads (V : Volume σ) (v : View) (m : FatM σ α) (x : Except Errno α) : Prop :=
  ∀ s, V.view s = v → Runs V.quiet m s fun r t => r = x ∧ Same V s t

namespace Reads

variable {v : View} {m : FatM σ α} {f : α → FatM σ β} {y : Except Errno β}

theorem ret (a : α) : Reads V v (pure a) (.ok a) := fun s _ => Runs.ret ⟨rfl, Same.refl s⟩

theorem fail (e : Errno) : Reads V v (Act.fail e : FatM σ α) (.error e) :=
  fun s _ => Runs.fail ⟨rfl, Same.refl s⟩

theorem bind_ok {a : α} (h : Reads V v m (.ok a)) (h' : Reads V v (f a) y) :
    Reads V v (m >>= f) y := fun s hs => (h s hs).bind_ok fun t hst =>
  (h' t (hst.1.trans hs)).mono fun _ _ hu => ⟨hu.1, hst.trans hu.2⟩

theorem bind_error {e : Errno} (h : Reads V v m (.error e)) : Reads V v (m >>= f) (.error e) := by
  refine fun s hs => (h s hs).bind (fun a t ht => ?_) fun e' t ht => ?_
  · cases ht.1
  · cases ht.1
    exact ⟨rfl, ht.2⟩

theorem readBuf {lba : ℕ} (f : Sector → α) (hlba : lba < V.total) :
    Reads V v (readBuf V lba f) (.ok (f (v lba))) := by
  rintro s rfl
  refine (runs_onBlk fun hq => (V.layer.withBuf_spec lba (fun d => (f d, none)) s.io).1 hq
    (Nat.lt_of_lt_of_le hlba V.fits) (Or.inl rfl)).mono fun r t ht => ?_
  exact ⟨ht.1, ht.2.2, ht.2.1⟩

theorem runs {s : Fs σ} {x : Except Errno α} (h : Reads V (V.view s) m x) :
    Runs V.quiet m s fun r t => r = x ∧ Same V s t := h s rfl

end Reads

end Tach.DriverRules
