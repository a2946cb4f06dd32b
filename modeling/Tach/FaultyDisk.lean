import Tach.BlockCache

/-!
Calls on a disk whose driver works. Such a call fails when it needs a buffer and cannot have
one: because all buffers are pinned, or because the buffer that `take_victim` stops at is
dirty and its own disk refuses the write. The second case makes a faulty disk break calls on
another one, although the next buffer in the order may be free.
-/

namespace Tach.BlockCache

open Function List Actions ByteBlock Sectors Cache

variable {δ α : Type}

/-- An operation of the block layer on some device, or of a caller on a buffer. -/
inductive Op (δ : Type)
  | read (dev : Dev δ) (lba count : ℕ)
  | write (dev : Dev δ) (lba count : ℕ) (buf : ℕ → Sector)
  | bread (dev : Dev δ) (lba : ℕ)
  | bnew (dev : Dev δ) (lba : ℕ)
  | fill (b : ℕ) (data : Sector)
  | bdirty (b : ℕ)
  | brelse (b : ℕ)
  | flush (dev : Dev δ)

def Op.after [DecidableEq δ] (E : Setup δ) (s : Cache δ) : Op δ → Cache δ
  | .read dev lba count => (blkRead E dev lba count s).state
  | .write dev lba count buf => (blkWrite E dev lba count buf s).state
  | .bread dev lba => (BlockCache.bread E dev lba s).state
  | .bnew dev lba => (BlockCache.bnew E dev lba s).state
  | .fill b data => (BlockCache.fill b data s).state
  | .bdirty b => (BlockCache.bdirty b s).state
  | .brelse b => (BlockCache.brelse b s).state
  | .flush dev => (blkFlush E dev s).state

/-- The states of the cache: after `blk_init` and any operations on any disks. -/
inductive Reached [DecidableEq δ] (E : Setup δ) : Cache δ → Prop
  | init (disk : δ → View) : Reached E (blkInit disk)
  | op {s : Cache δ} (h : Reached E s) (o : Op δ) : Reached E (o.after E s)

/-- Every buffer is in the order of use, and the chains hold buffers. -/
structure Sound (s : Cache δ) : Prop where
  ready : s.ready = true
  lru : s.lru.Perm (List.range buffers)
  chains : ∀ h, ∀ b ∈ s.chain h, b < buffers

def AllPinned (s : Cache δ) : Prop := ∀ b < buffers, (s.pool b).refs ≠ 0

/-- The buffer is clean, or its disk takes the write. -/
def Accepts (E : Setup δ) (s : Cache δ) (b : ℕ) : Prop :=
  (s.pool b).dirty = true → ∀ d, (s.pool b).dev = some d →
    (E.disk d).readonly = false ∧ (E.disk d).writes = true ∧
      rangeOk (E.disk d).sectors (s.pool b).lba 1 = true ∧ E.fault d s.calls = none

/-- The least recently used unpinned buffer can be had. -/
def Settled (E : Setup δ) (s : Cache δ) : Prop := ∀ b, s.victim = some b → Accepts E s b

/-- The driver works, and the sectors are on the disk. -/
structure Serves (E : Setup δ) (d : δ) (lba : ℕ) : Prop where
  calm : ∀ n, E.fault d n = none
  range : lba < (E.disk d).sectors

section Effects

variable {E : Setup δ} {s t u : Cache δ} {d : δ} {b lba : ℕ}

/-- The chains, the order and the pins are as before. -/
structure Frame (s t : Cache δ) : Prop where
  ready : t.ready = s.ready
  lru : t.lru = s.lru
  chain : t.chain = s.chain
  refs : ∀ b, (t.pool b).refs = (s.pool b).refs

theorem Frame.refl (s : Cache δ) : Frame s s := ⟨rfl, rfl, rfl, fun _ => rfl⟩

theorem Frame.trans (h : Frame s t) (h' : Frame t u) : Frame s u :=
  ⟨h'.ready.trans h.ready, h'.lru.trans h.lru, h'.chain.trans h.chain,
    fun b => (h'.refs b).trans (h.refs b)⟩

theorem Frame.sound (h : Frame s t) (hs : Sound s) : Sound t :=
  ⟨h.ready.trans hs.ready, h.lru ▸ hs.lru, fun k b hb => hs.chains k b (h.chain ▸ hb)⟩

theorem Frame.setBuf (s : Cache δ) {x : Buf δ} (hx : x.refs = (s.pool b).refs) :
    Frame s (s.setBuf b x) := by
  refine ⟨rfl, rfl, rfl, fun c => ?_⟩
  by_cases hc : c = b
  · simp [Cache.setBuf, hc, hx]
  · simp [Cache.setBuf, hc]

theorem Sound.setBuf (h : Sound s) (b : ℕ) (x : Buf δ) : Sound (s.setBuf b x) :=
  ⟨h.ready, h.lru, h.chains⟩

theorem Sound.touch (h : Sound s) (hb : b < buffers) : Sound (s.touch b) := by
  refine ⟨h.ready, ?_, h.chains⟩
  have hmem : b ∈ s.lru := h.lru.mem_iff.mpr (mem_range.mpr hb)
  exact (perm_cons_erase hmem).symm.trans h.lru

theorem Sound.editChain (h : Sound s) {k : ℕ} {f : List ℕ → List ℕ}
    (hf : ∀ c ∈ f (s.chain k), c < buffers) : Sound (s.editChain k f) := by
  refine ⟨h.ready, h.lru, fun j c hc => ?_⟩
  by_cases hj : j = k
  · simp only [Cache.editChain, hj, update_self] at hc
    exact hf c hc
  · simp only [Cache.editChain, update_of_ne hj] at hc
    exact h.chains j c hc

theorem Sound.hashRemove (h : Sound s) (E : Setup δ) (b : ℕ) : Sound (s.hashRemove E b) := by
  unfold Cache.hashRemove
  split
  · exact h
  · exact h.editChain fun c hc => h.chains _ c (mem_of_mem_erase hc)

theorem hashRemove_pool (s : Cache δ) (E : Setup δ) (b : ℕ) : (s.hashRemove E b).pool = s.pool := by
  unfold Cache.hashRemove
  split
  · rfl
  · rfl

theorem Sound.install (h : Sound s) (hb : b < buffers) (E : Setup δ) (d : δ) (lba : ℕ)
    (data : Sector) : Sound (install E d lba b data s) := by
  refine Sound.touch (Sound.editChain (h.setBuf b _) fun c hc => ?_) hb
  obtain hc | hc := mem_cons.mp hc
  · rw [hc]
    exact hb
  · exact h.chains _ c hc

theorem install_refs (s : Cache δ) (E : Setup δ) (d : δ) (lba b : ℕ) (data : Sector) (c : ℕ) :
    ((install E d lba b data s).pool c).refs = if c = b then 1 else (s.pool c).refs := by
  by_cases hc : c = b <;>
    simp [BlockCache.install, Cache.touch, Cache.hashInsert, Cache.editChain, Cache.setBuf, hc]

theorem Sound.lookup_lt [DecidableEq δ] (h : Sound s) (hl : s.lookup E d lba = some b) : b < buffers :=
  h.chains _ b (mem_of_find?_eq_some hl)

theorem victim_spec (h : Sound s) (hv : s.victim = some b) : b < buffers ∧ (s.pool b).refs = 0 := by
  have hmem := mem_of_find?_eq_some hv
  have hrefs := List.find?_some hv
  refine ⟨?_, by simpa using hrefs⟩
  exact mem_range.mp (h.lru.mem_iff.mp (mem_reverse.mp hmem))

theorem victim_eq_none_iff (h : Sound s) : s.victim = none ↔ AllPinned s := by
  unfold Cache.victim AllPinned
  rw [List.find?_eq_none]
  constructor
  · intro hnone c hc hrefs
    have hmem : c ∈ s.lru := h.lru.mem_iff.mpr (mem_range.mpr hc)
    exact hnone c (mem_reverse.mpr hmem) (by simpa using hrefs)
  · intro hall c hc hrefs
    have hmem := h.lru.mem_iff.mp (mem_reverse.mp hc)
    exact hall c (mem_range.mp hmem) (by simpa using hrefs)

end Effects

section Calls

variable [DecidableEq δ] {E : Setup δ} {s t : Cache δ} {d : δ} {b lba count : ℕ}

omit [DecidableEq δ] in
theorem ends_driver (f : Cache δ → α × Cache δ) : Ends (driver E d f) s fun r t =>
      (∃ e, E.fault d s.calls = some e ∧ r = .error e ∧ t = { s with calls := s.calls + 1 }) ∨
        (E.fault d s.calls = none ∧ r = .ok (f { s with calls := s.calls + 1 }).1 ∧
          t = (f { s with calls := s.calls + 1 }).2) := by
  unfold Ends driver
  split
  · rename_i e he
    exact .inl ⟨e, he, rfl, rfl⟩
  · rename_i he
    exact .inr ⟨he, rfl, rfl⟩

omit [DecidableEq δ] in
theorem ends_drvRead : Ends (drvRead E d lba count) s fun r t => Frame s t ∧
    ((∀ n, E.fault d n = none) → rangeOk (E.disk d).sectors lba count = true → ∃ f, r = .ok f) := by
  unfold drvRead
  split
  · apply (ends_driver _).mono
    intro r t h
    obtain ⟨e, he, -, ht⟩ | ⟨-, hr, ht⟩ := h
    · refine ⟨ht ▸ ⟨rfl, rfl, rfl, fun _ => rfl⟩, fun hcalm => ?_⟩
      rw [hcalm] at he
      cases he
    · exact ⟨ht ▸ ⟨rfl, rfl, rfl, fun _ => rfl⟩, fun _ _ => ⟨_, hr⟩⟩
  · rename_i hrange
    exact Ends.fail ⟨.refl s, fun _ hr => absurd hr hrange⟩

theorem ends_drvWrite (buf : ℕ → Sector) :
    Ends (drvWrite E d lba count buf) s fun r t => Frame s t ∧ t.pool = s.pool ∧
      ((∃ e, r = .error e) ↔ ¬((E.disk d).readonly = false ∧ (E.disk d).writes = true ∧
        rangeOk (E.disk d).sectors lba count = true ∧ E.fault d s.calls = none)) := by
  unfold drvWrite
  split
  · rename_i hro
    exact Ends.fail ⟨.refl s, rfl, ⟨fun _ h => by simp [hro] at h, fun _ => ⟨_, rfl⟩⟩⟩
  · split
    · rename_i hw
      exact Ends.fail ⟨.refl s, rfl, ⟨fun _ h => by simp [hw] at h, fun _ => ⟨_, rfl⟩⟩⟩
    · split
      · rename_i hro hw hrange
        apply (ends_driver _).mono
        intro r t h
        obtain ⟨e, he, hr, ht⟩ | ⟨he, hr, ht⟩ := h
        · refine ⟨ht ▸ ⟨rfl, rfl, rfl, fun _ => rfl⟩, by rw [ht], fun _ h => ?_, fun _ => ⟨e, hr⟩⟩
          rw [h.2.2.2] at he
          cases he
        · refine ⟨ht ▸ ⟨rfl, rfl, rfl, fun _ => rfl⟩, by rw [ht], fun hbad => ?_, fun hbad => ?_⟩
          · obtain ⟨e, hbad⟩ := hbad
            rw [hr] at hbad
            cases hbad
          · exact absurd ⟨Bool.of_not_eq_true hro, Bool.of_not_eq_false hw, hrange, he⟩ hbad
      · rename_i hrange
        exact Ends.fail ⟨.refl s, rfl, ⟨fun _ h => hrange h.2.2.1, fun _ => ⟨_, rfl⟩⟩⟩

/-- A write-back fails exactly when the buffer is dirty and its disk refuses the write. -/
theorem ends_writeBack : Ends (writeBack E b) s fun r t =>
    Frame s t ∧ ((∃ e, r = .error e) ↔ ¬Accepts E s b) := by
  apply Ends.read_bind
  split
  · rename_i d hdirty hdev
    apply Ends.bind (ends_drvWrite _)
    · intro _ t h
      obtain ⟨hframe, hpool, hiff⟩ := h
      apply Ends.modify
      refine ⟨hframe.trans (Frame.setBuf t (by rw [hpool])), fun h => by simp at h, fun h => ?_⟩
      refine absurd (fun _ d' hd' => ?_) h
      rw [hdev] at hd'
      cases hd'
      by_contra hnot
      obtain ⟨e, he⟩ := hiff.mpr hnot
      cases he
    · intro e t h
      obtain ⟨hframe, -, hiff⟩ := h
      refine ⟨hframe, fun _ hacc => ?_, fun _ => ⟨e, rfl⟩⟩
      exact hiff.mp ⟨e, rfl⟩ (hacc hdirty d hdev)
  · rename_i hnot
    refine Ends.ret ⟨.refl s, fun h => by simp at h, fun h => ?_⟩
    exact absurd (fun hdirty d hdev => (hnot d hdirty hdev).elim) h

theorem ends_takeVictim (hs : Sound s) : Ends (takeVictim E) s fun r t => Sound t ∧
    (∀ c, (t.pool c).refs = (s.pool c).refs) ∧ (∀ b, r = .ok b → s.victim = some b) ∧
    ((∃ e, r = .error e) ↔ s.victim = none ∨ ¬Settled E s) := by
  apply Ends.read_bind
  split
  · rename_i hnone
    exact Ends.fail ⟨hs, fun _ => rfl, nofun, fun _ => .inl hnone, fun _ => ⟨_, rfl⟩⟩
  · rename_i b hv
    have hsettled : Accepts E s b ↔ Settled E s := by
      refine ⟨fun h c hc => ?_, fun h => h b hv⟩
      rw [hv] at hc
      cases hc
      exact h
    apply Ends.bind ends_writeBack
    · intro _ t h
      obtain ⟨hframe, hiff⟩ := h
      apply Ends.modify_bind
      refine Ends.ret ⟨((hframe.sound hs).hashRemove E b).setBuf b _, fun c => ?_, ?_, ?_, ?_⟩
      · rw [← hframe.refs c]
        by_cases hc : c = b
        · simp [Cache.setBuf, hc]
        · simp [Cache.setBuf, hc, hashRemove_pool]
      · intro c hc
        cases hc
        exact hv
      · intro h
        simp at h
      · intro h
        rw [hv] at h
        obtain h | h := h
        · cases h
        · obtain ⟨e, he⟩ := hiff.mpr (fun hacc => h (hsettled.mp hacc))
          cases he
    · intro e t h
      obtain ⟨hframe, hiff⟩ := h
      refine ⟨hframe.sound hs, hframe.refs, nofun, fun _ => .inr fun h => ?_, fun _ => ⟨e, rfl⟩⟩
      exact hiff.mp ⟨e, rfl⟩ (hsettled.mpr h)

/-- What `get_buf` does to the pins, and when it fails on a disk whose driver works. -/
theorem ends_getBuf (hs : Sound s) (fromDisk : Bool) : Ends (getBuf E d lba fromDisk) s fun r t =>
    Sound t ∧ (∀ b, r = .ok b → ∀ c, (t.pool c).refs = (s.pool c).refs + if c = b then 1 else 0) ∧
    (Serves E d lba → ((∃ e, r = .error e) ↔
      s.lookup E d lba = none ∧ (s.victim = none ∨ ¬Settled E s))) := by
  apply Ends.read_bind
  split
  · rename_i b hhit
    apply Ends.modify_bind
    refine Ends.ret ⟨(hs.setBuf b _).touch (hs.lookup_lt hhit), fun b' hb' c => ?_, fun _ => ?_⟩
    · cases hb'
      by_cases hc : c = b <;> simp [Cache.touch, Cache.setBuf, hc]
    · simp [hhit]
  · rename_i hmiss
    apply Ends.bind (ends_takeVictim hs)
    · intro b t h
      obtain ⟨ht, hrefs, hvictim, hiff⟩ := h
      obtain ⟨hb, hb0⟩ := victim_spec hs (hvictim b rfl)
      have hok : ¬(s.victim = none ∨ ¬Settled E s) := by
        intro hbad
        obtain ⟨e, he⟩ := hiff.mpr hbad
        cases he
      -- the pins once the victim has become the buffer of the sector
      have hpins : ∀ u : Cache δ, (∀ c, (u.pool c).refs = (t.pool c).refs) → ∀ data b',
          (Except.ok b : Except Errno ℕ) = .ok b' → ∀ c,
          ((install E d lba b data u).pool c).refs = (s.pool c).refs + if c = b' then 1 else 0 := by
        intro u hu data b' hb' c
        cases hb'
        rw [install_refs, hu, hrefs]
        by_cases hc : c = b
        · simp [hc, hb0]
        · simp [hc]
      split
      · apply Ends.bind ends_drvRead
        · intro data u hread
          obtain ⟨hframe, -⟩ := hread
          apply Ends.modify_bind
          refine Ends.ret ⟨(hframe.sound ht).install hb E d lba _, hpins u hframe.refs _, fun _ => ?_⟩
          simp [hok]
        · intro e u hread
          obtain ⟨hframe, hserve⟩ := hread
          refine ⟨hframe.sound ht, nofun, fun hsv => ?_⟩
          obtain ⟨f, hf⟩ := hserve hsv.calm (by
            have := hsv.range
            simp only [rangeOk, decide_eq_true_eq]
            omega)
          cases hf
      · apply Ends.modify_bind
        refine Ends.ret ⟨ht.install hb E d lba _, hpins t (fun _ => rfl) _, fun _ => ?_⟩
        simp [hok]
    · intro e t h
      obtain ⟨ht, -, -, hiff⟩ := h
      exact ⟨ht, nofun, fun _ => ⟨fun h => ⟨hmiss, hiff.mp ⟨e, rfl⟩⟩, fun _ => ⟨e, rfl⟩⟩⟩

/-- A sector of a write: the pins stay. -/
theorem ends_writeSector (hs : Sound s) (data : Sector) : Ends (writeSector E d lba data) s fun r t =>
    Sound t ∧ (r = .ok () → ∀ c, (t.pool c).refs = (s.pool c).refs) ∧
    (Serves E d lba → ((∃ e, r = .error e) ↔
      s.lookup E d lba = none ∧ (s.victim = none ∨ ¬Settled E s))) := by
  apply Ends.bind (ends_getBuf hs false)
  · intro b t h
    obtain ⟨ht, hrefs, hiff⟩ := h
    apply Ends.modify
    refine ⟨ht.setBuf b _, fun _ c => ?_, fun hsv => ?_⟩
    · have hc := hrefs b rfl c
      by_cases hcb : c = b
      · simp only [hcb, if_true] at hc
        simp [Cache.setBuf, hcb, hc]
      · simp only [hcb, if_false, Nat.add_zero] at hc
        simp [Cache.setBuf, hcb, hc]
    · rw [← hiff hsv]
      simp
  · intro e t h
    exact ⟨h.1, nofun, fun hsv => (by rw [← h.2.2 hsv]; simp)⟩

/-- A sector can be written: it is in the cache, or a buffer can be had for it. -/
def SectorMeets (E : Setup δ) (d : δ) (lba : ℕ) (s : Cache δ) : Prop :=
  s.lookup E d lba ≠ none ∨ Settled E s

/-- Before each sector of the loop of `blk_write`. -/
def WriteMeets (E : Setup δ) (d : δ) (buf : ℕ → Sector) (lba : ℕ) : ℕ → ℕ → Cache δ → Prop
  | _, 0, _ => True
  | k, count + 1, s => SectorMeets E d (lba + k) s ∧
      WriteMeets E d buf lba (k + 1) count (writeSector E d (lba + k) (buf k) s).state

theorem sector_error_iff (hs : Sound s) (hsv : Serves E d lba) (hpin : ¬AllPinned s) (data : Sector) :
    (∃ e, (writeSector E d lba data s).result = .error e) ↔ ¬SectorMeets E d lba s := by
  have hends : Ends (writeSector E d lba data) s _ := ends_writeSector hs data
  have h := hends.2.2 hsv
  rw [h, victim_eq_none_iff hs]
  unfold SectorMeets
  tauto

/-- With a buffer to be had, the loop fails exactly when it meets a sector it cannot write. -/
theorem write_error_iff (buf : ℕ → Sector) (hcalm : ∀ n, E.fault d n = none) (k : ℕ)
    (hs : Sound s) (hrange : lba + k + count ≤ (E.disk d).sectors) (hpin : ¬AllPinned s) :
    (∃ e, (blkWriteLoop E d buf lba k count s).result = .error e) ↔
      ¬WriteMeets E d buf lba k count s := by
  induction count generalizing s k with
  | zero =>
    refine ⟨fun h => ?_, fun h => absurd trivial h⟩
    obtain ⟨e, he⟩ := h
    cases he
  | succ count ih =>
    have hsv : Serves E d (lba + k) := ⟨hcalm, by omega⟩
    have hsector := sector_error_iff hs hsv hpin (buf k)
    have hends : Ends (writeSector E d (lba + k) (buf k)) s _ := ends_writeSector hs (buf k)
    simp only [blkWriteLoop, WriteMeets]
    rcases hw : writeSector E d (lba + k) (buf k) s with ⟨r, t, m⟩
    unfold Ends at hends
    rw [hw] at hsector hends
    obtain ⟨ht, hrefs, -⟩ := hends
    cases r with
    | error e =>
      rw [Act.bind_of_error hw]
      exact ⟨fun _ h => hsector.mp ⟨e, rfl⟩ h.1, fun _ => ⟨e, rfl⟩⟩
    | ok u =>
      rw [Act.bind_of_ok hw]
      have hmeets : SectorMeets E d (lba + k) s := by
        by_contra hnot
        obtain ⟨e, he⟩ := hsector.mpr hnot
        cases he
      have hpin' : ¬AllPinned t := by
        intro hall
        refine hpin fun c hc => ?_
        rw [← hrefs rfl c]
        exact hall c hc
      have hrest := ih (k + 1) ht (by omega) hpin'
      rw [hrest]
      simp [hmeets]

theorem readRun_bounds (hit : ℕ → Bool) (fuel : ℕ) {step : ℕ} (h : step ≤ count) :
    step ≤ readRun hit count fuel step ∧ readRun hit count fuel step ≤ count := by
  induction fuel generalizing step with
  | zero => exact ⟨Nat.le_refl _, h⟩
  | succ fuel ih =>
    simp only [readRun]
    split
    · rename_i hcond
      have hnext : step + 1 ≤ count := by omega
      have := ih hnext
      omega
    · exact ⟨Nat.le_refl _, h⟩

/-- A read needs no buffer. -/
theorem ends_blkReadLoop (fuel : ℕ) (hs : Sound s) : Ends (blkReadLoop E d fuel lba count) s fun r t =>
    Sound t ∧ ((∀ n, E.fault d n = none) → lba + count ≤ (E.disk d).sectors → ∃ l, r = .ok l) := by
  induction fuel generalizing s lba count with
  | zero => exact Ends.ret ⟨hs, fun _ _ => ⟨_, rfl⟩⟩
  | succ fuel ih =>
    simp only [blkReadLoop]
    split
    · exact Ends.ret ⟨hs, fun _ _ => ⟨_, rfl⟩⟩
    · rename_i hcount
      apply Ends.read_bind
      split
      · rename_i b hhit
        apply Ends.read_bind
        apply Ends.modify_bind
        apply Ends.bind (ih (hs.touch (hs.lookup_lt hhit)))
        · intro l t h
          exact Ends.ret ⟨h.1, fun _ _ => ⟨_, rfl⟩⟩
        · intro e t h
          refine ⟨h.1, fun hcalm hrange => ?_⟩
          obtain ⟨l, hl⟩ := h.2 hcalm (by omega)
          cases hl
      · apply Ends.read_bind
        set step := readRun (fun k => (s.lookup E d (lba + k)).isSome) count readRunMax 1 with hstep
        have hbounds : 1 ≤ step ∧ step ≤ count := readRun_bounds _ _ (by omega)
        apply Ends.bind ends_drvRead
        · intro data t h
          obtain ⟨hframe, -⟩ := h
          apply Ends.bind (ih (hframe.sound hs))
          · intro l u h
            exact Ends.ret ⟨h.1, fun _ _ => ⟨_, rfl⟩⟩
          · intro e u h
            refine ⟨h.1, fun hcalm hrange => ?_⟩
            obtain ⟨l, hl⟩ := h.2 hcalm (by omega)
            cases hl
        · intro e t h
          obtain ⟨hframe, hserve⟩ := h
          refine ⟨hframe.sound hs, fun hcalm hrange => ?_⟩
          obtain ⟨f, hf⟩ := hserve hcalm (by
            simp only [rangeOk, decide_eq_true_eq]
            omega)
          cases hf

theorem ends_blkRead (dev : Dev δ) (hs : Sound s) : Ends (blkRead E dev lba count) s fun r t =>
    Sound t ∧ ((∀ n, E.fault dev.root n = none) → rangeOk (dev.sectors E) lba count = true →
      dev.absolute lba + count ≤ (E.disk dev.root).sectors → ∃ l, r = .ok l) := by
  unfold blkRead
  split
  · rename_i hrange
    exact Ends.fail ⟨hs, fun _ h => by simp [hrange] at h⟩
  · apply Ends.read_bind
    simp only [hs.ready, if_true]
    exact (ends_blkReadLoop count hs).mono fun r t h => ⟨h.1, fun hcalm _ hle => h.2 hcalm hle⟩

theorem sound_blkWriteLoop (buf : ℕ → Sector) (k : ℕ) (hs : Sound s) :
    Ends (blkWriteLoop E d buf lba k count) s fun _ t => Sound t := by
  induction count generalizing s k with
  | zero => exact Ends.ret hs
  | succ count ih =>
    apply Ends.bind (ends_writeSector hs (buf k))
    · exact fun _ t h => ih (k + 1) h.1
    · exact fun _ t h => h.1

theorem blkWrite_ready (dev : Dev δ) (buf : ℕ → Sector) (hs : Sound s)
    (hrange : rangeOk (dev.sectors E) lba count = true)
    (hw : dev.readonly E = false ∧ (E.disk dev.root).readonly = false) :
    blkWrite E dev lba count buf s = blkWriteLoop E dev.root buf (dev.absolute lba) 0 count s := by
  simp only [blkWrite, hrange, hw.1, hw.2]
  simp only [Bool.true_eq_false, if_false, Bool.false_eq_true, or_self]
  rw [Act.bind_of_ok (a := true) (t := s) (k := false)
    (by simp [Act.read, hs.ready])]
  simp

theorem sound_blkWrite (dev : Dev δ) (buf : ℕ → Sector) (hs : Sound s) :
    Ends (blkWrite E dev lba count buf) s fun _ t => Sound t := by
  by_cases hrange : rangeOk (dev.sectors E) lba count = true
  · by_cases hw : dev.readonly E = false ∧ (E.disk dev.root).readonly = false
    · unfold Ends
      rw [blkWrite_ready dev buf hs hrange hw]
      exact sound_blkWriteLoop buf 0 hs
    · have hro : dev.readonly E = true ∨ (E.disk dev.root).readonly = true := by
        cases h : dev.readonly E with
        | true => exact .inl rfl
        | false => exact .inr (Bool.of_not_eq_false fun h' => hw ⟨h, h'⟩)
      unfold blkWrite
      simp only [hrange, hro, Bool.true_eq_false, if_false, if_true]
      exact Ends.fail hs
  · unfold blkWrite
    simp only [Bool.of_not_eq_true hrange, if_true]
    exact Ends.fail hs

theorem sound_flushBuffers (l : List ℕ) (hs : Sound s) :
    Ends (flushBuffers E d l) s fun _ t => Sound t := by
  induction l generalizing s with
  | nil => exact Ends.ret hs
  | cons b rest ih =>
    apply Ends.read_bind
    split
    · apply Ends.attempt_bind ends_writeBack
      intro r t h
      exact Ends.bind (ih (h.1.sound hs)) (fun _ _ h => Ends.ret h) (fun _ _ h => h)
    · exact ih hs

theorem sound_blkFlush (dev : Dev δ) (hs : Sound s) : Ends (blkFlush E dev) s fun _ t => Sound t := by
  apply Ends.read_bind
  simp only [hs.ready, if_true]
  apply Ends.bind (sound_flushBuffers _ hs)
  · intro first t ht
    split
    · exact Ends.fail ht
    · split
      · apply (ends_driver _).mono
        intro r u h
        obtain ⟨e, -, -, hu⟩ | ⟨-, -, hu⟩ := h <;> exact hu ▸ ⟨ht.ready, ht.lru, ht.chains⟩
      · exact Ends.ret ht
  · exact fun _ _ h => h

/-- `bread` and `bnew`: the errors of `get_buf`, when the request is admissible. -/
theorem ends_bufGet (dev : Dev δ) (fromDisk : Bool) (hs : Sound s) :
    Ends (bufGet E dev lba fromDisk) s fun r t => Sound t ∧ (rangeOk (dev.sectors E) lba 1 = true →
        (fromDisk = false → dev.readonly E = false ∧ (E.disk dev.root).readonly = false) →
        Serves E dev.root (dev.absolute lba) → ((∃ e, r = .error e) ↔
          s.lookup E dev.root (dev.absolute lba) = none ∧ (s.victim = none ∨ ¬Settled E s))) := by
  unfold bufGet
  split
  · rename_i hrange
    exact Ends.fail ⟨hs, fun h => by simp [hrange] at h⟩
  · apply Ends.read_bind
    simp only [hs.ready, Bool.true_eq_false, if_false]
    split
    · rename_i hro
      refine Ends.fail ⟨hs, fun _ hw => ?_⟩
      obtain ⟨h1, h2⟩ := hw hro.1
      simp [h1, h2] at hro
    · apply Ends.bind (ends_getBuf hs fromDisk)
      · intro b t h
        obtain ⟨ht, -, hiff⟩ := h
        split
        · refine Ends.ret ⟨ht, fun _ _ hsv => ?_⟩
          rw [← hiff hsv]
        · apply Ends.modify_bind
          refine Ends.ret ⟨ht.setBuf b _, fun _ _ hsv => ?_⟩
          rw [← hiff hsv]
      · intro e t h
        exact ⟨h.1, fun _ _ hsv => h.2.2 hsv⟩

theorem Sound.after (hs : Sound s) (o : Op δ) : Sound (o.after E s) := by
  cases o with
  | read dev lba count => exact (ends_blkRead dev hs).1
  | write dev lba count buf => exact sound_blkWrite dev buf hs
  | bread dev lba => exact (ends_bufGet dev true hs).1
  | bnew dev lba => exact (ends_bufGet dev false hs).1
  | fill b data => exact hs.setBuf b _
  | bdirty b => exact hs.setBuf b _
  | brelse b => exact hs.setBuf b _
  | flush dev => exact sound_blkFlush dev hs

theorem Reached.sound (h : Reached E s) : Sound s := by
  induction h with
  | init disk => exact ⟨rfl, reverse_perm _, fun _ _ hb => by cases hb⟩
  | op _ o ih => exact ih.after o

end Calls

inductive Request
  | bread (lba : ℕ)
  | bnew (lba : ℕ)
  | read (lba count : ℕ)
  | write (lba count : ℕ) (buf : ℕ → Sector)

section Requests

variable [DecidableEq δ] (E : Setup δ) (dev : Dev δ)

def Request.Fails (s : Cache δ) : Request → Prop
  | .bread lba => ∃ e, (BlockCache.bread E dev lba s).result = .error e
  | .bnew lba => ∃ e, (BlockCache.bnew E dev lba s).result = .error e
  | .read lba count => ∃ e, (blkRead E dev lba count s).result = .error e
  | .write lba count buf => ∃ e, (blkWrite E dev lba count buf s).result = .error e

def Dev.Writable : Prop := dev.readonly E = false ∧ (E.disk dev.root).readonly = false

/-- In range, on a writable device when the call writes. -/
def Request.Admissible : Request → Prop
  | .bread lba => rangeOk (dev.sectors E) lba 1 = true
  | .bnew lba => rangeOk (dev.sectors E) lba 1 = true ∧ dev.Writable E
  | .read lba count => rangeOk (dev.sectors E) lba count = true
  | .write lba count _ => rangeOk (dev.sectors E) lba count = true ∧ dev.Writable E

/-- Each time the call needs a buffer, the least recently used one without references is clean
or its disk takes the write. -/
def Request.Meets (s : Cache δ) : Request → Prop
  | .bread lba => SectorMeets E dev.root (dev.absolute lba) s
  | .bnew lba => SectorMeets E dev.root (dev.absolute lba) s
  | .read _ _ => True
  | .write lba count buf => WriteMeets E dev.root buf (dev.absolute lba) 0 count s

variable {E dev}

omit [DecidableEq δ] in
theorem Dev.absolute_le (h : dev.Fits E) {lba count : ℕ} (hle : lba + count ≤ dev.sectors E) :
    dev.absolute lba + count ≤ (E.disk dev.root).sectors := by
  induction dev generalizing lba with
  | disk d => exact hle
  | part parent start sectors readonly ih =>
    obtain ⟨hfit, hparent⟩ := h
    apply ih hparent
    have : lba + count ≤ sectors := hle
    omega

theorem rangeOk_iff {sectors lba count : ℕ} :
    rangeOk sectors lba count = true ↔ 0 < count ∧ lba + count ≤ sectors := by
  simp only [rangeOk, decide_eq_true_eq]
  omega

omit [DecidableEq δ] in
theorem Dev.serves (h : dev.Fits E) (hcalm : ∀ n, E.fault dev.root n = none) {lba : ℕ}
    (hrange : rangeOk (dev.sectors E) lba 1 = true) : Serves E dev.root (dev.absolute lba) :=
  ⟨hcalm, dev.absolute_le h (rangeOk_iff.mp hrange).2⟩

/-- On a device of a disk whose driver never fails, in every state of the cache: a call fails
only when all buffers are pinned, exactly if all are or the victims of the call can be had. -/
theorem working_disk_served_iff {s : Cache δ} (hs : Reached E s) (hfit : dev.Fits E)
    (hcalm : ∀ n, E.fault dev.root n = none) {r : Request} (hr : r.Admissible E dev) :
    (r.Fails E dev s → AllPinned s) ↔ AllPinned s ∨ r.Meets E dev s := by
  have hsound := hs.sound
  have hget : ∀ {lba : ℕ} {fromDisk : Bool}, rangeOk (dev.sectors E) lba 1 = true →
      (fromDisk = false → dev.Writable E) →
      (((∃ e, (bufGet E dev lba fromDisk s).result = .error e) → AllPinned s) ↔
        AllPinned s ∨ SectorMeets E dev.root (dev.absolute lba) s) := by
    intro lba fromDisk hrange hw
    have hiff := (ends_bufGet dev fromDisk hsound).2 hrange hw (dev.serves hfit hcalm hrange)
    rw [hiff, victim_eq_none_iff hsound]
    unfold SectorMeets
    grind
  cases r with
  | bread lba => exact hget hr nofun
  | bnew lba => exact hget hr.1 fun _ => hr.2
  | read lba count =>
    refine ⟨fun _ => .inr trivial, fun _ hfail => ?_⟩
    obtain ⟨e, he⟩ := hfail
    obtain ⟨l, hl⟩ := (ends_blkRead dev hsound).2 hcalm hr (dev.absolute_le hfit (rangeOk_iff.mp hr).2)
    rw [hl] at he
    cases he
  | write lba count buf =>
    by_cases hpin : AllPinned s
    · exact ⟨fun _ => .inl hpin, fun _ _ => hpin⟩
    · have hle := dev.absolute_le hfit (rangeOk_iff.mp hr.1).2
      have hrange : dev.absolute lba + 0 + count ≤ (E.disk dev.root).sectors := by omega
      have hiff := write_error_iff buf hcalm 0 hsound hrange hpin
      simp only [Request.Fails, Request.Meets, blkWrite_ready dev buf hsound hr.1 hr.2, hiff]
      tauto

end Requests

def twoDisks : Setup Bool where
  disk _ := ⟨1000, false, true, true⟩
  hash _ lba := lba % 64
  fault d _ := if d then some .eio else none

def crowded : Cache Bool :=
  (Op.write (.disk true) 0 128 fun _ => Block.zero 512).after twoDisks (blkInit fun _ _ => Block.zero 512)

theorem error_of_toOption {ε : Type} {x : Except ε α} (h : x.toOption = none) : ∃ e, x = .error e := by
  cases x with
  | error e => exact ⟨e, rfl⟩
  | ok a => cases h

theorem crowded_reached : Reached twoDisks crowded := .op (.init _) _

/-- No buffer is pinned, and a read of the working disk fails. -/
theorem working_disk_refused : Reached twoDisks crowded ∧ (∀ n, twoDisks.fault false n = none) ∧
    Request.Admissible twoDisks (.disk false) (.bread 0) ∧
    Request.Fails twoDisks (.disk false) crowded (.bread 0) ∧ ¬AllPinned crowded := by
  refine ⟨crowded_reached, fun _ => rfl, rfl, ?_, fun hall => ?_⟩
  · exact error_of_toOption (by decide +kernel)
  · have h0 : (crowded.pool 0).refs = 0 := by decide +kernel
    exact hall 0 (by decide) h0

/-- While only a few sectors of the faulty disk are in the cache, calls on the other one have
free buffers. -/
theorem working_disk_served_two : ∃ s, Reached twoDisks s ∧ s.lookup twoDisks true 7 ≠ none ∧
    (Request.Fails twoDisks (.disk false) s (.bnew 7) → AllPinned s) := by
  set s := (Op.write (.disk true) 7 2 fun _ => Block.zero 512).after twoDisks
    (blkInit fun _ _ => Block.zero 512) with hs
  have hreach : Reached twoDisks s := .op (.init _) _
  have hvictim : s.victim = some 2 ∧ (s.pool 2).dirty = false := by
    rw [hs]
    decide +kernel
  refine ⟨s, hreach, by rw [hs]; decide +kernel, ?_⟩
  have hfits : (Dev.disk false).Fits twoDisks := trivial
  have hadmissible : Request.Admissible twoDisks (.disk false) (.bnew 7) := ⟨rfl, rfl, rfl⟩
  apply (working_disk_served_iff hreach hfits (fun _ => rfl) hadmissible).mpr
  refine .inr (.inr fun b hb hdirty => ?_)
  rw [hvictim.1] at hb
  cases hb
  rw [hvictim.2] at hdirty
  cases hdirty

end Tach.BlockCache
