import Tach.Partitions

/-!
What `blk_scan_partitions` registers. Every partition gets the name of its number, so that it is
refused only where another device has that name; the numbers of one scan differ, except those of the
logical partitions, which begin at 5 in each chain.
-/

namespace Tach.Partitions

open List Actions ByteBlock Sectors BlkDevices
open Shell (Text)

theorem digits_ne_nil {room v : ℕ} (h : room ≠ 0) : digits room v ≠ [] := by
  cases room with
  | zero => exact absurd rfl h
  | succ room => exact cons_ne_nil _ _

theorem digits_inj {room v w : ℕ} (hv : v < 10 ^ room) (hw : w < 10 ^ room)
    (h : digits room v = digits room w) : v = w := by
  induction room generalizing v w with
  | zero =>
    rw [Nat.pow_zero] at hv hw
    omega
  | succ room ih =>
    rw [Nat.pow_succ] at hv hw
    obtain ⟨hlast, hrest⟩ := List.cons.inj h
    have hmod : v % 10 = w % 10 := by
      have := congrArg UInt8.toNat hlast
      rw [UInt8.toNat_ofNat', UInt8.toNat_ofNat'] at this
      omega
    have hroom : ∀ x, x < 10 ^ room * 10 → x / 10 ≠ 0 → room ≠ 0 := by
      rintro x hx h0 rfl
      omega
    have hdiv : v / 10 = w / 10 := by
      by_cases hv0 : v / 10 = 0
      · by_cases hw0 : w / 10 = 0
        · omega
        · rw [if_pos hv0, if_neg hw0] at hrest
          exact absurd hrest.symm (digits_ne_nil (hroom w hw hw0))
      · by_cases hw0 : w / 10 = 0
        · rw [if_neg hv0, if_pos hw0] at hrest
          exact absurd hrest (digits_ne_nil (hroom v hv hv0))
        · rw [if_neg hv0, if_neg hw0] at hrest
          exact ih (by omega) (by omega) hrest
    omega

theorem fullName_inj {disk : Text} {m n : ℕ} (hm : m < 10000) (hn : n < 10000)
    (h : fullName disk m = fullName disk n) : m = n := by
  have hdigits := reverse_injective
    (append_cancel_left (append_cancel_left h))
  exact digits_inj (by omega) (by omega) hdigits

theorem fullName_ne_nil (disk : Text) (n : ℕ) : fullName disk n ≠ [] := by
  intro h
  have h := (append_eq_nil_iff.mp (append_eq_nil_iff.mp h).2).2
  exact digits_ne_nil (by decide) (reverse_eq_nil_iff.mp h)

theorem blkCrc32_append (crc : UInt32) (a b : List UInt8) :
    blkCrc32 (blkCrc32 crc a) b = blkCrc32 crc (a ++ b) := by
  unfold blkCrc32
  rw [UInt32.not_not, foldl_append]

/-- The first `n` bytes from sector `lba` on. -/
def stretch (v : View) (lba n : ℕ) : List UInt8 :=
  (List.range n).map fun i => v (lba + i / 512) (i % 512)

theorem stretch_eq (v : View) (lba n : ℕ) :
    stretch v lba n = bytesOf (v lba) (min n 512) ++ stretch v (lba + 1) (n - 512) := by
  have hsplit : n = min n 512 + (n - 512) := by omega
  unfold stretch bytesOf
  conv_lhs => rw [hsplit, range_add, map_append, map_map]
  refine congrArg₂ (· ++ ·) (map_congr_left fun i hi => ?_) (map_congr_left fun i hi => ?_)
  · have hi := mem_range.mp hi
    rw [Nat.div_eq_of_lt (by omega), Nat.mod_eq_of_lt (by omega), Nat.add_zero]
  · have hi := mem_range.mp hi
    have hfull : min n 512 = 512 := by omega
    dsimp only [Function.comp]
    rw [hfull, Nat.add_div_left _ (by decide), Nat.add_mod_left, Nat.add_assoc,
      Nat.add_comm (i / 512)]

variable {disk : Device} {v : View} {s t u : Scan} {d p : Device} {new more : List Device}
  {number start sectors created lba : ℕ} {type : UInt8} {guid : Option (List UInt8)}
  (hmax : disk.sectors < 2 ^ 55)

section Steps

theorem clean_ask : Clean ask s fun r t => r = .ok none ∧ t.devs = s.devs := by
  refine Clean.read_bind (Clean.markIf_bind fun hnone => Clean.modify_bind (Clean.ret ⟨?_, rfl⟩))
  exact congrArg _ (by simpa using hnone)

/-- A range of sectors that `add_partition` accepts. -/
def Fits (disk : Device) (start sectors : ℕ) : Prop :=
  sectors ≠ 0 ∧ start + sectors ≤ disk.sectors

instance : Decidable (Fits disk start sectors) := by
  unfold Fits
  infer_instance

theorem fits_iff : ¬(sectors = 0 ∨ disk.sectors < start ∨ disk.sectors - start < sectors) ↔
    Fits disk start sectors := by
  unfold Fits
  omega

/-- A registered partition of the disk with this number. -/
structure PartOf (disk : Device) (number : ℕ) (d : Device) : Prop where
  name : d.name = fullName disk.name number
  parent : d.parent = some disk
  pos : 0 < d.sectors
  fits : d.start + d.sectors ≤ disk.sectors

/-- The devices `more` were registered, each once. -/
structure Grows (s t : Scan) (more : List Device) : Prop where
  perm : t.registered.Perm (more ++ s.registered)
  nodup : more.Nodup
  fresh : ∀ d ∈ more, d ∉ s.registered

theorem Grows.of_devs (h : t.devs = s.devs) : Grows s t [] := by
  refine ⟨?_, nodup_nil, nofun⟩
  unfold Scan.registered
  rw [h]
  exact List.Perm.refl _

theorem Grows.congr (h : Grows s t more) (hdevs : u.devs = t.devs) : Grows s u more := by
  refine ⟨?_, h.nodup, h.fresh⟩
  unfold Scan.registered
  rw [hdevs]
  exact h.perm

theorem Grows.trans (h : Grows s t more) (h' : Grows t u new) : Grows s u (new ++ more) where
  perm := by
    rw [append_assoc]
    exact h'.perm.trans (h.perm.append_left new)
  nodup := h'.nodup.append h.nodup fun d hd hd' =>
    h'.fresh d hd (h.perm.mem_iff.mpr (mem_append_left _ hd'))
  fresh d hd hs := by
    rcases mem_append.mp hd with hd | hd
    · exact h'.fresh d hd (h.perm.mem_iff.mpr (mem_append_right _ hs))
    · exact h.fresh d hd hs

theorem Grows.of_perm (h : Grows s t more) (hperm : more.Perm new) : Grows s t new where
  perm := h.perm.trans (hperm.append_right _)
  nodup := hperm.nodup_iff.mp h.nodup
  fresh d hd := h.fresh d (hperm.mem_iff.mpr hd)

/-- No registered device has the name of a partition of the disk. -/
def Unnamed (disk : Device) (s : Scan) : Prop :=
  ∀ d ∈ s.registered, ∀ n, n ≠ 0 → d.name ≠ fullName disk.name n

include hmax

theorem clean_readSector (hlba : lba < disk.sectors) :
    Clean (readSector disk v lba) s fun r t => r = .ok (v lba) ∧ t.devs = s.devs := by
  have hsize : disk.sectors * 512 % 2 ^ 64 = disk.sectors * 512 := Nat.mod_eq_of_lt (by omega)
  have hoffset : lba * 512 % 2 ^ 64 = lba * 512 := Nat.mod_eq_of_lt (by omega)
  unfold readSector
  rw [hsize, hoffset, if_neg (by omega), Nat.mul_div_cancel _ (by decide)]
  exact clean_ask.bind_ok fun t ht => Clean.ret ⟨rfl, ht⟩

theorem clean_gptRead (hlba : lba < disk.sectors) :
    Clean (gptRead disk v lba) s fun r t => r = .ok (v lba) ∧ t.devs = s.devs := by
  refine (clean_readSector hmax hlba).attempt_bind ?_
  rintro r t ⟨rfl, ht⟩
  exact Clean.ret ⟨rfl, ht⟩

theorem clean_tableCrc {n remaining : ℕ} {crc : UInt32} (hlba : lba + n ≤ disk.sectors)
    (hn : remaining ≤ 512 * n) : Clean (tableCrc disk v n lba remaining crc) s fun r t =>
      r = .ok (blkCrc32 crc (stretch v lba remaining)) ∧ t.devs = s.devs := by
  induction n generalizing lba remaining crc s with
  | zero =>
    obtain rfl : remaining = 0 := by omega
    refine Clean.ret ⟨?_, rfl⟩
    unfold stretch blkCrc32
    rw [range_zero, map_nil, foldl_nil, UInt32.not_not]
  | succ n ih =>
    refine (clean_gptRead hmax (by omega)).bind_ok fun t ht => ?_
    refine (ih (by omega) (by omega)).mono ?_
    rintro r u ⟨hr, hu⟩
    refine ⟨hr.trans ?_, hu.trans ht⟩
    rw [blkCrc32_append, ← stretch_eq]

/-- `blk_register` of a partition looks for its name and for a free slot. -/
theorem blkRegister_partition {devs : List (Option Device)} (hparent : p.parent = some disk)
    (hfits : p.start + p.sectors ≤ disk.sectors) (hname : p.name = fullName disk.name number) :
    (blkRegister devices p devs = .error .eexist ∧
      ∃ d ∈ devs.reduceOption, d.name = fullName disk.name number) ∨
    (∃ devs', blkRegister devices p devs = .ok devs' ∧
      devs'.reduceOption.Perm (p :: devs.reduceOption) ∧
      ∀ d ∈ devs.reduceOption, d.name ≠ fullName disk.name number) ∨
    blkRegister devices p devs = .error .enospc := by
  have hempty : ¬devices.name p = [] := fun h => fullName_ne_nil _ _ (hname.symm.trans h)
  have hin : ¬∃ q ∈ devices.parent p,
      devices.sectors q < (devices.start p + devices.sectors p) % 2 ^ 64 := by
    rintro ⟨q, hq, hlt⟩
    obtain rfl : disk = q := Option.some_inj.mp (hparent.symm.trans hq)
    change disk.sectors < (p.start + p.sectors) % 2 ^ 64 at hlt
    omega
  unfold blkRegister
  rw [if_neg hempty, if_neg (fun h => Option.some_ne_none _ (hparent.symm.trans h.1)), if_neg hin]
  by_cases htaken : ∃ d ∈ devs.reduceOption, d.name = fullName disk.name number
  · obtain ⟨d, hd, heq⟩ := htaken
    exact Or.inl ⟨if_pos ⟨d, hd, heq.trans hname.symm⟩, d, hd, heq⟩
  rw [if_neg fun ⟨d, hd, heq⟩ => htaken ⟨d, hd, heq.trans hname⟩]
  cases hplace : place p devs with
  | none => exact Or.inr (Or.inr rfl)
  | some devs' =>
    exact Or.inr (Or.inl ⟨devs', rfl, place_perm hplace, fun d hd heq => htaken ⟨d, hd, heq⟩⟩)

/-- What `add_partition` does: it registers the partition, or changes nothing because the range is
not one of the disk or the name is taken. -/
theorem clean_added : Clean (added disk number start sectors type guid) s fun r t =>
      (r = .ok true ∧ Grows s t [partition disk number start sectors type guid] ∧
        PartOf disk number (partition disk number start sectors type guid)) ∨
      (r = .ok false ∧ t.devs = s.devs ∧
        (Fits disk start sectors → ∃ d ∈ s.registered, d.name = fullName disk.name number)) := by
  have hadd : Clean (addPartition disk number start sectors type guid) s fun r t =>
      (r = .ok () ∧ Grows s t [partition disk number start sectors type guid] ∧
        PartOf disk number (partition disk number start sectors type guid)) ∨
      ((∃ e, r = .error e) ∧ t.devs = s.devs ∧
        (Fits disk start sectors → ∃ d ∈ s.registered, d.name = fullName disk.name number)) := by
    unfold addPartition
    split
    · rename_i hbad
      exact Clean.fail (Or.inr ⟨⟨_, rfl⟩, rfl, fun hfits => absurd hbad (fits_iff.mpr hfits)⟩)
    rename_i hfits
    have hfits := fits_iff.mp hfits
    refine clean_ask.bind_ok fun t ht => Clean.markIf_bind fun hcut => Clean.read_bind ?_
    have hname : partName disk.name number = fullName disk.name number :=
      take_of_length_le (by simpa using hcut)
    rw [ht]
    rcases blkRegister_partition hmax (p := partition disk number start sectors type guid) rfl
        hfits.2 hname with ⟨hreg, htaken⟩ | ⟨devs, hreg, hperm, hfree⟩ | hreg
    · rw [hreg]
      exact Clean.markIf_bind fun _ => Clean.fail (Or.inr ⟨⟨_, rfl⟩, ht, fun _ => htaken⟩)
    · rw [hreg]
      refine fun _ => Or.inl ⟨rfl, ⟨hperm, pairwise_singleton _ _, ?_⟩, hname, rfl,
        Nat.pos_of_ne_zero hfits.1, hfits.2⟩
      intro d hd hs
      obtain rfl := mem_singleton.mp hd
      exact hfree _ hs hname
    · rw [hreg]
      exact Clean.markIf_bind fun h => absurd h (by decide)
  refine hadd.attempt_bind ?_
  rintro r t (⟨rfl, hpart⟩ | ⟨⟨e, rfl⟩, htaken⟩)
  · exact Clean.ret (Or.inl ⟨rfl, hpart⟩)
  · exact Clean.ret (Or.inr ⟨rfl, htaken⟩)

end Steps

section Progress

variable {part : ℕ → Option Device} {n : ℕ} {logical : List Device}

/-- The partitions that the first `n` entries of a table describe. -/
def partsBelow (part : ℕ → Option Device) (n : ℕ) : List Device := (List.range n).filterMap part

theorem partsBelow_succ (part : ℕ → Option Device) (n : ℕ) :
    partsBelow part (n + 1) = partsBelow part n ++ (part n).toList := by
  unfold partsBelow
  rw [range_succ, filterMap_append]
  cases hn : part n with
  | none => rw [filterMap_cons_none hn]; rfl
  | some d => rw [filterMap_cons_some hn]; rfl

/-- Partitions that `scan_extended` may register. -/
def Logical (disk : Device) (d : Device) : Prop := ∃ n, 5 ≤ n ∧ n < 37 ∧ PartOf disk n d

/-- What a loop over a table has done before entry `n`: it has registered and counted the partitions
of the entries below `n`, each with the number of its entry, and some logical ones. -/
structure Done (disk : Device) (part : ℕ → Option Device) (s t : Scan) (n : ℕ)
    (logical : List Device) (created : ℕ) : Prop where
  grows : Grows s t (logical ++ partsBelow part n)
  numbered : ∀ k < n, ∀ d, part k = some d → PartOf disk (k + 1) d
  isLogical : ∀ d ∈ logical, Logical disk d
  count : created = (logical ++ partsBelow part n).length

namespace Done

theorem init (hdevs : t.devs = s.devs) : Done disk part s t 0 [] 0 :=
  ⟨Grows.of_devs hdevs, nofun, nofun, rfl⟩

variable (hdone : Done disk part s t n logical created)

include hdone

theorem congr (hdevs : u.devs = t.devs) : Done disk part s u n logical created :=
  ⟨hdone.grows.congr hdevs, hdone.numbered, hdone.isLogical, hdone.count⟩

theorem mem (hd : d ∈ logical ++ partsBelow part n) :
    Logical disk d ∨ ∃ k < n, part k = some d ∧ PartOf disk (k + 1) d := by
  refine (mem_append.mp hd).imp (hdone.isLogical d) fun hd => ?_
  obtain ⟨k, hk, hpart⟩ := mem_filterMap.mp hd
  have hk := mem_range.mp hk
  exact ⟨k, hk, hpart, hdone.numbered k hk d hpart⟩

/-- The loop goes on behind an entry that describes no partition of its own. -/
theorem skip (hnone : part n = none) (hgrows : Grows t u more)
    (hmore : ∀ d ∈ more, Logical disk d) :
    Done disk part s u (n + 1) (more ++ logical) (more.length + created) where
  grows := by
    rw [partsBelow_succ, hnone, Option.toList_none, append_nil, append_assoc]
    exact hdone.grows.trans hgrows
  numbered k hk d hd := by
    rcases Nat.lt_succ_iff_lt_or_eq.mp hk with hk | rfl
    · exact hdone.numbered k hk d hd
    · rw [hnone] at hd
      cases hd
  isLogical d hd := (mem_append.mp hd).elim (hmore d) (hdone.isLogical d)
  count := by
    rw [partsBelow_succ, hnone, Option.toList_none, append_nil, append_assoc,
      length_append, ← hdone.count]

theorem pass (hnone : part n = none) (hdevs : u.devs = t.devs) :
    Done disk part s u (n + 1) logical created := by
  simpa using hdone.skip hnone (Grows.of_devs hdevs) nofun

theorem add (hsome : part n = some p) (hpart : PartOf disk (n + 1) p) (hgrows : Grows t u [p]) :
    Done disk part s u (n + 1) logical (created + 1) where
  grows := by
    rw [partsBelow_succ, hsome, Option.toList_some, ← append_assoc]
    exact (hdone.grows.trans hgrows).of_perm (perm_append_singleton p _).symm
  numbered k hk d hd := by
    rcases Nat.lt_succ_iff_lt_or_eq.mp hk with hk | rfl
    · exact hdone.numbered k hk d hd
    · rw [hsome] at hd
      cases hd
      exact hpart
  isLogical := hdone.isLogical
  count := by
    rw [partsBelow_succ, hsome, Option.toList_some, ← append_assoc, length_append,
      ← hdone.count, length_singleton]

/-- A number that no entry below `n` has is not used yet. -/
theorem unused {m : ℕ} (hbase : Unnamed disk s) (hm : m ≠ 0) (hmax : m < 10000)
    (hlogical : m < 5 ∨ logical = []) (hk : n < m) (hd : d ∈ t.registered) :
    d.name ≠ fullName disk.name m := by
  intro hname
  rcases mem_append.mp (hdone.grows.perm.mem_iff.mp hd) with hd | hd
  · rcases mem_append.mp hd with hold | hd'
    · have hfive := hlogical.resolve_right (ne_nil_of_mem hold)
      obtain ⟨k, h5, h37, hnumber⟩ := hdone.isLogical d hold
      have := fullName_inj (by omega) (by omega) (hnumber.name.symm.trans hname)
      omega
    · obtain ⟨k, hk, hd⟩ := mem_filterMap.mp hd'
      have hk := mem_range.mp hk
      have hnumber := hdone.numbered k hk d hd
      have := fullName_inj (by omega) (by omega) (hnumber.name.symm.trans hname)
      omega
  · exact hbase d hd _ hm hname

/-- The partition of the next entry is accepted, because its number was not used yet. -/
theorem clean_added (hmax : disk.sectors < 2 ^ 55) (hbase : Unnamed disk s)
    (hn : n < 4 ∨ logical = []) (hsmall : n < 9999)
    (hpart : part n = if Fits disk start sectors then some (partition disk (n + 1) start sectors type guid) else none) :
    Clean (added disk (n + 1) start sectors type guid) t fun r u => ∃ ok, r = .ok ok ∧
      Done disk part s u (n + 1) logical (if ok then created + 1 else created) := by
  refine (Partitions.clean_added hmax).mono ?_
  rintro r u (⟨hr, hone, hnumber⟩ | ⟨hr, hdevs, htaken⟩)
  · rw [if_pos ⟨Nat.ne_of_gt hnumber.pos, hnumber.fits⟩] at hpart
    exact ⟨true, hr, hdone.add hpart hnumber hone⟩
  · have hnot : ¬Fits disk start sectors := fun hfits => by
      obtain ⟨d, hd, hname⟩ := htaken hfits
      exact hdone.unused hbase (Nat.succ_ne_zero n) (by omega) (hn.imp_left Nat.succ_lt_succ)
        n.lt_succ_self hd hname
    rw [if_neg hnot] at hpart
    exact ⟨false, hr, hdone.pass hpart hdevs⟩

end Done

end Progress

section Gpt

variable {g : Gpt} {h : Sector} {k : ℕ}

/-- The partition that entry `k` of the table describes. -/
def gptPart (disk : Device) (v : View) (g : Gpt) (k : ℕ) : Option Device :=
  (gptEntry g (v (g.entriesLba + k / g.perSector)) (k % g.perSector * g.entrySize)).map
    fun e => partition disk (k + 1) e.1 e.2.1 0 (some e.2.2)

/-- Header and table of the GPT are accepted. -/
def GptOk (disk : Device) (v : View) : Prop :=
  HeaderOk disk (v 1) ∧
  (blkCrc32 0 (stretch v (gptOf (v 1)).entriesLba
    ((gptOf (v 1)).count * (gptOf (v 1)).entrySize))).toNat = (gptOf (v 1)).entriesCrc

/-- What the header's checks say about the table. -/
structure TableIn (disk : Device) (g : Gpt) : Prop where
  size : g.entrySize = 128 ∨ g.entrySize = 256 ∨ g.entrySize = 512
  few : g.count ≤ 1024
  usable : g.lastUsable < disk.sectors
  table : g.entriesLba + g.tableSectors ≤ disk.sectors

theorem HeaderOk.tableIn (hok : HeaderOk disk h) : TableIn disk (gptOf h) := by
  obtain ⟨-, -, -, -, -, hfew, hsize, -, husable, -, hlba, hfits⟩ := hok
  exact ⟨hsize, hfew, husable, by omega⟩

/-- The sectors of the entries are sectors of the disk. -/
theorem TableIn.entryLba_lt (hin : TableIn disk g) (hk : k < g.count) :
    g.entriesLba + k / g.perSector < disk.sectors := by
  have hfits := hin.table
  unfold Gpt.tableSectors at hfits
  unfold Gpt.perSector
  rcases hin.size with hsize | hsize | hsize <;> rw [hsize] at hfits ⊢ <;> omega

theorem TableIn.entry_fits {e : ℕ × ℕ × List UInt8} {sec : Sector} {o : ℕ} (hin : TableIn disk g)
    (he : gptEntry g sec o = some e) : Fits disk e.1 e.2.1 := by
  have hlast := hin.usable
  unfold gptEntry at he
  split at he
  · cases he
  · split_ifs at he
    cases he
    refine ⟨Nat.succ_ne_zero _, ?_⟩
    dsimp only
    omega

variable (hbase : Unnamed disk s)

include hmax hbase

theorem clean_addEntry {index : ℕ} (hin : TableIn disk g) (hindex : index < g.count)
    (hdone : Done disk (gptPart disk v g) s t index [] created) :
    Clean (addEntry disk g (v (g.entriesLba + index / g.perSector)) index) t fun r u => ∃ ok,
      r = .ok ok ∧ Done disk (gptPart disk v g) s u (index + 1) []
        (if ok then created + 1 else created) := by
  have hfew := hin.few
  unfold addEntry
  cases hentry : gptEntry g (v (g.entriesLba + index / g.perSector))
      (index % g.perSector * g.entrySize) with
  | none =>
    have hnone : gptPart disk v g index = none := by
      unfold gptPart
      rw [hentry]
      rfl
    exact Clean.ret ⟨false, rfl, hdone.pass hnone rfl⟩
  | some e =>
    refine hdone.clean_added hmax hbase (Or.inr rfl) (by omega) ?_
    rw [if_pos (hin.entry_fits hentry), gptPart, hentry]
    rfl

theorem clean_gptEntries {left index : ℕ} {last : Sector} (hin : TableIn disk g)
    (hleft : index + left = g.count)
    (hlast : index % g.perSector ≠ 0 → last = v (g.entriesLba + index / g.perSector))
    (hdone : Done disk (gptPart disk v g) s t index [] created) :
    Clean (gptEntries disk v g left index last created) t fun r u => ∃ created,
      r = .ok created ∧ Done disk (gptPart disk v g) s u g.count [] created := by
  induction left generalizing index last created t with
  | zero =>
    obtain rfl : index = g.count := by omega
    exact Clean.ret ⟨created, rfl, hdone⟩
  | succ left ih =>
    have hcount : index < g.count := by omega
    have hread : Clean (entrySector disk v g index last) t fun r u =>
        r = .ok (v (g.entriesLba + index / g.perSector)) ∧ u.devs = t.devs := by
      unfold entrySector
      split
      · exact clean_gptRead hmax (hin.entryLba_lt hcount)
      · rename_i hmod
        exact Clean.ret ⟨congrArg _ (hlast hmod), rfl⟩
    rw [gptEntries]
    refine hread.bind_ok fun u hdevs => ?_
    refine (clean_addEntry hmax hbase hin hcount (hdone.congr hdevs)).bind ?_ ?_
    · rintro ok w ⟨ok', hok, hnext⟩
      cases hok
      refine ih (by omega) (fun hmod => ?_) hnext
      -- No new sector begins at the next entry.
      rw [Nat.succ_div_of_not_dvd fun hdvd => hmod (Nat.mod_eq_zero_of_dvd hdvd)]
    · rintro e w ⟨ok, hok, -⟩
      cases hok

/-- An accepted GPT gives its partitions, any other one nothing. -/
theorem clean_scanGpt (h2 : 2 ≤ disk.sectors) (hdevs : t.devs = s.devs) :
    Clean (scanGpt disk v) t fun r u => (GptOk disk v ∧ ∃ created, r = .ok created ∧
        Done disk (gptPart disk v (gptOf (v 1))) s u (gptOf (v 1)).count [] created) ∨
      (¬GptOk disk v ∧ r = .error .einval ∧ u.devs = s.devs) := by
  refine (clean_gptRead hmax (by omega)).bind_ok fun u hu => ?_
  by_cases hok : HeaderOk disk (v 1)
  swap
  · rw [if_neg hok]
    exact Clean.fail (Or.inr ⟨fun hgpt => hok hgpt.1, rfl, hu.trans hdevs⟩)
  rw [if_pos hok]
  refine (clean_tableCrc hmax hok.tableIn.table (by unfold Gpt.tableSectors; omega)).bind_ok
    fun w hw => ?_
  have hsame := hw.trans (hu.trans hdevs)
  split
  · rename_i hsum
    refine (clean_gptEntries hmax hbase hok.tableIn (Nat.zero_add _)
      (fun hmod => absurd (Nat.zero_mod _) hmod) (Done.init hsame)).mono ?_
    exact fun r w hr => Or.inl ⟨⟨hok, hsum⟩, hr⟩
  · rename_i hsum
    exact Clean.fail (Or.inr ⟨fun hgpt => hsum hgpt.2, rfl, hsame⟩)

end Gpt

section Mbr

variable {sec : Sector} {i ebr : ℕ} {logical : List Device}

/-- The partition that the primary entry `i` describes. -/
def mbrPart (disk : Device) (s : Sector) (i : ℕ) : Option Device :=
  let e := 446 + i * 16
  if (s e = 0x00 ∨ s e = 0x80) ∧ s (e + 4) ≠ 0 ∧ s (e + 4) ≠ 0xEE ∧ isExtended (s (e + 4)) = false ∧
      Fits disk (s.le32 (e + 8)) (s.le32 (e + 12)) then
    some (partition disk (i + 1) (s.le32 (e + 8)) (s.le32 (e + 12)) (s (e + 4)) none)
  else none

/-- The entry of an EBR describes a partition. -/
abbrev Used (v : View) (ebr : ℕ) : Prop := v ebr 450 ≠ 0 ∧ (v ebr).le32 458 ≠ 0

abbrev Accepted (disk : Device) (v : View) (ebr : ℕ) : Prop :=
  Used v ebr ∧ Fits disk (ebr + (v ebr).le32 454) ((v ebr).le32 458)

/-- The partition of an EBR. -/
def logicalPart (disk : Device) (v : View) (number ebr : ℕ) : Device :=
  partition disk number (ebr + (v ebr).le32 454) ((v ebr).le32 458) (v ebr 450) none

def numbered (disk : Device) (v : View) : ℕ → List ℕ → List Device
  | _, [] => []
  | number, ebr :: rest => logicalPart disk v number ebr :: numbered disk v (number + 1) rest

/-- The EBRs that `scan_extended` visits. -/
def visited (disk : Device) (v : View) (extStart extSectors : ℕ) : ℕ → ℕ → List ℕ
  | 0, _ => []
  | hops + 1, ebr =>
    if disk.sectors ≤ ebr ∨ (v ebr).le16 510 ≠ 0xAA55 then []
    else ebr ::
      if (v ebr).le32 470 = 0 ∨ isExtended (v ebr 466) = false ∨ extSectors ≤ (v ebr).le32 470 then []
      else visited disk v extStart extSectors hops (extStart + (v ebr).le32 470)

def accepted (disk : Device) (v : View) (ebrs : List ℕ) : List ℕ := ebrs.filter (Accepted disk v ·)

theorem mem_accepted {ebrs : List ℕ} :
    ebr ∈ accepted disk v ebrs ↔ ebr ∈ ebrs ∧ Accepted disk v ebr := by
  rw [accepted, mem_filter, decide_eq_true_iff]

/-- No device has the name of a logical partition with a number from `number` on. -/
def Free (disk : Device) (number : ℕ) (s : Scan) : Prop :=
  ∀ d ∈ s.registered, ∀ n, number ≤ n → n < 37 → d.name ≠ fullName disk.name n

/-- How a chain of extended partitions ends: some logical partitions were added and counted. Where
their names were free, they are those of the accepted EBRs. -/
def Extended (disk : Device) (v : View) (t : Scan) (number : ℕ) (ebrs : List ℕ) (created : ℕ)
    (r : Except Errno ℕ) (u : Scan) : Prop :=
  ∃ more, r = .ok (more.length + created) ∧ Grows t u more ∧ (∀ d ∈ more, Logical disk d) ∧
    (Free disk number t ∨ ebrs = [] → more.Perm (numbered disk v number ebrs))

namespace Extended

variable {ebr : ℕ} {ebrs : List ℕ} {r : Except Errno ℕ} {w : Scan}

theorem stop : Extended disk v t number [] created (.ok created) t :=
  ⟨[], by rw [length_nil, Nat.zero_add], Grows.of_devs rfl, nofun, fun _ => List.Perm.nil⟩

theorem pass (hdevs : w.devs = t.devs) (h : Extended disk v w number ebrs created r u) :
    Extended disk v t number ebrs created r u := by
  obtain ⟨more, hr, hgrows, hlogical, hperm⟩ := h
  have hall := (Grows.of_devs hdevs).trans hgrows
  rw [append_nil] at hall
  refine ⟨more, hr, hall, hlogical, fun h => hperm (h.imp_left fun hfree d hd => hfree d ?_)⟩
  unfold Scan.registered at hd ⊢
  rwa [← hdevs]

theorem refused (h : Extended disk v t number ebrs created r u)
    (htaken : ∃ d ∈ t.registered, d.name = fullName disk.name number) (h37 : number < 37) :
    Extended disk v t number (ebr :: ebrs) created r u := by
  obtain ⟨more, hr, hgrows, hlogical, -⟩ := h
  obtain ⟨d, hd, hname⟩ := htaken
  refine ⟨more, hr, hgrows, hlogical, ?_⟩
  rintro (hfree | h)
  · exact absurd hname (hfree d hd number (Nat.le_refl _) h37)
  · cases h

theorem add (h : Extended disk v w (number + 1) ebrs (created + 1) r u)
    (hgrows : Grows t w [logicalPart disk v number ebr])
    (hpart : PartOf disk number (logicalPart disk v number ebr)) (h5 : 5 ≤ number)
    (h37 : number < 37) : Extended disk v t number (ebr :: ebrs) created r u := by
  obtain ⟨more, hr, hmore, hlogical, hperm⟩ := h
  refine ⟨more ++ [logicalPart disk v number ebr], ?_, hgrows.trans hmore, ?_, ?_⟩
  · rw [hr, length_append, length_singleton, Nat.add_assoc, Nat.add_comm 1]
  · intro d hd
    rcases mem_append.mp hd with hd | hd
    · exact hlogical d hd
    · obtain rfl := mem_singleton.mp hd
      exact ⟨number, h5, h37, hpart⟩
  · rintro (hfree | h)
    · refine (perm_append_singleton _ _).trans ((hperm (Or.inl fun d hd n hn hn37 hname => ?_)).cons _)
      rcases mem_cons.mp (hgrows.perm.mem_iff.mp hd) with rfl | hd
      · have := fullName_inj (by omega) (by omega) (hpart.name.symm.trans hname)
        omega
      · exact hfree d hd n (by omega) hn37 hname
    · cases h

end Extended

/-- The EBRs of the extended entry `i`. -/
def chain (disk : Device) (v : View) (s : Sector) (i : ℕ) : List ℕ :=
  let e := 446 + i * 16
  if (s e = 0x00 ∨ s e = 0x80) ∧ s.le32 (e + 12) ≠ 0 ∧ isExtended (s (e + 4)) = true then
    visited disk v (s.le32 (e + 8)) (s.le32 (e + 12)) 32 (s.le32 (e + 8))
  else []

/-- Only the chain of entry `k` describes partitions. -/
def Sole (disk : Device) (v : View) (s : Sector) (k : ℕ) : Prop :=
  ∀ j < 4, j ≠ k → accepted disk v (chain disk v s j) = []

/-- What the chains of the entries below `i` have added. -/
def Chained (disk : Device) (v : View) (s : Sector) (i : ℕ) (logical : List Device) : Prop :=
  ∀ k < 4, Sole disk v s k → logical.Perm
    (if k < i then numbered disk v 5 (accepted disk v (chain disk v s k)) else [])

theorem Chained.next (h : Chained disk v sec i logical) (hi : i < 4)
    (hfree : logical = [] → Free disk 5 t)
    (hmore : Free disk 5 t ∨ accepted disk v (chain disk v sec i) = [] →
      more.Perm (numbered disk v 5 (accepted disk v (chain disk v sec i)))) :
    Chained disk v sec (i + 1) (more ++ logical) := by
  intro k hk hsole
  have hlogical := h k hk hsole
  by_cases hki : k = i
  · subst hki
    rw [if_neg (Nat.lt_irrefl k)] at hlogical
    rw [hlogical.eq_nil, append_nil, if_pos (Nat.lt_succ_self k)]
    exact hmore (Or.inl (hfree hlogical.eq_nil))
  · have hnone := hsole i hi (Ne.symm hki)
    have hnil := hmore (Or.inr hnone)
    rw [hnone] at hnil
    rwa [hnil.eq_nil, nil_append, if_congr (by omega : k < i + 1 ↔ k < i) rfl rfl]

include hmax

theorem clean_addLogical : Clean (addLogical disk (v ebr) ebr number) t fun r u =>
      (r = .ok true ∧ Accepted disk v ebr ∧ Grows t u [logicalPart disk v number ebr] ∧
        PartOf disk number (logicalPart disk v number ebr)) ∨ (r = .ok false ∧ u.devs = t.devs ∧
        (Accepted disk v ebr → ∃ d ∈ t.registered, d.name = fullName disk.name number)) := by
  unfold addLogical
  split
  · rename_i hused
    refine (clean_added hmax).mono ?_
    rintro r u (⟨hr, hone, hpart⟩ | ⟨hr, hdevs, htaken⟩)
    · exact Or.inl ⟨hr, ⟨hused, Nat.ne_of_gt hpart.pos, hpart.fits⟩, hone, hpart⟩
    · exact Or.inr ⟨hr, hdevs, fun h => htaken h.2⟩
  · rename_i hused
    exact Clean.ret (Or.inr ⟨rfl, rfl, fun h => absurd h.1 hused⟩)

open Extended

theorem clean_scanExtended {extStart extSectors hops : ℕ} (h5 : 5 ≤ number)
    (h37 : number + hops ≤ 37) :
    Clean (scanExtended disk v extStart extSectors hops ebr number created) t (Extended disk v t number
      (accepted disk v (visited disk v extStart extSectors hops ebr)) created) := by
  induction hops generalizing ebr number created t with
  | zero => exact Clean.ret stop
  | succ hops ih =>
    rw [scanExtended, visited]
    split
    · rename_i hend
      rw [if_pos (Or.inl hend)]
      exact Clean.ret stop
    rename_i hlt
    refine (clean_readSector hmax (by omega)).attempt_bind ?_
    rintro r u ⟨rfl, hdevs⟩
    refine Clean.mono ?_ fun r w => pass hdevs
    dsimp only
    split
    · rename_i hsign
      rw [if_pos (Or.inr hsign)]
      exact Clean.ret stop
    rename_i hsign
    rw [if_neg (not_or.mpr ⟨hlt, hsign⟩)]
    refine (clean_addLogical hmax).bind ?_ ?_
    swap
    · rintro e w (⟨hr, -⟩ | ⟨hr, -⟩)
      · cases hr
      · cases hr
    rintro ok w hadd
    have hnext : ∀ l r x, Extended disk v w (if ok then number + 1 else number) (accepted disk v l)
          (if ok then created + 1 else created) r x →
        Extended disk v u number (accepted disk v (ebr :: l)) created r x := by
      intro l r x hrest
      rcases hadd with ⟨hr, hok, hgrows, hpart⟩ | ⟨hr, hsame, htaken⟩
      · cases hr
        rw [accepted, filter_cons_of_pos (by simpa using hok)]
        exact hrest.add hgrows hpart h5 (by omega)
      · cases hr
        by_cases hok : Accepted disk v ebr
        · rw [accepted, filter_cons_of_pos (by simpa using hok)]
          exact refused (hrest.pass hsame) (htaken hok) (by omega)
        · rw [accepted, filter_cons_of_neg (by simpa using hok)]
          exact hrest.pass hsame
    split
    · rename_i hlink
      rw [if_pos (or_assoc.mp (Or.inl hlink))]
      exact Clean.ret (hnext [] _ _ stop)
    rename_i hlink
    split
    · rename_i hout
      rw [if_pos (or_assoc.mp (Or.inr hout))]
      exact Clean.ret (hnext [] _ _ stop)
    rename_i hout
    rw [if_neg fun h => (or_assoc.mpr h).elim hlink hout]
    exact (ih (by split <;> omega) (by split <;> omega)).mono (hnext _)

variable (hbase : Unnamed disk s)

include hbase

theorem clean_scanEntries {left : ℕ} (hleft : i + left = 4)
    (hdone : Done disk (mbrPart disk sec) s t i logical created)
    (hchained : Chained disk v sec i logical) :
    Clean (scanEntries disk v sec (List.range' i left) created) t fun r u => ∃ logical created,
      r = .ok created ∧ Done disk (mbrPart disk sec) s u 4 logical created ∧
        Chained disk v sec 4 logical := by
  induction left generalizing i created t logical with
  | zero =>
    obtain rfl : i = 4 := by omega
    exact Clean.ret ⟨logical, created, rfl, hdone, hchained⟩
  | succ left ih =>
    rw [List.range'_succ, scanEntries]
    have hfree : logical = [] → Free disk 5 t := fun hnil d hd n h5 h37 =>
      hdone.unused hbase (by omega) (by omega) (Or.inr hnil) (by omega) hd
    have hstep : chain disk v sec i = [] → Chained disk v sec (i + 1) logical := by
      intro hnil
      change Chained disk v sec (i + 1) ([] ++ logical)
      refine hchained.next (by omega) hfree fun _ => ?_
      rw [hnil]
      exact List.Perm.nil
    have hpass := fun (hnone : mbrPart disk sec i = none) (hnil : chain disk v sec i = []) =>
      ih (by omega) (hdone.pass hnone rfl) (hstep hnil)
    split
    · rename_i hskip
      rcases hskip with hboot | htype | hcount
      · exact hpass (if_neg fun h => h.1.elim hboot.1 hboot.2) (if_neg fun h => h.1.elim hboot.1 hboot.2)
      · refine hpass (if_neg fun h => h.2.1 htype) (if_neg fun h => ?_)
        rw [htype] at h
        exact absurd h.2.2 (by decide)
      · exact hpass (if_neg fun h => h.2.2.2.2.1 hcount) (if_neg fun h => h.2.1 hcount)
    rename_i hused
    split
    · rename_i htype
      refine hpass (if_neg fun h => h.2.2.1 htype) (if_neg fun h => ?_)
      rw [htype] at h
      exact absurd h.2.2 (by decide)
    rename_i hprotective
    have hboot : sec (446 + i * 16) = 0x00 ∨ sec (446 + i * 16) = 0x80 := by
      by_contra h
      exact hused (Or.inl (not_or.mp h))
    split
    · rename_i hext
      have hnone : mbrPart disk sec i = none := by
        refine if_neg fun h => ?_
        rw [hext] at h
        exact absurd h.2.2.2.1 nofun
      refine (clean_scanExtended hmax (by decide) (by decide)).bind ?_ ?_
      · rintro c u ⟨more, hr, hgrows, hmore, hperm⟩
        cases hr
        refine ih (by omega) (hdone.skip hnone hgrows hmore) (hchained.next (by omega) hfree ?_)
        rwa [chain, if_pos ⟨hboot, fun h => hused (Or.inr (Or.inr h)), hext⟩]
      · rintro e u ⟨more, hr, -⟩
        cases hr
    rename_i hext
    refine (hdone.clean_added hmax hbase (Or.inl (by omega)) (by omega) ?_).bind ?_ ?_
    · unfold mbrPart
      refine if_congr ⟨fun h => h.2.2.2.2, fun h => ?_⟩ rfl rfl
      exact ⟨hboot, fun h' => hused (Or.inr (Or.inl h')), hprotective, by simpa using hext, h⟩
    · rintro ok u ⟨ok', hr, hnext⟩
      cases hr
      exact ih (by omega) hnext (hstep (if_neg fun h => hext h.2.2))
    · rintro e u ⟨ok, hr, -⟩
      cases hr

end Mbr

/-- What a scan ends in: the partitions `new` were registered and counted. They are those of an
accepted GPT, or else there is exactly one for each primary partition of the MBR. -/
def Scanned (disk : Device) (v : View) (s : Scan) (r : Except Errno ℕ) (t : Scan) : Prop :=
  ∃ new, r = .ok new.length ∧ Grows s t new ∧
    (∀ d ∈ new, d.parent = some disk ∧ 0 < d.sectors ∧ d.start + d.sectors ≤ disk.sectors) ∧
    (v 0 450 = 0xEE ∧ GptOk disk v →
      new.Perm (partsBelow (gptPart disk v (gptOf (v 1))) (gptOf (v 1)).count)) ∧
    (¬(v 0 450 = 0xEE ∧ GptOk disk v) → ∀ i < 4, ∀ p, mbrPart disk (v 0) i = some p →
      p ∈ new ∧ ∀ d ∈ new, d.name = fullName disk.name (i + 1) → d = p)

variable {logical : List Device}

theorem Done.partOf {part : ℕ → Option Device} {n : ℕ}
    (hdone : Done disk part s t n logical created) (hd : d ∈ logical ++ partsBelow part n) :
    d.parent = some disk ∧ 0 < d.sectors ∧ d.start + d.sectors ≤ disk.sectors := by
  rcases hdone.mem hd with ⟨k, -, -, hpart⟩ | ⟨k, -, -, hpart⟩ <;>
    exact ⟨hpart.parent, hpart.pos, hpart.fits⟩

theorem scanned_mbr (hnot : ¬(v 0 450 = 0xEE ∧ GptOk disk v))
    (hdone : Done disk (mbrPart disk (v 0)) s t 4 logical created) :
    Scanned disk v s (.ok created) t := by
  refine ⟨_, congrArg _ hdone.count, hdone.grows, fun _ => hdone.partOf, fun h => absurd h hnot,
    fun _ i hi p hp => ⟨?_, ?_⟩⟩
  · exact mem_append_right _ (mem_filterMap.mpr ⟨i, mem_range.mpr hi, hp⟩)
  · intro d hd hname
    rcases hdone.mem hd with ⟨n, h5, h37, hpart⟩ | ⟨k, hk, hentry, hpart⟩
    · have := fullName_inj (by omega) (by omega) (hpart.name.symm.trans hname)
      omega
    · obtain rfl : k = i :=
        Nat.succ.inj (fullName_inj (by omega) (by omega) (hpart.name.symm.trans hname))
      exact Option.some.inj (hentry.symm.trans hp)

/-- The two ways a scan ends. -/
theorem clean_blkScanPartitions {P : Except Errno ℕ → Scan → Prop} (hdisk : disk.parent = none)
    (h2 : 2 ≤ disk.sectors) (hmax : disk.sectors < 2 ^ 55) (hboot : (v 0).le16 510 = 0xAA55)
    (hvbr : looksLikeFatVbr (v 0) = false) (hbase : Unnamed disk s)
    (hgpt : ∀ created t, v 0 450 = 0xEE ∧ GptOk disk v →
      Done disk (gptPart disk v (gptOf (v 1))) s t (gptOf (v 1)).count [] created → P (.ok created) t)
    (hmbr : ∀ logical created t, ¬(v 0 450 = 0xEE ∧ GptOk disk v) →
      Done disk (mbrPart disk (v 0)) s t 4 logical created → Chained disk v (v 0) 4 logical →
      P (.ok created) t) : Clean (blkScanPartitions disk v) s P := by
  have hscan : ∀ t : Scan, ¬(v 0 450 = 0xEE ∧ GptOk disk v) → t.devs = s.devs →
      Clean (scanEntries disk v (v 0) (List.range' 0 4) 0) t P := by
    intro t hnot hdevs
    refine (clean_scanEntries hmax hbase (Nat.zero_add 4) (Done.init hdevs)
      fun _ _ _ => List.Perm.nil).mono ?_
    rintro r u ⟨logical, created, rfl, hdone, hchained⟩
    exact hmbr logical created u hnot hdone hchained
  unfold blkScanPartitions
  rw [if_neg (not_not.mpr hdisk), if_neg (by omega)]
  refine (clean_readSector hmax (by omega)).bind_ok fun t hdevs => ?_
  rw [if_neg (not_not.mpr hboot), hvbr, if_neg (by decide)]
  by_cases hee : v 0 450 = 0xEE
  swap
  · rw [if_neg hee]
    exact hscan t (fun h => hee h.1) hdevs
  rw [if_pos hee]
  refine (clean_scanGpt hmax hbase h2 hdevs).attempt_bind ?_
  rintro r u (⟨hok, created, rfl, hdone⟩ | ⟨hnot, rfl, hu⟩)
  · exact Clean.ret (hgpt created u ⟨hee, hok⟩ hdone)
  · exact hscan u (fun h => hnot h.2) hu

def oneEntry : View := fun _ => Block.ofFn 512 fun i =>
  if i = 450 then 0x83 else if i = 454 then 1 else if i = 458 then 1
  else if i = 510 then 0x55 else if i = 511 then 0xAA else 0

/-- The disk `ram`. -/
def ram : Device := .disk [114, 97, 109] 64 false

theorem unnamed_ram : Unnamed ram ⟨[some ram, none], []⟩ := by
  intro d hd n _ hname
  obtain rfl : d = ram := mem_singleton.mp hd
  have hlength := congrArg List.length hname
  rw [fullName, length_append, length_append, length_reverse] at hlength
  have hzero : (digits 11 n).length = 0 := by omega
  exact digits_ne_nil (by decide) (eq_nil_of_length_eq_zero hzero)

/-- The partition of an EBR lies inside the extended partition of entry `i`. -/
abbrev Inside (v : View) (i ebr : ℕ) : Prop :=
  let e := 446 + i * 16
  (v 0).le32 (e + 8) ≤ ebr + (v ebr).le32 454 ∧
    ebr + (v ebr).le32 454 + (v ebr).le32 458 ≤ (v 0).le32 (e + 8) + (v 0).le32 (e + 12)

/-- The logical partitions are those of the EBRs visited whose entry is used and lies inside its
extended partition, one for each. -/
def LogicalsOnce (disk : Device) (v : View) (s t : Scan) : Prop :=
  ∃ logical ebrs, Grows s t (logical ++ partsBelow (mbrPart disk (v 0)) 4) ∧
    logical.Perm (numbered disk v 5 ebrs) ∧ ebrs.Nodup ∧
    ∀ ebr, ebr ∈ ebrs ↔ ∃ j < 4, ebr ∈ chain disk v (v 0) j ∧ Used v ebr ∧ Inside v j ebr

/-- An extended partition of the sectors 1 to 8 with one EBR, whose partition is `offset` behind. -/
def oneLogical (offset : UInt8) : View := fun lba => Block.ofFn 512 fun i =>
  if i = 450 then if lba = 0 then 0x05 else 0x83
  else if i = 454 then if lba = 0 then 1 else offset
  else if i = 458 then if lba = 0 then 8 else 1
  else if i = 510 then 0x55 else if i = 511 then 0xAA else 0

end Tach.Partitions
