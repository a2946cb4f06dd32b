import Tach.FileRead

/-!
The write engine of a file on a device without faults. One round of `file_put` changes the bytes it
was given and no others; the loop extends the chain when it comes to its end, and each cluster it adds
gets at least one byte.
-/

namespace Tach.FilePut

open Function List

open Actions ByteBlock Sectors FatData FatView DriverRules FatSpecs FatGrow
  Directory Files FileRead Chains

variable {σ : Type} {V : Volume σ} {s t u : Fs σ}

section Store

variable {g : Geom} {v : View} {c sector k : ℕ} (buf : ℕ → UInt8)

theorem cdata_store (hc : g.InRange c) (hk : sector + k ≤ g.spc) :
    cdata g (v.store (g.clusterLba c + sector) k buf) = update (cdata g v) c (fun i =>
      if sector * 512 ≤ i ∧ i < (sector + k) * 512 then buf (i - sector * 512)
      else cdata g v c i) := by
  have hcs : g.csize = g.spc * 512 := rfl
  funext c'
  by_cases hcc : c' = c
  · subst hcc
    rw [update_self]
    funext i
    by_cases hi : i < g.csize
    · rw [cdata_eq hc hi, cdata_eq hc hi, View.store]
      by_cases hin : sector * 512 ≤ i ∧ i < (sector + k) * 512
      · rw [if_pos (by omega), if_pos hin, sectorOf, Block.ofFn_apply, if_pos (by omega)]
        congr 1
        omega
      · rw [if_neg (by omega), if_neg hin]
    · have hout : ¬ (sector * 512 ≤ i ∧ i < (sector + k) * 512) := by omega
      rw [cdata, if_neg (fun h => hi h.2), if_neg hout, cdata, if_neg (fun h => hi h.2)]
  · rw [update_of_ne hcc]
    refine cdata_congr fun hc' j hj => ?_
    rw [View.store, if_neg]
    intro h
    have hsame : g.clusterLba c' + j = g.clusterLba c + (g.clusterLba c' + j - g.clusterLba c) := by
      omega
    exact hcc (clusterLba_inj hc' hc hj (by omega) hsame).1

theorem fat_store (hc : g.InRange c) :
    fat g (v.store (g.clusterLba c + sector) k buf) = fat g v := by
  refine fat_congr fun lba hlt => ?_
  have := dataLba_le hc sector
  rw [View.store, if_neg (by omega)]

end Store

section Chunk

variable {buf : ℕ → UInt8} {pos done c left n : ℕ}

/-- One round of `file_put` stored `n` bytes in cluster `c`. -/
structure Chunk (V : Volume σ) (buf : ℕ → UInt8) (pos done c n : ℕ) (s t : Fs σ) : Prop extends
    OnlyCluster V c s t where
  bytes : contents V t c = fun i => if pos % V.csize ≤ i ∧ i < pos % V.csize + n
    then buf (done + (i - pos % V.csize)) else contents V s c i

theorem runs_patchSector (hrw : V.readonly = false) (hc : V.InRange c)
    (hn : pos % V.csize % 512 + n ≤ 512) : Runs V.quiet (do
      writeBuf V (V.clusterLba c + pos % V.csize / 512) (fun d => Block.ofFn 512 (fun i =>
        if pos % V.csize % 512 ≤ i ∧ i < pos % V.csize % 512 + n then
          srcByte (some buf) (done + (i - pos % V.csize % 512)) else d i))
      pure n) s fun r t => r = .ok n ∧ Chunk V buf pos done c n s t := by
  have hpos := pos_lt_csize V.toGeom pos
  have hsec : pos % V.csize / 512 < V.spc := by omega
  refine (runs_writeBuf _ (clusterLba_lt hc hsec) hrw).bind_ok fun t ht => Runs.ret ⟨rfl,
    OnlyCluster.of_sector hc hsec ht.1 ht.2, ?_⟩
  rw [contents, ht.2, cdata_update_data _ hc hsec, update_self]
  funext i
  by_cases hi : i / 512 = pos % V.csize / 512
  swap
  · rw [if_neg hi, if_neg (by omega)]
    rfl
  rw [if_pos hi, Block.ofFn_apply, if_pos (Nat.mod_lt _ (by decide))]
  by_cases hin : pos % V.csize ≤ i ∧ i < pos % V.csize + n
  · rw [if_pos (by omega), if_pos hin, srcByte]
    congr 2
    omega
  · rw [if_neg (by omega), if_neg hin, contents,
      cdata_eq hc (by have : V.csize = V.spc * 512 := rfl; omega), hi]

theorem runs_putChunk (hrw : V.readonly = false) (hc : V.InRange c) :
    Runs V.quiet (putChunk V (some buf) pos done c left) s fun r t =>
      r = .ok (chunkLen V.toGeom pos left) ∧
        Chunk V buf pos done c (chunkLen V.toGeom pos left) s t := by
  have hpos := pos_lt_csize V.toGeom pos
  unfold putChunk
  by_cases hcase : pos % V.csize % 512 = 0 ∧ 512 ≤ left
  swap
  · have hlen : chunkLen V.toGeom pos left = min (512 - pos % V.csize % 512) left := if_neg hcase
    rw [if_neg hcase, hlen]
    exact runs_patchSector hrw hc (by omega)
  rw [if_pos hcase]
  have hlen : chunkLen V.toGeom pos left =
      min (left / 512) (V.spc - pos % V.csize / 512) * 512 := if_pos hcase
  generalize hwant : min (left / 512) (V.spc - pos % V.csize / 512) = want at *
  have hfit : pos % V.csize / 512 + want ≤ V.spc := by omega
  -- the bytes of the whole sectors, counted from the start of the cluster
  have hrange : ∀ i, (pos % V.csize / 512 * 512 ≤ i ∧ i < (pos % V.csize / 512 + want) * 512) ↔
      (pos % V.csize ≤ i ∧ i < pos % V.csize + want * 512) := by
    intro i
    omega
  have hbase : pos % V.csize / 512 * 512 = pos % V.csize := by omega
  have hlast : V.clusterLba c + (pos % V.csize / 512 + want - 1) < V.total :=
    clusterLba_lt hc (by omega)
  rw [hlen]
  refine (runs_blkWrite _ (by omega) (by omega) hrw).bind_ok fun t ht => Runs.ret ⟨rfl, ?_⟩
  have hdat := cdata_store (v := V.view s) (fun i => buf (done + i)) hc hfit
  rw [← ht.2] at hdat
  refine ⟨⟨ht.1, by rw [table, ht.2, fat_store _ hc]; rfl, fun c' hc' => ?_⟩, ?_⟩
  · rw [contents, hdat, update_of_ne hc']
    rfl
  · rw [contents, hdat, update_self]
    funext i
    simp only [hrange]
    rw [hbase]
    rfl

end Chunk

section Bytes

variable {l new l' : List ℕ} {buf : ℕ → UInt8} {pos done c n i offset : ℕ}

/-- Clusters at the end do not change the bytes in front of them. -/
theorem fileByte_grown (h : ∀ c ∈ l, contents V t c = contents V s c) (hi : i < l.length * V.csize) :
    fileByte V t (l ++ new) i = fileByte V s l i := by
  have hidx : i / V.csize < l.length := by rwa [Nat.div_lt_iff_lt_mul csize_pos]
  have hget : l[i / V.csize]? = some (l.getD (i / V.csize) 0) := by
    rw [getD_eq_getElem?_getD, List.getElem?_eq_getElem hidx]
    rfl
  have hleft : (l ++ new).getD (i / V.csize) 0 = l.getD (i / V.csize) 0 := by
    rw [getD_eq_getElem?_getD, List.getElem?_append_left hidx, getD_eq_getElem?_getD]
  rw [fileByte, fileByte, hleft, h _ (mem_of_getElem? hget)]

theorem div_within {cs pos j : ℕ} (h : pos % cs + j < cs) :
    (pos + j) / cs = pos / cs ∧ (pos + j) % cs = pos % cs + j := by
  have hdecomp := Nat.div_add_mod pos cs
  have hadd : pos + j = pos % cs + j + cs * (pos / cs) := by omega
  constructor
  · rw [hadd, Nat.add_mul_div_left _ _ (by omega), Nat.div_eq_of_lt h, Nat.zero_add]
  · rw [hadd, Nat.add_mul_mod_self_left, Nat.mod_eq_of_lt h]

theorem Chunk.fileByte_eq (hnd : l.Nodup) (hl : l[pos / V.csize]? = some c)
    (hfit : pos % V.csize + n ≤ V.csize) (h : Chunk V buf pos done c n s t)
    (hi : i < l.length * V.csize) :
    fileByte V t l i = if pos ≤ i ∧ i < pos + n then buf (done + (i - pos))
      else fileByte V s l i := by
  have hidx : i / V.csize < l.length := by rwa [Nat.div_lt_iff_lt_mul csize_pos]
  have hi' := Nat.div_add_mod i V.csize
  have hpos' := Nat.div_add_mod pos V.csize
  unfold fileByte
  by_cases hsame : i / V.csize = pos / V.csize
  · have hc : l.getD (i / V.csize) 0 = c := by rw [getD_eq_getElem?_getD, hsame, hl]; rfl
    rw [hc, h.bytes]
    dsimp only
    rw [hsame] at hi'
    have hiff : (pos % V.csize ≤ i % V.csize ∧ i % V.csize < pos % V.csize + n) ↔
        (pos ≤ i ∧ i < pos + n) := by omega
    by_cases hin : pos ≤ i ∧ i < pos + n
    · rw [if_pos hin, if_pos (hiff.mpr hin), show i % V.csize - pos % V.csize = i - pos by omega]
    · rw [if_neg hin, if_neg fun h => hin (hiff.mp h)]
  · rw [if_neg, h.data]
    · intro heq
      rw [getD_eq_getElem?_getD, List.getElem?_eq_getElem hidx, Option.getD_some] at heq
      obtain ⟨hlt, heq'⟩ := List.getElem?_eq_some_iff.mp hl
      exact hsame ((List.Nodup.getElem_inj_iff hnd).mp (heq.trans heq'.symm))
    · rintro ⟨h1, h2⟩
      refine hsame ?_
      have := (div_within (show pos % V.csize + (i - pos) < V.csize by omega)).1
      rwa [show pos + (i - pos) = i by omega] at this

/-- The bytes from `offset + a` up to `offset + b` come from `buf` and those in front of them are as
before; a cluster that was added has at least one of them. -/
structure Stored (V : Volume σ) (buf : ℕ → UInt8) (offset a b : ℕ) (l l' : List ℕ)
    (s t : Fs σ) : Prop where
  inside : ∀ i, a ≤ i → i < b → fileByte V t l' (offset + i) = buf i
  before : ∀ i, i < offset + a → fileByte V t l' i = fileByte V s l i
  fits : offset + b ≤ l'.length * V.csize
  tight : l'.length ≠ l.length → (l'.length - 1) * V.csize < offset + b

theorem Stored.trans {a b d : ℕ} {l'' : List ℕ} (h : Stored V buf offset a b l l' s t)
    (h' : Stored V buf offset b d l' l'' t u) (hab : a ≤ b) (hbd : b < d) :
    Stored V buf offset a d l l'' s u where
  inside i hai hid := by
    by_cases hb : b ≤ i
    · exact h'.inside i hb hid
    · rw [h'.before _ (by omega)]
      exact h.inside i hai (by omega)
  before i hi := by rw [h'.before i (by omega), h.before i hi]
  fits := h'.fits
  tight hne := by
    by_cases heq : l''.length = l'.length
    · have := h.tight (by omega)
      rw [heq]
      omega
    · exact h'.tight heq

theorem Stored.same {a b : ℕ} (h : Stored V buf offset a b l l' s t)
    (htu : Same V t u) : Stored V buf offset a b l l' s u := by
  have hsame : ∀ i, fileByte V u l' i = fileByte V t l' i := fun i => by
    rw [fileByte, fileByte, htu.contents_eq]
  exact ⟨fun i h1 h2 => by rw [hsame, h.inside i h1 h2],
    fun i hi => by rw [hsame, h.before i hi], h.fits, h.tight⟩

/-- A cluster was added where the bytes begin. -/
theorem Stored.grow {a b : ℕ} (h : Stored V buf offset a b (l ++ [c]) l' t u)
    (hdata : ∀ c ∈ l, contents V t c = contents V s c) (hcut : offset + a = l.length * V.csize)
    (hab : a < b) : Stored V buf offset a b l l' s u where
  inside := h.inside
  before i hi := by rw [h.before i hi, fileByte_grown hdata (by omega)]
  fits := h.fits
  tight hne := by
    by_cases heq : l'.length = l.length + 1
    · rw [heq, Nat.add_sub_cancel]
      omega
    · exact h.tight (by simpa using heq)

end Bytes

section Loop

variable {l : List ℕ} {first offset count : ℕ} {buf : ℕ → UInt8}

/-- What the loop of `file_put` does once `done` bytes are stored. -/
def LoopPost (V : Volume σ) (first offset count : ℕ) (buf : ℕ → UInt8) (done : ℕ)
    (l : List ℕ) (s : Fs σ) (r : Except Errno (LoopEnd ℕ)) (t : Fs σ) : Prop :=
  ∃ new e, r = .ok e ∧ Grew V first l new s t ∧ (l ++ new)[e.index]? = some e.cluster ∧
    done < e.value ∧ e.value ≤ count ∧ Stored V buf offset done e.value l (l ++ new) s t

theorem LoopPost.cons {done n : ℕ} {r : Except Errno (LoopEnd ℕ)} (hgr : Grew V first l [] s t)
    (hst : Stored V buf offset done (done + n) l l s t)
    (h : LoopPost V first offset count buf (done + n) l t r u) :
    LoopPost V first offset count buf done l s r u := by
  obtain ⟨new, e, hr, hgr', hidx, hlt, hle, hstored⟩ := h
  have hgr'' : Grew V first (l ++ []) new t u := by rwa [append_nil]
  exact ⟨new, e, hr, hgr.trans hgr'', hidx, by omega, hle, hst.trans hstored (by omega) hlt⟩

theorem runs_putLoop (hrw : V.readonly = false) (offset count : ℕ) (buf : ℕ → UInt8)
    (fuel : ℕ) : ∀ (l : List ℕ) (done c : ℕ) (s : Fs σ),
    Chain (stepOf V.toGeom (table V s)) first l → l[(offset + done) / V.csize]? = some c →
    done < count → count ≤ done + fuel →
    Runs V.quiet (putLoop V offset (some buf) count fuel done ((offset + done) / V.csize) c) s
      (LoopPost V first offset count buf done l s) := by
  induction fuel with
  | zero =>
    intro l done c s _ _ hlt hfuel
    omega
  | succ fuel ih =>
    intro l done c s hch hl hlt hfuel
    rw [putLoop, if_pos hlt]
    have hc : V.InRange c := chain_inRange hch (mem_of_getElem? hl)
    obtain ⟨hpos, hle, hfit⟩ :=
      chunkLen_bounds V.toGeom (offset + done) (show 0 < count - done by omega)
    refine (runs_putChunk hrw hc).attempt_bind ?_
    generalize chunkLen V.toGeom (offset + done) (count - done) = n at *
    rintro r t ⟨rfl, hchunk⟩
    have hgr : Grew V first l [] s t := Grew.of_table hch hchunk.vol hchunk.table
    have hcht : Chain (stepOf V.toGeom (table V t)) first l := by rwa [hchunk.table]
    have hidx : (offset + done) / V.csize < l.length := (List.getElem?_eq_some_iff.mp hl).1
    have hend : offset + (done + n) ≤ l.length * V.csize := by
      have hdecomp := Nat.div_add_mod (offset + done) V.csize
      have := Nat.mul_le_mul_left V.csize (show (offset + done) / V.csize + 1 ≤ l.length by omega)
      rw [Nat.mul_add, Nat.mul_one, Nat.mul_comm V.csize l.length] at this
      omega
    have hstored : Stored V buf offset done (done + n) l l s t := by
      refine ⟨fun i h1 h2 => ?_, fun i hi => ?_, hend, fun h => absurd rfl h⟩
      · rw [hchunk.fileByte_eq hch.nodup hl hfit (by omega), if_pos (by omega),
          show done + (offset + i - (offset + done)) = i by omega]
      · rw [hchunk.fileByte_eq hch.nodup hl hfit (by omega), if_neg (by omega)]
    dsimp only
    by_cases hmore : done + n < count ∧ (offset + (done + n)) % V.csize = 0
    swap
    · rw [if_neg hmore]
      by_cases hlt' : done + n < count
      · have hsame : (offset + (done + n)) / V.csize = (offset + done) / V.csize := by
          rw [← Nat.add_assoc]
          exact advance_same hfit hpos fun h => hmore ⟨hlt', by rwa [← Nat.add_assoc]⟩
        rw [← hsame] at hl ⊢
        exact (ih l (done + n) c t hcht hl hlt' (by omega)).mono fun r u h => h.cons hgr hstored
      · have hstop : putLoop V offset (some buf) count fuel (done + n) ((offset + done) / V.csize) c =
            pure ⟨done + n, (offset + done) / V.csize, c, none⟩ := by
          cases fuel with
          | zero => rfl
          | succ fuel => rw [putLoop, if_neg hlt']
        rw [hstop]
        refine Runs.ret ⟨[], _, rfl, hgr, ?_⟩
        rw [append_nil]
        exact ⟨hl, by dsimp only; omega, by dsimp only; omega, hstored⟩
    rw [if_pos hmore]
    obtain ⟨hdiv, hcut⟩ : (offset + (done + n)) / V.csize = (offset + done) / V.csize + 1 ∧
        offset + (done + n) = ((offset + done) / V.csize + 1) * V.csize := by
      rw [← Nat.add_assoc]
      exact advance_next hfit hpos (by rw [Nat.add_assoc]; exact hmore.2)
    refine (reads_next hcht hl).runs.attempt_bind ?_
    rintro r u ⟨rfl, htu⟩
    have hgru : Grew V first l [] s u :=
      Grew.of_table hch (htu.2.trans hchunk.vol) (htu.table_eq.trans hchunk.table)
    have hchu : Chain (stepOf V.toGeom (table V u)) first l := by rwa [htu.table_eq]
    have hstoredu := hstored.same htu
    cases hnext : l[(offset + done) / V.csize + 1]? with
    | some c' =>
      rw [← hdiv] at hnext ⊢
      exact (ih l (done + n) c' u hchu hnext hmore.1 (by omega)).mono fun r w h =>
        h.cons hgru hstoredu
    | none =>
      have hlen : l.length = (offset + done) / V.csize + 1 := by
        have := List.getElem?_eq_none_iff.mp hnext
        omega
      have hlast : l.getLast? = some c := by
        rw [List.getLast?_eq_getElem?, hlen, Nat.add_sub_cancel]
        exact hl
      refine (runs_chainGrow _ hrw fun _ => ⟨hc, ?_⟩).attempt_bind ?_
      · exact chain_ne_zero hchu (mem_of_getElem? hl)
      rintro r w (⟨c', rfl, hgrown⟩ | ⟨rfl, huw⟩)
      · have hgrw : Grew V first l [c'] u w := Grew.of_grown hchu hlast hgrown
        have hdata : ∀ x ∈ l, contents V w x = contents V u x := by
          intro x hx
          refine hgrown.data x ?_
          rintro rfl
          exact chain_ne_zero hchu hx hgrown.free
        have hl' : (l ++ [c'])[(offset + (done + n)) / V.csize]? = some c' := by
          rw [hdiv, ← hlen, List.getElem?_append_right (Nat.le_refl _), Nat.sub_self]
          rfl
        rw [← hdiv]
        refine (ih (l ++ [c']) (done + n) c' w hgrw.chain hl' hmore.1 (by omega)).mono ?_
        rintro r x ⟨new, e, hr, hgr', hidx', hlt', hle', hst'⟩
        refine LoopPost.cons hgru hstoredu ⟨[c'] ++ new, e, hr, hgrw.trans hgr', ?_⟩
        rw [← append_assoc]
        exact ⟨hidx', hlt', hle', hst'.grow hdata (by rw [hcut, hlen]) hlt'⟩
      · have hgrw := Grew.of_table hch (huw.2.trans (htu.2.trans hchunk.vol))
          (huw.table_eq.trans (htu.table_eq.trans hchunk.table))
        refine Runs.ret ⟨[], _, rfl, hgrw, ?_⟩
        rw [append_nil]
        exact ⟨hl, by dsimp only; omega, by dsimp only; omega, hstoredu.same huw⟩

end Loop

section Seek

variable {l : List ℕ} {first offset count : ℕ} {n : Node}

/-- The chain reaches the goal now, or there was no room for that. -/
def Reached (goal : ℕ) (l new : List ℕ) (r : Except Errno ℕ) : Prop :=
  (∃ c, r = .ok c ∧ (l ++ new)[goal]? = some c ∧ (new ≠ [] → (l ++ new).length = goal + 1)) ∨
    ∃ e, r = .error e ∧ new = []

/-- The walk of `file_put` to a cluster of the chain or to the one behind it. -/
theorem runs_putWalk (hrw : V.readonly = false) (covered : Bool) (steps : ℕ) :
    ∀ (i c : ℕ) (s : Fs σ), Chain (stepOf V.toGeom (table V s)) first l → l[i]? = some c →
      i + steps ≤ l.length →
      Runs V.quiet (putWalk V covered steps c) s fun r t => ∃ new, Grew V first l new s t ∧
        (∀ c ∈ l, contents V t c = contents V s c) ∧ Reached (i + steps) l new r := by
  induction steps with
  | zero =>
    intro i c s hch hl _
    refine Runs.ret ⟨[], Grew.of_table hch rfl rfl, fun _ _ => rfl, Or.inl ⟨c, rfl, ?_, nofun⟩⟩
    rwa [append_nil]
  | succ steps ih =>
    intro i c s hch hl hle
    refine (reads_next hch hl).runs.bind_ok fun t hst => ?_
    have hcht : Chain (stepOf V.toGeom (table V t)) first l := by rwa [hst.table_eq]
    have hgr := Grew.of_table hch hst.2 hst.table_eq
    rw [show i + (steps + 1) = i + 1 + steps by omega]
    cases hnext : l[i + 1]? with
    | some c' =>
      refine (ih (i + 1) c' t hcht hnext (by omega)).mono fun r u ⟨new, hgr', hdata, hres⟩ => ?_
      refine ⟨new, hgr.trans (by rwa [append_nil]), fun x hx => ?_, hres⟩
      rw [hdata x hx, hst.contents_eq]
    | none =>
      have hlen : l.length = i + 1 := by
        have := List.getElem?_eq_none_iff.mp hnext
        omega
      obtain rfl : steps = 0 := by omega
      have hlast : l.getLast? = some c := by
        rw [List.getLast?_eq_getElem?, hlen, Nat.add_sub_cancel]
        exact hl
      have hmem := mem_of_getElem? hl
      refine (runs_chainGrow _ hrw fun _ => ⟨chain_inRange hcht hmem,
        chain_ne_zero hcht hmem⟩).bind ?_ ?_
      · rintro c' u (⟨c'', hr, hgrown⟩ | ⟨hr, -⟩)
        swap
        · cases hr
        cases hr
        have hgr' : Grew V first (l ++ []) [c'] t u := by
          rw [append_nil]
          exact Grew.of_grown hcht hlast hgrown
        refine Runs.ret ⟨[c'], hgr.trans hgr', fun x hx => ?_, Or.inl ⟨c', rfl, ?_, fun _ => ?_⟩⟩
        · rw [← hst.contents_eq]
          refine hgrown.data x ?_
          rintro rfl
          exact chain_ne_zero hcht hx hgrown.free
        · rw [Nat.add_zero, ← hlen, List.getElem?_append_right (Nat.le_refl _), Nat.sub_self]
          rfl
        · simp [hlen]
      · rintro e u (⟨c', hr, -⟩ | ⟨-, htu⟩)
        · cases hr
        exact ⟨[], Grew.of_table hch (htu.2.trans hst.2) (htu.table_eq.trans hst.table_eq),
          fun _ _ => by rw [htu.contents_eq, hst.contents_eq], Or.inr ⟨e, rfl, rfl⟩⟩

/-- What `file_put` does to a file: the chain grows and the node follows it. -/
structure PutFile (V : Volume σ) (l new : List ℕ) (s : Fs σ) (n : Node) (q : Fs σ × Node) : Prop where
  chain : HasChain V q.1 q.2.info.firstCluster (l ++ new)
  fresh : ∀ c ∈ new, table V s c = 0
  other : ∀ c, c ∉ l ++ new → table V q.1 c = table V s c
  vol : Counters s q.1
  node : q.2.info = { n.info with firstCluster := q.2.info.firstCluster }
  cache : CacheOk q.2 (l ++ new)

theorem PutFile.of_grew {new : List ℕ} (h : Grew V n.info.firstCluster l new s t)
    (hcache : CacheOk n l) : PutFile V l new s n (t, n) := by
  refine ⟨Or.inr h.chain, h.fresh, h.other, h.vol, rfl, fun hc => ?_⟩
  have hget := hcache hc
  rwa [List.getElem?_append_left (List.getElem?_eq_some_iff.mp hget).1]

variable (hrw : V.readonly = false) (hch : HasChain V s n.info.firstCluster l) (hcache : CacheOk n l)
include hrw hch hcache

theorem runs_putSeek (hoff : offset / V.csize ≤ l.length) :
    Runs (fun p => V.quiet p.1) (putSeek V offset count) (s, n) fun r q => ∃ new,
      PutFile V l new s n q ∧ (∀ c ∈ l, contents V q.1 c = contents V s c) ∧
        Reached (offset / V.csize) l new r := by
  refine Runs.read_bind ?_
  dsimp only [id]
  by_cases hnil : l = []
  swap
  · obtain ⟨hstart, hle⟩ := walkStart_mem hch hcache hnil (offset / V.csize)
    generalize Node.walkStart n (offset / V.csize) = start at *
    rw [if_neg (by have := (hch.inRange _ (mem_of_getElem? hstart)).1; omega)]
    refine (runs_onFs (runs_putWalk hrw _ (offset / V.csize - start.1) start.1 start.2 s
      (hch.chain hnil) hstart (by omega))).mono ?_
    rintro r q ⟨t, rfl, new, hgr, hdata, hres⟩
    rw [show start.1 + (offset / V.csize - start.1) = offset / V.csize by omega] at hres
    exact ⟨new, PutFile.of_grew hgr hcache, hdata, hres⟩
  subst hnil
  have h0 : offset / V.csize = 0 := Nat.le_zero.mp hoff
  rw [walkStart_nil hch hcache, if_pos (by decide), h0]
  refine (runs_onFs (runs_chainGrow _ hrw fun h => absurd rfl h)).bind ?_ ?_
  swap
  · rintro e q ⟨t, rfl, ⟨c, hr, -⟩ | ⟨-, hst⟩⟩
    · cases hr
    · exact ⟨[], ⟨hch.same hst, nofun, fun c _ => by rw [hst.table_eq], Counters.of_eq hst.2, rfl,
        hcache⟩, nofun, Or.inr ⟨e, rfl, rfl⟩⟩
  rintro c q ⟨t, rfl, ⟨c', hr, hgrown⟩ | ⟨hr, -⟩⟩
  swap
  · cases hr
  cases hr
  have hgr := Grew.of_first hgrown
  refine Runs.modify_bind id (Runs.ret ?_)
  exact ⟨[c], ⟨Or.inr hgr.chain, hgr.fresh, hgr.other, hgr.vol, rfl, fun _ => rfl⟩, nofun,
    Or.inl ⟨c, rfl, rfl, fun _ => rfl⟩⟩

/-- The write engine as a whole, from the end of the chain or a place on it. -/
theorem runs_filePut (hoff : offset ≤ l.length * V.csize) (buf : ℕ → UInt8) (hcount : 0 < count) :
    Runs (fun p => V.quiet p.1) (filePut V offset (some buf) count) (s, n) fun r q =>
      ∃ new k err, r = .ok (k, err) ∧ PutFile V l new s n q ∧ k ≤ count ∧
        Stored V buf offset 0 k l (l ++ new) s q.1 := by
  have hindex : offset / V.csize ≤ l.length := by
    have := Nat.div_le_div_right (c := V.csize) hoff
    rwa [Nat.mul_div_cancel _ csize_pos] at this
  refine (runs_putSeek hrw hch hcache hindex).attempt_bind ?_
  rintro r ⟨t, n'⟩ ⟨new, hput, hdata, ⟨c, rfl, hget, hlen⟩ | ⟨e, rfl, rfl⟩⟩
  swap
  · refine Runs.ret ⟨[], 0, some e, rfl, hput, Nat.zero_le _, fun i _ h => by omega,
      fun i hi => fileByte_grown hdata (by omega), ?_, fun h => absurd (by simp) h⟩
    rwa [append_nil]
  have hne : l ++ new ≠ [] := by
    intro h
    rw [h] at hget
    cases hget
  have hloop := runs_putLoop hrw offset count buf count (l ++ new) 0 c t (hput.chain.chain hne) hget
    hcount (by omega)
  rw [Nat.add_zero] at hloop
  refine (runs_onFs hloop).bind ?_ ?_
  swap
  · rintro e q ⟨u, rfl, new', e', hr, -⟩
    cases hr
  rintro e q ⟨u, rfl, new', e', hr, hgr, hidx, hlt, hle, hstored⟩
  cases hr
  rw [append_assoc] at hidx hstored
  refine Runs.modify_bind id (Runs.ret ⟨new ++ new', e.value, e.error, rfl, ⟨?_, fun x hx => ?_,
    fun x hx => ?_, hput.vol.trans hgr.vol, hput.node, fun _ => hidx⟩, hle, hstored.inside,
    fun i hi => ?_, hstored.fits, fun hne' => ?_⟩)
  · rw [← append_assoc]
    exact Or.inr hgr.chain
  · rcases mem_append.mp hx with hx | hx
    · exact hput.fresh x hx
    · have h0 := hgr.fresh x hx
      rw [← hput.other x fun hmem => chain_ne_zero (hput.chain.chain hne) hmem h0, h0]
  · rw [← append_assoc] at hx
    rw [hgr.other x hx, hput.other x fun hmem => hx (mem_append_left _ hmem)]
  · rw [hstored.before i hi, fileByte_grown hdata (by omega)]
  · by_cases hnew' : new' = []
    · rw [hnew', append_nil] at hne' ⊢
      have hnew : new ≠ [] := by
        rintro rfl
        simp at hne'
      rw [hlen hnew, Nat.add_sub_cancel]
      have := Nat.div_mul_le_self offset V.csize
      omega
    · refine hstored.tight ?_
      have := length_pos_iff.mpr hnew'
      simp only [length_append]
      omega

end Seek

end Tach.FilePut
