import Tach.FilePut

/-!
Appending to an open file: `fat32_write` at the end of a file on a device without faults stores a
first part of the bytes behind those of the file.
-/

namespace Tach.FileOps

open List

open Actions Sectors FatData DriverRules FatSpecs Files FileRead FilePut

variable {σ : Type} {V : Volume σ} {s t : Fs σ} {n m : Node} {l l' new : List ℕ} {q : Fs σ × Node}

/-- The archive bit is not the one for directories. -/
theorem isDir_or_arch (a : UInt8) : ((a ||| attrArch) &&& attrDir != 0) = (a &&& attrDir != 0) := by
  have h : (a ||| attrArch) &&& attrDir = a &&& attrDir := by
    apply UInt8.toNat_inj.mp
    have hbits : attrArch.toNat &&& attrDir.toNat = 0 := rfl
    rw [UInt8.toNat_and, UInt8.toNat_or, Nat.and_or_distrib_right, hbits, Nat.or_zero,
      UInt8.toNat_and]
  rw [h]

/-- The file of a node on a volume: its chain has as many clusters as its size needs, and its
directory entry lies in a cluster in use that is not its own. -/
structure FileAt (V : Volume σ) (s : Fs σ) (n : Node) (l : List ℕ) : Prop where
  notDir : n.info.isDir = false
  chain : HasChain V s n.info.firstCluster l
  cache : CacheOk n l
  fits : n.info.size ≤ l.length * V.csize
  tight : l ≠ [] → (l.length - 1) * V.csize < n.info.size
  size_le : n.info.size ≤ maxSize
  apart : n.info.dirCluster ∉ l
  entry : n.info.dirCluster ≠ 0 → table V s n.info.dirCluster ≠ 0

/-- The entry's cluster stays apart from a chain that grows. -/
theorem FileAt.apart_grown (h : FileAt V s n l) (hput : PutFile V l new s n q) :
    n.info.dirCluster ∉ l ++ new ∧ (n.info.dirCluster ≠ 0 → table V q.1 n.info.dirCluster ≠ 0) := by
  by_cases h0 : n.info.dirCluster = 0
  · refine ⟨fun hc => ?_, fun hne => absurd h0 hne⟩
    have := (hput.chain.inRange _ hc).1
    omega
  · have hnot : n.info.dirCluster ∉ l ++ new := by
      intro hc
      rcases mem_append.mp hc with hc | hc
      · exact h.apart hc
      · exact h.entry h0 (hput.fresh _ hc)
    refine ⟨hnot, fun _ => ?_⟩
    rw [hput.other _ hnot]
    exact h.entry h0

def fileOf (V : Volume σ) (s : Fs σ) (n : Node) (l : List ℕ) : List UInt8 :=
  fileBytes V s l 0 n.info.size

theorem fileOf_length : (fileOf V s n l).length = n.info.size := by simp [fileOf, fileBytes]

theorem getElem?_fileOf (i : ℕ) : (fileOf V s n l)[i]? =
    if i < n.info.size then some (fileByte V s l i) else none := by
  rw [fileOf, fileBytes, List.getElem?_map]
  by_cases h : i < n.info.size
  · rw [if_pos h, List.getElem?_range h, Option.map_some, Nat.zero_add]
  · rw [if_neg h, List.getElem?_eq_none (by simpa using h), Option.map_none]

section Append

variable {x : List UInt8} {buf : ℕ → UInt8} {k : ℕ}

/-- The file with a node that covers what was stored behind its end. -/
theorem fileAt_stored (hfile : FileAt V s n l) (hput : PutFile V l new s n q)
    (hst : Stored V buf n.info.size 0 k l (l ++ new) s q.1) (hm : m.info.size = n.info.size + k)
    (hle : n.info.size + k ≤ maxSize) (hdir : m.info.isDir = n.info.isDir)
    (hentry : m.info.dirCluster = n.info.dirCluster)
    (hfirst : m.info.firstCluster = q.2.info.firstCluster) (hcache : CacheOk m (l ++ new)) :
    FileAt V q.1 m (l ++ new) where
  notDir := hdir.trans hfile.notDir
  chain := by
    rw [hfirst]
    exact hput.chain
  cache := hcache
  fits := by
    rw [hm]
    exact hst.fits
  tight hne := by
    by_cases hnew : new = []
    · subst hnew
      rw [append_nil] at hne ⊢
      have := hfile.tight hne
      omega
    · have hlen := length_pos_iff.mpr hnew
      rw [hm]
      exact hst.tight (by simp only [length_append]; omega)
  size_le := by
    rw [hm]
    exact hle
  apart := by
    rw [hentry]
    exact (hfile.apart_grown hput).1
  entry := by
    rw [hentry]
    exact (hfile.apart_grown hput).2

theorem fileOf_append (hst : Stored V (fun i => x.getD i 0) n.info.size 0 k l l' s t)
    (hm : m.info.size = n.info.size + k) (hk : k ≤ x.length) :
    fileOf V t m l' = fileOf V s n l ++ x.take k := by
  refine ext_getElem? fun i => ?_
  rw [getElem?_fileOf, hm]
  by_cases hlt : i < n.info.size
  · rw [if_pos (by omega), List.getElem?_append_left (by rw [fileOf_length]; exact hlt),
      getElem?_fileOf, if_pos hlt, hst.before i (by omega)]
  rw [List.getElem?_append_right (by rw [fileOf_length]; omega), fileOf_length]
  by_cases hin : i < n.info.size + k
  · have hbyte := hst.inside (i - n.info.size) (Nat.zero_le _) (by omega)
    rw [show n.info.size + (i - n.info.size) = i by omega] at hbyte
    rw [if_pos hin, hbyte, List.getElem?_take_of_lt (by omega), getD_eq_getElem?_getD,
      List.getElem?_eq_getElem (by omega), Option.getD_some]
  · rw [if_neg hin, List.getElem?_eq_none (by rw [length_take]; omega)]

def AppendPost (V : Volume σ) (x : List UInt8) (l : List ℕ) (s : Fs σ) (n : Node)
    (r : Except Errno ℕ) (q : Fs σ × Node) : Prop :=
  Counters s q.1 ∧ ∃ l', FileAt V q.1 q.2 l' ∧
    ((∃ e, r = .error e ∧ fileOf V q.1 q.2 l' = fileOf V s n l) ∨
      ∃ k, 0 < k ∧ k ≤ x.length ∧ r = .ok k ∧ fileOf V q.1 q.2 l' = fileOf V s n l ++ x.take k)

theorem runs_writeTail (hrw : V.readonly = false) (hfile : FileAt V s n l) {count : ℕ}
    (hcount : 0 < count) (hlen : count ≤ x.length) (hmax : n.info.size + count ≤ maxSize) :
    Runs (fun p => V.quiet p.1) (writeTail V n.info.size (fun i => x.getD i 0) count) (s, n)
      (AppendPost V x l s n) := by
  refine (runs_filePut hrw hfile.chain hfile.cache hfile.fits _ hcount).bind ?_ ?_
  swap
  · rintro e q ⟨new, k, err, hr, -⟩
    cases hr
  rintro ⟨k, err⟩ ⟨t, n'⟩ ⟨new, k', err', hr, hput, hk, hst⟩
  cases hr
  have htouch : Runs (fun p => V.quiet p.1)
      (nodeTouch (if k = 0 then none else some (n.info.size + k))) (t, n') fun r q => r = .ok () ∧
        q = (t, Node.touched n' t.vol.now (if k = 0 then none else some (n.info.size + k))) :=
    fun hq => ⟨hq, rfl, rfl⟩
  refine htouch.bind_ok ?_
  rintro q rfl
  generalize hm : Node.touched n' t.vol.now (if k = 0 then none else some (n.info.size + k)) = m
  have hsize : m.info.size = n.info.size + k := by
    rw [← hm, Node.touched, hput.node]
    by_cases h0 : k = 0 <;> simp [h0]
  have hdir : m.info.isDir = n.info.isDir := by
    rw [← hm, Node.touched, hput.node]
    exact isDir_or_arch _
  have hat : FileAt V t m (l ++ new) := by
    refine fileAt_stored hfile hput hst hsize (by omega) hdir ?_ ?_ ?_
    · rw [← hm, Node.touched, hput.node]
    · rw [← hm]
      rfl
    · rw [← hm]
      exact hput.cache
  have hbytes := fileOf_append hst hsize (by omega)
  by_cases h0 : k = 0
  · rw [if_neg (not_not.mpr h0)]
    refine Runs.fail ⟨hput.vol, l ++ new, hat, Or.inl ⟨_, rfl, hbytes.trans ?_⟩⟩
    rw [h0, take_zero, append_nil]
  · rw [if_pos h0]
    exact Runs.ret ⟨hput.vol, l ++ new, hat, Or.inr ⟨k, by omega, by omega, rfl, hbytes⟩⟩

theorem runs_writeCheck : Runs (fun p => V.quiet p.1) (writeCheck V) (s, n) fun r q =>
    q = (s, n) ∧ (r = .ok () → V.readonly = false) := by
  refine Runs.read_bind ?_
  split
  · exact Runs.fail ⟨rfl, nofun⟩
  split
  · exact Runs.fail ⟨rfl, nofun⟩
  rename_i hrw
  split
  · exact Runs.fail ⟨rfl, nofun⟩
  · exact Runs.ret ⟨rfl, fun _ => by simpa using hrw⟩

/-- `fat32_write` at the end of a file. -/
theorem runs_fat32Write (hfile : FileAt V s n l) (hx : x ≠ []) :
    Runs (fun p => V.quiet p.1) (fat32Write V n.info.size (fun i => x.getD i 0) x.length) (s, n)
      (AppendPost V x l s n) := by
  have hnone : ∀ e, AppendPost V x l s n (.error e) (s, n) :=
    fun e => ⟨Counters.of_eq rfl, l, hfile, Or.inl ⟨e, rfl, rfl⟩⟩
  refine runs_writeCheck.bind ?_ ?_
  swap
  · rintro e q ⟨rfl, -⟩
    exact hnone e
  rintro _ q ⟨rfl, hrw⟩
  have hlen := length_pos_iff.mpr hx
  rw [if_neg (by omega)]
  by_cases hbig : n.info.size = maxSize
  · rw [if_pos hbig]
    exact Runs.fail (hnone _)
  rw [if_neg hbig]
  refine Runs.read_bind ?_
  have hmax := hfile.size_le
  rw [if_neg (Nat.lt_irrefl _)]
  exact runs_writeTail (hrw rfl) hfile (by omega) (by omega) (by omega)

end Append

end Tach.FileOps
