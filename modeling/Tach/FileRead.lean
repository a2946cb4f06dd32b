import Tach.FatGrow
import Tach.Files

/-!
The bytes of a file: those of the clusters of its chain, one after another. A walk along the chain
from the cached position or from the first cluster ends at the same cluster, and a round of the
loops over a file handles a piece of one cluster.
-/

namespace Tach.FileRead

open Actions Sectors FatData FatTable FatView DriverRules FatSpecs Files Chains

variable {σ : Type} {V : Volume σ} {s t : Fs σ} {l : List ℕ} {first : ℕ}

/-- The chain of a file; first cluster 0 stands for none. -/
def HasChain (V : Volume σ) (s : Fs σ) (first : ℕ) (l : List ℕ) : Prop :=
  (first = 0 ∧ l = []) ∨ Chain (stepOf V.toGeom (table V s)) first l

section

variable (h : HasChain V s first l)
include h

theorem HasChain.same (hst : Same V s t) : HasChain V t first l := by
  rwa [HasChain, hst.table_eq]

theorem HasChain.inRange : ∀ c ∈ l, V.InRange c := by
  rcases h with ⟨-, rfl⟩ | h
  · simp
  · exact fun c hc => chain_inRange h hc

theorem HasChain.chain (hl : l ≠ []) :
    Chain (stepOf V.toGeom (table V s)) first l := h.resolve_left fun h => hl h.2

theorem HasChain.first_eq : first = l.headD 0 := by
  rcases h with ⟨h0, rfl⟩ | h
  · exact h0
  · obtain ⟨tail, rfl⟩ := h.exists_cons
    rfl

end

def CacheOk (n : Node) (l : List ℕ) : Prop :=
  n.chainCluster ≠ 0 → l[n.chainIndex]? = some n.chainCluster

/-- Byte `i` of the file with chain `l`. -/
def fileByte (V : Volume σ) (s : Fs σ) (l : List ℕ) (i : ℕ) : UInt8 :=
  contents V s (l.getD (i / V.csize) 0) (i % V.csize)

/-- The `count` bytes from `offset` on. -/
def fileBytes (V : Volume σ) (s : Fs σ) (l : List ℕ) (offset count : ℕ) : List UInt8 :=
  (List.range count).map (fun i => fileByte V s l (offset + i))

section Walk

variable {v : View} {n : Node} {i c : ℕ}

/-- The link of a cluster of the chain is the next one. -/
theorem reads_next (hch : Chain (stepOf V.toGeom (fat V.toGeom v)) first l) (hi : l[i]? = some c) :
    Reads V v (fatNext V c) (.ok l[i + 1]?) := by
  have h := reads_fatNext (V := V) v c
  cases hnext : l[i + 1]? with
  | some d => rwa [hch.step_at hi hnext] at h
  | none =>
    have h1 : i < l.length := (List.getElem?_eq_some_iff.mp hi).1
    have h2 : l.length ≤ i + 1 := List.getElem?_eq_none_iff.mp hnext
    rwa [hch.step_last hi (by omega)] at h

/-- A walk starts on the chain, not behind its goal. -/
theorem walkStart_mem (hch : HasChain V s n.info.firstCluster l) (hcache : CacheOk n l)
    (hl : l ≠ []) (index : ℕ) : l[(Node.walkStart n index).1]? = some (Node.walkStart n index).2 ∧
      (Node.walkStart n index).1 ≤ index := by
  unfold Node.walkStart
  split
  · rename_i h
    exact ⟨hcache h.1, h.2⟩
  · obtain ⟨tail, rfl⟩ := (hch.chain hl).exists_cons
    exact ⟨rfl, Nat.zero_le _⟩

theorem walkStart_nil (hch : HasChain V s n.info.firstCluster []) (hcache : CacheOk n [])
    (index : ℕ) : Node.walkStart n index = (0, 0) := by
  have h0 : n.chainCluster = 0 := by
    by_contra h
    simpa using hcache h
  unfold Node.walkStart
  rw [if_neg (by simp [h0]), hch.first_eq]
  rfl

end Walk

section Chunks

variable {v : View} {pos left c : ℕ}

/-- The bytes one round of a loop handles: whole sectors, or a piece of one. -/
def chunkLen (g : Geom) (pos left : ℕ) : ℕ :=
  if pos % g.csize % 512 = 0 ∧ 512 ≤ left then
    min (left / 512) (g.spc - pos % g.csize / 512) * 512
  else min (512 - pos % g.csize % 512) left

theorem pos_lt_csize (g : Geom) (pos : ℕ) : pos % g.csize < g.spc * 512 :=
  Nat.mod_lt _ csize_pos

theorem chunkLen_bounds (g : Geom) (pos : ℕ) (hleft : 0 < left) : 0 < chunkLen g pos left ∧
    chunkLen g pos left ≤ left ∧ pos % g.csize + chunkLen g pos left ≤ g.csize := by
  have := pos_lt_csize g pos
  have hcs : g.csize = g.spc * 512 := rfl
  unfold chunkLen
  split <;> omega

theorem cdata_eq {g : Geom} {i : ℕ} (hc : g.InRange c) (hi : i < g.csize) :
    cdata g v c i = v (g.clusterLba c + i / 512) (i % 512) := if_pos ⟨hc, hi⟩

end Chunks

theorem advance_next {cs pos n : ℕ} (hfit : pos % cs + n ≤ cs) (hn : 0 < n)
    (h : (pos + n) % cs = 0) : (pos + n) / cs = pos / cs + 1 ∧ pos + n = (pos / cs + 1) * cs := by
  have hcs : 0 < cs := by omega
  have hdecomp := Nat.div_add_mod pos cs
  have hfull : pos % cs + n = cs := by
    by_contra hne
    have hadd : pos + n = pos % cs + n + cs * (pos / cs) := by omega
    rw [hadd, Nat.add_mul_mod_self_left, Nat.mod_eq_of_lt (by omega)] at h
    omega
  have heq : pos + n = (pos / cs + 1) * cs := by
    rw [Nat.add_mul, Nat.one_mul, Nat.mul_comm (pos / cs) cs]
    omega
  exact ⟨by rw [heq, Nat.mul_div_cancel _ hcs], heq⟩

theorem advance_same {cs pos n : ℕ} (hfit : pos % cs + n ≤ cs) (hn : 0 < n)
    (h : (pos + n) % cs ≠ 0) : (pos + n) / cs = pos / cs := by
  have hdecomp := Nat.div_add_mod pos cs
  have hadd : pos + n = pos % cs + n + cs * (pos / cs) := by omega
  have hlt : pos % cs + n < cs := by
    refine Nat.lt_of_le_of_ne hfit fun heq => h ?_
    rw [hadd, heq, Nat.add_mul_mod_self_left, Nat.mod_self]
  rw [hadd, Nat.add_mul_div_left _ _ (by omega), Nat.div_eq_of_lt hlt, Nat.zero_add]

section Calls

variable {α : Type} {n : Node}

/-- A driver call made by a node function. -/
theorem runs_onFs {m : FatM σ α} {P : Except Errno α → Fs σ → Prop} (h : Runs V.quiet m s P) :
    Runs (fun p => V.quiet p.1) (onFs m) (s, n) fun r q => ∃ u, q = (u, n) ∧ P r u :=
  Runs.zoom h id fun _ u hq hu => ⟨hq, u, rfl, hu⟩

end Calls

end Tach.FileRead
