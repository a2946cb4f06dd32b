import Tach.Records

/-!
Blocks of memory that an allocator hands out. A block has an address and a length, of which the
first bytes are its header; it is free or in use. The users hold pointers behind the headers, with
the sizes they asked for. General facts about where blocks lie, which of them are in use, and what
the users can rely on.
-/

namespace Tach.BlockLists

open List Records

variable {β : Type*}

section Regions

variable (addr len : β → ℕ)

/-- Blocks that do not overlap and lie in memory below `limit`. -/
structure Spread (limit : ℕ) (L : List β) : Prop where
  apart : L.Pairwise fun b c => Separate (addr b) (len b) (addr c) (len c)
  within : ∀ b ∈ L, addr b ≠ 0 ∧ addr b + len b ≤ limit

/-- The bytes of a block behind a header of `n` bytes. -/
def Payload (n : ℕ) (b : β) (x : ℕ) : Prop := addr b + n ≤ x ∧ x < addr b + len b

variable {addr len} {limit n x : ℕ} {L : List β} {b c : β}

namespace Spread

variable (h : Spread addr len limit L)
include h

theorem separate (hb : b ∈ L) (hc : c ∈ L) (hne : b ≠ c) :
    Separate (addr b) (len b) (addr c) (len c) := by
  have : Std.Symm fun b c : β => Separate (addr b) (len b) (addr c) (len c) :=
    ⟨fun _ _ h => h.symm⟩
  exact h.apart.forall hb hc hne

theorem nodup (hlen : ∀ b, 0 < len b) : (L.map addr).Nodup := by
  refine pairwise_map.mpr (h.apart.imp fun {b c} hs => ?_)
  have hpos := hlen b
  have hpos' := hlen c
  rcases hs with hs | hs <;> omega

/-- The bytes of a block are in no header. -/
theorem payload_header (hn : ∀ b, n ≤ len b) (hb : b ∈ L)
    (hx : Payload addr len n b x) {a : ℕ} (ha : a ∈ L.map addr) : x < a ∨ a + n ≤ x := by
  obtain ⟨c, hc, rfl⟩ := mem_map.mp ha
  by_cases hbc : b = c
  · subst hbc
    exact .inr hx.1
  · have hs := h.separate hb hc hbc
    have hnc := hn c
    obtain ⟨hlo, hhi⟩ := hx
    rcases hs with hs | hs
    · exact .inl (by omega)
    · exact .inr (by omega)

theorem payload_ne (hb : b ∈ L) (hc : c ∈ L) (hne : b ≠ c)
    (hx : Payload addr len n b x) : ¬Payload addr len n c x := by
  intro hx'
  obtain ⟨hlo, hhi⟩ := hx
  obtain ⟨hlo', hhi'⟩ := hx'
  rcases h.separate hb hc hne with hs | hs <;> omega

/-- There are no more blocks than addresses. -/
theorem length_le (hlen : ∀ b, 0 < len b) : L.length ≤ limit := by
  have hcard : (L.map addr).toFinset.card = L.length := by
    rw [toFinset_card_of_nodup (h.nodup hlen), length_map]
  rw [← hcard, ← Finset.card_range limit]
  refine Finset.card_le_card fun a ha => ?_
  obtain ⟨b, hb, rfl⟩ := mem_map.mp (mem_toFinset.mp ha)
  have hpos := hlen b
  have hend := (h.within b hb).2
  exact Finset.mem_range.mpr (by omega)

end Spread

end Regions

section States

variable (free : β → Bool) {L P R : List β} {b c : β}

def used (L : List β) : List β := L.filter fun b => !free b

abbrev Merged (R : List β) : Prop := R.IsChain fun b c => ¬(free b = true ∧ free c = true)

variable {free}

theorem mem_used : b ∈ used free L ↔ b ∈ L ∧ free b = false := by simp [used]

@[simp] theorem used_nil : used free [] = [] := rfl

@[simp] theorem used_append : used free (P ++ R) = used free P ++ used free R :=
  filter_append ..

theorem used_cons_busy (h : free b = false) : used free (b :: L) = b :: used free L := by
  simp [used, h]

theorem used_cons_free (h : free b = true) : used free (b :: L) = used free L := by
  simp [used, h]

theorem merged_used (hb : free b = false) :
    Merged free (P ++ b :: R) ↔ Merged free P ∧ Merged free R := by
  simp [Merged, isChain_append, isChain_cons, hb]

theorem Merged.head (h : Merged free (b :: R)) (hc : free c = free b) : Merged free (c :: R) := by
  simpa [Merged, isChain_cons, hc] using h

/-- A block is handed out and another one is given up: the rest stays. -/
theorem exists_kept {U V W : List β} (hb : b ∈ U) (hV : V.Perm (c :: U)) (hW : V.Perm (b :: W)) :
    ∃ T, U.Perm (b :: T) ∧ W.Perm (c :: T) := by
  obtain ⟨U₁, U₂, rfl⟩ := append_of_mem hb
  refine ⟨U₁ ++ U₂, perm_middle, List.Perm.cons_inv (hW.symm.trans (hV.trans ?_))⟩
  exact (perm_middle.cons c).trans (List.Perm.swap b c _)

end States

section Users

def without (live : List (ℕ × ℕ)) (pointer : ℕ) : List (ℕ × ℕ) :=
  live.filter fun r => r.1 ≠ pointer

/-- The blocks of other owners are still there, with their bytes. -/
def Others (live : List (ℕ × ℕ)) (m : Bytes) (live' : List (ℕ × ℕ)) (m' : Bytes) (owner : ℕ) : Prop :=
  ∀ r ∈ live, r.1 ≠ owner → r ∈ live' ∧ ∀ i < r.2, m' (r.1 + i) = m (r.1 + i)

/-- What a reallocation keeps of the block at `pointer`, when it returns `q`. -/
def Carried (live : List (ℕ × ℕ)) (m : Bytes) (live' : List (ℕ × ℕ)) (m' : Bytes)
    (pointer size q : ℕ) : Prop :=
  (size ≠ 0 → q = 0 → m' = m ∧ live' = live) ∧
    (q ≠ 0 → (q, size) ∈ live' ∧ ∀ old, (pointer, old) ∈ live →
      ∀ i < min old size, m' (q + i) = m (pointer + i))

theorem Carried.of_new {live : List (ℕ × ℕ)} {m m' : Bytes} {q size : ℕ}
    (hzero : 0 ∉ live.map Prod.fst) (hsame : q = 0 → m' = m) :
    Carried live m (if q ≠ 0 then (q, size) :: live else live) m' 0 size q := by
  refine ⟨fun _ hq => ⟨hsame hq, if_neg (not_not.mpr hq)⟩, fun hq => ⟨?_, fun old hold => ?_⟩⟩
  · rw [if_pos hq]
    exact mem_cons_self
  · exact absurd (mem_map_of_mem hold) hzero

variable (pointer size : β → ℕ)

/-- The blocks that the users hold are these blocks, each large enough. -/
structure Matches (live : List (ℕ × ℕ)) (U : List β) : Prop where
  pointers : (live.map Prod.fst).Perm (U.map pointer)
  room : ∀ r ∈ live, ∃ b ∈ U, r.1 = pointer b ∧ r.2 ≤ size b

variable {pointer size} {live : List (ℕ × ℕ)} {U V : List β} {b : β} {n p : ℕ}

namespace Matches

theorem perm (h : Matches pointer size live U) (hUV : U.Perm V) : Matches pointer size live V where
  pointers := h.pointers.trans (hUV.map _)
  room r hr := by
    obtain ⟨b, hb, hroom⟩ := h.room r hr
    exact ⟨b, hUV.mem_iff.mp hb, hroom⟩

theorem cons (h : Matches pointer size live U) (hn : n ≤ size b) :
    Matches pointer size ((pointer b, n) :: live) (b :: U) where
  pointers := h.pointers.cons _
  room r hr := by
    rcases mem_cons.mp hr with rfl | hr
    · exact ⟨b, mem_cons_self, rfl, hn⟩
    · obtain ⟨c, hc, hroom⟩ := h.room r hr
      exact ⟨c, mem_cons_of_mem _ hc, hroom⟩

theorem without (h : Matches pointer size live (b :: U)) (hb : pointer b ∉ U.map pointer) :
    Matches pointer size (without live (pointer b)) U where
  pointers := by
    have hfst : (BlockLists.without live (pointer b)).map Prod.fst =
        (live.map Prod.fst).filter fun p => p ≠ pointer b := by
      rw [BlockLists.without, filter_map]
      rfl
    have hU : ((b :: U).map pointer).filter (fun p => p ≠ pointer b) = U.map pointer := by
      rw [map_cons, filter_cons_of_neg (by simp)]
      exact filter_eq_self.mpr fun p hp => decide_eq_true fun heq => hb (heq ▸ hp)
    rw [hfst, ← hU]
    exact h.pointers.filter _
  room r hr := by
    obtain ⟨hr, hne⟩ := mem_filter.mp hr
    obtain ⟨c, hc, hpointer, hroom⟩ := h.room r hr
    rcases mem_cons.mp hc with rfl | hc
    · exact absurd hpointer (by simpa using hne)
    · exact ⟨c, hc, hpointer, hroom⟩

theorem mem (h : Matches pointer size live U) (hp : p ∈ live.map Prod.fst) :
    ∃ b ∈ U, p = pointer b := by
  obtain ⟨b, hb, heq⟩ := mem_map.mp (h.pointers.mem_iff.mp hp)
  exact ⟨b, hb, heq.symm⟩

theorem zero_not_mem (h : Matches pointer size live U) (hpos : ∀ b, pointer b ≠ 0) :
    0 ∉ live.map Prod.fst := by
  intro hzero
  obtain ⟨b, -, hb⟩ := h.mem hzero
  exact hpos b hb.symm

/-- A pointer that is held by nobody is not missed. -/
theorem without_none (hp : p ∉ live.map Prod.fst) : BlockLists.without live p = live := by
  refine filter_eq_self.mpr fun r hr => decide_eq_true fun heq => ?_
  exact hp (heq ▸ mem_map_of_mem hr)

/-- The bytes of the blocks that a call leaves alone are those that their owners had. -/
theorem others {live' : List (ℕ × ℕ)} {m m' : Bytes} {owner : ℕ} (h : Matches pointer size live U)
    (hlive : ∀ r ∈ live, r.1 ≠ owner → r ∈ live') (hkept : ∀ b ∈ U, pointer b ≠ owner → b ∈ V)
    (hframe : ∀ d ∈ V, ∀ i < size d, m' (pointer d + i) = m (pointer d + i)) :
    Others live m live' m' owner := by
  intro r hr hne
  obtain ⟨b, hb, hpointer, hroom⟩ := h.room r hr
  rw [hpointer] at hne ⊢
  exact ⟨hlive r hr (hpointer ▸ hne), fun i hi => hframe b (hkept b hb hne) i (by omega)⟩

section Changes

variable {U' : List β} {c : β} {m m' : Bytes}

variable (h : Matches pointer size live U)
include h

theorem grown (hafter : U'.Perm (b :: U)) (hn : n ≤ size b)
    (hframe : ∀ d ∈ U, ∀ i < size d, m' (pointer d + i) = m (pointer d + i)) :
    Matches pointer size ((pointer b, n) :: live) U' ∧
      Others live m ((pointer b, n) :: live) m' 0 :=
  ⟨(h.cons hn).perm hafter.symm,
    h.others (fun _ hr _ => mem_cons_of_mem _ hr) (fun _ hd _ => hd) hframe⟩

theorem shrunk (hbefore : U.Perm (b :: V)) (hb : pointer b ∉ V.map pointer)
    (hframe : ∀ d ∈ V, ∀ i < size d, m' (pointer d + i) = m (pointer d + i)) :
    Matches pointer size (BlockLists.without live (pointer b)) V ∧
      Others live m (BlockLists.without live (pointer b)) m' (pointer b) := by
  refine ⟨(h.perm hbefore).without hb, h.others
    (fun _ hr hne => mem_filter.mpr ⟨hr, decide_eq_true hne⟩) (fun d hd hne => ?_) hframe⟩
  rcases mem_cons.mp (hbefore.mem_iff.mp hd) with rfl | hd
  · exact absurd rfl hne
  · exact hd

/-- The block `b` becomes the block `c`, to which its bytes are copied. -/
theorem moved (hbefore : U.Perm (b :: V))
    (hb : pointer b ∉ V.map pointer) (hafter : U'.Perm (c :: V)) (hn : n ≤ size c)
    (hc : pointer c ≠ 0) (hframe : ∀ d ∈ V, ∀ i < size d, m' (pointer d + i) = m (pointer d + i))
    (hcopied : ∀ i < size b, i < n → m' (pointer c + i) = m (pointer b + i)) :
    let live' := (pointer c, n) :: BlockLists.without live (pointer b)
    Matches pointer size live' U' ∧ Others live m live' m' (pointer b) ∧
      Carried live m live' m' (pointer b) n (pointer c) := by
  obtain ⟨hmatches, hothers⟩ := h.shrunk hbefore hb hframe
  refine ⟨(hmatches.cons hn).perm hafter.symm, fun r hr hne => ?_, fun _ hzero => absurd hzero hc,
    fun _ => ⟨mem_cons_self, fun old hold i hi => ?_⟩⟩
  · obtain ⟨hr, hsame⟩ := hothers r hr hne
    exact ⟨mem_cons_of_mem _ hr, hsame⟩
  · obtain ⟨d, hd, hpointer, hroom⟩ := h.room _ hold
    dsimp only at hpointer hroom
    rcases mem_cons.mp (hbefore.mem_iff.mp hd) with rfl | hd
    · exact hcopied i (by omega) (by omega)
    · exact absurd (hpointer ▸ mem_map_of_mem hd) hb

end Changes

section Layouts

variable {addr len : β → ℕ} {free : β → Bool} {L : List β} {limit k : ℕ}
variable (h : Matches pointer size live (used free L)) (hL : Spread addr len limit L)
variable (hpointer : ∀ b, pointer b = addr b + k) (hlen : ∀ b, 0 < len b)
include h hL hpointer hlen

theorem nodup : (live.map Prod.fst).Nodup := by
  refine h.pointers.nodup_iff.mpr (pairwise_map.mpr ?_)
  refine (pairwise_map.mp ((hL.nodup hlen).sublist (filter_sublist.map addr))).imp
    fun hne heq => hne ?_
  rw [hpointer, hpointer] at heq
  exact Nat.add_right_cancel heq

theorem pointer_not_mem (hU : (used free L).Perm (b :: U)) : pointer b ∉ U.map pointer := by
  have hnodup := h.pointers.nodup_iff.mp (h.nodup hL hpointer hlen)
  exact (nodup_cons.mp ((hU.map pointer).nodup_iff.mp hnodup)).1

/-- The users' blocks do not overlap. -/
theorem apart (hsize : ∀ b, k + size b ≤ len b) :
    live.Pairwise fun r q => Separate r.1 r.2 q.1 q.2 := by
  refine (pairwise_map.mp (h.nodup hL hpointer hlen)).imp_of_mem fun {r q} hr hq hne => ?_
  obtain ⟨b, hb, hbp, hbs⟩ := h.room r hr
  obtain ⟨c, hc, hcp, hcs⟩ := h.room q hq
  have hbc : b ≠ c := fun heq => hne (by rw [hbp, hcp, heq])
  have hb' := hsize b
  have hc' := hsize c
  rw [hbp, hcp, hpointer, hpointer]
  exact (hL.separate (mem_used.mp hb).1 (mem_used.mp hc).1 hbc).mono (by omega) (by omega) (by omega)
    (by omega)

/-- The owner of a block stores a byte in it. -/
theorem stored (hsize : ∀ b, k + size b ≤ len b) {r : ℕ × ℕ} {i : ℕ} (hr : r ∈ live) (hi : i < r.2)
    (m : Bytes) (value : UInt8) : Others live m live (Function.update m (r.1 + i) value) r.1 := by
  have : Std.Symm fun r q : ℕ × ℕ => Separate r.1 r.2 q.1 q.2 := ⟨fun _ _ h => h.symm⟩
  intro q hq hne
  have hapart := (h.apart hL hpointer hlen hsize).forall hr hq fun heq => hne (heq ▸ rfl)
  refine ⟨hq, fun j hj => Function.update_of_ne ?_ _ _⟩
  rcases hapart with hapart | hapart <;> omega

omit hlen in
/-- The users' blocks are apart from all headers. -/
theorem headers (hsize : ∀ b, k + size b ≤ len b) :
    ∀ r ∈ live, ∀ b ∈ L, Separate r.1 r.2 (addr b) k := by
  intro r hr b hb
  obtain ⟨c, hc, hcp, hcs⟩ := h.room r hr
  have hb' := hsize b
  have hc' := hsize c
  rw [hcp, hpointer]
  by_cases hcb : c = b
  · rw [hcb]
    exact .inr le_rfl
  · exact (hL.separate (mem_used.mp hc).1 hb hcb).mono (by omega) (by omega) le_rfl (by omega)

end Layouts

end Matches

end Users

end Tach.BlockLists
