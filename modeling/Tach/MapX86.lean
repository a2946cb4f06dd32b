import Tach.PagingX86

/-!
The operations of arch/x86_64/paging.c on trees of page tables: `arch_paging_map` goes down one
level at a time and may split a large page, `arch_paging_unmap` clears the entry its walk comes
to, `clone_level` copies a tree into fresh frames and `destroy_level` gives the frames back.
-/

namespace Tach.PagingX86

open Function Frames Paging Radix TableTrees Machine Coding

variable {m m' m₁ : Machine} {k t s d v p i n : ℕ} {fl : Flags} {N : Set ℕ}

/-- The table that replaces a large page, after the flags of the new page are added. -/
theorem enters_split {f : ℕ} (fl : Flags) (hF : coding.Fine m.ram (0 + 1) t) (hheld : coding.Held m (0 + 1) t)
    (hs : m.pmm.Sound) (hi : i < 512) (hhuge : huge (m.ram t i) = true)
    (halloc : m.allocZeroed = some (f, m')) : ∃ m₁, split2mPage m t i = (.ok (), m₁) ∧
      coding.Enters m 0 t i fl.user (m₁.setWord t i (m₁.ram t i ||| tableFlags fl)) {f} := by
  obtain ⟨hg, hram, hflt, hfew⟩ := allocZeroed_grows hs halloc
  have hf40 : f < 2 ^ 40 := hflt.trans (by decide)
  have hft : f ≠ t := fun heq => hg.notMem_of_used (hheld t root_mem_tables) (heq ▸ rfl)
  have hold : format.link (m.ram t i) = false := by simp [format_link, hhuge]
  have hstop : Stops (m.ram t i) 1 := by
    obtain ⟨w, hw, -⟩ := exists_index (F := format) 0 0 hi
    have := hF.stops w
    rw [(walk_stop hw hold).1] at this
    exact this
  have hp : present (m.ram t i) = true := by
    by_contra hno
    have := (hstop (by decide)).2 (Bool.of_not_eq_true hno)
    rw [hhuge] at this
    cases this
  have halign := ((hstop (by decide)).1 hp).2
  refine ⟨_, by rw [split2mPage, halloc], ?_⟩
  set flags := m.ram t i % 2 ^ 21 + m.ram t i / 2 ^ 52 % 2 ^ 12 * 2 ^ 52 with hflags
  set word := f * 2 ^ 12 ||| 3 ||| if user (m.ram t i) then 4 else 0 with hword
  set m₁ := (m'.setFrame f _).setWord t i word with hm₁
  set m₂ := m₁.setWord t i (m₁.ram t i ||| tableFlags fl) with hm₂
  have hentry : m₂.ram t i = word ||| tableFlags fl := by
    simp [hm₂, hm₁, setWord]
  have htable : ∀ j < 512, m₂.ram f j = (m.ram t i / 2 ^ 21 % 2 ^ 31 * 2 ^ 21 + j * 2 ^ 12 +
      if huge flags then flags - 2 ^ 7 else flags) % 2 ^ 64 := by
    intro j hj
    simp [hm₂, hm₁, setWord, setFrame, hft, hj]
  have hwords := fun j hj => split_word (m.ram t i) j hj halign hflags (htable j hj)
  obtain ⟨hwu, hwh, hwn, hwf⟩ := split_link hf40 (m.ram t i) hword
  have hlinkword : coding.LinkWord f fl.user (m₂.ram t i) := by
    rw [hentry, ← hwf]
    exact linkWord_or hwh hwn fl
  refine Coding.Enters.of_fresh hF hheld hi hold ?_ hfew (fun j hj => ?_) (fun g hgt hgf => ?_)
    hlinkword (fun _ => .inr rfl) (fun j h => absurd rfl h) (fun w => ?_) fun _ h => ?_
  · exact ⟨hg.fresh, hg.used, hg.taken, hg.kept, hg.limit, hg.sound⟩
  · simp [hm₂, hm₁, setWord, setFrame, hj, hram, hft.symm]
  · simp [hm₂, hm₁, setWord, setFrame, hgt, hgf, hram]
  · obtain ⟨h0, h1, h2, h63, hfr⟩ := hwords _ (index_lt format w 0)
    have hoff : format.index w 0 = w % 512 ^ (0 + 1) := by simp [Format.index, arity_eq]
    rw [leafOf_eq, leafOf_eq, h0, h1, h2, h63, hfr, hoff, Nat.pow_zero, Nat.mod_one, Nat.add_zero]
  · change user (m₂.ram t i) = true
    rw [hentry, (or_tableFlags word fl).2.2.1, hwu, show user (m.ram t i) = true from h]
    rfl

theorem enters_linked_table (hF : coding.Fine m.ram (k + 1) t) (hs : m.pmm.Sound) (hi : i < 512)
    (hlink : format.link (m.ram t i) = true) :
    coding.Enters m k t i fl.user (m.setWord t i (m.ram t i ||| tableFlags fl)) ∅ := by
  have hx : (!nx (m.ram t i)) = true := (hF.link hi hlink).executable
  rw [Bool.not_eq_true'] at hx
  refine enters_linked hF hs hi hlink (linkWord_or (link_iff.mp hlink).2 hx fl) fun hu => ?_
  change user (m.ram t i ||| tableFlags fl) = true
  rw [(or_tableFlags _ fl).2.2.1, show user (m.ram t i) = true from hu]
  rfl

/-- One level of `arch_paging_map`. -/
theorem enter_spec (fl : Flags) (hF : coding.Fine m.ram (k + 1) t)
    (hheld : coding.Held m (k + 1) t) (hs : m.pmm.Sound) (hi : i < 512) (hk : k + 1 ≤ 3) :
    (∃ N m', enter m t i (k + 1) fl = (.ok (), m') ∧ coding.Enters m k t i fl.user m' N) ∨
      ∃ err, enter m t i (k + 1) fl = (.error err, m) ∧ format.link (m.ram t i) = false ∧
        (m.pmm.freePages = 0 ∨ present (m.ram t i) = true) := by
  unfold enter
  by_cases hsplit : k + 1 = 1 ∧ huge (m.ram t i) = true
  · rw [if_pos hsplit]
    obtain ⟨hk0, hhuge⟩ := hsplit
    obtain rfl : k = 0 := by omega
    cases halloc : m.allocZeroed with
    | none =>
      refine .inr ⟨.enomem, ?_, by simp [format_link, hhuge], .inl (allocZeroed_none hs halloc)⟩
      rw [split2mPage, halloc]
    | some fm =>
      obtain ⟨m₁, hsplit, henters⟩ := enters_split fl hF hheld hs hi hhuge halloc
      rw [hsplit]
      exact .inl ⟨_, _, rfl, henters⟩
  · rw [if_neg hsplit]
    by_cases habsent : present (m.ram t i) = false
    · rw [if_pos habsent]
      cases halloc : m.allocZeroed with
      | none =>
        exact .inr ⟨.enomem, rfl, by simp [format_link, habsent], .inl (allocZeroed_none hs halloc)⟩
      | some fm =>
        have hf40 : fm.1 < 2 ^ 40 := (allocZeroed_grows hs halloc).2.2.1.trans (by decide)
        exact .inl ⟨_, _, rfl, enters_absent hF hheld hs hi habsent
          (by simp [format_link, habsent]) halloc (linkWord_table hf40 fl)⟩
    · rw [if_neg habsent]
      by_cases hlarge : k + 1 = 2 ∧ huge (m.ram t i) = true
      · rw [if_pos hlarge]
        exact .inr ⟨.enotsup, rfl, by simp [format_link, hlarge.2],
          .inr (Bool.of_not_eq_false habsent)⟩
      · rw [if_neg hlarge]
        refine .inl ⟨_, _, rfl, enters_linked_table hF hs hi ?_⟩
        by_contra hno
        -- only the PML4 is left, and it maps no large pages
        have hlink := Bool.of_not_eq_true hno
        have hp := Bool.of_not_eq_false habsent
        have hh : huge (m.ram t i) = true := by
          by_contra hh
          exact hno (link_iff.mpr ⟨hp, Bool.of_not_eq_true hh⟩)
        obtain ⟨w, hw, -⟩ := exists_index (F := format) 0 k hi
        have hstop := hF.stops w
        rw [(walk_stop hw hlink).1] at hstop
        have hk3 := ((hstop (by simp)).1 hp).1
        have : k + 1 ≠ 1 := fun h => hsplit ⟨h, hh⟩
        have : k + 1 ≠ 2 := fun h => hlarge ⟨h, hh⟩
        omega

theorem mapAt_spec (v : ℕ) (fl : Flags) (hF : coding.Fine m.ram k t) (hheld : coding.Held m k t)
    (hs : m.pmm.Sound) (hk : k ≤ 3) (hp : p < 2 ^ 40) : ∃ N,
      coding.MapsAt m k t v ⟨p, fl.writable, fl.user, fl.executable⟩ (mapAt v p fl k m t) N := by
  induction k generalizing m t with
  | zero => exact ⟨∅, mapsAt_zero hs v fun w => leafOf_word hp fl w⟩
  | succ k ih =>
    rw [mapAt]
    obtain ⟨N, m', hm', hE⟩ | ⟨err, herr, hno, hcause⟩ :=
      enter_spec fl hF hheld hs (index_lt format v (k + 1)) hk
    · rw [hm']
      have hlink := hE.fine.link (index_lt format v (k + 1)) hE.link
      have hheld' : coding.Held m' (k + 1) t := by
        intro f hf
        rw [hE.tables] at hf
        exact (hE.grows.used f).mpr (hf.imp_left (hheld f))
      have hchild : coding.Held m' k (frameOf (m'.ram t (format.index v (k + 1)))) :=
        fun f hf => hheld' f (tables_child (index_lt format v (k + 1)) hE.link hf)
      obtain ⟨N', hmaps⟩ := ih hlink.fine hchild hE.grows.sound (by omega)
      exact ⟨N ∪ N', hE.maps rfl (hmaps.lift hE.fine hheld' rfl hE.link hE.forUser) hmaps.few⟩
    · rw [herr]
      refine ⟨∅, mapsAt_stuck hF hs hno (hcause.imp_right fun hp => ?_)⟩
      rw [lookup_stop rfl hno, leafOf_eq, if_pos hp]
      nofun

/-- `arch_paging_unmap` clears the entry of the page, if its walk comes to one. -/
theorem unmapAt_eq (hF : coding.Fine m.ram k t) (hk : k ≤ 3) :
    unmapAt v k m t = match format.slot m.ram k t v with
      | some u => (.ok (), m.setWord u (format.index v 0) 0) | none => (.error .enoent, m) := by
  induction k generalizing t with
  | zero => rfl
  | succ k ih =>
    set i := format.index v (k + 1) with hi
    have hilt : i < 512 := index_lt format v (k + 1)
    rw [unmapAt, ← hi]
    by_cases hlink : format.link (m.ram t i) = true
    · have hnot : ¬(present (m.ram t i) = false ∨ (k + 1 ≠ 3 ∧ huge (m.ram t i) = true)) := by
        obtain ⟨hp, hh⟩ := link_iff.mp hlink
        simp [hp, hh]
      rw [if_neg hnot, (walk_succ hi.symm hlink).2.2]
      exact ih (hF.link hilt hlink).fine (by omega)
    · have hlink := Bool.of_not_eq_true hlink
      have hyes : present (m.ram t i) = false ∨ (k + 1 ≠ 3 ∧ huge (m.ram t i) = true) := by
        by_cases hp : present (m.ram t i) = true
        · have hstop := hF.stops v
          rw [(walk_stop hi.symm hlink).1] at hstop
          refine .inr ⟨((hstop (by simp)).1 hp).1, ?_⟩
          by_contra hh
          rw [link_iff.mpr ⟨hp, Bool.of_not_eq_true hh⟩] at hlink
          cases hlink
        · exact .inl (Bool.of_not_eq_true hp)
      rw [if_pos hyes, (walk_stop hi.symm hlink).2.2]

variable {child : Machine → ℕ → Option ℕ × Machine}

/-- The loop over the entries of a table above level 0. -/
theorem cloneEntries_spec (hF : coding.Fine m.ram (k + 1) s) (hheld : coding.Held m (k + 1) s)
    (hchild : ∀ m c, coding.Fine m.ram k c → coding.Held m k c → m.pmm.Sound →
      coding.CloneSpec m k c (child m c)) (hn : i + n = 512) (h : coding.Copied m k s d i m₁ N) :
    (∃ m' N', cloneEntries child false s d n i m₁ = (true, m') ∧ coding.Copied m k s d 512 m' N') ∨
      ∃ m' N', cloneEntries child false s d n i m₁ = (false, m') ∧ Grows m m' N' ∧ d ∈ N' ∧
        ∀ f, m.pmm.used f = true → m'.ram f = m.ram f := by
  induction n generalizing i m₁ N with
  | zero =>
    obtain rfl : i = 512 := by omega
    exact .inl ⟨m₁, N, rfl, h⟩
  | succ n ih =>
    rw [cloneEntries]
    by_cases hlink : format.link (m₁.ram s i) = true
    · obtain ⟨hp, hh⟩ := link_iff.mp hlink
      simp only [hp, hh, Bool.false_eq_true, reduceCtorEq, or_self, if_false]
      have hsrc := h.source hheld
      have hF₁ := (hF.congr hsrc).link (show i < 512 by omega) hlink
      have hheld₁ : coding.Held m₁ k (frameOf (m₁.ram s i)) := by
        intro f hf
        have hmem := tables_child (show i < 512 by omega) hlink hf
        rw [tables_congr hsrc] at hmem
        exact h.grows.used_mono (hheld f hmem)
      have hspec := hchild m₁ (frameOf (m₁.ram s i)) hF₁.fine hheld₁ h.grows.sound
      cases hres : child m₁ (frameOf (m₁.ram s i)) with
      | mk c m' =>
        rw [hres] at hspec
        cases c with
        | none =>
          obtain ⟨N', hg, hram⟩ := hspec
          refine .inr ⟨m', N ∪ N', rfl, h.grows.trans hg, .inl h.mem, fun f hf => ?_⟩
          rw [hram f (h.grows.used_mono hf), h.off f (h.grows.notMem_of_used hf)]
        | some c =>
          obtain ⟨N', hc⟩ := hspec
          have hcN : c ∈ N' := hc.tables ▸ root_mem_tables
          have hlt := (h.grows.sound.free c (hc.grows.fresh c hcN)).2.2
          have hmax := h.grows.sound.limit
          have hc40 : c < 2 ^ 40 := by
            simp only [maxFrames] at hmax
            omega
          exact ih (by omega) (h.linked hF hheld (show i < 512 by omega) hlink hc
            (linkWord_copy hc40 hF₁ hlink))
    · have hno := Bool.of_not_eq_true hlink
      have hcond : present (m₁.ram s i) = false ∨ false = true ∨ huge (m₁.ram s i) = true := by
        by_contra hcond
        rw [not_or, not_or] at hcond
        exact hlink (link_iff.mpr ⟨Bool.of_not_eq_false hcond.1, Bool.of_not_eq_true hcond.2.2⟩)
      rw [if_pos hcond]
      exact ih (by omega) (h.stop hF hheld (show i < 512 by omega) hno)

/-- The loop over the entries of a table of level 0. -/
theorem cloneEntries_lowest (hne : s ≠ d) : cloneEntries child true s d n i m =
      (true, m.setFrame d fun j => if i ≤ j ∧ j < i + n then m.ram s j else m.ram d j) := by
  induction n generalizing i m with
  | zero =>
    have hrow : (fun j => if i ≤ j ∧ j < i + 0 then m.ram s j else m.ram d j) = m.ram d := by
      funext j
      rw [if_neg (by omega)]
    rw [hrow, setFrame, update_eq_self]
    rfl
  | succ n ih =>
    rw [cloneEntries, if_pos (.inr (.inl rfl)), ih]
    simp only [setFrame, setWord, update_of_ne hne, update_self,
      update_idem, Prod.mk.injEq, true_and, Machine.mk.injEq]
    congr 1
    funext j
    by_cases hj : j = i
    · rw [hj, if_neg (by omega), if_pos (by omega), update_self]
    · rw [update_of_ne hj]
      by_cases hrange : i + 1 ≤ j ∧ j < i + 1 + n
      · rw [if_pos hrange, if_pos (by omega)]
      · rw [if_neg hrange, if_neg (by omega)]

theorem cloneLevel_spec (hF : coding.Fine m.ram k s) (hheld : coding.Held m k s)
    (hs : m.pmm.Sound) : coding.CloneSpec m k s (cloneLevel k m s) := by
  induction k generalizing m s with
  | zero =>
    rw [cloneLevel]
    cases halloc : m.allocZeroed with
    | none => exact ⟨∅, Grows.refl hs, fun _ _ => rfl⟩
    | some dm =>
      obtain ⟨d, m₁⟩ := dm
      obtain ⟨hg, hram, -⟩ := allocZeroed_grows hs halloc
      have hsd : s ≠ d := fun heq =>
        hg.notMem_of_used (hheld s root_mem_tables) (Set.mem_singleton_iff.mpr heq)
      simp only [cloneEntries_lowest hsd, if_true]
      refine ⟨{d}, clonesAt_zero hs halloc fun j hj => ?_⟩
      rw [if_pos ⟨Nat.zero_le j, by rwa [Nat.zero_add]⟩, hram, update_of_ne hsd]
  | succ k ih =>
    rw [cloneLevel]
    cases halloc : m.allocZeroed with
    | none => exact ⟨∅, Grows.refl hs, fun _ _ => rfl⟩
    | some dm =>
      obtain ⟨d, m₁⟩ := dm
      obtain ⟨m', N, hloop, hC⟩ | ⟨m', N, hloop, hg, hd, hram⟩ :=
        cloneEntries_spec (n := 512) hF hheld
          (fun (m : Machine) (c : ℕ) hF hheld hs => (ih hF hheld hs : coding.CloneSpec m k c (cloneLevel k m c)))
          rfl (copied_start hs halloc)
      · simp only [hloop, if_true]
        exact ⟨N, hC.grows, hC.off, hC.fine, hC.tables,
          fun w => (hC.done w (index_lt format w (k + 1))).1,
          fun w => (hC.done w (index_lt format w (k + 1))).2⟩
      · simp only [hloop, Bool.false_eq_true, if_false]
        exact ⟨N \ {d}, hg.free hs hd, hram⟩

/-- `destroy_level` gives every table of a tree back. -/
theorem destroyLevel_spec (hT : format.Tree m.ram k t) (hs : m.pmm.Sound)
    (hheld : ∀ f ∈ format.tables m.ram k t, Coding.Single m f) :
    Drops m (destroyLevel k m t) (format.tables m.ram k t) := by
  induction k generalizing m t with
  | zero =>
    obtain ⟨hused, hrefs, hpos, hlt⟩ := hheld t root_mem_tables
    rw [destroyLevel, if_neg (by omega)]
    exact Drops.free hs hused hrefs hpos hlt
  | succ k ih =>
    have ht := hheld t root_mem_tables
    rw [destroyLevel, if_neg (Nat.pos_iff_ne_zero.mp ht.2.2.1)]
    refine drops_table (C := coding) hT hheld ?_
    refine drops_entries hT hs hheld (fun n j hj hram hsn hlink hsingle => ?_)
      (fun n j hj hram hno => ?_) le_rfl
    · rw [hram, if_pos (show (present (m.ram t j) && !huge (m.ram t j)) = true from hlink)]
      have hchild := ih (hram ▸ (hT.1 j hj hlink).2) hsn
        fun f hf => hsingle f (by rw [hram] at hf; exact hf)
      rw [hram] at hchild
      exact hchild
    · rw [hram, if_neg (show ¬(present (m.ram t j) && !huge (m.ram t j)) = true from hno)]

end Tach.PagingX86
