import Tach.ElfPages
import Tach.Processes
import Tach.Records

/-!
The stack page that `process_exec_image_args` fills for a new image. The strings of the arguments
stand one behind the other up to the end of the page, the words with their number and their
addresses below them.
-/

namespace Tach.Ownership

open Actions Frames Vmm Processes Function List Spaces Machine
open Records (Separate)

variable {A : Arch} {s : Spaces} {f : ℕ}

/-- Room for the arguments on the stack page. -/
def ArgvFits (A : Arch) (argv : List (List ℕ)) : Prop :=
  let size := (argv.map fun text => text.length + 1).sum
  argv.length ≤ 16 ∧ (∀ text ∈ argv, text.length + 1 ≤ 256) ∧ size ≤ pageSize ∧ userStackPage ≤
      ((userStackTop - size) / 16 * 16 - (argv.length + 3) * (A.bits / 8)) / 16 * 16

instance (A : Arch) : DecidablePred (ArgvFits A) := fun argv => by
  unfold ArgvFits
  infer_instance

/-- The bytes at the address `a` of a stack page that holds `F`. -/
def Reads (F : ℕ → ℕ) (a : ℕ) (bytes : List ℕ) : Prop :=
  ∀ i < bytes.length, F (a - userStackPage + i) = bytes.getD i 0

/-- The addresses of strings that stand one behind the other from `a` on. -/
def starts : ℕ → List (List ℕ) → List ℕ
  | _, [] => []
  | a, text :: argv => a :: starts (a + (text.length + 1)) argv

/-- The stack page `F` of a new image, as its start-up code expects it. -/
structure Stacked (A : Arch) (argv : List (List ℕ)) (sp : ℕ) (F : ℕ → ℕ) : Prop where
  aligned : sp % 16 = 0
  inside : userStackPage ≤ sp ∧ sp + (argv.length + 3) * (A.bits / 8) ≤ userStackTop
  strings : ∃ addresses : List ℕ, addresses.length = argv.length ∧
    Reads F sp ((argv.length :: addresses ++ [0, 0]).flatMap (wordBytes A)) ∧
    (∀ q ∈ addresses.zip argv, userStackPage ≤ q.1 ∧ q.1 + (q.2.length + 1) ≤ userStackTop ∧
      Reads F q.1 (q.2 ++ [0])) ∧
    ((sp, (argv.length + 3) * (A.bits / 8)) ::
      (addresses.zip argv).map fun q => (q.1, q.2.length + 1)).Pairwise fun r q =>
        Separate r.1 r.2 q.1 q.2

variable {F : ℕ → ℕ} {a b : ℕ} {bytes bytes' : List ℕ} {argv : List (List ℕ)}

theorem reads_put (F : ℕ → ℕ) (a : ℕ) (bytes : List ℕ) :
    Reads (put F (a - userStackPage) bytes) a bytes := by
  intro i hi
  simp [put, hi]

theorem Reads.put (h : Reads F a bytes) (hb : userStackPage ≤ b) (hab : b + bytes'.length ≤ a) :
    Reads (put F (b - userStackPage) bytes') a bytes := by
  intro i hi
  rw [put_of_lt (by omega), h i hi]

theorem reads_append (ha : userStackPage ≤ a) : Reads F a (bytes ++ bytes') ↔
    Reads F a bytes ∧ Reads F (a + bytes.length) bytes' := by
  have hshift (i : ℕ) : a + bytes.length - userStackPage + i = a - userStackPage + (bytes.length + i) := by
    omega
  unfold Reads
  rw [length_append]
  refine ⟨fun h => ⟨fun i hi => ?_, fun i hi => ?_⟩, fun ⟨h, h'⟩ i hi => ?_⟩
  · rw [h i (by omega), getD_append _ _ _ _ hi]
  · rw [hshift, h _ (by omega), getD_append_right _ _ _ _ (by omega), Nat.add_sub_cancel_left]
  · by_cases hlt : i < bytes.length
    · rw [h i hlt, getD_append _ _ _ _ hlt]
    · obtain ⟨j, rfl⟩ := Nat.exists_eq_add_of_le (Nat.le_of_not_lt hlt)
      rw [← hshift, h' j (by omega), getD_append_right _ _ _ _ (by omega), Nat.add_sub_cancel_left]

theorem length_starts (a : ℕ) (argv : List (List ℕ)) : (starts a argv).length = argv.length := by
  induction argv generalizing a with
  | nil => rfl
  | cons text argv ih => exact congrArg (· + 1) (ih _)

/-- Strings that stand one behind the other do not overlap. -/
theorem Reads.strings (ha : userStackPage ≤ a) (h : Reads F a (argv.flatMap (· ++ [0])))
    (htop : a + (argv.map fun text => text.length + 1).sum = b) :
    (∀ q ∈ (starts a argv).zip argv, a ≤ q.1 ∧ q.1 + (q.2.length + 1) ≤ b ∧
      Reads F q.1 (q.2 ++ [0])) ∧
    (((starts a argv).zip argv).map fun q => (q.1, q.2.length + 1)).Pairwise fun r q =>
      Separate r.1 r.2 q.1 q.2 := by
  induction argv generalizing a with
  | nil => exact ⟨nofun, .nil⟩
  | cons text argv ih =>
    rw [flatMap_cons, reads_append ha, length_append, length_singleton] at h
    rw [map_cons, sum_cons] at htop
    obtain ⟨hall, hapart⟩ := ih (by omega) h.2 (by omega)
    rw [starts, zip_cons_cons, forall_mem_cons, map_cons, pairwise_cons]
    refine ⟨⟨⟨Nat.le_refl a, by dsimp only; omega, h.1⟩, fun q hq => ?_⟩, fun r hr => ?_, hapart⟩
    · obtain ⟨hle, hq⟩ := hall q hq
      exact ⟨by omega, hq⟩
    · obtain ⟨q, hq, rfl⟩ := mem_map.mp hr
      exact .inl (hall q hq).1

/-- The strings are pushed exactly if there is room for them. -/
theorem pushStrings_ends (l argv : List (List ℕ)) (cursor : ℕ) (hlow : userStackPage ≤ cursor)
    (hhigh : cursor ≤ userStackTop) (hreads : Reads (s.mach.ram f) cursor (argv.flatMap (· ++ [0]))) :
    Ends (pushStrings f userStackPage l cursor (starts cursor argv)) s fun r t =>
      (∃ F, t = s.onMach fun m => m.setFrame f F) ∧
      ((∃ e, r = .error e) ∧ ¬((∀ text ∈ l, text.length + 1 ≤ 256) ∧
          (l.map fun text => text.length + 1).sum ≤ cursor - userStackPage) ∨
        ∃ a, a + (l.map fun text => text.length + 1).sum = cursor ∧ userStackPage ≤ a ∧
          r = .ok (a, starts a (l.reverse ++ argv)) ∧ (∀ text ∈ l, text.length + 1 ≤ 256) ∧
          Reads (t.mach.ram f) a ((l.reverse ++ argv).flatMap (· ++ [0]))) := by
  have hsame : s = s.onMach fun m => m.setFrame f (s.mach.ram f) := by
    simp [onMach, setFrame]
  induction l generalizing s cursor argv with
  | nil => exact Ends.ret ⟨⟨_, hsame⟩, .inr ⟨cursor, rfl, hlow, rfl, by simp, hreads⟩⟩
  | cons text l ih =>
    unfold pushStrings
    dsimp only
    have hpage : userStackTop = userStackPage + pageSize := by decide
    have hlength : (text ++ [0]).length = text.length + 1 := length_append
    split
    · rename_i hbad
      refine Ends.fail ⟨⟨_, hsame⟩, .inl ⟨⟨_, rfl⟩, ?_⟩⟩
      rintro ⟨hshort, hsum⟩
      have := hshort text mem_cons_self
      rw [map_cons, sum_cons] at hsum
      omega
    · rename_i hgood
      rw [not_or, Nat.not_lt, Nat.not_lt] at hgood
      obtain ⟨a, rfl⟩ : ∃ a, cursor = a + (text.length + 1) := ⟨cursor - (text.length + 1), by omega⟩
      rw [Nat.add_sub_cancel]
      refine Ends.modify_bind ?_
      rw [onMach, storeBytes_page (by omega)]
      generalize hF : put (s.mach.ram f) (a - userStackPage) (text ++ [0]) = F
      have hram : (s.mach.setFrame f F).ram f = F := update_self _ _ _
      refine (ih (s := s.onMach fun m => m.setFrame f F) (text :: argv) a (by omega) (by omega)
        ?_ ?_).mono ?_
      · rw [flatMap_cons, reads_append (by omega), hlength, onMach, hram, ← hF]
        exact ⟨reads_put _ _ _, hreads.put (by omega) (by omega)⟩
      · simp [onMach, setFrame]
      · rintro r t ⟨⟨F', ht⟩, hr⟩
        refine ⟨⟨F', by rw [ht]; simp [onMach, setFrame]⟩, ?_⟩
        simp only [forall_mem_cons, map_cons, sum_cons, reverse_cons, append_assoc, singleton_append]
        rcases hr with ⟨he, hnot⟩ | ⟨a', hsum, hlow, hr, hshort, hreads⟩
        · refine .inl ⟨he, ?_⟩
          rintro ⟨hshort, hsum⟩
          exact hnot ⟨hshort.2, by omega⟩
        · exact .inr ⟨a', by omega, hlow, hr, ⟨hgood.1, hshort⟩, hreads⟩

theorem wordBytes_length (A : Arch) (word : ℕ) : (wordBytes A word).length = A.bits / 8 := by
  simp [wordBytes]

/-- The stack page is built exactly if the arguments fit. -/
theorem buildStack_sets (argv : List (List ℕ)) (s : Spaces) :
    Ends (buildStack A f argv) s fun r t => (∃ F, t = s.onMach fun m => m.setFrame f F) ∧
      ((∃ e, r = .error e) ∧ ¬ArgvFits A argv ∨
        ∃ sp, r = .ok sp ∧ ArgvFits A argv ∧ Stacked A argv sp (t.mach.ram f)) := by
  have hsame : s = s.onMach fun m => m.setFrame f (s.mach.ram f) := by
    simp [onMach, setFrame]
  have hrev : (argv.reverse.map fun text => text.length + 1).sum =
      (argv.map fun text => text.length + 1).sum := by
    rw [map_reverse, sum_reverse]
  have htop : userStackTop = userStackPage + pageSize := by decide
  unfold buildStack
  split
  · rename_i hmany
    exact Ends.fail ⟨⟨_, hsame⟩, .inl ⟨⟨_, rfl⟩, fun hfits => absurd hfits.1 (by omega)⟩⟩
  rename_i hfew
  have hpush := pushStrings_ends (s := s) (f := f) argv.reverse [] userStackTop (by decide)
    (Nat.le_refl _) (by simp [Reads])
  refine Ends.bind hpush ?_ ?_
  · rintro _ t ⟨⟨F, rfl⟩, ⟨⟨e, hr⟩, -⟩ | ⟨a, hsum, hlow, hr, hshort, hreads⟩⟩
    · cases hr
    cases hr
    simp only [mem_reverse, reverse_reverse, append_nil] at hshort hreads ⊢
    rw [hrev] at hsum
    have hwords : ((argv.length :: starts a argv ++ [0, 0]).flatMap (wordBytes A)).length =
        (argv.length + 3) * (A.bits / 8) := by
      rw [length_flatMap]
      simp only [wordBytes_length, map_const', sum_replicate, smul_eq_mul]
      simp only [cons_append, length_cons, length_append, length_nil, length_starts]
    split
    · rename_i hsmall
      refine Ends.fail ⟨⟨F, rfl⟩, .inl ⟨⟨_, rfl⟩, fun hfits => absurd hfits.2.2.2 ?_⟩⟩
      rw [← hsum, Nat.add_sub_cancel]
      omega
    · rename_i hroom
      have hpos : 0 < userStackPage := by decide
      generalize hsp : (a / 16 * 16 - (argv.length + 3) * (A.bits / 8)) / 16 * 16 = sp at hroom ⊢
      refine Ends.modify_bind (Ends.ret ?_)
      rw [onMach, storeBytes_page (by rw [hwords]; omega)]
      refine ⟨⟨_, by simp [onMach, setFrame]; rfl⟩, .inr ⟨sp, rfl, ⟨by omega, hshort, by omega, ?_⟩,
        by omega, ⟨by omega, by omega⟩, starts a argv, length_starts _ _, ?_⟩⟩
      · rw [← hsum, Nat.add_sub_cancel, hsp]
        omega
      · rw [show (setFrame _ f _).ram f = _ from update_self _ _ _]
        obtain ⟨hall, hapart⟩ := (hreads.put (b := sp) (by omega) (by rw [hwords]; omega)).strings hlow hsum
        refine ⟨reads_put _ _ _, fun q hq => ?_, pairwise_cons.mpr ⟨fun r hr => ?_, hapart⟩⟩
        · obtain ⟨hle, hq⟩ := hall q hq
          exact ⟨by omega, hq⟩
        · obtain ⟨q, hq, rfl⟩ := mem_map.mp hr
          have := (hall q hq).1
          exact .inl (by dsimp only; omega)
  · rintro e t ⟨hset, ⟨-, hnot⟩ | ⟨_, -, -, hr, -⟩⟩
    · refine ⟨hset, .inl ⟨⟨e, rfl⟩, fun hfits => hnot ⟨?_, ?_⟩⟩⟩
      · simpa only [mem_reverse] using hfits.2.1
      · rw [hrev]
        exact hfits.2.2.1
    · cases hr

end Tach.Ownership
