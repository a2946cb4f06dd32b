import Tach.ElfPages
import Tach.Targets

/-!
Executables as files describe them: what a user program finds in memory after its image was
loaded to an empty context.
-/

namespace Tach.Ownership

open Actions ByteBlock Frames KeyedLists Paging Vmm Processes List
open Sectors (Errno)

variable {A : Arch} {s t : Spaces} {own : ℕ → Owner} {extra : ℕ → ℕ} {c : Context} {sp : Space}
variable {image : Image} {bias a : ℕ} {F : ℕ → ℕ} {hd : Header} {g : Segment} {i : ℕ}

def userByte (A : Arch) (s : Spaces) (c : Context) (a : ℕ) : Option ℕ := do
  let sp ← s.slots c
  let leaf ← A.trans s.mach.ram sp.root (a / pageSize)
  if leaf.user then some (s.mach.ram leaf.frame (a % pageSize)) else none

theorem userByte_of_find {m : Mapping} (he : Exact A s c) (hp : Private s c F)
    (hm : s.find c (a / pageSize) = some m) (hu : m.flags.user = true) :
    userByte A s c a = some (F a) := by
  cases hslot : s.slots c with
  | none => simp [Spaces.find, hslot] at hm
  | some sp =>
    obtain ⟨hframe, -, huser⟩ := A.leaf_frame m.phys m.flags
    have hbyte := hp.holds _ m hm (a % pageSize) (Nat.mod_lt _ (by decide))
    rw [Nat.div_add_mod'] at hbyte
    simp only [userByte, hslot, Option.bind_eq_bind, Option.bind_some, he sp _ m hslot hm, hframe,
      huser, hu, if_true, hbyte]

/-- The program header `i` of an image is a loadable segment. -/
def Loadable (A : Arch) (image : Image) (hd : Header) (i : ℕ) (g : Segment) : Prop :=
  i < hd.phnum ∧ parseSegment A image hd i = .ok g ∧ g.load = true

/-- The loadable segments of an image lie in user space and have nothing in common. -/
structure Orderly (A : Arch) (image : Image) (hd : Header) : Prop where
  user : ∀ i g, Loadable A image hd i g → 0 < g.memsz →
    A.userStart ≤ g.vaddr + loadBias A hd ∧ g.vaddr + loadBias A hd + g.memsz ≤ A.userEnd
  apart : ∀ i j g g', Loadable A image hd i g → Loadable A image hd j g' → i ≠ j →
    ∀ a, g.vaddr ≤ a → a < g.vaddr + g.memsz → g'.vaddr ≤ a → ¬a < g'.vaddr + g'.memsz

/-- What `parse_segment` has checked of a loadable segment. -/
theorem Loadable.file (h : Loadable A image hd i g) :
    g.filesz ≤ g.memsz ∧ g.offset + g.filesz ≤ image.length := by
  obtain ⟨-, hparse, hload⟩ := h
  unfold parseSegment at hparse
  dsimp only at hparse
  split at hparse
  · cases hparse
  · split_ifs at hparse with hcheck
    cases hparse
    simp only [hload, true_and, not_or, Nat.not_lt, Bool.not_eq_false, rangeFits,
      decide_eq_true_eq] at hcheck
    omega

theorem Loadable.data_length (h : Loadable A image hd i g) : (g.data image).length = g.filesz := by
  have := h.file.2
  rw [Segment.data, length_map, length_take, length_drop]
  omega

theorem Loadable.data_getD (h : Loadable A image hd i g) {k : ℕ} (hk : k < g.filesz) (d : ℕ) :
    (g.data image).getD k d = (image.getD (g.offset + k) 0).toNat := by
  have hlength := h.data_length
  have hfile := h.file.2
  rw [getD_eq_getElem _ _ (by omega), getD_eq_getElem _ _ (by omega)]
  simp only [Segment.data, getElem_map, getElem_take, getElem_drop]

theorem segmentStart_eq (h : g.vaddr + bias < 2 ^ A.bits) : segmentStart A bias g = g.vaddr + bias :=
  Nat.mod_eq_of_lt h

theorem request_iff {v : ℕ} (h : g.vaddr + bias + g.memsz + pageSize ≤ 2 ^ A.bits) :
    (v, true) ∈ segmentRequests A image bias g ↔ (g.vaddr + bias) / 4096 ≤ v ∧
      v < (g.vaddr + bias) / 4096 + ((g.vaddr + bias + g.memsz + 4095) / 4096 -
        (g.vaddr + bias) / 4096) := by
  have hsize : pageSize = 4096 := rfl
  have hend : segmentPageEnd A bias g = (g.vaddr + bias + g.memsz + (pageSize - 1)) / pageSize := by
    rw [segmentPageEnd, segmentStart_eq (by omega), Nat.mod_eq_of_lt (by omega)]
  simp only [segmentRequests, hend, segmentStart_eq (show g.vaddr + bias < 2 ^ A.bits by omega),
    mem_append, mem_map, mem_range'_1, Prod.mk.injEq, and_true, exists_eq_right, reduceCtorEq,
    and_false, exists_false, or_false, hsize]

/-- A segment that is loaded asks for pages that it meets. -/
theorem meets_of_request {v : ℕ} (h : g.vaddr + bias + g.memsz + pageSize ≤ 2 ^ A.bits)
    (hmem : 0 < g.memsz) (hv : (v, true) ∈ segmentRequests A image bias g) :
    ∃ a, g.vaddr + bias ≤ a ∧ a < g.vaddr + bias + g.memsz ∧ a / pageSize = v := by
  have hsize : pageSize = 4096 := rfl
  rw [request_iff h] at hv
  refine ⟨max (g.vaddr + bias) (v * pageSize), Nat.le_max_left _ _, ?_, ?_⟩
  · rw [hsize]
    omega
  · rw [hsize]
    omega

section Written

variable {segments rest : List (Except Errno Segment)} {q : ℕ × Bool}

theorem written_append (h : ∀ x ∈ segments, ∃ g, x = .ok g) (F : ℕ → ℕ) :
    written A image bias (segments ++ rest) F =
      written A image bias rest (written A image bias segments F) := by
  induction segments generalizing F with
  | nil => rfl
  | cons x segments ih =>
    obtain ⟨g, rfl⟩ := h x mem_cons_self
    simp only [cons_append, written]
    split
    · exact ih (fun y hy => h y (mem_cons_of_mem _ hy)) F
    · exact ih (fun y hy => h y (mem_cons_of_mem _ hy)) _

/-- A byte that no file has a value for. -/
theorem written_off (h : ∀ g, .ok g ∈ segments → g.load = true → 0 < g.memsz →
      a < segmentStart A bias g ∨ segmentStart A bias g + (g.data image).length ≤ a) (F : ℕ → ℕ) :
    written A image bias segments F a = F a := by
  induction segments generalizing F with
  | nil => rfl
  | cons x segments ih =>
    cases x with
    | error e => rfl
    | ok g =>
      simp only [written]
      have hrest := ih fun g hg => h g (mem_cons_of_mem _ hg)
      split
      · exact hrest F
      · rename_i hload
        rw [hrest, put_of_lt (h g mem_cons_self ?_ ?_)]
        · exact Bool.of_not_eq_false fun hno => hload (.inl hno)
        · exact Nat.pos_of_ne_zero fun hno => hload (.inr hno)

theorem exists_of_request (h : q ∈ requests A image bias segments) :
    ∃ g, .ok g ∈ segments ∧ g.load = true ∧ 0 < g.memsz ∧ q ∈ segmentRequests A image bias g := by
  induction segments with
  | nil => cases h
  | cons x segments ih =>
    cases x with
    | error e => cases h
    | ok g =>
      have hlater : q ∈ requests A image bias segments → ∃ g', .ok g' ∈ .ok g :: segments ∧
          g'.load = true ∧ 0 < g'.memsz ∧ q ∈ segmentRequests A image bias g' := fun hq => by
        obtain ⟨g', hmem, hrest⟩ := ih hq
        exact ⟨g', mem_cons_of_mem _ hmem, hrest⟩
      simp only [requests] at h
      split at h
      · exact hlater h
      · rename_i hskip
        split at h
        · cases h
        · rcases mem_append.mp h with hq | hq
          · refine ⟨g, mem_cons_self, Bool.of_not_eq_false fun hno => hskip (.inl hno), ?_, hq⟩
            exact Nat.pos_of_ne_zero fun hno => hskip (.inr hno)
          · exact hlater hq

theorem request_mem (hall : ∀ x ∈ segments, ∃ g, x = .ok g ∧
      (g.load = true → 0 < g.memsz → ¬Wraps A bias g)) (hg : .ok g ∈ segments)
    (hload : g.load = true) (hmem : 0 < g.memsz)
    (hq : q ∈ segmentRequests A image bias g) : q ∈ requests A image bias segments := by
  induction segments with
  | nil => cases hg
  | cons x segments ih =>
    obtain ⟨g₁, rfl, hfits⟩ := hall x mem_cons_self
    have hrest := ih fun y hy => hall y (mem_cons_of_mem _ hy)
    simp only [requests]
    rcases mem_cons.mp hg with heq | hg
    · cases heq
      rw [if_neg (by simp [hload]; omega), if_neg (hfits hload hmem)]
      exact mem_append_left _ hq
    · split
      · exact hrest hg
      · rename_i hskip
        have hload₁ : g₁.load = true := Bool.of_not_eq_false fun hno => hskip (.inl hno)
        rw [if_neg (hfits hload₁ (Nat.pos_of_ne_zero fun hno => hskip (.inr hno)))]
        exact mem_append_right _ (hrest hg)

end Written

/-- What the constants of the targets have to do with each other. -/
theorem target_bounds (hA : A = x86 ∨ A = i686) : A.userEnd + pageSize ≤ 2 ^ A.bits ∧
    A.elfDynBase < 2 ^ A.bits ∧ (A.bits = 64 ∨ A.bits = 32) ∧
    ∀ a, a < A.userEnd → A.address (a / pageSize) := by
  rcases hA with rfl | rfl
  · refine ⟨by decide, by decide, .inl rfl, fun a ha => .inl ?_⟩
    have hend : a < 0x7fffffffffff := ha
    show a / 4096 < 2 ^ 35
    omega
  · refine ⟨by decide, by decide, .inr rfl, fun a ha => ?_⟩
    have hend : a < 0x80000000 := ha
    show a / 4096 < 2 ^ 20
    omega

theorem ok_of_ite {p : Prop} [Decidable p] {α ε : Type} {x : Except ε α} {e : ε} {a : α}
    (h : (if p then .error e else x) = .ok a) : ¬p ∧ x = .ok a := by
  split_ifs at h
  exact ⟨by assumption, h⟩

theorem entry_lt (hbits : A.bits = 64 ∨ A.bits = 32) (h : parseHeader A image = .ok hd) :
    hd.entry < 2 ^ A.bits := by
  unfold parseHeader at h
  obtain ⟨-, h⟩ := ok_of_ite h
  obtain ⟨-, h⟩ := ok_of_ite h
  obtain ⟨-, h⟩ := ok_of_ite h
  obtain ⟨-, h⟩ := ok_of_ite h
  rw [← Except.ok.inj h, classHeader]
  have hfield : ∀ n, image.field 24 n < 256 ^ n := littleEndian_lt _ 24
  rcases hbits with hbits | hbits
  · have height := hfield 8
    rw [if_pos hbits, hbits]
    exact height
  · have hfour := hfield 4
    rw [if_neg (by omega), hbits]
    exact hfour

theorem find_of_empty (hslot : s.slots c = some sp) (hempty : sp.mappings = []) (v : ℕ) :
    s.find c v = none := by
  simp [Spaces.find, hslot, Space.find, hempty, KeyedLists.find]

theorem private_of_empty (hslot : s.slots c = some sp) (hempty : sp.mappings = []) :
    Private s c fun _ => 0 := by
  have hnone := find_of_empty hslot hempty
  exact ⟨fun v m _ _ _ hm => by simp [hnone v] at hm, fun v m hm => by simp [hnone v] at hm,
    fun _ _ => rfl⟩

/-- The byte of a segment that no other segment has a value for. -/
theorem Orderly.written_eq (ho : Orderly A image hd) (hbound : A.userEnd ≤ 2 ^ A.bits)
    (hall : ∀ i < hd.phnum, ∃ g, parseSegment A image hd i = .ok g) (hg : Loadable A image hd i g)
    {k : ℕ} (hk : k < g.memsz) :
    written A image (loadBias A hd) ((range hd.phnum).map (parseSegment A image hd)) (fun _ => 0)
        (g.vaddr + loadBias A hd + k) =
      if k < g.filesz then (image.getD (g.offset + k) 0).toNat else 0 := by
  set bias := loadBias A hd
  set a := g.vaddr + bias + k
  have hstart : ∀ j g', Loadable A image hd j g' → 0 < g'.memsz →
      segmentStart A bias g' = g'.vaddr + bias := by
    intro j g' hg' hmem
    have := (ho.user j g' hg' hmem).2
    exact segmentStart_eq (by omega)
  have hoff : ∀ j g', Loadable A image hd j g' → i ≠ j → 0 < g'.memsz →
      a < segmentStart A bias g' ∨ segmentStart A bias g' + (g'.data image).length ≤ a := by
    intro j g' hg' hij hmem
    have hapart := ho.apart i j g g' hg hg' hij (g.vaddr + k) (by omega) (by omega)
    rw [hstart j g' hg' hmem, hg'.data_length]
    have := hg'.file.1
    omega
  obtain ⟨hi, hparse, hload⟩ := id hg
  have hsplit : (range hd.phnum).map (parseSegment A image hd) =
      (range i).map (parseSegment A image hd) ++
        .ok g :: (range' (i + 1) (hd.phnum - i - 1)).map (parseSegment A image hd) := by
    have hn : hd.phnum = i + (hd.phnum - i - 1 + 1) := by omega
    conv_lhs => rw [hn, range_eq_range', ← range'_append_1, range'_succ, map_append, map_cons,
      Nat.zero_add, hparse, ← range_eq_range']
  have hbefore : written A image bias ((range i).map (parseSegment A image hd)) (fun _ => 0) a =
      0 := by
    refine written_off (fun g' hg' hload' hmem' => ?_) _
    obtain ⟨j, hj, hparse'⟩ := mem_map.mp hg'
    have hj := mem_range.mp hj
    exact hoff j g' ⟨by omega, hparse', hload'⟩ (by omega) hmem'
  have hskip : ¬(g.load = false ∨ g.memsz = 0) := by
    rw [hload]
    simp only [Bool.true_eq_false, false_or]
    omega
  rw [hsplit, written_append fun x hx => ?_, written, if_neg hskip, written_off fun g' hg' hl hm => ?_]
  · have hle : segmentStart A bias g ≤ a := by
      rw [hstart i g hg (by omega)]
      omega
    have hsub : a - segmentStart A bias g = k := by
      rw [hstart i g hg (by omega)]
      omega
    rw [put, if_pos hle, hsub, hbefore]
    split
    · rename_i hfile
      exact hg.data_getD hfile 0
    · rename_i hfile
      exact getD_eq_default _ _ (by rw [hg.data_length]; omega)
  · obtain ⟨j, hj, hparse'⟩ := mem_map.mp hg'
    have hj := mem_range'_1.mp hj
    exact hoff j g' ⟨by omega, hparse', hl⟩ (by omega) hm
  · obtain ⟨j, hj, rfl⟩ := mem_map.mp hx
    exact hall j (by have := mem_range.mp hj; omega)

theorem tinyImage_loadable {i : ℕ} {g : Segment}
    (h : Loadable i686 tinyImage ⟨2, 3, 0x400054, 52, 32, 1⟩ i g) :
    i = 0 ∧ g = ⟨1, 5, 0, 0x400000, 84, 84⟩ := by
  obtain ⟨hi, hparse, -⟩ := h
  have hi : i = 0 := Nat.lt_one_iff.mp hi
  have hsegment : parseSegment i686 tinyImage ⟨2, 3, 0x400054, 52, 32, 1⟩ 0 =
      .ok ⟨1, 5, 0, 0x400000, 84, 84⟩ := by rfl
  rw [hi, hsegment] at hparse
  exact ⟨hi, (Except.ok.inj hparse).symm⟩

theorem tinyImage_loads : (elfLoad i686 tinyImage 0 smallContext).result = .ok 0x400054 := by
  have hloads : (elfLoad i686 tinyImage 0 smallContext).result.toOption = some 0x400054 := by
    decide +kernel
  cases hr : (elfLoad i686 tinyImage 0 smallContext).result with
  | error e => rw [hr] at hloads; cases hloads
  | ok entry => rw [hr] at hloads; cases hloads; rfl

/-- The flags of a page give what a segment asks for. -/
def Grants (g : Segment) (fl : Flags) : Prop :=
  (g.flags.testBit 1 = true → fl.writable = true) ∧
    (g.flags.testBit 0 = true → fl.executable = true)

/-- All segments get their permissions exactly if, on each of their pages, the first segment that
has the page asks for as much. -/
theorem elfLoad_grants_iff (A : Arch) (image : Image) (c : Context) (h : Owned A s own extra)
    (hslot : s.slots c = some sp) (hempty : sp.mappings = []) :
    Ends (elfLoad A image c) s fun r t => ∀ entry hd, r = .ok entry → parseHeader A image = .ok hd →
      ((∀ i g, Loadable A image hd i g → ∀ k < g.memsz, ∃ m,
          t.find c ((segmentStart A (loadBias A hd) g + k) / pageSize) = some m ∧ Grants g m.flags) ↔
        ∀ i g, Loadable A image hd i g → ∀ k < g.memsz, ∃ fl,
          wanted A (loadBias A hd) ((range hd.phnum).map (parseSegment A image hd))
            ((segmentStart A (loadBias A hd) g + k) / pageSize) = some fl ∧ Grants g fl) := by
  refine (elfLoad_ends image h hslot).mono ?_
  rintro r t ⟨own', ⟨e, rfl, -⟩ | ⟨hd, l, hparse, rfl, -, -, -, -, hflagged, -⟩⟩ entry hd' hr hparse'
  · cases hr
  rw [hparse] at hparse'
  cases hparse'
  have hflags (v : ℕ) : (t.find c v).map Mapping.flags =
      wanted A (loadBias A hd) ((range hd.phnum).map (parseSegment A image hd)) v := by
    rw [hflagged v]
    simp [Spaces.find, hslot, Space.find, hempty, KeyedLists.find]
  refine forall₅_congr fun i g _ k _ => ?_
  rw [← hflags]
  cases t.find c ((segmentStart A (loadBias A hd) g + k) / pageSize) <;> simp

theorem elfLoad_grants_tinyImage : ∃ m,
    (elfLoad i686 tinyImage 0 smallContext).state.find 0 0x400 = some m ∧
      Grants ⟨1, 5, 0, 0x400000, 84, 84⟩ m.flags := by
  obtain ⟨own, extra, root, howned, hslot⟩ := owned_smallContext
  have hends := elfLoad_grants_iff i686 tinyImage 0 howned hslot rfl
  refine (hends _ ⟨2, 3, 0x400054, 52, 32, 1⟩ tinyImage_loads rfl).mpr (fun i g hg k hk => ?_) 0
    ⟨1, 5, 0, 0x400000, 84, 84⟩ ⟨by decide, rfl, rfl⟩ 0 (by decide)
  obtain ⟨-, rfl⟩ := tinyImage_loadable hg
  have hpage : (0x400000 + k) / 4096 = 0x400 := by
    have hk : k < 84 := hk
    omega
  refine ⟨⟨false, true, false, true, false⟩, ?_, nofun, fun _ => rfl⟩
  show wanted i686 0 [.ok ⟨1, 5, 0, 0x400000, 84, 84⟩] ((0x400000 + k) / 4096) = _
  rw [hpage]
  rfl

/-- The small executable with a second segment, for four bytes of data behind the first. -/
def dataImage : Image :=
  tinyImage.set 44 2 ++ [1, 0, 0, 0, 0, 0, 0, 0, 0, 1, 0x40, 0, 0, 0, 0, 0, 0, 0, 0, 0, 4, 0, 0, 0,
    6, 0, 0, 0, 0, 0, 0, 0]

/-- The data is not writable: its page belongs to the first segment. -/
theorem dataImage_readOnly :
    (elfLoad i686 dataImage 0 smallContext).result.toOption = some 0x400054 ∧
    parseSegment i686 dataImage ⟨2, 3, 0x400054, 52, 32, 2⟩ 1 = .ok ⟨1, 6, 0, 0x400100, 0, 4⟩ ∧
    ((elfLoad i686 dataImage 0 smallContext).state.find 0 0x400).map (·.flags.writable) =
      some false :=
  ⟨by decide +kernel, rfl, by decide +kernel⟩

end Tach.Ownership
