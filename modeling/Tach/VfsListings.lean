import Tach.VfsPaths

/-!
A listing of vfs.c and the paths that can be opened. The listing of a directory has one entry for
each first component of the known paths below it, with the kind of the first of them. If no known
path is below another and none has an empty component, these are the paths that can be opened and
the kinds of their vnodes.
-/

namespace Tach.VfsPaths

open List

open Shell (Text text)

section Components

variable {path front name rest : Text} {nested : Bool}

theorem component_append (hname : slash ∉ name) (hrest : rest = [] ∨ ∃ t, rest = slash :: t) :
    component (name ++ rest) = name := by
  unfold component
  have hall : ∀ c ∈ name, decide (c ≠ slash) = true := by
    intro c hc
    refine decide_eq_true fun h => hname ?_
    rwa [← h]
  rw [takeWhile_append_of_pos hall]
  rcases hrest with rfl | ⟨t, rfl⟩
  · rw [takeWhile_nil, append_nil]
  · rw [takeWhile_cons_of_neg (by decide), append_nil]

theorem slash_not_mem_component (t : Text) : slash ∉ component t := by
  intro h
  have hall := all_takeWhile (p := fun c => decide (c ≠ slash)) (l := t)
  exact of_decide_eq_true (all_eq_true.1 hall slash h) rfl

theorem component_split (t : Text) :
    ∃ rest, t = component t ++ rest ∧ (rest = [] ∨ ∃ u, rest = slash :: u) := by
  refine ⟨t.dropWhile fun c => c ≠ slash, (takeWhile_append_dropWhile).symm, ?_⟩
  cases h : t.dropWhile fun c => c ≠ slash with
  | nil => exact .inl rfl
  | cons c u =>
    have hne : (t.dropWhile fun c => decide (c ≠ slash)) ≠ [] := by
      rw [h]
      nofun
    have hc := head_dropWhile_not (fun c => decide (c ≠ slash)) hne
    simp only [h, head_cons, decide_eq_false_iff_not, not_not] at hc
    exact .inr ⟨u, by rw [hc]⟩

theorem childOf_append (front : Text) (hne : name ≠ []) (hname : slash ∉ name)
    (hrest : rest = [] ∨ ∃ t, rest = slash :: t) :
    childOf (front ++ (name ++ rest)) front = some (name, decide (rest ≠ [])) := by
  unfold childOf
  rw [if_pos (List.isPrefixOf_iff_prefix.2 (prefix_append _ _)), drop_left,
    component_append hname hrest]
  rw [if_neg hne, ← drop_drop, drop_left, drop_left]
  rcases hrest with rfl | ⟨t, rfl⟩
  · simp
  · simp

theorem childOf_last (hne : name ≠ []) (hname : slash ∉ name) :
    childOf (front ++ name) front = some (name, false) := by
  have h := childOf_append front hne hname (.inl rfl)
  rwa [append_nil] at h

theorem childOf_eq (h : childOf path front = some (name, nested)) :
    name ≠ [] ∧ slash ∉ name ∧ ∃ rest, path = front ++ (name ++ rest) ∧
      (rest = [] ∧ nested = false ∨ ∃ t, rest = slash :: t ∧ nested = true) := by
  have hpre : front <+: path := by
    unfold childOf at h
    split_ifs at h
    exact isPrefixOf_iff_prefix.1 ‹_›
  obtain ⟨tail, rfl⟩ := hpre
  obtain ⟨rest, htail, hrest⟩ := component_split tail
  by_cases hne : component tail = []
  · unfold childOf at h
    rw [if_pos (List.isPrefixOf_iff_prefix.2 (prefix_append _ _)), drop_left] at h
    rw [if_pos hne] at h
    cases h
  · rw [htail, childOf_append _ hne (slash_not_mem_component tail) hrest] at h
    cases h
    refine ⟨hne, slash_not_mem_component tail, rest, by rw [← htail], ?_⟩
    rcases hrest with rfl | ⟨t, rfl⟩
    · exact .inl ⟨rfl, by simp⟩
    · exact .inr ⟨t, rfl, by simp⟩

end Components

section Listed

variable {front name : Text} {before rest : List Known} {seen index : ℕ} {e : Dirent}

/-- The entries from the candidates of `rest` on, `seen` of them having been counted before. -/
def listFrom (front : Text) (before : List Known) (seen : ℕ) : List Known → List Dirent
  | [] => []
  | c :: rest =>
    match childOf c.path front with
    | none => listFrom front (before ++ [c]) seen rest
    | some (name, nested) =>
      if nameSize ≤ name.length ∨ repeated front name before then
        listFrom front (before ++ [c]) seen rest
      else
        ⟨name, if nested then .dir else c.kind, before.length + 1, seen + 1⟩ ::
          listFrom front (before ++ [c]) (seen + 1) rest

theorem readdirLoop_eq (h : seen ≤ index) : readdirLoop front index before seen rest =
    (listFrom front before seen rest)[index - seen]? := by
  induction rest generalizing before seen with
  | nil => rfl
  | cons c rest ih =>
    unfold readdirLoop listFrom
    cases hchild : childOf c.path front with
    | none => exact ih h
    | some child =>
      obtain ⟨name, nested⟩ := child
      dsimp only
      by_cases hskip : nameSize ≤ name.length ∨ repeated front name before
      · rw [if_pos hskip, if_pos hskip]
        exact ih h
      rw [if_neg hskip, if_neg hskip]
      by_cases hseen : seen = index
      · subst seen
        rw [if_neg (not_not.2 rfl), Nat.sub_self]
        rfl
      · obtain ⟨k, rfl⟩ := Nat.exists_eq_add_of_lt (Nat.lt_of_le_of_ne h hseen)
        rw [if_pos hseen, ih (by omega), show seen + k + 1 - seen = k + 1 by omega,
          getElem?_cons_succ, show seen + k + 1 - (seen + 1) = k by omega]

theorem repeated_append (l l' : List Known) :
    repeated front name (l ++ l') = (repeated front name l || repeated front name l') :=
  any_append

theorem repeated_of_mem {l : List Known} {c : Known} {nested : Bool} (hc : c ∈ l)
    (h : childOf c.path front = some (name, nested)) : repeated front name l = true :=
  any_eq_true.2 ⟨c, hc, by simp [h]⟩

/-- The entry of a name is made for the first candidate that has the name. -/
theorem mem_listFrom (h : e ∈ listFrom front before seen rest) :
    ∃ l c l' nested, rest = l ++ c :: l' ∧ childOf c.path front = some (e.name, nested) ∧
      e.kind = (if nested then .dir else c.kind) ∧ repeated front e.name (before ++ l) = false := by
  induction rest generalizing before seen with
  | nil => cases h
  | cons c rest ih =>
    have hlater : ∀ {seen}, e ∈ listFrom front (before ++ [c]) seen rest → ∃ l d l' nested,
        c :: rest = l ++ d :: l' ∧ childOf d.path front = some (e.name, nested) ∧
        e.kind = (if nested then .dir else d.kind) ∧ repeated front e.name (before ++ l) = false := by
      intro seen h
      obtain ⟨l, d, l', nested, rfl, hchild, hkind, hrep⟩ := ih h
      exact ⟨c :: l, d, l', nested, rfl, hchild, hkind, by rwa [append_assoc] at hrep⟩
    unfold listFrom at h
    cases hchild : childOf c.path front with
    | none =>
      rw [hchild] at h
      exact hlater h
    | some child =>
      obtain ⟨name, nested⟩ := child
      rw [hchild] at h
      dsimp only at h
      split at h
      · exact hlater h
      next hskip =>
        rcases mem_cons.1 h with rfl | h
        · refine ⟨[], c, rest, nested, rfl, hchild, rfl, ?_⟩
          rw [append_nil]
          exact Bool.eq_false_iff.2 fun hrep => hskip (.inr hrep)
        · exact hlater h

theorem listFrom_nodup : ((listFrom front before seen rest).map Dirent.name).Nodup := by
  induction rest generalizing before seen with
  | nil => exact nodup_nil
  | cons c rest ih =>
    unfold listFrom
    cases hchild : childOf c.path front with
    | none => exact ih
    | some child =>
      dsimp only
      split
      · exact ih
      · rw [map_cons]
        refine nodup_cons.2 ⟨fun hmem => ?_, ih⟩
        obtain ⟨e, he, hname⟩ := mem_map.1 hmem
        obtain ⟨l, -, -, -, -, -, -, hrep⟩ := mem_listFrom he
        rw [hname, repeated_append, repeated_append,
          repeated_of_mem (mem_singleton_self c) hchild, Bool.or_true, Bool.true_or] at hrep
        cases hrep

theorem name_mem_listFrom {c : Known} {nested : Bool} (hc : c ∈ rest)
    (hchild : childOf c.path front = some (name, nested)) (hlen : name.length < nameSize)
    (hrep : repeated front name before = false) :
    name ∈ (listFrom front before seen rest).map Dirent.name := by
  induction rest generalizing before seen with
  | nil => cases hc
  | cons d rest ih =>
    have hlater : ∀ {seen}, (childOf d.path front).map Prod.fst ≠ some name →
        name ∈ (listFrom front (before ++ [d]) seen rest).map Dirent.name := by
      intro seen hd
      refine ih ((mem_cons.1 hc).resolve_left ?_) ?_
      · rintro rfl
        exact hd (by rw [hchild]; rfl)
      · rw [repeated_append, hrep, Bool.false_or]
        refine Bool.eq_false_iff.2 fun h => hd ?_
        obtain ⟨x, hx, hname⟩ := any_eq_true.1 h
        rw [mem_singleton.1 hx] at hname
        cases hd : childOf d.path front with
        | none =>
          rw [hd] at hname
          cases hname
        | some child =>
          rw [hd] at hname
          simpa using hname
    unfold listFrom
    cases hd : childOf d.path front with
    | none =>
      rw [hd] at hlater
      exact hlater nofun
    | some child =>
      obtain ⟨other, nested'⟩ := child
      rw [hd] at hlater
      dsimp only
      by_cases hsame : other = name
      · subst other
        rw [if_neg (by rw [hrep]; simpa using hlen), map_cons]
        exact mem_cons_self
      · have hne : (some (other, nested')).map Prod.fst ≠ some name := by simpa using hsame
        split
        · exact hlater hne
        · rw [map_cons]
          exact mem_cons_of_mem _ (hlater hne)

end Listed

/-- `b` lies below `a`. -/
def Below (a b : Text) : Prop := a ++ [slash] <+: b

instance (a b : Text) : Decidable (Below a b) := inferInstanceAs (Decidable (_ <+: _))

def Whole (path : Text) : Prop :=
  ∀ t ∈ path.tails, t.head? = some slash → component t.tail ≠ []

instance : DecidablePred Whole := fun path => by
  unfold Whole
  infer_instance

def Normal (path : Text) : Prop :=
  path = text "/" ∨ path.head? = some slash ∧ ∀ t ∈ path.tails, t.head? = some slash →
    component t.tail ≠ [] ∧ component t.tail ≠ text "." ∧ component t.tail ≠ text ".."

instance : DecidablePred Normal := fun path => by
  unfold Normal
  infer_instance

/-- The memory files have normalized paths that are not below `/tmp`, and no known path is below
another. -/
structure Orderly (S : Vfs) : Prop where
  normal : ∀ path ∈ S.memfiles, Normal path
  not_tmp : ∀ path ∈ S.memfiles, ¬Below (text "/tmp") path
  apart : ∀ a ∈ candidates S, ∀ b ∈ candidates S, ¬Below a.path b.path

/-- The names of the devices have no empty components. -/
def WholeNames (S : Vfs) : Prop := ∀ name ∈ S.devices, Whole (text "/dev/" ++ name)

section Candidates

variable {S : Vfs} {c : Known}

theorem diskPath_eq {name : Text} (h : name ∈ S.devices) : diskPath name = text "/dev/" ++ name := by
  unfold diskPath
  rw [take_of_length_le (Nat.le_sub_one_of_lt (S.device_name name h).2)]

/-- The four sources of known paths. -/
theorem mem_candidates : c ∈ candidates S ↔ c ∈ fixed ∨
    (∃ name ∈ S.devices, c = ⟨text "/dev/" ++ name, .block⟩) ∨
    (∃ path ∈ S.memfiles, c = ⟨path, .file⟩) ∨ ∃ path ∈ procPaths, c = ⟨path, .file⟩ := by
  have hdisk : (∃ name ∈ S.devices, Known.mk (diskPath name) .block = c) ↔
      ∃ name ∈ S.devices, c = ⟨text "/dev/" ++ name, .block⟩ := by
    refine exists_congr fun name => and_congr_right fun h => ?_
    rw [diskPath_eq h, eq_comm]
  have hmem : (∃ path ∈ S.memfiles, Known.mk path .file = c) ↔ ∃ path ∈ S.memfiles, c = ⟨path, .file⟩ :=
    exists_congr fun path => and_congr_right fun _ => eq_comm
  have hproc : (∃ path ∈ procPaths, Known.mk path .file = c) ↔ ∃ path ∈ procPaths, c = ⟨path, .file⟩ :=
    exists_congr fun path => and_congr_right fun _ => eq_comm
  unfold candidates
  rw [mem_append, mem_append, mem_append, mem_map, mem_map, mem_map,
    hdisk, hmem, hproc, or_assoc, or_assoc]

theorem length_candidate (h : c ∈ candidates S) : c.path.length < pathSize := by
  rcases mem_candidates.1 h with h | ⟨name, hname, rfl⟩ | ⟨path, hpath, rfl⟩ | ⟨path, hpath, rfl⟩
  · exact (by decide : ∀ c ∈ fixed, c.path.length < pathSize) c h
  · have hlen := (S.device_name name hname).2
    have hsize : pathSize = 128 := rfl
    have hmax : blkNameMax = 16 := rfl
    have hdev : (text "/dev/").length = 5 := rfl
    rw [length_append]
    omega
  · exact (S.memfile_path path hpath).2
  · exact (by decide : ∀ path ∈ procPaths, path.length < pathSize) path hpath

theorem not_below_tmp (h : Orderly S) (hc : c ∈ candidates S) : ¬Below (text "/tmp") c.path := by
  rcases mem_candidates.1 hc with hc | ⟨name, hname, rfl⟩ | ⟨path, hpath, rfl⟩ | ⟨path, hpath, rfl⟩
  · exact (by decide : ∀ c ∈ fixed, ¬Below (text "/tmp") c.path) c hc
  · rintro ⟨t, ht⟩
    have htmp : (text "/tmp" ++ [slash] ++ t)[1]? = some 116 := rfl
    have hdev : (text "/dev/" ++ name)[1]? = some 100 := rfl
    rw [ht, hdev] at htmp
    exact absurd htmp (by decide)
  · exact h.not_tmp path hpath
  · exact (by decide : ∀ path ∈ procPaths, ¬Below (text "/tmp") path) path hpath

theorem candidate_component (h : Orderly S) (hwhole : WholeNames S) (hc : c ∈ candidates S)
    {a b : Text} (ha : a ≠ []) (hpath : c.path = a ++ slash :: b) : component b ≠ [] := by
  have hc' : Whole c.path := by
    rcases mem_candidates.1 hc with hc | ⟨name, hname, rfl⟩ | ⟨path, hmem, rfl⟩ | ⟨path, hmem, rfl⟩
    · exact (by decide : ∀ c ∈ fixed, Whole c.path) c hc
    · exact hwhole name hname
    · refine fun t ht hslash => (((h.normal path hmem).resolve_left fun heq => ha ?_).2 t ht hslash).1
      dsimp only at hpath
      rw [heq] at hpath
      have hlen := congrArg length hpath
      rw [length_append, length_cons] at hlen
      have hone : (text "/").length = 1 := rfl
      exact length_eq_zero_iff.1 (by omega)
    · exact (by decide : ∀ path ∈ procPaths, Whole path) path hmem
  exact hc' (slash :: _) ((mem_tails _ _).2 ⟨_, hpath.symm⟩) rfl

end Candidates

section Lookups

variable {S : Vfs} {q : Text}

/-- The kind of the first known path `q`. -/
def kindAt (S : Vfs) (q : Text) : Option Kind :=
  ((candidates S).find? fun c => c.path = q).map Known.kind

theorem find_kind {α : Type} (l : List α) (f : α → Text) (k : Kind) (q : Text)
    [Decidable (∃ x ∈ l, f x = q)] :
    ((l.map fun x => Known.mk (f x) k).find? fun c => c.path = q).map Known.kind =
      if ∃ x ∈ l, f x = q then some k else none := by
  cases h : (l.map fun x => Known.mk (f x) k).find? fun c => c.path = q with
  | none =>
    rw [find?_eq_none] at h
    rw [if_neg]
    · rfl
    rintro ⟨x, hx, hq⟩
    exact h _ (mem_map_of_mem hx) (decide_eq_true hq)
  | some c =>
    obtain ⟨x, hx, rfl⟩ := mem_map.1 (mem_of_find?_eq_some h)
    have hq := find?_some h
    rw [if_pos ⟨x, hx, of_decide_eq_true hq⟩]
    rfl

theorem kindAt_eq (hfixed : fixed.find? (fun c => c.path = q) = none) :
    kindAt S q = if ∃ name ∈ S.devices, text "/dev/" ++ name = q then some .block
      else if q ∈ procPaths ∨ q ∈ S.memfiles then some .file else none := by
  have hdisk : (∃ name ∈ S.devices, diskPath name = q) ↔ ∃ name ∈ S.devices, text "/dev/" ++ name = q := by
    refine exists_congr fun name => and_congr_right fun h => ?_
    rw [diskPath_eq h]
  have hself : ∀ l : List Text, (∃ path ∈ l, path = q) ↔ q ∈ l := fun l => exists_eq_right
  unfold kindAt candidates
  rw [find?_append, find?_append, find?_append, hfixed, Option.none_or, Option.map_or,
    Option.map_or, find_kind _ diskPath, find_kind _ fun path => path, find_kind _ fun path => path]
  simp only [hdisk, hself]
  split
  · rfl
  · by_cases hm : q ∈ S.memfiles
    · simp [hm]
    · simp [hm]

theorem diskLookup_eq (S : Vfs) (q : Text) : (diskLookup S q).map Vnode.kind =
      if ∃ name ∈ S.devices, text "/dev/" ++ name = q then some .block else none := by
  unfold diskLookup
  by_cases h : ∃ name ∈ S.devices, text "/dev/" ++ name = q
  · rw [if_pos h]
    obtain ⟨name, hname, rfl⟩ := h
    have hdrop : (text "/dev/" ++ name).drop 5 = name := rfl
    rw [hdrop, if_pos ⟨List.isPrefixOf_iff_prefix.2 (prefix_append _ _),
      (S.device_name name hname).1, hname⟩]
    rfl
  · rw [if_neg h, if_neg]
    · rfl
    rintro ⟨hpre, -, hmem⟩
    obtain ⟨name, rfl⟩ := isPrefixOf_iff_prefix.1 hpre
    exact h ⟨name, hmem, rfl⟩

theorem tmpfsOwns_iff : tmpfsOwns q = true ↔ q = text "/tmp" ∨ Below (text "/tmp") q := by
  unfold tmpfsOwns
  rw [decide_eq_true_iff, isPrefixOf_iff_prefix]
  exact Iff.rfl

theorem find_fixed_eq_none (h : q ∉ fixed.map Known.path) :
    fixed.find? (fun c => c.path = q) = none := by
  rw [find?_eq_none]
  intro c hc hq
  rw [decide_eq_true_eq] at hq
  exact h (hq ▸ mem_map_of_mem hc)

/-- The lookups find the vnodes of the known paths, with their kinds. -/
theorem lookup_eq (hroot : q ≠ text "/") (htmp : ¬Below (text "/tmp") q) :
    ∃ o, lookup S q = .ok o ∧ o.map Vnode.kind = kindAt S q := by
  by_cases hfixed : q ∈ fixed.map Known.path
  · obtain ⟨c, hc, rfl⟩ := mem_map.1 hfixed
    have hkind : kindAt S c.path = some c.kind := by
      unfold kindAt candidates
      rw [find?_append, find?_append, find?_append,
        (by decide : ∀ c ∈ fixed, fixed.find? (fun d => d.path = c.path) = some c) c hc]
      rfl
    rw [hkind]
    simp only [fixed, mem_cons, not_mem_nil, or_false] at hc
    rcases hc with rfl | rfl | rfl | rfl | rfl <;> exact ⟨_, rfl, rfl⟩
  have hnot := hfixed
  simp only [fixed, map_cons, map_nil, mem_cons, not_mem_nil, or_false, not_or] at hnot
  obtain ⟨hconsole, htty, hnull, hzero, heq⟩ := hnot
  unfold lookup
  rw [if_neg hroot, if_neg (not_or.2 ⟨hconsole, htty⟩), if_neg hnull, if_neg hzero]
  have hdisk := diskLookup_eq S q
  rw [kindAt_eq (find_fixed_eq_none hfixed)]
  cases hfound : diskLookup S q with
  | some vnode =>
    refine ⟨_, rfl, ?_⟩
    rw [hfound] at hdisk
    by_cases hdev : ∃ name ∈ S.devices, text "/dev/" ++ name = q
    · rw [if_pos hdev] at hdisk ⊢
      exact hdisk
    · rw [if_neg hdev] at hdisk
      cases hdisk
  | none =>
    have hdev : ¬∃ name ∈ S.devices, text "/dev/" ++ name = q := by
      intro hdev
      rw [hfound, if_pos hdev] at hdisk
      cases hdisk
    have howns : ¬tmpfsOwns q = true := fun h => (tmpfsOwns_iff.1 h).elim heq htmp
    rw [if_neg hdev, if_neg howns]
    by_cases hproc : q ∈ procPaths
    · rw [if_pos hproc, if_pos (.inl hproc)]
      exact ⟨_, rfl, rfl⟩
    rw [if_neg hproc]
    by_cases hmem : q ∈ S.memfiles
    · rw [if_pos hmem, if_pos (.inr hmem)]
      exact ⟨_, rfl, rfl⟩
    · rw [if_neg hmem, if_neg (not_or.2 ⟨hproc, hmem⟩)]
      exact ⟨_, rfl, rfl⟩

end Lookups

section Agreement

variable {S : Vfs} {d x q : Text} {c : Known}

theorem prefix_of_slash_end {p a b : Text} (h : p ++ [slash] <+: a ++ b) (hb : slash ∉ b) :
    p ++ [slash] <+: a := by
  by_cases hlen : p.length + 1 ≤ a.length
  · refine prefix_of_prefix_length_le h (prefix_append a b) ?_
    rwa [length_append]
  · obtain ⟨t, ht⟩ := h
    refine absurd ?_ hb
    have hleft : (p ++ [slash] ++ t)[p.length]? = some slash := by simp
    rw [ht, getElem?_append_right (by omega)] at hleft
    exact mem_of_getElem? hleft

theorem isDirectory_cases (hd : isDirectory S d = true) : d = text "/" ∨
    d ≠ [] ∧ d.length ≤ pathSize ∧ ∃ c ∈ candidates S, (childOf c.path (below d)).isSome := by
  unfold isDirectory at hd
  split at hd
  · exact .inl ‹_›
  split at hd
  · cases hd
  next hends =>
    unfold dirPrefix at hd
    split at hd
    next heq =>
      split_ifs at heq
      cases hd
    next front heq =>
      split_ifs at heq
      cases heq
      obtain ⟨c, hc, hchild⟩ := any_eq_true.1 hd
      exact .inr ⟨fun h => hends (.inl h), by omega, c, hc, hchild⟩

theorem prefix_of_childOf {path front : Text} (h : (childOf path front).isSome) : front <+: path := by
  obtain ⟨⟨name, nested⟩, hchild⟩ := Option.isSome_iff_exists.1 h
  obtain ⟨-, -, rest, rfl, -⟩ := childOf_eq hchild
  exact prefix_append _ _

theorem below_eq (h : d.length ≠ 1) : below d = d ++ [slash] := if_pos h

theorem below_ne_nil (d : Text) : below d ≠ [] := by
  unfold below
  split
  · exact append_ne_nil_of_right_ne_nil _ nofun
  next h =>
    rintro rfl
    exact h nofun

/-- Nothing that is looked up in a directory belongs to tmpfs. -/
theorem not_below_join (h : Orderly S) (hd : isDirectory S d = true) (hx : slash ∉ x) :
    ¬Below (text "/tmp") (below d ++ x) := by
  intro hpre
  have hfront : text "/tmp" ++ [slash] <+: below d := prefix_of_slash_end hpre hx
  rcases isDirectory_cases hd with rfl | ⟨-, -, c, hc, hchild⟩
  · exact absurd hfront (by decide)
  · exact not_below_tmp h hc (hfront.trans (prefix_of_childOf hchild))

theorem join_ne_root (d : Text) (hx : x ≠ []) : (below d ++ x).length ≠ 1 := by
  have hfront := length_pos_iff.2 (below_ne_nil d)
  have hname := length_pos_iff.2 hx
  rw [length_append]
  omega

/-- A name in a directory is a directory if a known path goes on behind it. -/
theorem isDirectory_join (hx : x ≠ []) (hslash : slash ∉ x) : isDirectory S (below d ++ x) = true ↔
      ∃ c ∈ candidates S, (childOf c.path (below d ++ x ++ [slash])).isSome := by
  have hlen := join_ne_root d hx
  have hbelow := below_eq hlen
  constructor
  · intro h
    rcases isDirectory_cases h with heq | ⟨-, -, c, hc, hchild⟩
    · rw [heq] at hlen
      exact absurd rfl hlen
    · rw [hbelow] at hchild
      exact ⟨c, hc, hchild⟩
  · rintro ⟨c, hc, hchild⟩
    have hfits := (prefix_of_childOf hchild).length_le
    have hshort := length_candidate hc
    rw [length_append, length_singleton] at hfits
    have hlast : (below d ++ x).getLast? ≠ some slash := by
      rw [getLast?_append_of_ne_nil _ hx]
      exact fun hlast => hslash (mem_of_getLast? hlast)
    unfold isDirectory dirPrefix
    rw [if_neg, if_neg, if_neg (by omega), hbelow]
    · exact any_eq_true.2 ⟨c, hc, hchild⟩
    · rintro (heq | heq)
      · exact hx (append_eq_nil_iff.1 heq).2
      · exact hlast heq
    · intro heq
      rw [heq] at hlen
      exact hlen rfl

theorem kindAt_eq_none (h : Orderly S) (hc : c ∈ candidates S) {t : Text}
    (hpath : c.path = q ++ slash :: t) : kindAt S q = none := by
  unfold kindAt
  rw [Option.map_eq_none_iff, find?_eq_none]
  intro b hb hq
  rw [decide_eq_true_eq] at hq
  refine h.apart b hb c hc ⟨t, ?_⟩
  rw [hq, hpath, append_assoc]
  rfl

theorem exists_of_kindAt {k : Kind} (h : kindAt S q = some k) : ∃ c ∈ candidates S, c.path = q := by
  obtain ⟨c, hc, -⟩ := Option.map_eq_some_iff.1 h
  have hq := find?_some hc
  exact ⟨c, mem_of_find?_eq_some hc, of_decide_eq_true hq⟩

theorem kindAt_ne_none (hc : c ∈ candidates S) : kindAt S c.path ≠ none := by
  unfold kindAt
  rw [Ne, Option.map_eq_none_iff, find?_eq_none]
  intro h
  exact h c hc (decide_eq_true rfl)

/-- What `vfs_open_err` does with a path outside tmpfs. -/
theorem vfsOpenErr_cases (hroot : q ≠ text "/") (htmp : ¬Below (text "/tmp") q) :
    (∃ v, (vfsOpenErr S q).1 = .ok v ∧ kindAt S q = some v.kind) ∨
    kindAt S q = none ∧ (isDirectory S q = false ∧ (vfsOpenErr S q).1 = .error .enoent ∨
      isDirectory S q = true ∧ (vfsOpenErr S q).1 ≠ .error .enoent ∧
        ∀ v, (vfsOpenErr S q).1 = .ok v → v.kind = .dir) := by
  obtain ⟨o, ho, hkind⟩ := lookup_eq hroot htmp
  unfold vfsOpenErr
  rw [ho, ← hkind]
  cases o with
  | some v => exact .inl ⟨v, rfl, rfl⟩
  | none =>
    refine .inr ⟨rfl, ?_⟩
    cases hdir : isDirectory S q with
    | false => exact .inl ⟨rfl, rfl⟩
    | true =>
      refine .inr ⟨rfl, ?_⟩
      dsimp only
      rw [if_pos rfl]
      unfold dirVnode
      split
      · exact ⟨nofun, nofun⟩
      split
      · exact ⟨nofun, fun v hv => by cases hv; rfl⟩
      split
      · exact ⟨nofun, fun v hv => by cases hv; rfl⟩
      · exact ⟨nofun, nofun⟩

/-- A name is below a directory exactly if it can be opened there. -/
theorem child_iff_open (h : Orderly S) (hwhole : WholeNames S) (hd : isDirectory S d = true)
    (hx : x ≠ []) (hslash : slash ∉ x) :
    (∃ c ∈ candidates S, ∃ nested, childOf c.path (below d) = some (x, nested)) ↔
      (vfsOpenErr S (below d ++ x)).1 ≠ .error .enoent := by
  have hroot : below d ++ x ≠ text "/" := fun heq => join_ne_root d hx (by rw [heq]; rfl)
  have hcases := vfsOpenErr_cases (S := S) hroot (not_below_join h hd hslash)
  constructor
  · rintro ⟨c, hc, nested, hchild⟩
    obtain ⟨-, -, rest, hpath, ⟨rfl, -⟩ | ⟨t, rfl, -⟩⟩ := childOf_eq hchild
    · rw [append_nil] at hpath
      rcases hcases with ⟨v, hv, -⟩ | ⟨hnone, -⟩
      · rw [hv]
        nofun
      · rw [← hpath] at hnone
        exact absurd hnone (kindAt_ne_none hc)
    · rw [← append_assoc] at hpath
      have hdir : isDirectory S (below d ++ x) = true := by
        refine (isDirectory_join hx hslash).2 ⟨c, hc, ?_⟩
        have hne := candidate_component h hwhole hc (append_ne_nil_of_right_ne_nil _ hx) hpath
        obtain ⟨rest, ht, hrest⟩ := component_split t
        rw [hpath, append_cons, ht, childOf_append _ hne (slash_not_mem_component t) hrest]
        rfl
      rcases hcases with ⟨v, hv, -⟩ | ⟨-, ⟨hno, -⟩ | ⟨-, hne, -⟩⟩
      · rw [hv]
        nofun
      · rw [hdir] at hno
        cases hno
      · exact hne
  · intro hopen
    rcases hcases with ⟨v, -, hkind⟩ | ⟨-, ⟨-, hno⟩ | ⟨hdir, -, -⟩⟩
    · obtain ⟨c, hc, hpath⟩ := exists_of_kindAt hkind
      refine ⟨c, hc, false, ?_⟩
      rw [hpath]
      exact childOf_last hx hslash
    · exact absurd hno hopen
    · obtain ⟨c, hc, hchild⟩ := (isDirectory_join hx hslash).1 hdir
      obtain ⟨t, ht⟩ := prefix_of_childOf hchild
      refine ⟨c, hc, decide ([slash] ++ t ≠ []), ?_⟩
      rw [← ht, append_assoc, append_assoc]
      exact childOf_append _ hx hslash (.inr ⟨t, rfl⟩)

/-- The kind in an entry is the kind of the vnode. -/
theorem kind_of_open (h : Orderly S) (hd : isDirectory S d = true) {e : Dirent}
    (he : e ∈ listFrom (below d) [] 0 (candidates S)) {v : Vnode}
    (hv : (vfsOpenErr S (below d ++ e.name)).1 = .ok v) : v.kind = e.kind := by
  obtain ⟨l, c, l', nested, hsplit, hchild, hkind, hrep⟩ := mem_listFrom he
  obtain ⟨hx, hslash, rest, hpath, hrest⟩ := childOf_eq hchild
  have hc : c ∈ candidates S := by
    rw [hsplit]
    exact mem_append_right l mem_cons_self
  have hroot : below d ++ e.name ≠ text "/" := fun heq => join_ne_root d hx (by rw [heq]; rfl)
  have hcases := vfsOpenErr_cases (S := S) hroot (not_below_join h hd hslash)
  rcases hrest with ⟨rfl, rfl⟩ | ⟨t, rfl, rfl⟩
  · -- no candidate before `c` has its path
    rw [append_nil] at hpath
    have hfirst : kindAt S (below d ++ e.name) = some c.kind := by
      unfold kindAt
      have hbefore : l.find? (fun b => b.path = below d ++ e.name) = none := by
        rw [find?_eq_none]
        intro b hb hq
        rw [decide_eq_true_eq] at hq
        have hb' : childOf b.path (below d) = some (e.name, false) := by
          rw [hq]
          exact childOf_last hx hslash
        rw [nil_append, repeated_of_mem hb hb'] at hrep
        cases hrep
      rw [hsplit, find?_append, hbefore, Option.none_or]
      unfold find?
      rw [decide_eq_true hpath]
      rfl
    rw [hkind, if_neg Bool.false_ne_true]
    rcases hcases with ⟨w, hw, hsome⟩ | ⟨hnone, -⟩
    · rw [hw] at hv
      cases hv
      rw [hfirst] at hsome
      exact (Option.some.inj hsome).symm
    · rw [hfirst] at hnone
      cases hnone
  · rw [← append_assoc] at hpath
    have hnone := kindAt_eq_none h hc hpath
    rw [hkind, if_pos rfl]
    rcases hcases with ⟨w, -, hsome⟩ | ⟨-, ⟨-, hno⟩ | ⟨-, -, hdir⟩⟩
    · rw [hnone] at hsome
      cases hsome
    · rw [hno] at hv
      cases hv
    · exact hdir v hv

def dirNode (d : Text) : Vnode := if d = text "/" then .root else .dir d

theorem vfsReaddir_dirNode (h : Orderly S) (hd : isDirectory S d = true) (i : ℕ) :
    vfsReaddir S (dirNode d) i = .ok (listFrom (below d) [] 0 (candidates S))[i]? := by
  have hkind : (dirNode d).kind = .dir := by
    unfold dirNode
    split <;> rfl
  have hpath : (dirNode d).dirPath = d := by
    unfold dirNode
    split
    next heq => exact heq.symm
    · rfl
  have hfits : d ≠ [] ∧ d.length ≤ pathSize ∧ d ≠ text "/tmp" := by
    rcases isDirectory_cases hd with rfl | ⟨hne, hlen, c, hc, hchild⟩
    · decide
    · refine ⟨hne, hlen, ?_⟩
      rintro rfl
      exact not_below_tmp h hc (prefix_of_childOf hchild)
  unfold vfsReaddir
  rw [hpath, if_neg (not_not.2 hkind), if_neg hfits.1, if_neg hfits.2.2, dirPrefix,
    if_neg (by omega)]
  dsimp only
  rw [readdirLoop_eq (Nat.zero_le i), Nat.sub_zero]

/-- A directory lists each name that can be opened in it once, with its kind. The only directory
that is not derived is `/tmp`. -/
theorem listing_agrees (S : Vfs) (h : Orderly S) (hwhole : WholeNames S) (d : Text)
    (hd : isDirectory S d = true) :
    ∃ l : List Dirent, (∀ i, vfsReaddir S (dirNode d) i = .ok l[i]?) ∧
      (l.map Dirent.name).Nodup ∧ (∀ e ∈ l, e.name ≠ [] ∧ slash ∉ e.name) ∧
      (∀ x, x ≠ [] → slash ∉ x →
        (x ∈ l.map Dirent.name ↔ (vfsOpenErr S (below d ++ x)).1 ≠ .error .enoent)) ∧
      ∀ e ∈ l, ∀ v, (vfsOpenErr S (below d ++ e.name)).1 = .ok v → v.kind = e.kind := by
  refine ⟨listFrom (below d) [] 0 (candidates S), vfsReaddir_dirNode h hd, listFrom_nodup,
    fun e he => ?_, fun x hx hslash => ?_, fun e he v hv => kind_of_open h hd he hv⟩
  · obtain ⟨l, c, l', nested, -, hchild, -, -⟩ := mem_listFrom he
    obtain ⟨hx, hslash, -⟩ := childOf_eq hchild
    exact ⟨hx, hslash⟩
  · rw [← child_iff_open h hwhole hd hx hslash]
    constructor
    · intro hmem
      obtain ⟨e, he, rfl⟩ := mem_map.1 hmem
      obtain ⟨l, c, l', nested, hsplit, hchild, -, -⟩ := mem_listFrom he
      refine ⟨c, ?_, nested, hchild⟩
      rw [hsplit]
      exact mem_append_right l mem_cons_self
    · rintro ⟨c, hc, nested, hchild⟩
      refine name_mem_listFrom hc hchild ?_ rfl
      obtain ⟨-, -, rest, hpath, -⟩ := childOf_eq hchild
      have hlen := length_candidate hc
      have hsize : pathSize = 128 := rfl
      have hname : nameSize = 256 := rfl
      rw [hpath, length_append, length_append] at hlen
      omega

def smallVfs : Vfs :=
  ⟨[text "hda", text "hda1"], [text "/bin/sh", text "/bin/ls", text "/etc/conf/a.txt"],
    [none, some (text "/tmp/z")], [text "/bin"], by decide, by decide, by decide, by decide,
    by decide, by decide, by decide, by decide⟩

theorem listing_agrees_etc :
    ∃ l : List Dirent, (∀ i, vfsReaddir smallVfs (.dir (text "/etc")) i = .ok l[i]?) ∧
      (l.map Dirent.name).Nodup ∧ (∀ e ∈ l, e.name ≠ [] ∧ slash ∉ e.name) ∧
      (∀ x, x ≠ [] → slash ∉ x → (x ∈ l.map Dirent.name ↔
        (vfsOpenErr smallVfs (text "/etc/" ++ x)).1 ≠ .error .enoent)) ∧
      ∀ e ∈ l, ∀ v, (vfsOpenErr smallVfs (text "/etc/" ++ e.name)).1 = .ok v → v.kind = e.kind :=
  listing_agrees smallVfs ⟨by decide +kernel, by decide +kernel, by decide +kernel⟩
    (by unfold WholeNames; decide +kernel) (text "/etc") (by decide +kernel)

/-- A device whose name ends with a slash: its first component is listed as a directory, but there is
no component behind it. -/
def slashVfs : Vfs :=
  ⟨[text "a/"], [], [], [], by decide, by decide, no_memfile_path, List.nodup_nil, by decide,
    Nat.zero_le _, Nat.zero_le _, Nat.zero_le _⟩

theorem listed_not_opened : Orderly slashVfs ∧ isDirectory slashVfs (text "/dev") = true ∧
    vfsReaddir slashVfs (.dir (text "/dev")) 4 = .ok (some ⟨text "a", .dir, 6, 5⟩) ∧
    (vfsOpenErr slashVfs (text "/dev/a")).1 = .error .enoent :=
  ⟨⟨nofun, nofun, by decide +kernel⟩, by decide +kernel, by decide +kernel, by decide +kernel⟩

end Agreement

section Pool

variable {S T : Vfs} {q : Text}

/-- `vfs_close` lowers the count of the vnode, which nothing reads: a directory keeps its place in
`g_dirs`. -/
def vfsClose (S : Vfs) (_ : Vnode) : Vfs := S

inductive Visit
  | open (path : Text)
  | close (vnode : Vnode)

def visit (S : Vfs) : Visit → Vfs
  | .open path => (vfsOpenErr S path).2
  | .close vnode => vfsClose S vnode

/-- Two states that differ at most in `g_dirs`. -/
def Alike (S T : Vfs) : Prop :=
  T.devices = S.devices ∧ T.memfiles = S.memfiles ∧ T.tmpfiles = S.tmpfiles

theorem visit_alike (S : Vfs) (v : Visit) : Alike S (visit S v) := by
  cases v with
  | close vnode => exact ⟨rfl, rfl, rfl⟩
  | «open» path =>
    simp only [visit, vfsOpenErr]
    split
    · exact ⟨rfl, rfl, rfl⟩
    · exact ⟨rfl, rfl, rfl⟩
    · split
      · unfold dirVnode
        split_ifs <;> exact ⟨rfl, rfl, rfl⟩
      · exact ⟨rfl, rfl, rfl⟩

theorem visits_alike (l : List Visit) (S : Vfs) : Alike S (l.foldl visit S) := by
  induction l generalizing S with
  | nil => exact ⟨rfl, rfl, rfl⟩
  | cons v l ih =>
    obtain ⟨hdevices, hmemfiles, htmpfiles⟩ := visit_alike S v
    rw [foldl_cons]
    obtain ⟨hdevices', hmemfiles', htmpfiles'⟩ := ih (visit S v)
    exact ⟨hdevices'.trans hdevices, hmemfiles'.trans hmemfiles, htmpfiles'.trans htmpfiles⟩

theorem Alike.lookup_eq (h : Alike S T) : lookup T q = lookup S q := by
  obtain ⟨hdevices, hmemfiles, htmpfiles⟩ := h
  simp only [lookup, diskLookup, tmpfsLookup, hdevices, hmemfiles, htmpfiles]

theorem Alike.isDirectory_eq (h : Alike S T) : isDirectory T q = isDirectory S q := by
  obtain ⟨hdevices, hmemfiles, -⟩ := h
  simp only [isDirectory, candidates, hdevices, hmemfiles]

theorem dirVnode_ok_iff : (∃ v, (dirVnode S q).1 = .ok v) ↔
    q.length < pathSize ∧ (q ∈ S.dirs ∨ S.dirs.length < dirsMax) := by
  unfold dirVnode
  split_ifs <;> simp_all

/-- A directory that could be opened is opened after any opens and closes, unless it needs a place in
`g_dirs` and all of them were given to other directories. -/
theorem directory_opens_iff (S : Vfs) (l : List Visit) (q : Text) (hd : isDirectory S q = true)
    (hok : ∃ v, (vfsOpenErr S q).1 = .ok v) :
    (∃ v, (vfsOpenErr (l.foldl visit S) q).1 = .ok v) ↔ lookup S q ≠ .ok none ∨
      q ∈ (l.foldl visit S).dirs ∨ (l.foldl visit S).dirs.length < dirsMax := by
  have halike := visits_alike l S
  generalize l.foldl visit S = T at halike ⊢
  unfold vfsOpenErr at hok ⊢
  rw [halike.lookup_eq, halike.isDirectory_eq]
  cases hlookup : lookup S q with
  | error e =>
    rw [hlookup] at hok
    obtain ⟨v, hv⟩ := hok
    cases hv
  | ok o =>
    cases o with
    | some v => exact iff_of_true ⟨v, rfl⟩ (.inl nofun)
    | none =>
      simp only [hlookup, hd, if_true] at hok ⊢
      rw [dirVnode_ok_iff] at hok ⊢
      simp [hok.1]

theorem directory_opens_etc : ∃ v, (vfsOpenErr ([.open (text "/etc"), .close (.dir (text "/etc")),
    .open (text "/dev")].foldl visit smallVfs) (text "/proc")).1 = .ok v :=
  (directory_opens_iff smallVfs _ (text "/proc") (by decide +kernel) ⟨.dir (text "/proc"),
    by decide +kernel⟩).mpr (.inr (.inr (by decide +kernel)))

/-- The directories `/a` to `/q`, with a file in each. -/
def crowdedVfs : Vfs :=
  ⟨[], (List.range 17).map fun i => [slash, 97 + i.toUInt8, slash, 102], [], [],
    no_device_name, List.nodup_nil, by decide, by decide, Nat.zero_le _, by decide, Nat.zero_le _,
    Nat.zero_le _⟩

/-- The first 16 of them are opened and closed; there is no place left for the last one. -/
theorem directory_not_opened : let q : Text := text "/q"
    let l := (List.range 16).flatMap fun i =>
      let path := [slash, 97 + i.toUInt8]
      [Visit.open path, .close (.dir path)]
    isDirectory crowdedVfs q = true ∧ (vfsOpenErr crowdedVfs q).1 = .ok (.dir q) ∧
      (vfsOpenErr (l.foldl visit crowdedVfs) q).1 = .error .enospc := by
  decide +kernel

end Pool

end Tach.VfsPaths
