import Tach.BlockCache
import Tach.Shell

/-!
The registry of blk.c: `blk_register` and `blk_unregister`. A device is unregistered after the
devices whose parent it is, and a disk moreover only when its buffers could be written and none of
them is in use. The recursion runs over the levels of partitions below the device; the model counts
them in its rounds.
-/

namespace Tach.BlkDevices

open List Actions BlockCache Sectors
open Shell (Text)

section Model

/-- `struct blkdev`, where `δ` are the addresses. The parents of a device end at a disk, and `depth`
counts them. -/
structure Devices (δ : Type) where
  name : δ → Text
  sectors : δ → ℕ
  start : δ → ℕ
  parent : δ → Option δ
  /-- The driver has a read operation. -/
  reads : δ → Bool
  owned : δ → Bool
  depth : δ → ℕ
  depth_eq : ∀ {d p}, parent d = some p → depth d = depth p + 1

structure Blk (δ : Type) where
  /-- `g_devs`. -/
  devs : List (Option δ)
  cache : Cache δ
  /-- What `blk_unregister` gave to `kfree`. -/
  freed : List δ

abbrev BlkM (δ α : Type) := Act (Blk δ) Errno α

variable {δ : Type} [DecidableEq δ] (E : Setup δ) (D : Devices δ)

def place (dev : δ) : List (Option δ) → Option (List (Option δ))
  | [] => none
  | none :: rest => some (some dev :: rest)
  | some d :: rest => (place dev rest).map (some d :: ·)

def blkRegister (dev : δ) (devs : List (Option δ)) : Except Errno (List (Option δ)) :=
  if D.name dev = [] then .error .einval
  else if D.parent dev = none ∧ D.reads dev = false then .error .einval
  else if ∃ p ∈ D.parent dev, D.sectors p < (D.start dev + D.sectors dev) % 2 ^ 64 then
    .error .einval
  else if ∃ d ∈ devs.reduceOption, D.name d = D.name dev then .error .eexist
  else
    match place dev devs with
    | some devs => .ok devs
    | none => .error .enospc

def Blk.registered (s : Blk δ) : List δ := s.devs.reduceOption

def onCache {α : Type} (m : CacheM δ α) : BlkM δ α :=
  Act.zoom Blk.cache (fun c s => { s with cache := c }) m

def pinned (d : δ) (c : Cache δ) : Bool :=
  (List.range buffers).any fun b => (c.pool b).dev = some d ∧ (c.pool b).refs ≠ 0

def dropBuffers (d : δ) (c : Cache δ) : Cache δ :=
  (List.range buffers).foldl (fun c b =>
    if (c.pool b).dev = some d then
      (c.hashRemove E b).setBuf b { c.pool b with dev := none, dirty := false }
    else c) c

/-- What `blk_unregister` does with the cache for a disk. -/
def releaseDisk (d : δ) : CacheM δ Unit := do
  flushRoot E d
  let ready ← Act.read Cache.ready
  let busy ← Act.read (pinned d)
  if ready then
    if busy then Act.fail .ebusy else Act.modify (dropBuffers E d)
  else pure ()

def forget (dev : δ) (s : Blk δ) : Blk δ :=
  { s with
    devs := s.devs.map fun x => if x = some dev then none else x
    freed := if D.owned dev then dev :: s.freed else s.freed }

def blkUnregister : ℕ → δ → BlkM δ Unit
  | 0, _ => Act.fail .eio
  | rounds + 1, dev => do
    let devs ← Act.read Blk.registered
    if dev ∉ devs then Act.fail .enodev
    else do
      Act.each (blkUnregister rounds) (devs.filter fun d => d ≠ dev ∧ D.parent d = some dev)
      if D.parent dev = none then onCache (releaseDisk E dev) else pure ()
      Act.modify (forget D dev)

end Model

variable {δ : Type} {E : Setup δ} {D : Devices δ} {s t u : Blk δ} {d dev : δ} {rounds : ℕ}
  {children : List δ}

section Runs

/-- Registered devices were removed, but none that is spared, and only removed ones were freed. -/
structure Cut (spared : δ → Prop) (s t : Blk δ) : Prop where
  sublist : t.registered.Sublist s.registered
  kept : ∀ x ∈ s.registered, spared x → x ∈ t.registered
  freed : ∀ x ∈ t.freed, x ∈ s.freed ∨ x ∉ t.registered

namespace Cut

variable {spared spared' : δ → Prop}

theorem refl (s : Blk δ) : Cut spared s s :=
  ⟨List.Sublist.refl _, fun _ hx _ => hx, fun _ hx => Or.inl hx⟩

theorem mono (h : Cut spared s t) (himp : ∀ x, spared' x → spared x) : Cut spared' s t :=
  ⟨h.sublist, fun x hx hsp => h.kept x hx (himp x hsp), h.freed⟩

theorem trans (h : Cut spared s t) (h' : Cut spared t u) : Cut spared s u where
  sublist := h'.sublist.trans h.sublist
  kept x hx hsp := h'.kept x (h.kept x hx hsp) hsp
  freed x hx := by
    rcases h'.freed x hx with hx | hx
    · exact (h.freed x hx).imp_right fun hnot hin => hnot (h'.sublist.mem hin)
    · exact Or.inr hx

end Cut

theorem place_perm {devs devs' : List (Option δ)} (h : place dev devs = some devs') :
    devs'.reduceOption.Perm (dev :: devs.reduceOption) := by
  induction devs generalizing devs' with
  | nil => cases h
  | cons x devs ih =>
    cases x with
    | none =>
      cases h
      rw [reduceOption_cons_of_some, reduceOption_cons_of_none]
    | some d =>
      obtain ⟨rest, hrest, rfl⟩ := Option.map_eq_some_iff.mp h
      rw [reduceOption_cons_of_some, reduceOption_cons_of_some]
      exact ((ih hrest).cons d).trans (List.Perm.swap dev d _)

theorem onCache_frame (m : CacheM δ Unit) (s : Blk δ) :
    Ends (onCache m) s fun _ t => t.registered = s.registered ∧ t.freed = s.freed := ⟨rfl, rfl⟩

variable [DecidableEq δ]

theorem reduceOption_forget (devs : List (Option δ)) :
    (devs.map fun x => if x = some d then none else x).reduceOption =
      devs.reduceOption.filter (· ≠ d) := by
  induction devs with
  | nil => rfl
  | cons x devs ih =>
    rw [map_cons]
    cases x with
    | none =>
      rw [if_neg nofun, reduceOption_cons_of_none, reduceOption_cons_of_none, ih]
    | some y =>
      by_cases hy : y = d
      · rw [if_pos (congrArg some hy), reduceOption_cons_of_none,
          reduceOption_cons_of_some, filter_cons_of_neg (by simpa using hy), ih]
      · rw [if_neg fun h => hy (Option.some.inj h), reduceOption_cons_of_some,
          reduceOption_cons_of_some, filter_cons_of_pos (by simpa using hy), ih]

theorem registered_forget : (forget D d s).registered = s.registered.filter (· ≠ d) :=
  reduceOption_forget _

theorem Cut.forget (D : Devices δ) (d : δ) (s : Blk δ) : Cut (· ≠ d) s (forget D d s) where
  sublist := by
    rw [registered_forget]
    exact filter_sublist
  kept x hx hne := by
    rw [registered_forget, mem_filter]
    exact ⟨hx, by simpa using hne⟩
  freed x hx := by
    rw [registered_forget]
    change x ∈ ite _ _ _ at hx
    split at hx
    · rcases mem_cons.mp hx with rfl | hx
      · exact Or.inr fun h => by simp at h
      · exact Or.inl hx
    · exact Or.inl hx

/-- Enough rounds for the levels of partitions below `d`. -/
def Enough (D : Devices δ) (rounds : ℕ) (d : δ) (s : Blk δ) : Prop :=
  ∀ x ∈ s.registered, D.depth x < D.depth d + rounds

/-- A registered partition is unregistered, and what is not deeper stays. -/
def Unregisters (E : Setup δ) (D : Devices δ) (rounds : ℕ) : Prop :=
  ∀ s d, D.parent d ≠ none → d ∈ s.registered → s.registered.Nodup → Enough D rounds d s →
    Ends (blkUnregister E D rounds d) s fun r t => r = .ok () ∧ d ∉ t.registered ∧
      Cut (fun x => D.depth x ≤ D.depth d ∧ x ≠ d) s t

theorem ends_children (ih : Unregisters E D rounds) (hnodup : s.registered.Nodup)
    (henough : Enough D (rounds + 1) dev s) (hchildren : children.Nodup)
    (hparent : ∀ x ∈ children, x ∈ s.registered ∧ D.parent x = some dev) :
    Ends (Act.each (blkUnregister E D rounds) children) s fun r t => r = .ok () ∧
      (∀ x ∈ children, x ∉ t.registered) ∧ Cut (fun x => D.depth x ≤ D.depth dev) s t ∧
        (children = [] → t = s) := by
  induction children generalizing s with
  | nil => exact ⟨rfl, nofun, Cut.refl s, fun _ => rfl⟩
  | cons c children ihc =>
    obtain ⟨hc, hcp⟩ := hparent c mem_cons_self
    obtain ⟨hnot, hrest⟩ := nodup_cons.mp hchildren
    have hdepth := D.depth_eq hcp
    have hone := ih s c (by rw [hcp]; exact nofun) hc hnodup fun x hx => by
      have := henough x hx
      omega
    refine hone.bind ?_ fun e u h => absurd h.1 nofun
    rintro ⟨⟩ u ⟨-, hgone, hcut⟩
    have hlater := ihc (hnodup.sublist hcut.sublist)
      (fun x hx => henough x (hcut.sublist.mem hx)) hrest fun x hx => by
        obtain ⟨hxs, hxp⟩ := hparent x (mem_cons_of_mem _ hx)
        refine ⟨hcut.kept x hxs ⟨?_, fun h => hnot (h ▸ hx)⟩, hxp⟩
        rw [D.depth_eq hxp, hdepth]
    refine hlater.mono ?_
    rintro r t ⟨hr, hgones, hcut', -⟩
    refine ⟨hr, fun x hx => ?_, Cut.trans (hcut.mono fun x hx => ?_) hcut', nofun⟩
    · rcases mem_cons.mp hx with rfl | hx
      · exact fun h => hgone (hcut'.sublist.mem h)
      · exact hgones x hx
    · refine ⟨by omega, ?_⟩
      rintro rfl
      omega

/-- What the call has done when it comes to the device itself. -/
structure Below (D : Devices δ) (dev : δ) (s t : Blk δ) : Prop where
  gone : ∀ x ∈ s.registered, D.parent x = some dev → x ∉ t.registered
  cut : Cut (fun x => D.depth x ≤ D.depth dev) s t
  same : (∀ x ∈ s.registered, D.parent x ≠ some dev) → t = s

theorem ends_below (ih : Unregisters E D rounds) (hnodup : s.registered.Nodup)
    (henough : Enough D (rounds + 1) dev s) : Ends (Act.each (blkUnregister E D rounds)
      (s.registered.filter fun d => d ≠ dev ∧ D.parent d = some dev)) s fun r t =>
        r = .ok () ∧ Below D dev s t := by
  refine (ends_children ih hnodup henough (hnodup.filter _) fun x hx => ?_).mono ?_
  · obtain ⟨hxs, hx⟩ := mem_filter.mp hx
    exact ⟨hxs, (of_decide_eq_true hx).2⟩
  · rintro r t ⟨hr, hgone, hcut, hsame⟩
    refine ⟨hr, fun x hx hxp => hgone x (mem_filter.mpr ⟨hx, decide_eq_true ⟨?_, hxp⟩⟩), hcut,
      fun hnone => hsame ?_⟩
    · rintro rfl
      have := D.depth_eq hxp
      omega
    · exact filter_eq_nil_iff.mpr fun x hx h => hnone x hx (of_decide_eq_true h).2

theorem unregisters (E : Setup δ) (D : Devices δ) (rounds : ℕ) : Unregisters E D rounds := by
  induction rounds with
  | zero =>
    intro s d _ hd _ henough
    exact absurd (henough d hd) (by omega)
  | succ rounds ih =>
    intro s d hparent hd hnodup henough
    rw [blkUnregister]
    refine Ends.read_bind ?_
    rw [if_neg (not_not.mpr hd), if_neg hparent]
    refine (ends_below ih hnodup henough).bind ?_ fun e u h => absurd h.1 nofun
    rintro ⟨⟩ u ⟨-, hbelow⟩
    refine Ends.modify ⟨rfl, ?_, Cut.trans (hbelow.cut.mono fun x hx => hx.1)
      ((Cut.forget D d u).mono fun x hx => hx.2)⟩
    rw [registered_forget]
    exact fun h => by simp at h

end Runs

section Refused

/-- Every registered device is still registered and none of them was freed. -/
def Untouched (s t : Blk δ) : Prop :=
  ∀ x ∈ s.registered, x ∈ t.registered ∧ (x ∈ t.freed → x ∈ s.freed)

variable [DecidableEq δ]

theorem ends_refused (hnodup : s.registered.Nodup) (henough : Enough D rounds dev s) :
    Ends (blkUnregister E D rounds dev) s fun r t => ∀ e, r = .error e →
      (Untouched s t ↔ dev ∉ s.registered ∨ ∀ x ∈ s.registered, D.parent x ≠ some dev) := by
  have hsame : Untouched s s := fun _ hx => ⟨hx, id⟩
  cases rounds with
  | zero =>
    have hout : dev ∉ s.registered := fun h => absurd (henough dev h) (by omega)
    exact Ends.fail fun e _ => iff_of_true hsame (Or.inl hout)
  | succ rounds =>
    rw [blkUnregister]
    refine Ends.read_bind ?_
    by_cases hdev : dev ∈ s.registered
    swap
    · rw [if_pos hdev]
      exact Ends.fail fun e _ => iff_of_true hsame (Or.inl hdev)
    rw [if_neg (not_not.mpr hdev)]
    refine (ends_below (unregisters E D rounds) hnodup henough).bind ?_
      fun e u h => absurd h.1 nofun
    rintro ⟨⟩ u ⟨-, hbelow⟩
    -- Only the buffers of a disk can stop the call from here on.
    by_cases hparent : D.parent dev = none
    swap
    · rw [if_neg hparent]
      exact Ends.modify fun e he => absurd he nofun
    rw [if_pos hparent]
    refine (onCache_frame _ u).bind (fun _ t _ => Ends.modify fun e he => absurd he nofun) ?_
    rintro e t ⟨hreg, hfreed⟩ _ -
    rw [or_iff_right (not_not.mpr hdev)]
    constructor
    · intro huntouched x hx hxp
      have hin := (huntouched x hx).1
      rw [hreg] at hin
      exact hbelow.gone x hx hxp hin
    · intro hnone x hx
      rw [hreg, hfreed, hbelow.same hnone]
      exact ⟨hx, id⟩

/-- A refused call changes nothing in the registry exactly if the device was not registered or had no
partitions. -/
theorem refused_unregister_untouched_iff (E : Setup δ) (D : Devices δ) (rounds : ℕ) (s : Blk δ)
    (dev : δ) (hnodup : s.registered.Nodup) (henough : Enough D rounds dev s) (e : Errno)
    (hrefused : (blkUnregister E D rounds dev s).result = .error e) :
    Untouched s (blkUnregister E D rounds dev s).state ↔
      dev ∉ s.registered ∨ ∀ x ∈ s.registered, D.parent x ≠ some dev :=
  ends_refused hnodup henough e hrefused

def oneDisk : Setup ℕ := ⟨fun _ => ⟨64, false, true, true⟩, fun _ lba => lba % 64, fun _ _ => none⟩

def onePart : Devices ℕ where
  name d := [104, 100, 97] ++ List.replicate d 49
  sectors _ := 64
  start _ := 0
  parent d := if d = 1 then some 0 else none
  reads _ := true
  owned d := d = 1
  depth d := if d = 1 then 1 else 0
  depth_eq {d p} h := by
    by_cases hd : d = 1
    · rw [if_pos hd] at h
      cases h
      rw [if_pos hd, if_neg (by decide)]
    · rw [if_neg hd] at h
      cases h

def held (devs : List (Option ℕ)) : Blk ℕ :=
  ⟨devs, (blkInit fun _ _ => ByteBlock.Block.zero 512).setBuf 3
    ⟨some 0, 7, 1, false, ByteBlock.Block.zero 512⟩, []⟩

theorem refused_unregister_untouched_bare :
    Untouched (held [some 0]) (blkUnregister oneDisk onePart 1 0 (held [some 0])).state := by
  refine (refused_unregister_untouched_iff oneDisk onePart 1 (held [some 0]) 0 (by decide) ?_ .ebusy
    (by decide +kernel)).mpr (Or.inr ?_)
  · unfold Enough
    decide
  · decide

/-- The disk is in use and stays, but its partition is unregistered and freed. -/
theorem refused_unregister_loses_partition :
    (blkUnregister oneDisk onePart 2 0 (held [some 0, some 1])).result = .error .ebusy ∧
      ¬Untouched (held [some 0, some 1])
        (blkUnregister oneDisk onePart 2 0 (held [some 0, some 1])).state := by
  refine ⟨by decide +kernel, fun h => absurd (h 1 (by decide)).1 ?_⟩
  decide +kernel

end Refused

end Tach.BlkDevices
