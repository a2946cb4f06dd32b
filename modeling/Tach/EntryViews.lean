import Tach.DirThreads
import Tach.FileOps

/-!
What the threads rely on. At each point of a call a thread has seen some entries and expects
them still to be there, to be gone, or not to be open (`Thread.Ok`). A change of the volume
keeps all of this when scans still recognise every entry (`Keeps`), and what a call other than
a removal relies on also when entries are added or files are opened (`Grows`).
-/

namespace Tach.DirThreads

open List FatData Shared

/-- `e` is what a scan saw of the entry `e'`; the fields a release may write may differ. -/
structure Agrees (e' e : Entry) : Prop where
  serial : e'.serial = e.serial
  place : place e'.info = place e.info
  isDir : e'.info.isDir = e.info.isDir
  first : e.info.isDir = true → e'.info.firstCluster = e.info.firstCluster

def LiveIn (s : Shared) (d : ℕ) (e : Entry) : Prop := ∃ e', (d, e') ∈ s.live ∧ Agrees e' e

def Known (s : Shared) (e : Entry) : Prop := e.info.dirCluster = 0 ∨ ∃ d, LiveIn s d e

def Vacant (s : Shared) (c : ℕ) : Prop := ∀ p ∈ s.live, p.1 ≠ c

def NotOpen (s : Shared) (e : Entry) : Prop :=
  ∀ n ∈ s.vn.openList, place (s.vn.info n) ≠ place e.info

/-- The entry was deleted; nothing is left in it when it was a directory. -/
structure Gone (s : Shared) (e : Entry) : Prop where
  dead : Dead s e.serial
  vacant : e.info.isDir = true → Vacant s e.info.firstCluster

def Shared.entry (s : Shared) (n : ℕ) : Entry := ⟨s.serial n, s.vn.info n⟩

def IsFile (s : Shared) (n : ℕ) : Prop := n < s.vn.next ∧ (s.vn.info n).isDir = false

/-- The thread is in the truncation of an open or in the sync of a release of `n`. -/
def Holds (v : VnodeThreads.Pc) (n : ℕ) : Prop := v = .openTrunc n ∨ v = .sync n

structure Ren (s : Shared) (r : Renaming) : Prop where
  old : LiveIn s r.oldParent.info.firstCluster r.old
  target : ∀ t, r.target = some t → LiveIn s r.newParent.info.firstCluster t

def Goal.Ok (s : Shared) (cur : Entry) : Goal → Prop
  | .openPath _ _ _ _ => Known s cur
  | .renameNewIn r => LiveIn s r.oldParent.info.firstCluster r.old
  | .renameWalk r _ => Ren s r ∧ NotOpen s r.old
  | _ => True

def Leaf.Ok (s : Shared) (parent : Entry) : Leaf → Prop
  | .renameNew r => LiveIn s r.oldParent.info.firstCluster r.old ∧ r.newParent = parent
  | _ => True

/-- What a thread relies on at a point of a call. -/
def Pc.Ok (s : Shared) (v : VnodeThreads.Pc) : Pc → Prop
  | .scan cur _ goal => goal.Ok s cur
  | .leaf parent _ goal => goal.Ok s parent
  | .found e _ => Known s e
  | .leave (some (e, _)) => Known s e
  | .removeCheck parent e => LiveIn s parent.info.firstCluster e
  | .removeEmpty parent e => LiveIn s parent.info.firstCluster e ∧ NotOpen s e
  | .removeDelete parent e => LiveIn s parent.info.firstCluster e ∧ NotOpen s e ∧
      (e.info.isDir = true → Vacant s e.info.firstCluster)
  | .removeFree e => Gone s e
  | .renameCheck r => Ren s r
  | .renameTarget r t => Ren s r ∧ NotOpen s r.old ∧ r.target = some t ∧ r.same = false
  | .renameEmpty r t => Ren s r ∧ NotOpen s r.old ∧ NotOpen s t ∧ r.target = some t ∧ r.same = false
  | .renameDrop r t => Ren s r ∧ NotOpen s r.old ∧ r.target = some t ∧
      (r.same = false → NotOpen s t ∧ (t.info.isDir = true → Vacant s t.info.firstCluster))
  | .renameAdd r => r.same = false → LiveIn s r.oldParent.info.firstCluster r.old ∧
      NotOpen s r.old ∧ ∀ t, r.target = some t → Gone s t ∧
        (t.info.isDir = true → t.info.firstCluster ≠ r.newParent.info.firstCluster)
  | .renameDelete r => r.same = false → LiveIn s r.oldParent.info.firstCluster r.old ∧
      NotOpen s r.old ∧ ∀ t, r.target = some t → Gone s t
  | .renameFree r => r.same = false → ∀ t, r.target = some t → Gone s t
  | .marked n _ => IsFile s n ∧ Holds v n
  | .storing n fields _ => IsFile s n ∧ Holds v n ∧ place fields = place (s.vn.info n)
  | .redirty n _ => IsFile s n ∧ Holds v n
  | .undo n _ => IsFile s n ∧ Holds v n
  | .finished _ => ∃ n, Holds v n
  | _ => True

structure Thread.Ok (s : Shared) (t : Thread) : Prop where
  pc : t.pc.Ok s t.vn.pc
  fresh : ∀ n trunc, t.vn.pc = .openShare n trunc → n < s.vn.next ∧ Known s (s.entry n)

/-- Nothing that was live is lost, and what a vnode says of its entry stays. -/
structure Grows (s s' : Shared) : Prop where
  live : ∀ d e, LiveIn s d e → LiveIn s' d e
  dead : ∀ k, Dead s k → Dead s' k
  next : s.vn.next ≤ s'.vn.next
  node : ∀ n < s.vn.next, Agrees (s'.entry n) (s.entry n)

/-- Besides, no directory gets a new entry and no vnode is put on the list. -/
structure Keeps (s s' : Shared) : Prop extends Grows s s' where
  vacant : ∀ c, Vacant s c → Vacant s' c
  closed : ∀ e, NotOpen s e → NotOpen s' e

variable {s s' : Shared} {e e' a : Entry} {d n pos c : ℕ} {t : Thread} {i : Info} {p : ℕ × Entry}

namespace Agrees

theorem refl (e : Entry) : Agrees e e := ⟨rfl, rfl, rfl, fun _ => rfl⟩

theorem trans {b c : Entry} (h : Agrees a b) (h' : Agrees b c) : Agrees a c := by
  refine ⟨h.serial.trans h'.serial, h.place.trans h'.place, h.isDir.trans h'.isDir, fun hd => ?_⟩
  exact (h.first (h'.isDir.trans hd)).trans (h'.first hd)

theorem symm {b : Entry} (h : Agrees a b) : Agrees b a :=
  ⟨h.serial.symm, h.place.symm, h.isDir.symm, fun hd => (h.first (h.isDir.symm.trans hd)).symm⟩

theorem dirCluster {b : Entry} (h : Agrees a b) : a.info.dirCluster = b.info.dirCluster :=
  congrArg Prod.fst h.place

end Agrees

theorem liveIn_of_mem (h : (d, e) ∈ s.live) : LiveIn s d e := ⟨e, h, .refl e⟩

theorem LiveIn.congr (h : LiveIn s d e) (ha : Agrees a e) : LiveIn s d a := by
  obtain ⟨e', hmem, hag⟩ := h
  exact ⟨e', hmem, hag.trans ha.symm⟩

theorem Known.congr (h : Known s e) (ha : Agrees a e) : Known s a := by
  obtain h0 | ⟨d, hd⟩ := h
  · exact .inl (ha.dirCluster.trans h0)
  · exact .inr ⟨d, hd.congr ha⟩

namespace Grows

theorem refl (s : Shared) : Grows s s :=
  ⟨fun _ _ h => h, fun _ h => h, le_rfl, fun _ _ => .refl _⟩

variable (h : Grows s s')
include h

theorem known (hk : Known s e) : Known s' e := by
  obtain h0 | ⟨d, hd⟩ := hk
  · exact .inl h0
  · exact .inr ⟨d, h.live d e hd⟩

theorem entry (hn : n < s.vn.next) (hk : Known s (s.entry n)) :
    n < s'.vn.next ∧ Known s' (s'.entry n) :=
  ⟨by have := h.next; omega, (h.known hk).congr (h.node n hn)⟩

theorem isFile (hf : IsFile s n) : IsFile s' n :=
  ⟨by have := h.next; have := hf.1; omega, (h.node n hf.1).isDir.trans hf.2⟩

theorem fresh (hok : t.Ok s) (n : ℕ) (trunc : Bool)
    (hpc : t.vn.pc = .openShare n trunc) : n < s'.vn.next ∧ Known s' (s'.entry n) := by
  obtain ⟨hn, hk⟩ := hok.fresh n trunc hpc
  exact h.entry hn hk

/-- A call that is not a removal relies on live entries only. -/
theorem ok (hr : t.pc.removing = false) (hok : t.Ok s) : t.Ok s' := by
  refine ⟨?_, h.fresh hok⟩
  have hpc := hok.pc
  obtain ⟨v, pc⟩ := t
  cases pc with
  | scan cur todo goal =>
    cases goal with
    | openPath => exact h.known hpc
    | createIn => trivial
    | _ => cases hr
  | leaf parent name goal =>
    cases goal with
    | create => trivial
    | _ => cases hr
  | found e trunc =>
    exact h.known hpc
  | leave made =>
    cases made with
    | none => trivial
    | some p => exact h.known hpc
  | marked n saved =>
    exact ⟨h.isFile hpc.1, hpc.2⟩
  | storing n fields saved =>
    exact ⟨h.isFile hpc.1, hpc.2.1, hpc.2.2.trans (h.node n hpc.1.1).place.symm⟩
  | redirty n saved =>
    exact ⟨h.isFile hpc.1, hpc.2⟩
  | undo n saved =>
    exact ⟨h.isFile hpc.1, hpc.2⟩
  | finished ok =>
    exact hpc
  | calm => trivial
  | enter job => trivial
  | createAdd parent trunc => trivial
  | _ =>
    cases hr

end Grows

namespace Keeps

theorem refl (s : Shared) : Keeps s s := ⟨.refl s, fun _ h => h, fun _ h => h⟩

theorem gone (h : Keeps s s') (hg : Gone s e) : Gone s' e :=
  ⟨h.dead _ hg.dead, fun hd => h.vacant _ (hg.vacant hd)⟩

theorem ren {r : Renaming} (h : Keeps s s') (hr : Ren s r) : Ren s' r :=
  ⟨h.live _ _ hr.old, fun t ht => h.live _ _ (hr.target t ht)⟩

/-- Whatever a thread relies on stays. -/
theorem ok (h : Keeps s s') (hok : t.Ok s) : t.Ok s' := by
  by_cases hr : t.pc.removing = false
  · exact h.toGrows.ok hr hok
  · refine ⟨?_, h.fresh hok⟩
    have hpc := hok.pc
    obtain ⟨v, pc⟩ := t
    cases pc with
    | scan cur todo goal =>
      cases goal with
      | openPath => exact h.known hpc
      | renameNewIn r => exact h.live _ _ hpc
      | renameWalk r rest => exact ⟨h.ren hpc.1, h.closed _ hpc.2⟩
      | _ => trivial
    | leaf parent name goal =>
      cases goal with
      | renameNew r => exact ⟨h.live _ _ hpc.1, hpc.2⟩
      | _ => trivial
    | removeCheck parent e =>
      exact h.live _ _ hpc
    | removeEmpty parent e =>
      exact ⟨h.live _ _ hpc.1, h.closed _ hpc.2⟩
    | removeDelete parent e =>
      exact ⟨h.live _ _ hpc.1, h.closed _ hpc.2.1, fun hd => h.vacant _ (hpc.2.2 hd)⟩
    | removeFree e =>
      exact h.gone hpc
    | renameCheck r =>
      exact h.ren hpc
    | renameTarget r t =>
      exact ⟨h.ren hpc.1, h.closed _ hpc.2.1, hpc.2.2⟩
    | renameEmpty r t =>
      exact ⟨h.ren hpc.1, h.closed _ hpc.2.1, h.closed _ hpc.2.2.1, hpc.2.2.2⟩
    | renameDrop r t =>
      obtain ⟨hren, hold, ht, htarget⟩ := hpc
      refine ⟨h.ren hren, h.closed _ hold, ht, fun hs => ?_⟩
      exact ⟨h.closed _ (htarget hs).1, fun hd => h.vacant _ ((htarget hs).2 hd)⟩
    | renameAdd r =>
      intro hs
      obtain ⟨hold, hnot, htarget⟩ := hpc hs
      exact ⟨h.live _ _ hold, h.closed _ hnot, fun t ht => ⟨h.gone (htarget t ht).1, (htarget t ht).2⟩⟩
    | renameDelete r =>
      intro hs
      obtain ⟨hold, hnot, htarget⟩ := hpc hs
      exact ⟨h.live _ _ hold, h.closed _ hnot, fun t ht => h.gone (htarget t ht)⟩
    | renameFree r =>
      exact fun hs t ht => h.gone (hpc hs t ht)
    | _ =>
      exact absurd rfl hr

end Keeps

/-! What the updates of the directories keep. -/

/-- Entries may change in place as long as scans can still recognise them. -/
theorem keeps_map {f : ℕ × Entry → ℕ × Entry} (hs : Well s)
    (hf : ∀ p ∈ s.live, (f p).1 = p.1 ∧ Agrees (f p).2 p.2) :
    Keeps s { s with live := s.live.map f } ∧ Well { s with live := s.live.map f } := by
  have hdead : ∀ k, Dead s k → Dead { s with live := s.live.map f } k := by
    intro k hk
    refine ⟨hk.1, fun p hp => ?_⟩
    obtain ⟨q, hq, rfl⟩ := mem_map.mp hp
    rw [(hf q hq).2.serial]
    exact hk.2 q hq
  refine ⟨⟨⟨?_, hdead, le_rfl, fun _ _ => .refl _⟩, ?_, fun _ h => h⟩, ?_, ?_, ?_, ?_,
    fun k hk => hdead k (hs.gone k hk)⟩
  · intro d e he
    obtain ⟨e', hmem, hag⟩ := he
    obtain ⟨hd, hag'⟩ := hf _ hmem
    refine ⟨(f (d, e')).2, mem_map.mpr ⟨(d, e'), hmem, ?_⟩, hag'.trans hag⟩
    exact Prod.ext hd rfl
  · intro c hc p hp
    obtain ⟨q, hq, rfl⟩ := mem_map.mp hp
    rw [(hf q hq).1]
    exact hc q hq
  · have hmap : (s.live.map f).map (fun p => place p.2.info) = s.live.map fun p => place p.2.info := by
      rw [map_map]
      exact map_congr_left fun p hp => (hf p hp).2.place
    exact hmap.symm ▸ hs.places
  · have hmap : (s.live.map f).map (fun p => p.2.serial) = s.live.map fun p => p.2.serial := by
      rw [map_map]
      exact map_congr_left fun p hp => (hf p hp).2.serial
    exact hmap.symm ▸ hs.serials
  · intro p hp
    obtain ⟨q, hq, rfl⟩ := mem_map.mp hp
    rw [(hf q hq).2.serial]
    exact hs.below q hq
  · intro p hp
    obtain ⟨q, hq, rfl⟩ := mem_map.mp hp
    rw [(hf q hq).2.dirCluster]
    exact hs.real q hq

theorem keeps_store {f : Info} (hs : Well s)
    (hf : ∀ p ∈ s.live, place p.2.info = place f → p.2.info.isDir = false) :
    Keeps s (s.store f) ∧ Well (s.store f) := by
  unfold store
  split
  · exact ⟨.refl s, hs⟩
  · refine keeps_map hs fun p hp => ?_
    split
    · rename_i hplace
      exact ⟨rfl, rfl, rfl, FileOps.isDir_or_arch _, fun hd => absurd hd (by simp [hf p hp hplace])⟩
    · exact ⟨rfl, .refl _⟩

theorem keeps_setInfo (h : Agrees ⟨s.serial n, i⟩ (s.entry n)) (b : Bool) :
    Keeps s (s.setInfo n i b) := by
  have hnode : ∀ m, Agrees ((s.setInfo n i b).entry m) (s.entry m) := by
    intro m
    by_cases hm : m = n
    · rw [hm]
      simpa [entry, setInfo] using h
    · simpa [entry, setInfo, hm] using Agrees.refl _
  refine ⟨⟨fun _ _ h => h, fun _ h => h, le_rfl, fun m _ => hnode m⟩, fun _ h => h, ?_⟩
  intro e he m hm
  rw [show place ((s.setInfo n i b).vn.info m) = place (s.vn.info m) from (hnode m).place]
  exact he m hm

theorem keeps_dirBusy (s : Shared) (b : Bool) : Keeps s { s with dirBusy := b } :=
  ⟨⟨fun _ _ h => h, fun _ h => h, le_rfl, fun _ _ => .refl _⟩, fun _ h => h, fun _ h => h⟩

theorem Well.of_live (h : Well s) (hlive : s'.live = s.live) (hnext : s'.nextSerial = s.nextSerial)
    (hgone : s'.gone = s.gone) : Well s' := by
  refine ⟨?_, ?_, ?_, ?_, ?_⟩
  · rw [hlive]
    exact h.places
  · rw [hlive]
    exact h.serials
  · rw [hlive, hnext]
    exact h.below
  · rw [hlive]
    exact h.real
  · intro k hk
    rw [hgone] at hk
    unfold Dead
    rw [hlive, hnext]
    exact h.gone k hk

theorem mem_delete : p ∈ (s.delete d e).live ↔
    p ∈ s.live ∧ ¬(p.1 = d ∧ place p.2.info = place e.info) := by
  simp only [delete, mem_filter, decide_eq_true_eq]

theorem Dead.delete {k : ℕ} (h : Dead s k) : Dead (s.delete d e) k :=
  ⟨h.1, fun p hp => h.2 p (mem_delete.mp hp).1⟩

theorem Vacant.delete (h : Vacant s c) : Vacant (s.delete d e) c :=
  fun p hp => h p (mem_delete.mp hp).1

theorem LiveIn.delete {d' : ℕ} (h : LiveIn s d' a) (hne : place a.info ≠ place e.info) :
    LiveIn (s.delete d e) d' a := by
  obtain ⟨a', hmem, hag⟩ := h
  refine ⟨a', mem_delete.mpr ⟨hmem, fun hp => hne ?_⟩, hag⟩
  exact hag.place.symm.trans hp.2

theorem Well.delete (h : Well s) : Well (s.delete d e) :=
  ⟨h.places.sublist (filter_sublist.map _), h.serials.sublist (filter_sublist.map _),
    fun p hp => h.below p (mem_delete.mp hp).1, fun p hp => h.real p (mem_delete.mp hp).1,
    fun k hk => (h.gone k hk).delete⟩

/-- The entry a scan found is the only one with its serial number. -/
theorem LiveIn.dead (hs : Well s) (h : LiveIn s d e) : Dead (s.delete d e) e.serial := by
  obtain ⟨e', hmem, hag⟩ := h
  refine ⟨?_, fun p hp heq => ?_⟩
  · have := hs.below _ hmem
    rw [hag.serial] at this
    exact this
  · obtain ⟨hp, hnot⟩ := mem_delete.mp hp
    have hsame : p = (d, e') := by
      apply inj_on_of_nodup_map hs.serials hp hmem
      exact heq.trans hag.serial.symm
    exact hnot (by rw [hsame]; exact ⟨rfl, hag.place⟩)

theorem LiveIn.gone_delete (hs : Well s) (h : LiveIn s d e)
    (hv : e.info.isDir = true → Vacant s e.info.firstCluster) : Gone (s.delete d e) e :=
  ⟨h.dead hs, fun hd => (hv hd).delete⟩

theorem add_perm (s : Shared) (d : ℕ) (i : Info) (pos : ℕ) :
    (s.add d i pos).live.Perm ((d, ⟨s.nextSerial, i⟩) :: s.live) := by
  have h := @List.perm_middle _ (d, (⟨s.nextSerial, i⟩ : Entry)) (s.live.take pos) (s.live.drop pos)
  rwa [take_append_drop] at h

theorem mem_add : p ∈ (s.add d i pos).live ↔ p = (d, ⟨s.nextSerial, i⟩) ∨ p ∈ s.live := by
  rw [(add_perm s d i pos).mem_iff, mem_cons]

theorem grows_add (i : Info) (pos : ℕ) : Grows s (s.add d i pos) := by
  refine ⟨fun d' e he => ?_, fun k hk => ⟨Nat.lt_succ_of_lt hk.1, fun p hp => ?_⟩, le_rfl,
    fun _ _ => .refl _⟩
  · obtain ⟨e', hmem, hag⟩ := he
    exact ⟨e', mem_add.mpr (.inr hmem), hag⟩
  · obtain heq | hp := mem_add.mp hp
    · rw [heq]
      exact (Nat.ne_of_lt hk.1).symm
    · exact hk.2 p hp

theorem Vacant.add (h : Vacant s c) (hne : c ≠ d) : Vacant (s.add d i pos) c := by
  intro p hp
  obtain heq | hp := mem_add.mp hp
  · rw [heq]
    exact hne.symm
  · exact h p hp

theorem isFree_iff : s.isFree i = true ↔
    i.dirCluster ≠ 0 ∧ ∀ p ∈ s.live, place p.2.info ≠ place i := by
  simp [isFree]

theorem Well.add (h : Well s) (hi : i.dirCluster ≠ 0)
    (hplace : ∀ p ∈ s.live, place p.2.info ≠ place i) : Well (s.add d i pos) := by
  refine ⟨?_, ?_, fun p hp => ?_, fun p hp => ?_, fun k hk => (grows_add i pos).dead k (h.gone k hk)⟩
  · rw [((add_perm s d i pos).map _).nodup_iff, map_cons, nodup_cons]
    refine ⟨fun hmem => ?_, h.places⟩
    obtain ⟨p, hp, heq⟩ := mem_map.mp hmem
    exact hplace p hp heq
  · rw [((add_perm s d i pos).map _).nodup_iff, map_cons, nodup_cons]
    refine ⟨fun hmem => ?_, h.serials⟩
    obtain ⟨p, hp, heq⟩ := mem_map.mp hmem
    exact absurd heq (Nat.ne_of_lt (h.below p hp))
  · obtain heq | hp := mem_add.mp hp
    · rw [heq]
      exact Nat.lt_succ_self _
    · exact Nat.lt_succ_of_lt (h.below p hp)
  · obtain heq | hp := mem_add.mp hp
    · rw [heq]
      exact hi
    · exact h.real p hp

theorem free_live (h : Gone s e) : (s.free e).live = s.live := by
  unfold free
  split
  · rename_i hd
    apply filter_eq_self.mpr
    intro p hp
    simpa using h.vacant hd p hp
  · rfl

theorem keeps_free (h : Gone s e) : Keeps s (s.free e) := by
  have hlive := free_live h
  refine ⟨⟨fun d a ha => ?_, fun k hk => ?_, le_rfl, fun _ _ => .refl _⟩, fun c hc => ?_,
    fun _ ha => ha⟩
  · unfold LiveIn
    rw [hlive]
    exact ha
  · unfold Dead
    rw [hlive]
    exact hk
  · unfold Vacant
    rw [hlive]
    exact hc

theorem Well.free (h : Well s) (hg : Gone s e) : Well (s.free e) := by
  have hdead := (keeps_free hg).dead
  have hwell : Well { s.free e with gone := [] } := Well.of_live (s := { s with gone := [] })
    ⟨h.places, h.serials, h.below, h.real, fun k hk => absurd hk not_mem_nil⟩
    (free_live hg) rfl rfl
  refine ⟨hwell.places, hwell.serials, hwell.below, hwell.real, fun k hk => ?_⟩
  obtain heq | hk := mem_cons.mp hk
  · rw [heq]
    exact hdead _ hg.dead
  · exact hdead k (h.gone k hk)

end Tach.DirThreads
