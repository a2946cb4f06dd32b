import Tach.FileCalls
import Tach.FileOps
import Tach.Histories
import Tach.Interleaving
import Tach.Records
import Tach.Tilings

/-!
Processes that append to one file. Each has descriptors of its own, opened with `O_APPEND`, and at most
one call of `sys_write` under way; one `vfs_write` is one step. `sys_write` looks up the end of the file
only once, so that a round may start before the end that others have moved; where every round starts
at the end, the bytes of the writers lie one behind the other.
-/

namespace Tach.Appends

open Function List FileCalls Records Tilings TmpFile
open Sectors (Errno)

section Model

variable {ι δ φ α : Type*} [DecidableEq ι] [DecidableEq δ]

/-- A call under way: the descriptor, the bytes stored and those that are left. -/
structure Call (δ : Type*) where
  fd : δ
  total : ℕ
  rest : List UInt8

/-- A process with the offsets of its descriptors. -/
structure Writer (δ : Type*) where
  offset : δ → ℕ
  call : Option (Call δ)

structure State (ι δ φ : Type*) where
  file : φ
  writer : ι → Writer δ

inductive Action (ι δ α : Type*)
  | start (i : ι) (fd : δ) (data : List UInt8)
  | round (i : ι) (answer : Option α)

/-- Bytes that `vfs_write` stored for a process. -/
structure Store (ι : Type*) where
  writer : ι
  offset : ℕ
  bytes : List UInt8

inductive Event (ι : Type*)
  | stored (store : Store ι)
  | returned (i : ι) (result : Except Errno ℕ)

variable (B : Backing φ α)

/-- Process `i` after a round of its call. -/
def Writer.after (w : Writer δ) (fd : δ) (offset : ℕ) : Progress → Writer δ
  | .returned _ => ⟨update w.offset fd offset, none⟩
  | .goes total rest => ⟨update w.offset fd offset, some ⟨fd, total, rest⟩⟩

def Progress.events (i : ι) : Progress → List (Event ι)
  | .returned result => [.returned i result]
  | .goes _ _ => []

def storeEvents (i : ι) (offset : ℕ) (rest : List UInt8) (offset' : ℕ) : List (Event ι) :=
  if offset' = offset then [] else [.stored ⟨i, offset, rest.take (offset' - offset)⟩]

/-- A process begins a call of `sys_write`, or goes through a round of it. -/
def next (s : State ι δ φ) : Action ι δ α → Option (State ι δ φ × List (Event ι))
  | .start i fd data =>
    match (s.writer i).call with
    | some _ => none
    | none =>
      let w := s.writer i
      some (⟨s.file, update s.writer i
        ⟨update w.offset fd (writeStart B s.file true (w.offset fd)), some ⟨fd, 0, data⟩⟩⟩, [])
  | .round i answer =>
    match (s.writer i).call with
    | none => none
    | some c =>
      let w := s.writer i
      let r := writeRound B answer s.file (w.offset c.fd) c.total c.rest
      some (⟨r.file, update s.writer i (w.after c.fd r.offset r.progress)⟩,
        storeEvents i (w.offset c.fd) c.rest r.offset ++ Progress.events i r.progress)

/-- The next bytes of a call go to the end of the file, and none that are already stored are followed
by bytes that cannot be copied. -/
def AtEnd (s : State ι δ φ) : Action ι δ α → Prop
  | .start _ _ _ => True
  | .round i answer => ∀ c ∈ (s.writer i).call, c.rest ≠ [] →
      (answer = none → c.total = 0) ∧ (answer ≠ none → (s.writer i).offset c.fd = B.size s.file)

abbrev Run (ok : State ι δ φ → Action ι δ α → Prop) := Histories.Run (next B) ok

def idle (f : φ) (offset : ι → δ → ℕ) : State ι δ φ := ⟨f, fun i => ⟨offset i, none⟩⟩

def stores : List (Event ι) → List (Store ι) := List.filterMap fun e =>
  match e with
  | .stored x => some x
  | .returned _ _ => none

def counted : Except Errno ℕ → ℕ
  | .ok n => n
  | .error _ => 0

def returned (l : List (Event ι)) : ℕ := (l.map fun e =>
  match e with
  | .stored _ => 0
  | .returned _ result => counted result).sum

def Writer.pending (w : Writer δ) : ℕ := (w.call.map Call.total).getD 0

/-- What the writers left of the file: with `b₀` at the beginning and `b` now, no bytes of a writer were
stored over those of another, all are still there, and the length is what was told. -/
structure Undisturbed [Fintype ι] (b₀ b : List UInt8) (history : List (Event ι))
    (writer : ι → Writer δ) : Prop where
  apart : (stores history).Pairwise fun x y =>
    Separate x.offset x.bytes.length y.offset y.bytes.length
  kept : ∀ x ∈ stores history, (b.drop x.offset).take x.bytes.length = x.bytes
  initial : b₀ <+: b
  length : b.length = b₀.length + returned history + ∑ i, (writer i).pending

end Model

section Rounds

variable {ι δ φ α : Type*} [DecidableEq ι] [DecidableEq δ]

/-- `Shows f b`: the file has the bytes `b`. A write at the end adds some of its bytes, or none. -/
structure Appendable (B : Backing φ α) (Shows : φ → List UInt8 → Prop) : Prop where
  size : ∀ {f b}, Shows f b → B.size f = b.length
  write : ∀ {f b}, Shows f b → ∀ a {chunk}, chunk ≠ [] →
    (∃ e, (B.write a f b.length chunk).1 = .error e ∧ Shows (B.write a f b.length chunk).2 b) ∨
    ∃ k, 0 < k ∧ k ≤ chunk.length ∧ (B.write a f b.length chunk).1 = .ok k ∧
      Shows (B.write a f b.length chunk).2 (b ++ chunk.take k)

variable {B : Backing φ α} {Shows : φ → List UInt8 → Prop}

/-- What a round at the end of the file does: it returns with what was stored before, or it stores `k`
bytes more. -/
inductive Extends (Shows : φ → List UInt8 → Prop) (b : List UInt8) (offset total : ℕ)
    (rest : List UInt8) (r : Round φ) : Prop
  | none (result : Except Errno ℕ) (bytes : Shows r.file b) (moved : r.offset = offset)
      (progress : r.progress = .returned result) (counted : counted result = total)
  | some (k : ℕ) (pos : 0 < k) (le : k ≤ rest.length) (start : offset = b.length)
      (bytes : Shows r.file (b ++ rest.take k)) (moved : r.offset = offset + k)
      (progress : r.progress = .returned (.ok (total + k)) ∨
        r.progress = .goes (total + k) (rest.drop k))

theorem writeRound_extends {f : φ} {b : List UInt8} {answer : Option α} {offset total : ℕ}
    {rest : List UInt8} (hB : Appendable B Shows) (h : Shows f b)
    (hok : rest ≠ [] → (answer = none → total = 0) ∧ (answer ≠ none → offset = B.size f)) :
    Extends Shows b offset total rest (writeRound B answer f offset total rest) := by
  unfold writeRound
  by_cases hrest : rest = []
  · rw [if_pos hrest]
    exact .none _ h rfl rfl rfl
  rw [if_neg hrest]
  obtain ⟨hfault, hend⟩ := hok hrest
  cases answer with
  | none => exact .none _ h rfl rfl (hfault rfl).symm
  | some a =>
    have hoffset : offset = b.length := (hend (by simp)).trans (hB.size h)
    have hchunk : rest.take chunkMax ≠ [] := by simp [hrest, chunkMax]
    subst hoffset
    dsimp only
    rcases hB.write h a hchunk with ⟨e, he, hshows⟩ | ⟨k, hpos, hle, hk, hshows⟩
    · generalize B.write a f b.length (rest.take chunkMax) = r at he hshows
      obtain ⟨x, g⟩ := r
      obtain rfl : x = .error e := he
      refine .none _ hshows rfl rfl ?_
      split
      · rfl
      · rename_i htotal
        exact (not_not.mp htotal).symm
    · generalize B.write a f b.length (rest.take chunkMax) = r at hk hshows
      obtain ⟨x, g⟩ := r
      obtain rfl : x = .ok k := hk
      obtain ⟨n, rfl⟩ : ∃ n, k = n + 1 := ⟨k - 1, by omega⟩
      have hle' : n + 1 ≤ rest.length := hle.trans (length_take_le' ..)
      refine .some (n + 1) hpos hle' rfl ?_ rfl ?_
      · rw [take_take, Nat.min_eq_left (hle.trans (length_take_le ..))] at hshows
        exact hshows
      · dsimp only
        split
        · exact .inl rfl
        · exact .inr rfl

end Rounds

section Runs

variable {ι δ φ α : Type*} {b₀ b : List UInt8} {l e : List (Event ι)}

@[simp] theorem stores_append : stores (l ++ e) = stores l ++ stores e := filterMap_append ..

@[simp] theorem returned_append : returned (l ++ e) = returned l + returned e := by
  rw [returned, map_append, sum_append]
  rfl

variable [Fintype ι] {writer : ι → Writer δ} {i : ι}

/-- The bytes of the writers fill the file behind what was there before, in the order in which they
were stored. -/
structure Grown (b₀ b : List UInt8) (history : List (Event ι)) (writer : ι → Writer δ) : Prop where
  tiles : Tiles Store.offset (fun x => x.bytes.length) b₀.length (stores history) b.length
  kept : ∀ x ∈ stores history, (b.drop x.offset).take x.bytes.length = x.bytes
  initial : b₀ <+: b
  length : b.length = b₀.length + returned history + ∑ i, (writer i).pending

namespace Grown

theorem undisturbed (h : Grown b₀ b l writer) : Undisturbed b₀ b l writer where
  apart := h.tiles.pairwise.imp fun hle => .inl hle
  kept := h.kept
  initial := h.initial
  length := h.length

variable [DecidableEq ι] {w : Writer δ}

/-- A step that stores nothing; what it tells was stored before. -/
theorem quiet (h : Grown b₀ b l writer) (hstores : stores e = [])
    (hcount : returned e + w.pending = (writer i).pending) :
    Grown b₀ b (l ++ e) (update writer i w) := by
  have hsum := Interleaving.sum_update Writer.pending writer i w
  have hlength := h.length
  refine ⟨?_, ?_, h.initial, ?_⟩
  · rw [stores_append, hstores, append_nil]
    exact h.tiles
  · rw [stores_append, hstores, append_nil]
    exact h.kept
  · rw [returned_append]
    omega

/-- A step that stores bytes at the end. -/
theorem store {x : List UInt8} (h : Grown b₀ b l writer) (hstores : stores e = [⟨i, b.length, x⟩])
    (hcount : returned e + w.pending = (writer i).pending + x.length) :
    Grown b₀ (b ++ x) (l ++ e) (update writer i w) := by
  have hsum := Interleaving.sum_update Writer.pending writer i w
  have hlength := h.length
  refine ⟨?_, fun y hy => ?_, h.initial.trans (prefix_append ..), ?_⟩
  · rw [stores_append, hstores]
    exact tiles_append.mpr ⟨b.length, h.tiles, rfl, by simp [Tiles]⟩
  · rw [stores_append, hstores] at hy
    rcases mem_append.mp hy with hy | hy
    · -- what is already stored is in front of the new bytes
      have hend := (h.tiles.mem hy).2
      rw [drop_append_of_le_length (by omega), take_append_of_le_length, h.kept y hy]
      rw [length_drop]
      omega
    · rw [mem_singleton.mp hy]
      simp
  · rw [length_append, returned_append]
    omega

end Grown

variable [DecidableEq ι] [DecidableEq δ] {B : Backing φ α} {Shows : φ → List UInt8 → Prop}
  {s t : State ι δ φ}

theorem step_grown {a : Action ι δ α} (hB : Appendable B Shows) (hb : Shows s.file b)
    (h : Grown b₀ b l s.writer) (hok : AtEnd B s a) (hnext : next B s a = some (t, e)) :
    ∃ b', Shows t.file b' ∧ Grown b₀ b' (l ++ e) t.writer := by
  cases a with
  | start i fd data =>
    cases hcall : (s.writer i).call with
    | some c => simp [next, hcall] at hnext
    | none =>
      simp only [next, hcall, Option.some.injEq, Prod.mk.injEq] at hnext
      obtain ⟨rfl, rfl⟩ := hnext
      exact ⟨b, hb, h.quiet rfl (by simp [Writer.pending, hcall, returned])⟩
  | round i answer =>
    cases hcall : (s.writer i).call with
    | none => simp [next, hcall] at hnext
    | some c =>
      have hpending : (s.writer i).pending = c.total := by simp [Writer.pending, hcall]
      have hround := writeRound_extends hB hb (hok c hcall)
      simp only [next, hcall, Option.some.injEq, Prod.mk.injEq] at hnext
      obtain ⟨rfl, rfl⟩ := hnext
      generalize writeRound B answer s.file ((s.writer i).offset c.fd) c.total c.rest = r at hround ⊢
      cases hround with
      | none result hfile hoffset hprogress hcounted =>
        rw [hoffset, hprogress]
        refine ⟨b, hfile, h.quiet (by simp [storeEvents, Progress.events, stores]) ?_⟩
        simp [storeEvents, Progress.events, returned, Writer.after, Writer.pending, hcounted, hcall]
      | some k hpos hle hstart hfile hoffset hprogress =>
        have hlen : (c.rest.take k).length = k := by rw [length_take, Nat.min_eq_left hle]
        have hevents : storeEvents i ((s.writer i).offset c.fd) c.rest r.offset =
            [.stored ⟨i, b.length, c.rest.take k⟩] := by
          rw [storeEvents, hoffset, if_neg (by omega), Nat.add_sub_cancel_left, hstart]
        rw [hevents]
        refine ⟨b ++ c.rest.take k, hfile, h.store ?_ ?_⟩
        · rcases hprogress with hprogress | hprogress <;>
            simp [hprogress, Progress.events, stores]
        · rw [hpending, hlen]
          rcases hprogress with hprogress | hprogress <;>
            simp [hprogress, Progress.events, returned, counted, Writer.after, Writer.pending]

/-- Every run whose rounds start at the end of the file. -/
theorem run_grown {f : φ} {offset : ι → δ → ℕ} (hB : Appendable B Shows) (hb : Shows f b₀)
    (h : Run B (AtEnd B) (idle f offset) l s) : ∃ b, Shows s.file b ∧ Grown b₀ b l s.writer := by
  refine h.invariant (I := fun l s => ∃ b, Shows s.file b ∧ Grown b₀ b l s.writer) ?_ ?_
  · exact ⟨b₀, hb, rfl, by simp [stores], prefix_refl _, by simp [returned, idle, Writer.pending]⟩
  · rintro l u a v e ⟨b, hu, hgrown⟩ hok hnext
    exact step_grown hB hu hgrown hok hnext

end Runs

section Tmpfs

def TmpShows (f : TmpFile) (b : List UInt8) : Prop := f.size ≤ f.capacity ∧ f.bytes = b

variable {f g : TmpFile} {stop : ℕ} {grown : Option (ℕ → UInt8)}

theorem length_bytes (f : TmpFile) : f.bytes.length = f.size := by simp [bytes]

/-- `krealloc` keeps the bytes of the file. -/
theorem reserve_bytes (hf : f.size ≤ f.capacity) (hstop : stop ≤ tmpfsMax)
    (h : f.reserve stop grown = some g) :
    g.size = f.size ∧ g.bytes = f.bytes ∧ f.size ≤ g.capacity ∧ stop ≤ g.capacity := by
  unfold reserve at h
  split at h
  · rename_i hsmall
    obtain ⟨memory, -, rfl⟩ := Option.map_eq_some_iff.mp h
    have hcap : stop ≤ min (max (max (f.capacity * 2) stop) tmpfsMinCapacity) tmpfsMax := by omega
    refine ⟨rfl, ?_, by dsimp only; omega, hcap⟩
    refine map_congr_left fun i hi => if_pos ?_
    have := mem_range.mp hi
    dsimp only at this
    omega
  · cases h
    exact ⟨rfl, rfl, hf, by omega⟩

/-- The bytes of a chunk, read one by one. -/
theorem map_getD_range (x : List UInt8) : (List.range x.length).map (fun i => x.getD i 0) = x := by
  refine ext_getElem (by simp) fun i hi _ => ?_
  rw [getElem_map, getElem_range]
  simp at hi
  simp [hi]

/-- Bytes at the end of the file. -/
theorem store_bytes (x : List UInt8) : (f.store f.size x).bytes = f.bytes ++ x := by
  have hsize : (f.store f.size x).size = f.size + x.length := Nat.max_eq_right (Nat.le_add_right ..)
  rw [bytes, hsize, range_add, map_append, map_map]
  refine congrArg₂ (· ++ ·) (map_congr_left fun i hi => ?_) ?_
  · have := mem_range.mp hi
    simp only [store]
    rw [if_neg (by omega), if_neg (by omega)]
  · conv_rhs => rw [← map_getD_range x]
    refine map_congr_left fun i hi => ?_
    have := mem_range.mp hi
    simp only [Function.comp_apply, store]
    rw [if_pos (by omega), Nat.add_sub_cancel_left]

theorem tmpfs_appendable : Appendable tmpfs TmpShows where
  size := by
    rintro f b ⟨-, rfl⟩
    exact (length_bytes f).symm
  write := by
    rintro f b ⟨hcap, rfl⟩ grown chunk hchunk
    have hlen := length_pos_of_ne_nil hchunk
    rw [length_bytes]
    simp only [tmpfs, fileWrite, if_neg hchunk]
    by_cases hbig : tmpfsMax ≤ f.size
    · rw [if_pos hbig]
      exact .inl ⟨_, rfl, hcap, rfl⟩
    rw [if_neg hbig]
    cases hreserve : f.reserve (f.size + min chunk.length (tmpfsMax - f.size)) grown with
    | none => exact .inl ⟨_, rfl, hcap, rfl⟩
    | some g =>
      obtain ⟨hsize, hbytes, -, hroom⟩ := reserve_bytes hcap (by omega) hreserve
      refine .inr ⟨_, by omega, Nat.min_le_left .., rfl, ?_⟩
      rw [← hsize, ← hbytes]
      refine ⟨?_, store_bytes _⟩
      simp only [store, length_take]
      omega

end Tmpfs

section Fat32

open FatData Vnodes FileOps Actions

variable {σ : Type} {V : Volume σ} {id : ℕ} {s : Fs σ} {b : List UInt8}

/-- An open file of a volume with these bytes, on a device without faults. -/
def FatShows (V : Volume σ) (id : ℕ) (s : Fs σ) (b : List UInt8) : Prop :=
  V.quiet s ∧ ∃ fv l, findVnode id s.vol = some fv ∧ fv.size = fv.node.info.size ∧
    FileAt V s fv.node l ∧ fileOf V s fv.node l = b

theorem findVnode_mapVnode {v : VolState} {fv : Vnode} (h : findVnode id v = some fv)
    {f : Vnode → Vnode} (hf : ∀ x, (f x).id = x.id) : findVnode id (mapVnode id f v) = some (f fv) := by
  have hid : fv.id = id := by simpa using List.find?_some h
  have hcomp : ((fun x => decide (x.id = id)) ∘ fun x => if x.id = id then f x else x) =
      fun x => decide (x.id = id) := by
    funext x
    simp only [Function.comp_apply]
    split
    · rw [hf]
    · rfl
  rw [findVnode, mapVnode, List.find?_map, hcomp]
  rw [findVnode] at h
  rw [h, Option.map_some, if_pos hid]

def putSized (id : ℕ) (p : Fs σ × Node) : Fs σ where
  io := p.1.io
  vol := mapVnode id (fun fv => { fv with size := fv.node.info.size }) (putNode id p).vol

theorem fvWrite_state {fv : Vnode} {offset : ℕ} (buf : ℕ → UInt8) (count : ℕ)
    (hfind : findVnode id s.vol = some fv) (hoffset : offset ≤ maxSize) :
    let r := Files.fat32Write V offset buf count (s, fv.node)
    fvWrite V id offset buf count s = ⟨r.result, putSized id r.state, r.marked⟩ := by
  intro r
  have hnode : onNode id (Files.fat32Write V offset buf count) s =
      ⟨r.result, putNode id r.state, r.marked⟩ := by
    have hread : readVol (findVnode id) s = ⟨.ok (some fv), s, false⟩ := by
      rw [← hfind]
      rfl
    unfold onNode
    rw [Act.bind_of_ok hread]
    rfl
  have hattempt : Act.attempt (onNode id (Files.fat32Write V offset buf count)) s =
      ⟨.ok r.result, putNode id r.state, r.marked⟩ := by
    rw [Act.attempt, hnode]
  have hsmall : ¬(0xFFFFFFFF < (offset : Int)) := by
    unfold maxSize at hoffset
    omega
  unfold fvWrite
  rw [if_neg (by omega), if_neg hsmall, Int.toNat_natCast, Act.bind_of_ok hattempt]
  cases r.result with
  | ok k => exact congrArg (Outcome.mk (.ok k) (putSized id r.state)) (Bool.or_false _)
  | error e => exact congrArg (Outcome.mk (.error e) (putSized id r.state)) (Bool.or_false _)

theorem fat32_appendable (V : Volume σ) (id : ℕ) : Appendable (fat32 V id) (FatShows V id) where
  size := by
    rintro s b ⟨-, fv, l, hfind, hsize, -, rfl⟩
    simp only [fat32, hfind, Option.map_some, Option.getD_some, hsize, fileOf_length]
  write := by
    rintro s b ⟨hq, fv, l, hfind, hsize, hat, rfl⟩ - x hx
    rw [fileOf_length]
    obtain ⟨hquiet, hcounters, l', hat', hresult⟩ := runs_fat32Write hat hx hq
    have hstate := fvWrite_state (V := V) (fun i => x.getD i 0) x.length hfind hat.size_le
    simp only [fat32, hstate]
    generalize Files.fat32Write V fv.node.info.size (fun i => x.getD i 0) x.length (s, fv.node) = r
      at hquiet hcounters hat' hresult
    have hshows {b' : List UInt8} (hb' : fileOf V r.state.1 r.state.2 l' = b') :
        FatShows V id (putSized id r.state) b' := by
      have hold : findVnode id r.state.1.vol = some fv := by
        obtain ⟨_, _, _, hvol⟩ := hcounters
        rw [findVnode, hvol]
        exact hfind
      have hput : findVnode id (putNode id r.state).vol = some { fv with node := r.state.2 } :=
        findVnode_mapVnode hold fun _ => rfl
      have hsame : FileAt V (putSized id r.state) r.state.2 l' :=
        ⟨hat'.notDir, hat'.chain, hat'.cache, hat'.fits, hat'.tight, hat'.size_le, hat'.apart,
          hat'.entry⟩
      exact ⟨hquiet, _, l', findVnode_mapVnode hput fun _ => rfl, rfl, hsame, hb'⟩
    rcases hresult with ⟨e, he, hb⟩ | ⟨k, hpos, hle, hk, hb⟩
    · exact .inl ⟨e, he, hshows hb⟩
    · exact .inr ⟨k, hpos, hle, hk, hshows hb⟩

end Fat32

section Claim

variable {ι δ : Type*} [DecidableEq ι] [DecidableEq δ] [Fintype ι]

/-- Processes that append to a file of tmpfs or FAT32, each round of a call at the end of the file,
leave the bytes of one another alone, and the file has grown by what they were told. -/
theorem appends_undisturbed (offset : ι → δ → ℕ) :
    (∀ (f : TmpFile) (b₀ : List UInt8), TmpShows f b₀ → ∀ history s,
      Run tmpfs (AtEnd tmpfs) (idle f offset) history s →
        ∃ b, TmpShows s.file b ∧ Undisturbed b₀ b history s.writer) ∧
    ∀ (σ : Type) (V : FatData.Volume σ) (id : ℕ) (fs : FatData.Fs σ) (b₀ : List UInt8),
      FatShows V id fs b₀ → ∀ history s,
        Run (fat32 V id) (AtEnd (fat32 V id)) (idle fs offset) history s →
          ∃ b, FatShows V id s.file b ∧ Undisturbed b₀ b history s.writer := by
  refine ⟨fun f b₀ hf history s h => ?_, fun σ V id fs b₀ hf history s h => ?_⟩
  · obtain ⟨b, hb, hgrown⟩ := run_grown tmpfs_appendable hf h
    exact ⟨b, hb, hgrown.undisturbed⟩
  · obtain ⟨b, hb, hgrown⟩ := run_grown (fat32_appendable V id) hf h
    exact ⟨b, hb, hgrown.undisturbed⟩

/-- Two processes begin to append to an empty file before the first of them stores its byte; the other
then stores over it. Both were told that a byte was stored, and the file has one. -/
theorem append_overwritten : ∃ (history : List (Event (Fin 2))) (s : State (Fin 2) Unit TmpFile),
      Run tmpfs (fun _ _ => True) (idle ⟨fun _ => 0, 0, 0⟩ fun _ _ => 0) history s ∧
      stores history = [⟨0, 0, [97]⟩, ⟨1, 0, [98]⟩] ∧ s.file.bytes = [98] ∧ returned history = 2 := by
  refine ⟨_, _, Histories.Run.of_exec (fun _ _ => true) (fun _ _ _ => trivial)
    [.start 0 () [97], .start 1 () [98], .round 0 (some (some fun _ => 0)),
      .round 1 (some (some fun _ => 0)), .round 0 none, .round 1 none] rfl, rfl, ?_, ?_⟩
  · decide
  · decide

/-- One after the other, they store one byte behind the other. -/
theorem appends_undisturbed_in_turn :
    ∃ (history : List (Event (Fin 2))) (s : State (Fin 2) Unit TmpFile) (b : List UInt8),
      Run tmpfs (AtEnd tmpfs) (idle ⟨fun _ => 0, 0, 0⟩ fun _ _ => 0) history s ∧
      stores history = [⟨0, 0, [97]⟩, ⟨1, 1, [98]⟩] ∧ TmpShows s.file b ∧
      Undisturbed [] b history s.writer := by
  obtain ⟨history, s, hrun, hstores⟩ : ∃ (history : List (Event (Fin 2)))
      (s : State (Fin 2) Unit TmpFile),
      Run tmpfs (AtEnd tmpfs) (idle ⟨fun _ => 0, 0, 0⟩ fun _ _ => 0) history s ∧
      stores history = [⟨0, 0, [97]⟩, ⟨1, 1, [98]⟩] := by
    refine ⟨_, _, Histories.Run.of_exec (fun u a => match a with
        | .start _ _ _ => true
        | .round i none => decide (((u.writer i).call.map Call.rest).getD [] = [])
        | .round i (some _) => decide ((u.writer i).offset () = u.file.size)) (fun u a hpass => ?_)
      [.start 0 () [97], .round 0 (some (some fun _ => 0)), .start 1 () [98],
        .round 1 (some (some fun _ => 0)), .round 0 none, .round 1 none] rfl, rfl⟩
    match a, hpass with
    | .start _ _ _, _ => exact trivial
    | .round i none, hpass =>
      intro c hc hrest
      have hnil := of_decide_eq_true hpass
      rw [Option.mem_def.mp hc] at hnil
      exact absurd hnil hrest
    | .round i (some _), hpass =>
      exact fun c _ _ => ⟨nofun, fun _ => of_decide_eq_true hpass⟩
  obtain ⟨b, hb, hundisturbed⟩ := (appends_undisturbed (fun _ _ => 0)).1 ⟨fun _ => 0, 0, 0⟩ []
    ⟨le_rfl, rfl⟩ history s hrun
  exact ⟨history, s, b, hrun, hstores, hb, hundisturbed⟩

end Claim

end Tach.Appends
