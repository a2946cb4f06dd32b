import Tach.KernelHeap
import Tach.VfsPaths

/-!
The USTAR importer of initrd.c. `initrd_parse` registers the files of the archive as memory files, whose
data stay where they are in memory. It registers a file before it has compared the size of the entry
with what is left of the archive, so that the last file that it registers may reach behind the end.
-/

namespace Tach.Initrd

open KernelHeap (Arch)
open Records (Separate)
open Sectors (Errno)
open Shell (Text text)
open VfsPaths (Vfs slash pathSize registerMemfile)

section Model

variable (A : Arch)

def field (header : ℕ → UInt8) (start length : ℕ) : List UInt8 :=
  (List.range length).map fun i => header (start + i)

/-- `parse_octal`, from the value that it has so far. -/
def parseOctal : ℕ → List UInt8 → ℕ
  | value, [] => value
  | value, c :: rest =>
    if c = 0 ∨ c = 32 then value
    else if c < 48 ∨ 55 < c then 0
    else parseOctal ((value * 8 + (c.toNat - 48)) % A.limit) rest

def zeroBlock (header : ℕ → UInt8) : Bool := (field header 0 512).all fun b => b = 0

/-- The part of a field that `bounded_length` measures. -/
def bounded (l : List UInt8) : Text := l.takeWhile fun c => c ≠ 0

def pathOf (header : ℕ → UInt8) : Except Errno Text :=
  let front := bounded (field header 345 155)
  if front ≠ [] ∧ pathSize ≤ 1 + front.length + 1 then .error .enametoolong
  else
    let path := slash :: if front = [] then [] else front ++ [slash]
    let name := bounded (field header 0 100)
    if pathSize ≤ path.length + name.length then .error .enametoolong else .ok (path ++ name)

/-- A memory file: its path and the range of its data. -/
structure File where
  path : Text
  start : ℕ
  size : ℕ
  deriving DecidableEq

/-- The known paths, and the files that the call has registered. -/
structure Imported where
  vfs : Vfs
  files : List File

/-- `vfs_register_memfile` for an entry of a regular file that is not empty. -/
def register (header : ℕ → UInt8) (path : Text) (start size : ℕ) (s : Imported) :
    Except Errno Imported :=
  if (header 156 = 48 ∨ header 156 = 0) ∧ size ≠ 0 then
    (registerMemfile s.vfs path).map fun vfs => ⟨vfs, s.files ++ [⟨path, start, size⟩]⟩
  else .ok s

/-- `512 + ((size + 511) & ~511)`. -/
def advanceOf (size : ℕ) : ℕ := (512 + (size + 511) % A.limit / 512 * 512) % A.limit

/-- The loop of `initrd_parse` on the archive of `size` bytes at `address`, with so many rounds. -/
def scan (mem : ℕ → UInt8) (address size : ℕ) : ℕ → ℕ → Imported → Option (Except Errno ℕ × Imported)
  | 0, _, _ => none
  | rounds + 1, scanned, s =>
    let header := fun i => mem (address + scanned + i)
    if size < (scanned + 512) % A.limit ∨ zeroBlock header then some (.ok s.files.length, s)
    else if field header 257 5 ≠ text "ustar" then some (.error .enoexec, s)
    else
      let length := parseOctal A 0 (field header 124 12)
      match pathOf header with
      | .error e => some (.error e, s)
      | .ok path =>
        match register header path (address + scanned + 512) length s with
        | .error e => some (.error e, s)
        | .ok s =>
          if advanceOf A length < length ∨ size - scanned < advanceOf A length then
            some (.error .enoexec, s)
          else scan mem address size rounds (scanned + advanceOf A length) s

def initrdParse (mem : ℕ → UInt8) (address : ℕ) (size : Fin A.limit) (vfs : Vfs) :
    Option (Except Errno ℕ × Imported) :=
  if address = 0 ∨ (size : ℕ) < 512 then some (.error .einval, ⟨vfs, []⟩)
  else scan A mem address size (size / 512 + 1) 0 ⟨vfs, []⟩

end Model

section Ranges

variable {A : Arch} {mem : ℕ → UInt8} {address size scanned n : ℕ} {s : Imported} {l : List File}

/-- The data of the files lie in the archive and do not overlap. -/
structure Sound (address size : ℕ) (l : List File) : Prop where
  inside : ∀ f ∈ l, address ≤ f.start ∧ f.start + f.size ≤ address + size
  apart : l.Pairwise fun f g => Separate f.start f.size g.start g.size

theorem Sound.mono (h : Sound address scanned l) (hle : scanned ≤ n) : Sound address n l :=
  ⟨fun f hf => ⟨(h.inside f hf).1, by have := (h.inside f hf).2; omega⟩, h.apart⟩

/-- A file behind the part of the archive that has the others. -/
theorem Sound.snoc {f : File} (h : Sound address scanned l)
    (hstart : address + scanned ≤ f.start) (hend : f.start + f.size ≤ address + n) :
    Sound address n (l ++ [f]) where
  inside g hg := by
    rcases List.mem_append.mp hg with hg | hg
    · have hin := h.inside g hg
      exact ⟨hin.1, by omega⟩
    · rw [List.mem_singleton.mp hg]
      exact ⟨by omega, hend⟩
  apart := by
    refine List.pairwise_append.mpr ⟨h.apart, List.pairwise_singleton _ _, fun g hg f' hf' => ?_⟩
    rw [List.mem_singleton.mp hf']
    exact .inl (by have := (h.inside g hg).2; omega)

theorem limit_eq (A : Arch) : A.limit = 4294967296 ∨ A.limit = 18446744073709551616 := by
  cases A
  · exact .inl rfl
  · exact .inr rfl

/-- An entry that passes the check ends before the next one. -/
theorem advanceOf_ge {length : ℕ} (h : ¬advanceOf A length < length) :
    512 + length ≤ advanceOf A length := by
  unfold advanceOf at h ⊢
  rcases limit_eq A with hA | hA
  · rw [hA] at h ⊢
    omega
  · rw [hA] at h ⊢
    omega

theorem register_cases {header : ℕ → UInt8} {path : Text} {start length : ℕ} {t : Imported}
    (h : register header path start length s = .ok t) :
    t = s ∨ t.files = s.files ++ [⟨path, start, length⟩] := by
  unfold register at h
  split_ifs at h
  · cases hreg : registerMemfile s.vfs path with
    | error e =>
      rw [hreg] at h
      cases h
    | ok vfs =>
      rw [hreg] at h
      cases h
      exact .inr rfl
  · cases h
    exact .inl rfl

/-- How a parse may end: all files are in the archive, or it fails at the last one. -/
def Ends (address size : ℕ) (result : Except Errno ℕ) (l : List File) : Prop :=
  Sound address size l ∨
    ∃ n front f, l = front ++ [f] ∧ n ≤ size ∧ Sound address n front ∧ address + n ≤ f.start ∧
      result = .error .enoexec

theorem scan_ends {rounds : ℕ} (hscanned : scanned ≤ size) (hrounds : size < scanned + 512 * rounds)
    (hs : Sound address scanned s.files) : ∃ result t,
      scan A mem address size rounds scanned s = some (result, t) ∧ Ends address size result t.files := by
  induction rounds generalizing scanned s with
  | zero => omega
  | succ rounds ih =>
    have hstop : ∀ result, Ends address size result s.files := fun _ => .inl (hs.mono hscanned)
    unfold scan
    dsimp only
    split
    · exact ⟨_, _, rfl, hstop _⟩
    split
    · exact ⟨_, _, rfl, hstop _⟩
    generalize parseOctal A 0 _ = length
    cases pathOf fun i => mem (address + scanned + i) with
    | error e => exact ⟨_, _, rfl, hstop _⟩
    | ok path =>
      dsimp only
      cases hreg : register (fun i => mem (address + scanned + i)) path (address + scanned + 512)
          length s with
      | error e => exact ⟨_, _, rfl, hstop _⟩
      | ok t =>
        dsimp only
        split
        · refine ⟨_, _, rfl, ?_⟩
          rcases register_cases hreg with rfl | hfiles
          · exact hstop _
          · exact .inr ⟨scanned, s.files, _, hfiles, hscanned, hs, Nat.le_add_right _ _, rfl⟩
        · rename_i hfits
          have hge := advanceOf_ge fun h => hfits (.inl h)
          refine ih (by omega) (by omega) ?_
          rcases register_cases hreg with rfl | hfiles
          · exact hs.mono (by omega)
          · rw [hfiles]
            exact hs.snoc (Nat.le_add_right _ _) (by dsimp only; omega)

/-- A header with the name `a` and the size 1, and nothing behind it. -/
def loneHeader : ℕ → UInt8 := fun a =>
  if a = 4096 then 97
  else if a = 4096 + 124 then 49
  else if 4096 + 257 ≤ a then (text "ustar").getD (a - (4096 + 257)) 0
  else 0

def noFiles : Vfs :=
  ⟨[], [], [], [], VfsPaths.no_device_name, List.nodup_nil, VfsPaths.no_memfile_path,
    List.nodup_nil, Nat.zero_le _, Nat.zero_le _, Nat.zero_le _, Nat.zero_le _⟩

end Ranges

end Tach.Initrd
