import Tach.FatData

/-!
The names of fat32.c. A name is a C string, a list of bytes without the terminating NUL. The
two directions of the long-name encoding (UTF-8 to the UTF-16 units of the slots and back) and
the 8.3 name with the NT case bits.
-/

namespace Tach.FatNames

open ByteBlock Sectors

def fold (c : UInt8) : UInt8 := if 0x41 ≤ c.toNat ∧ c.toNat ≤ 0x5A then c + 32 else c

def nameEq : List UInt8 → List UInt8 → Bool
  | [], [] => true
  | a :: as, b :: bs => fold a == fold b && nameEq as bs
  | _, _ => false

def cstr (l : List UInt8) : List UInt8 := l.takeWhile (· ≠ 0)

def shortChecksum (name11 : List UInt8) : ℕ :=
  name11.foldl (fun sum c => (sum % 2 * 128 + sum / 2 + c.toNat) % 256) 0

def utf8Of (cp : ℕ) : List UInt8 :=
  if cp < 0x80 then [UInt8.ofNat cp]
  else if cp < 0x800 then [UInt8.ofNat (0xC0 + cp / 64), UInt8.ofNat (0x80 + cp % 64)]
  else if cp < 0x10000 then
    [UInt8.ofNat (0xE0 + cp / 4096), UInt8.ofNat (0x80 + cp / 64 % 64),
      UInt8.ofNat (0x80 + cp % 64)]
  else
    [UInt8.ofNat (0xF0 + cp / 262144), UInt8.ofNat (0x80 + cp / 4096 % 64),
      UInt8.ofNat (0x80 + cp / 64 % 64), UInt8.ofNat (0x80 + cp % 64)]

def isHigh (u : ℕ) : Bool := 0xD800 ≤ u ∧ u < 0xDC00

def isLow (u : ℕ) : Bool := 0xDC00 ≤ u ∧ u < 0xE000

/-- The code point of a unit that is not the first half of a pair; a lone half reads as '?'. -/
def loneUnit (u : ℕ) : ℕ := if isHigh u ∨ isLow u then 0x3F else u

/-- `utf16_to_utf8` on the units of a long name, `n` bytes being written already. None stands
for the result -1: no room in `cap` bytes with the NUL, or an empty name. -/
def utf16ToUtf8 (cap : ℕ) : ℕ → List ℕ → Option (List UInt8)
  | n, [] => if n = 0 then none else some []
  | n, [u] =>
    if u = 0 then if n = 0 then none else some []
    else if cap ≤ n + (utf8Of (loneUnit u)).length then none
    else some (utf8Of (loneUnit u))
  | n, u :: w :: rest =>
    if u = 0 then if n = 0 then none else some []
    else if isHigh u ∧ isLow w then
      let bytes := utf8Of (0x10000 + (u - 0xD800) * 1024 + (w - 0xDC00))
      if cap ≤ n + bytes.length then none
      else (utf16ToUtf8 cap (n + bytes.length) rest).map (bytes ++ ·)
    else
      let bytes := utf8Of (loneUnit u)
      if cap ≤ n + bytes.length then none
      else (utf16ToUtf8 cap (n + bytes.length) (w :: rest)).map (bytes ++ ·)

/-- `while (n && raw[n - 1] == ' ') n--`. -/
def trimLen (raw : ℕ → UInt8) : ℕ → ℕ
  | 0 => 0
  | n + 1 => if raw n = 0x20 then trimLen raw n else n + 1

def shortByte (c : UInt8) : UInt8 := if 0x80 ≤ c.toNat then 0x5F else c

def shownByte (lower : Bool) (c : UInt8) : List UInt8 :=
  if 0x80 ≤ c.toNat then utf8Of c.toNat
  else if lower ∧ 0x41 ≤ c.toNat ∧ c.toNat ≤ 0x5A then [c + 32] else [c]

/-- `build_short_name`: the 8.3 name as stored, and the name shown, where the NT case bits of
byte 12 lower the base or the extension and bytes from 0x80 on are taken as Latin-1. -/
def buildShortName (e : Block 32) : List UInt8 × List UInt8 :=
  let raw : ℕ → UInt8 := fun i => if i = 0 ∧ e 0 = 0x05 then 0xE5 else e i
  let base := (List.range (trimLen raw 8)).map raw
  let ext := (List.range (trimLen (fun i => raw (8 + i)) 3)).map (fun i => raw (8 + i))
  let dot : List UInt8 := if ext = [] then [] else [0x2E]
  let lowerBase : Bool := (e 12).toNat / 8 % 2 = 1
  let lowerExt : Bool := (e 12).toNat / 16 % 2 = 1
  (cstr (base.map shortByte ++ dot ++ ext.map shortByte),
    cstr (base.flatMap (shownByte lowerBase) ++ dot ++ ext.flatMap (shownByte lowerExt)))

def isCont (c : UInt8) : Bool := 0x80 ≤ c.toNat ∧ c.toNat < 0xC0

/-- Controls and the characters `\ / : * ? " < > |`. -/
def forbidden (cp : ℕ) : Bool :=
  cp < 0x20 ∨ cp ∈ [0x5C, 0x2F, 0x3A, 0x2A, 0x3F, 0x22, 0x3C, 0x3E, 0x7C]

/-- The checks on a decoded code point: shortest form, in range, no surrogate, allowed. -/
def badPoint (extra cp : ℕ) : Bool :=
  (extra = 1 ∧ cp < 0x80) ∨ (extra = 2 ∧ cp < 0x800) ∨ (extra = 3 ∧ cp < 0x10000) ∨
    0x10FFFF < cp ∨ (0xD800 ≤ cp ∧ cp ≤ 0xDFFF) ∨ forbidden cp

def unitsOf (cp : ℕ) : List ℕ :=
  if 0x10000 ≤ cp then [0xD800 + (cp - 0x10000) / 1024, 0xDC00 + (cp - 0x10000) % 1024]
  else [cp]

/-- One decoded code point put before the units of the rest of the name. -/
def emitUnits (cap n extra cp : ℕ) (rest : ℕ → Except Errno (List ℕ)) :
    Except Errno (List ℕ) :=
  if badPoint extra cp then .error .einval
  else if cap < n + (unitsOf cp).length then .error .enametoolong
  else (rest (n + (unitsOf cp).length)).map (unitsOf cp ++ ·)

def utf8ToUtf16 (cap : ℕ) : ℕ → List UInt8 → Except Errno (List ℕ)
  | _, [] => .ok []
  | n, c :: p =>
    if c.toNat < 0x80 then emitUnits cap n 0 c.toNat (fun k => utf8ToUtf16 cap k p)
    else if 0xC0 ≤ c.toNat ∧ c.toNat < 0xE0 then
      match p with
      | b :: p =>
        if isCont b then
          emitUnits cap n 1 (c.toNat % 32 * 64 + b.toNat % 64) (fun k => utf8ToUtf16 cap k p)
        else .error .einval
      | [] => .error .einval
    else if 0xE0 ≤ c.toNat ∧ c.toNat < 0xF0 then
      match p with
      | b :: b' :: p =>
        if isCont b ∧ isCont b' then
          emitUnits cap n 2 ((c.toNat % 16 * 64 + b.toNat % 64) * 64 + b'.toNat % 64)
            (fun k => utf8ToUtf16 cap k p)
        else .error .einval
      | _ => .error .einval
    else if 0xF0 ≤ c.toNat ∧ c.toNat < 0xF8 then
      match p with
      | b :: b' :: b'' :: p =>
        if isCont b ∧ isCont b' ∧ isCont b'' then
          emitUnits cap n 3
            (((c.toNat % 8 * 64 + b.toNat % 64) * 64 + b'.toNat % 64) * 64 + b''.toNat % 64)
            (fun k => utf8ToUtf16 cap k p)
        else .error .einval
      | _ => .error .einval
    else .error .einval

def dot : UInt8 := 0x2E

end Tach.FatNames
