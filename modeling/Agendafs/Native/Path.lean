import Mathlib.Data.Nat.Digits.Defs

/-!
# C strings and paths

Strings as the program sees them, lists of bytes without the terminating NUL,
with the functions of the C library it calls on them, and the functions of
`path.c`.
-/

namespace Agendafs

/-- A C string: its bytes up to, and without, the terminating NUL. -/
abbrev CStr := List UInt8

/-- The bytes of an ASCII literal of the source. -/
def bytes (s : String) : CStr := s.toList.map fun c => UInt8.ofNat c.toNat

/-- The byte `/`. -/
def slash : UInt8 := 47

/-- The byte `.`. -/
def dot : UInt8 := 46

/-- The C string that starts at a buffer: its bytes before the first NUL. -/
def cString (buf : List UInt8) : CStr := buf.takeWhile (· ≠ 0)

/-- `strrchr`: the text before and after the last occurrence of `c`, or NULL. -/
def strrchr (c : UInt8) : CStr → Option (CStr × CStr)
  | [] => none
  | b :: s =>
    match strrchr c s with
    | some (pre, post) => some (b :: pre, post)
    | none => if b = c then some ([], s) else none

/-- `strstr(s, t) != NULL`. -/
def strstr (t : CStr) : CStr → Bool
  | [] => t.isPrefixOf []
  | b :: s => t.isPrefixOf (b :: s) || strstr t s

/-- `tolower` on an ASCII byte. -/
def toLower (b : UInt8) : UInt8 := if 65 ≤ b ∧ b ≤ 90 then b + 32 else b

/-- `strcasecmp(s, t) == 0`. -/
def strcaseEq (s t : CStr) : Bool := s.map toLower = t.map toLower

/-- `%zu`: the decimal digits of a number. -/
def decimal (n : Nat) : CStr :=
  if n = 0 then [48] else (Nat.digits 10 n).reverse.map fun d => UInt8.ofNat (48 + d)

/-- `memcpy`: the first `n` bytes of `src` replace those of `dst`. -/
def memcpy (dst src : List UInt8) (n : Nat) : List UInt8 := src.take n ++ dst.drop n

/-- `snprintf(buf, n, "%s", s)` for `0 < n`. The count includes the terminating NUL. -/
def snprintf (buf : List UInt8) (n : Nat) (s : CStr) : List UInt8 :=
  memcpy buf (s.take (n - 1) ++ [0]) ((s.take (n - 1)).length + 1)

/-- `starts_with_str` of `util.c`. -/
def startsWithStr (str pre : CStr) : Bool := pre.isPrefixOf str

/-- The tokens `strtok_r` finds; `acc` is the token being read. -/
def strtok (c : UInt8) : CStr → CStr → List CStr
  | [], acc => if acc = [] then [] else [acc]
  | b :: s, acc =>
    if b = c then
      if acc = [] then strtok c s [] else acc :: strtok c s []
    else strtok c s (acc ++ [b])

/-! ## path.c -/

/-- `without_file_extension`: cut at the last dot, if it is behind the last slash. -/
def withoutFileExtension (p : CStr) : CStr :=
  match strrchr dot p with
  | none => p
  | some (pre, post) => if slash ∈ post then p else pre

/-- `get_file_extension`: what follows the last dot, or NULL. -/
def getFileExtension (p : CStr) : Option CStr := (strrchr dot p).map (·.2)

/-- `pathIsHidden`. -/
def pathIsHidden (p : CStr) : Bool := p.head? = some dot

/-- `append_path`: `"%s/%s"`. -/
def appendPath (parentp childp : CStr) : CStr := parentp ++ slash :: childp

/-- `get_filename`: what follows the last slash. -/
def getFilename (fullPath : CStr) : CStr :=
  match strrchr slash fullPath with
  | none => fullPath
  | some (_, post) => post

/-- `get_parent_path`: what precedes the last slash, `/` when that is empty, or NULL. -/
def getParentPath (path : CStr) : Option CStr :=
  match strrchr slash path with
  | none => none
  | some (pre, _) => if pre = [] then some [slash] else some pre

/-- `split_path`. -/
def splitPath (p : CStr) : List CStr := strtok slash p []

/-- `filename_numbered`: `my-file.txt` becomes `my-file.1.txt`. -/
def filenameNumbered (filename : CStr) (n : Nat) : CStr :=
  match strrchr dot filename with
  | some (base, ext) => base ++ dot :: decimal n ++ dot :: ext
  | none => filename ++ dot :: decimal n

end Agendafs
