import Stencil.Toml.Moment
import Stencil.Toml.Value

/-!
# The words of a settings file

Readers for strings, keys, numbers, dates and times. Each takes the text from some
place on and returns what it read with the rest of the text, or nothing when the text
does not start that way.
-/

namespace Stencil.Toml

/-- Reads something at the start of a text and returns the rest. -/
abbrev Reader (α : Type) := List Char → Option (α × List Char)

/-! ## Spaces and comments -/

/-- A space or a tab. -/
def isGap (c : Char) : Bool := c == ' ' || c == '\t'

/-- The text without the spaces and tabs it starts with. -/
def skipGap (s : List Char) : List Char := s.dropWhile isGap

/-- A character that may stand in a comment or a string: a tab, or anything but control
characters. -/
def isPlain (c : Char) : Bool :=
  c == '\t' || (decide (0x20 ≤ c.toNat) && decide (c.toNat ≤ 0x7E)) || decide (0x80 ≤ c.toNat)

/-- What follows a line end. -/
def afterLineEnd? : List Char → Option (List Char)
  | '\n' :: s => some s
  | '\r' :: '\n' :: s => some s
  | _ => none

/-- What follows the line when nothing but a comment is left of it. -/
def afterLine? (s : List Char) : Option (List Char) :=
  let s := match skipGap s with
    | '#' :: s => s.dropWhile isPlain
    | s => s
  if s.isEmpty then some [] else afterLineEnd? s

/-- The text without the spaces, line ends and comments it starts with. -/
def skipLines (inComment : Bool) : List Char → List Char
  | [] => []
  | '\n' :: s => skipLines false s
  | '\r' :: '\n' :: s => skipLines false s
  | c :: s =>
    if inComment then if isPlain c then skipLines true s else c :: s
    else if c = '#' then skipLines true s
    else if isGap c then skipLines false s
    else c :: s

/-! ## Strings -/

/-- The value of a hexadecimal digit. -/
def hexDigit? (c : Char) : Option Nat :=
  if c.isDigit then some (c.toNat - '0'.toNat)
  else if 'a' ≤ c ∧ c ≤ 'f' then some (c.toNat - 'a'.toNat + 10)
  else if 'A' ≤ c ∧ c ≤ 'F' then some (c.toNat - 'A'.toNat + 10)
  else none

/-- The number that hexadecimal digits write. -/
def hexNumber? (digits : List Char) : Option Nat :=
  digits.foldlM (fun n c => (hexDigit? c).map (16 * n + ·)) 0

/-- The character that hexadecimal digits stand for. -/
def hexChar? (digits : List Char) : Option Char := do
  let n ← hexNumber? digits
  if n.isValidChar then some (Char.ofNat n) else none

/-- The character that a backslash and one letter stand for. -/
def letterEscape? : Char → Option Char
  | 'b' => some '\x08'
  | 't' => some '\t'
  | 'n' => some '\n'
  | 'f' => some '\x0c'
  | 'r' => some '\r'
  | '"' => some '"'
  | '\\' => some '\\'
  | _ => none

/-- Puts a character in front of what was read. -/
def consRead (c : Char) : Option (List Char × List Char) → Option (List Char × List Char)
  | some (read, rest) => some (c :: read, rest)
  | none => none

/-- The content of a string in double quotes, read from behind its first quote. -/
def basicString : Reader (List Char)
  | [] => none
  | '"' :: s => some ([], s)
  | '\\' :: 'u' :: a :: b :: c :: d :: s => do consRead (← hexChar? [a, b, c, d]) (basicString s)
  | '\\' :: 'U' :: a :: b :: c :: d :: e :: f :: g :: h :: s => do
    consRead (← hexChar? [a, b, c, d, e, f, g, h]) (basicString s)
  | '\\' :: c :: s => do consRead (← letterEscape? c) (basicString s)
  | c :: s => if isPlain c && c != '\\' then consRead c (basicString s) else none

/-- What follows the three quotes that end a long string. Up to two more quotes still
belong to its content. -/
def closeLong (quote : Char) (s : List Char) : Option (List Char × List Char) :=
  match s with
  | a :: b :: rest =>
    if a = quote then if b = quote then some ([a, b], rest) else some ([a], b :: rest)
    else some ([], s)
  | [a] => if a = quote then some ([a], []) else some ([], s)
  | [] => some ([], [])

/-- The content of a string in three double quotes, read from behind them. A backslash at
the end of a line takes the line end and all space after it away, which `skipping`
remembers. -/
def longString (skipping : Bool) : Reader (List Char)
  | [] => none
  | '"' :: '"' :: '"' :: s => closeLong '"' s
  | '\n' :: s => if skipping then longString true s else consRead '\n' (longString false s)
  | '\r' :: '\n' :: s => if skipping then longString true s else consRead '\n' (longString false s)
  | '\\' :: 'u' :: a :: b :: c :: d :: s => do
    consRead (← hexChar? [a, b, c, d]) (longString false s)
  | '\\' :: 'U' :: a :: b :: c :: d :: e :: f :: g :: h :: s => do
    consRead (← hexChar? [a, b, c, d, e, f, g, h]) (longString false s)
  | '\\' :: c :: s =>
    match letterEscape? c with
    | some e => consRead e (longString false s)
    | none => if (afterLineEnd? (skipGap (c :: s))).isSome then longString true (c :: s) else none
  | c :: s =>
    if skipping && isGap c then longString true s
    else if isPlain c && c != '\\' then consRead c (longString false s)
    else none

/-- The content of a string in single quotes, read from behind its first quote. -/
def literalString : Reader (List Char)
  | [] => none
  | '\'' :: s => some ([], s)
  | c :: s => if isPlain c then consRead c (literalString s) else none

/-- The content of a string in three single quotes, read from behind them. -/
def longLiteral : Reader (List Char)
  | [] => none
  | '\'' :: '\'' :: '\'' :: s => closeLong '\'' s
  | '\n' :: s => consRead '\n' (longLiteral s)
  | '\r' :: '\n' :: s => consRead '\n' (longLiteral s)
  | c :: s => if isPlain c then consRead c (longLiteral s) else none

/-- A long string may start with a line end that is not part of it. -/
def dropFirstLineEnd (s : List Char) : List Char := (afterLineEnd? s).getD s

/-- A string of any of the four kinds. -/
def string? : Reader (List Char)
  | '"' :: '"' :: '"' :: s => longString false (dropFirstLineEnd s)
  | '\'' :: '\'' :: '\'' :: s => longLiteral (dropFirstLineEnd s)
  | '"' :: s => basicString s
  | '\'' :: s => literalString s
  | _ => none

/-! ## Keys -/

/-- A character of a key without quotes. -/
def inBareKey (c : Char) : Bool := c.isAlphanum || c == '_' || c == '-'

/-- A key without dots. -/
def simpleKey? : Reader String
  | '"' :: s => (basicString s).map fun (key, rest) => (String.ofList key, rest)
  | '\'' :: s => (literalString s).map fun (key, rest) => (String.ofList key, rest)
  | s =>
    let key := s.takeWhile inBareKey
    if key.isEmpty then none else some (String.ofList key, s.dropWhile inBareKey)

/-- A key of parts with dots between them, as the path of all but the last part and that
part; it has `parts` parts at most. Spaces may stand around each part. -/
def key? : (parts : Nat) → Reader (List String × String)
  | 0, _ => none
  | parts + 1, s => do
    let (first, s) ← simpleKey? (skipGap s)
    match skipGap s with
    | '.' :: s => do
      let ((path, key), rest) ← key? parts s
      return ((first :: path, key), rest)
    | rest => return (([], first), rest)

/-! ## Numbers -/

/-- The digits at the start of a text; an underscore may stand between two of them. -/
def digits (isDigit : Char → Bool) : List Char → List Char × List Char
  | [] => ([], [])
  | [c] => if isDigit c then ([c], []) else ([], [c])
  | c :: d :: s =>
    if isDigit c then
      if d = '_' ∧ (s.head?.map isDigit) = some true then
        let (read, rest) := digits isDigit s
        (c :: read, rest)
      else
        let (read, rest) := digits isDigit (d :: s)
        (c :: read, rest)
    else ([], c :: d :: s)

/-- The number that digits of a base write. -/
def numberOf (base : Nat) (ds : List Char) : Nat :=
  ds.foldl (fun n c => base * n + (hexDigit? c).getD 0) 0

/-- An integer that fits 64 bits with a sign. -/
def integer? (n : Int) (rest : List Char) : Option (Value × List Char) :=
  if -0x8000000000000000 ≤ n ∧ n < 0x8000000000000000 then some (.integer n, rest) else none

/-- An integer of another base, read from behind its two leading characters. -/
def based? (base : Nat) (isDigit : Char → Bool) (s : List Char) : Option (Value × List Char) :=
  match digits isDigit s with
  | ([], _) => none
  | (ds, rest) => integer? (numberOf base ds) rest

/-- The digits in front of a point: a single zero, or digits that do not start with
one. -/
def wholeDigits : List Char → List Char × List Char
  | '0' :: s => (['0'], s)
  | s => digits Char.isDigit s

/-- A fraction, with its point. -/
def fraction? : Reader (List Char)
  | '.' :: s => match digits Char.isDigit s with
    | ([], _) => none
    | (ds, rest) => some ('.' :: ds, rest)
  | _ => none

/-- An exponent, with its letter and its sign. -/
def exponent? : Reader (List Char)
  | c :: s =>
    if c = 'e' ∨ c = 'E' then
      let (sign, s) := match s with
        | '+' :: s => (['+'], s)
        | '-' :: s => (['-'], s)
        | s => ([], s)
      match digits Char.isDigit s with
      | ([], _) => none
      | (ds, rest) => some ('e' :: (sign ++ ds), rest)
    else none
  | [] => none

/-- A number in base ten, with the given sign in front of it. -/
def decimal? (sign : List Char) : Reader Value
  | 'i' :: 'n' :: 'f' :: rest => some (.real (String.ofList (sign ++ "inf".toList)), rest)
  | 'n' :: 'a' :: 'n' :: rest => some (.real (String.ofList (sign ++ "nan".toList)), rest)
  | s =>
    match wholeDigits s with
    | ([], _) => none
    | (whole, s) =>
      let real (tail rest : List Char) : Option (Value × List Char) :=
        some (.real (String.ofList (sign ++ whole ++ tail)), rest)
      match fraction? s with
      | some (fraction, s) =>
        match exponent? s with
        | some (exponent, rest) => real (fraction ++ exponent) rest
        | none => real fraction s
      | none =>
        match exponent? s with
        | some (exponent, rest) => real exponent rest
        | none =>
          let n : Int := numberOf 10 whole
          integer? (if sign = ['-'] then -n else n) s

/-- A number of any kind. -/
def number? : Reader Value
  | '0' :: 'x' :: s => based? 16 (fun c => (hexDigit? c).isSome) s
  | '0' :: 'o' :: s => based? 8 (fun c => '0' ≤ c && c ≤ '7') s
  | '0' :: 'b' :: s => based? 2 (fun c => c == '0' || c == '1') s
  | '+' :: s => decimal? ['+'] s
  | '-' :: s => decimal? ['-'] s
  | s => decimal? [] s

/-! ## Dates and times -/

/-- The number that two digits write. -/
def twoDigits? : Reader Nat
  | a :: b :: rest => if a.isDigit && b.isDigit then some (numberOf 10 [a, b], rest) else none
  | _ => none

/-- What follows the given character. -/
def afterChar? (c : Char) : List Char → Option (List Char)
  | d :: s => if c = d then some s else none
  | [] => none

/-- A day that the calendar has. -/
def date? (s : List Char) : Option (Date × List Char) := do
  let (century, s) ← twoDigits? s
  let (year, s) ← twoDigits? s
  let (month, s) ← twoDigits? (← afterChar? '-' s)
  let (day, rest) ← twoDigits? (← afterChar? '-' s)
  let date : Date := ⟨100 * century + year, month, day⟩
  if date.isValid then some (date, rest) else none

/-- The nanoseconds that the digits of a fraction write; digits after the ninth do not
count. -/
def nanoseconds (ds : List Char) : Nat :=
  numberOf 10 ((ds ++ List.replicate 9 '0').take 9)

/-- A time of day. -/
def timeOfDay? (s : List Char) : Option (TimeOfDay × List Char) := do
  let (hour, s) ← twoDigits? s
  let (minute, s) ← twoDigits? (← afterChar? ':' s)
  let (second, s) ← twoDigits? (← afterChar? ':' s)
  let (nanosecond, rest) := match s with
    | '.' :: r =>
      let ds := r.takeWhile Char.isDigit
      if ds.isEmpty then (0, s) else (nanoseconds ds, r.dropWhile Char.isDigit)
    | _ => (0, s)
  let time : TimeOfDay := ⟨hour, minute, second, nanosecond⟩
  if time.isValid then some (time, rest) else none

/-- How far a clock is from universal time. -/
def offset? : Reader Offset
  | [] => none
  | c :: s =>
    if c = 'Z' ∨ c = 'z' then some (.universal, s)
    else if c = '+' ∨ c = '-' then do
      let (hours, s) ← twoDigits? s
      let (minutes, rest) ← twoDigits? (← afterChar? ':' s)
      let m : Int := 60 * hours + minutes
      if hours ≤ 23 ∧ minutes ≤ 59 then some (.minutes (if c = '-' then -m else m), rest) else none
    else none

/-- A date, a time, or a date with a time after a `T` or a space. -/
def moment? (s : List Char) : Option (Moment × List Char) :=
  match date? s with
  | none => (timeOfDay? s).map fun (t, rest) => (.time t, rest)
  | some (d, rest) =>
    let time := match rest with
      | c :: s => if c = 'T' ∨ c = 't' ∨ c = ' ' then timeOfDay? s else none
      | [] => none
    match time with
    | none => some (.date d, rest)
    | some (t, rest) =>
      match offset? rest with
      | none => some (.dateTime d t none, rest)
      | some (offset, rest) => some (.dateTime d t (some offset), rest)

end Stencil.Toml
