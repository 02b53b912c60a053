import CellPack.Json.Basic
import CellPack.Numeral
/-!
# Reading JSON

`Json.read?` reads a whole text. Each reader takes the remaining characters and returns what it
read with what is left, or fails at the first character that the grammar refuses. Values nest, so
the readers of values take the length of the text as a bound. A pair of brackets costs two steps
and each further item one, hence the bound is never the reason of a failure.
-/

namespace CellPack.Json

/-- The characters after any blanks. -/
def skipBlanks : List Char → List Char
  | c :: cs => if c = ' ' ∨ c = '\n' ∨ c = '\t' ∨ c = '\r' then skipBlanks cs else c :: cs
  | [] => []

/-- What is left after a fixed word. -/
def afterWord? : List Char → List Char → Option (List Char)
  | [], cs => some cs
  | w :: ws, c :: cs => if w = c then afterWord? ws cs else none
  | _ :: _, [] => none

/-- The longest run of digits, with what is left. -/
def digitRun (cs : List Char) : List Char × List Char :=
  (cs.takeWhile Char.isDigit, cs.dropWhile Char.isDigit)

/-! ## Numbers -/

/-- The text of a number in its parts. -/
structure NumberText where
  negative : Bool
  whole : List Char
  fraction : Option (List Char)
  exponent : Option (List Char)

/-- A fraction: a point and at least one digit. -/
def fraction? : List Char → Option (Option (List Char) × List Char)
  | '.' :: cs =>
    let (ds, rest) := digitRun cs
    if ds.isEmpty then none else some (some ds, rest)
  | cs => some (none, cs)

/-- An exponent: a letter `e`, at most one sign and at least one digit. -/
def exponent? : List Char → Option (Option (List Char) × List Char)
  | c :: cs =>
    if c = 'e' ∨ c = 'E' then
      let (sign, cs) := match cs with
        | '+' :: rest => ([], rest)
        | '-' :: rest => (['-'], rest)
        | rest => ([], rest)
      let (ds, rest) := digitRun cs
      if ds.isEmpty then none else some (some (sign ++ ds), rest)
    else some (none, c :: cs)
  | [] => some (none, [])

/-- A number: no digit follows a leading zero. -/
def numberText? (cs : List Char) : Option (NumberText × List Char) := do
  let (negative, cs) := match cs with
    | '-' :: rest => (true, rest)
    | rest => (false, rest)
  let (whole, rest) := digitRun cs
  if whole.isEmpty ∨ (whole.head? = some '0' ∧ whole.length ≠ 1) then none
  else
    let (fraction, rest) ← fraction? rest
    let (exponent, rest) ← exponent? rest
    some (⟨negative, whole, fraction, exponent⟩, rest)

/-- Appends digits to a number of 64 bits as long as they fit; also tells how many did. -/
def appendDigits : Nat → List Char → Nat × Nat
  | n, [] => (n, 0)
  | n, d :: ds =>
    let next := Nat.ofDigitChars 10 [d] n
    if next < UInt64.size then
      let (n, count) := appendDigits next ds
      (n, count + 1)
    else (n, 0)

/--
The leading digits of a number as an integer of 64 bits, and the power of ten that it is to be
multiplied by. Digits of the whole part that do not fit count for the power; those of the fraction
are dropped.
-/
def NumberText.scaled (t : NumberText) : Nat × Int :=
  let (n, wholeCount) := appendDigits 0 t.whole
  let (n, fractionCount) := appendDigits n (t.fraction.getD [])
  let exponent := (t.exponent.bind Numeral.signed?).getD 0
  (n, (t.whole.length - wholeCount : Nat) - fractionCount + exponent)

/-- A natural number rounded to 53 binary digits, a tie to the even neighbour. -/
def roundToDouble (n : Nat) : Nat :=
  let unit := 1 <<< (n.log2 - 52)
  let (q, r) := (n / unit, n % unit)
  if 2 * r > unit ∨ (2 * r = unit ∧ q % 2 = 1) then (q + 1) * unit else q * unit

/--
Whether a number is beyond the range of a double, where its leading digits, the power of ten and
their product are each rounded.
-/
def NumberText.overflows (t : NumberText) : Bool :=
  let (n, exponent) := t.scaled
  if n = 0 ∨ exponent < 0 then false
  else if exponent > 308 then true
  else 1 <<< 1024 ≤ roundToDouble (roundToDouble n * roundToDouble (Nat.pow 10 exponent.toNat))

/-- The value of a number: an integer only without fraction and exponent, and `-0` is none. -/
def NumberText.toJson (t : NumberText) : Json :=
  if t.overflows then .unreadable
  else
    let n := Nat.ofDigitChars 10 t.whole 0
    if t.fraction.isNone ∧ t.exponent.isNone ∧ (n ≠ 0 ∨ !t.negative) then
      .int (if t.negative then -Int.ofNat n else Int.ofNat n)
    else
      let sign := if t.negative then ['-'] else []
      let fraction := t.fraction.elim [] ('.' :: ·)
      let exponent := t.exponent.elim [] ('e' :: ·)
      .real (String.ofList (sign ++ t.whole ++ fraction ++ exponent))

/-! ## Strings -/

/-- The value of four hexadecimal digits. -/
def unit? (a b c d : Char) : Option Nat := do
  let a ← Numeral.hexDigit? a
  let b ← Numeral.hexDigit? b
  let c ← Numeral.hexDigit? c
  let d ← Numeral.hexDigit? d
  some (((a * 16 + b) * 16 + c) * 16 + d)

/-- The character of a letter behind a backslash. -/
def shortEscape? : Char → Option Char
  | '"' => some '"'
  | '\\' => some '\\'
  | '/' => some '/'
  | 'b' => some (Char.ofNat 8)
  | 'f' => some (Char.ofNat 12)
  | 'n' => some '\n'
  | 'r' => some '\r'
  | 't' => some '\t'
  | _ => none

/-- A 16-bit unit in a string: a character of the text, or a unit of an escape. -/
inductive Piece where
  | char (c : Char)
  | unit (n : Nat)

/-- The pieces of a string up to its closing quote, behind those read before in reverse. -/
def pieces? : List Piece → List Char → Option (List Piece × List Char)
  | _, [] => none
  | acc, '"' :: rest => some (acc, rest)
  | acc, '\\' :: 'u' :: a :: b :: c :: d :: rest =>
    (unit? a b c d).bind fun u => pieces? (.unit u :: acc) rest
  | acc, '\\' :: e :: rest => (shortEscape? e).bind fun c => pieces? (.char c :: acc) rest
  | acc, c :: rest =>
    if c.toNat < 32 ∨ c = '\\' then none else pieces? (.char c :: acc) rest

/--
The characters of reversed pieces, in front of those already joined. A low surrogate joins the
high one before it; a surrogate that stands alone has no character.
-/
def joinPieces? : List Piece → List Char → Option (List Char)
  | [], acc => some acc
  | .char c :: rest, acc => joinPieces? rest (c :: acc)
  | .unit low :: .unit high :: rest, acc =>
    if 0xDC00 ≤ low ∧ low < 0xE000 then
      if 0xD800 ≤ high ∧ high < 0xDC00 then
        let code := 0x10000 + (high - 0xD800) * 0x400 + (low - 0xDC00)
        joinPieces? rest (Char.ofNat code :: acc)
      else none
    else if 0xD800 ≤ low ∧ low < 0xDC00 then none
    else joinPieces? (.unit high :: rest) (Char.ofNat low :: acc)
  | .unit u :: rest, acc =>
    if 0xD800 ≤ u ∧ u < 0xE000 then none else joinPieces? rest (Char.ofNat u :: acc)

/-- A string behind its opening quote: its text, or nothing if a surrogate stands alone. -/
def string? (cs : List Char) : Option (Option String × List Char) := do
  let (pieces, rest) ← pieces? [] cs
  some ((joinPieces? pieces []).map String.ofList, rest)

/-! ## Values -/

/-- An object of reversed entries. It cannot be read if one of its keys cannot. -/
def ofEntries (entries : List (Option String × Json)) : Json :=
  match entries.mapM fun (key, value) => key.map (·, value) with
  | some entries => .obj entries.reverse
  | none => .unreadable

mutual
/-- A value, after any blanks. -/
def value? : Nat → List Char → Option (Json × List Char)
  | 0, _ => none
  | n + 1, cs =>
    match skipBlanks cs with
    | 'n' :: rest => (afterWord? ['u', 'l', 'l'] rest).map (.null, ·)
    | 't' :: rest => (afterWord? ['r', 'u', 'e'] rest).map (.bool true, ·)
    | 'f' :: rest => (afterWord? ['a', 'l', 's', 'e'] rest).map (.bool false, ·)
    | '"' :: rest => (string? rest).map fun (s, rest) => (s.elim .unreadable .str, rest)
    | '[' :: rest =>
      match skipBlanks rest with
      | ']' :: rest => some (.arr [], rest)
      | rest => items? n [] rest
    | c :: rest =>
      if c.toNat = 0x7b then
        match skipBlanks rest with
        | [] => none
        | d :: rest => if d.toNat = 0x7d then some (.obj [], rest) else entries? n [] (d :: rest)
      else (numberText? (c :: rest)).map fun (t, rest) => (t.toJson, rest)
    | [] => none
/-- The items of an array up to its closing bracket, after those read in reverse. -/
def items? : Nat → List Json → List Char → Option (Json × List Char)
  | 0, _, _ => none
  | n + 1, acc, cs => do
    let (item, rest) ← value? n cs
    match skipBlanks rest with
    | ',' :: rest => items? n (item :: acc) rest
    | ']' :: rest => some (.arr (item :: acc).reverse, rest)
    | _ => none
/-- The entries of an object up to its closing brace, after those read in reverse. -/
def entries? : Nat → List (Option String × Json) → List Char → Option (Json × List Char)
  | 0, _, _ => none
  | n + 1, acc, cs => do
    let '"' :: rest := skipBlanks cs | none
    let (key, rest) ← string? rest
    let ':' :: rest := skipBlanks rest | none
    let (value, rest) ← value? n rest
    match skipBlanks rest with
    | ',' :: rest => entries? n ((key, value) :: acc) rest
    | c :: rest => if c.toNat = 0x7d then some (ofEntries ((key, value) :: acc), rest) else none
    | [] => none
end

/-- The value of a whole text, with blanks around it. -/
def read? (text : String) : Option Json := do
  let cs := text.toList
  let (j, rest) ← value? (cs.length + 1) cs
  if (skipBlanks rest).isEmpty then some j else none

end CellPack.Json
