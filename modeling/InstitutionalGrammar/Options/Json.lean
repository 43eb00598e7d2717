/-
  InstitutionalGrammar.Options.Json — JSON documents, as far as options need them.

  The whole of JSON is read, strictly: no trailing commas, no leading zeros, no raw control
  characters. Of a number only a plain natural is kept, and of a string none if it escapes half
  of a surrogate pair; both are still well formed.
-/

import InstitutionalGrammar.Text.Basic

namespace InstitutionalGrammar

inductive Json where
  | null
  | bool (value : Bool)
  /-- The number, if it is written with digits alone. -/
  | number (natural : Option Nat)
  /-- The string, if it is one of characters. -/
  | string (value : Option Text)
  | array (items : List Json)
  | object (members : List (Option Text × Json))

namespace Json

def isSpace (c : Char) : Bool := c = ' ' || c = '\n' || c = '\t' || c = '\r'

def skip (t : Text) : Text := t.dropWhile isSpace

/-! ## Strings -/

def hexDigit? (c : Char) : Option Nat :=
  if '0' ≤ c ∧ c ≤ '9' then some (c.toNat - '0'.toNat)
  else if 'a' ≤ c ∧ c ≤ 'f' then some (c.toNat - 'a'.toNat + 10)
  else if 'A' ≤ c ∧ c ≤ 'F' then some (c.toNat - 'A'.toNat + 10)
  else none

/-- What a one-letter escape stands for. -/
def escape? : Char → Option Char
  | '"' => some '"'
  | '\\' => some '\\'
  | '/' => some '/'
  | 'b' => some '\x08'
  | 'f' => some '\x0c'
  | 'n' => some '\n'
  | 'r' => some '\r'
  | 't' => some '\t'
  | _ => none

/-- A piece of a string: a character, or a code unit that was escaped by its number. -/
inductive Piece where
  | char (c : Char)
  | unit (n : Nat)

/-- The pieces up to the closing quote, and the rest. -/
def readPieces? : Text → Option (List Piece × Text)
  | '"' :: t => some ([], t)
  | '\\' :: 'u' :: a :: b :: c :: d :: t => do
    let n := (((← hexDigit? a) * 16 + (← hexDigit? b)) * 16 + (← hexDigit? c)) * 16 + (← hexDigit? d)
    let (ps, rest) ← readPieces? t
    return (.unit n :: ps, rest)
  | '\\' :: e :: t => do
    let c ← escape? e
    let (ps, rest) ← readPieces? t
    return (.char c :: ps, rest)
  | c :: t =>
    if c.toNat < 0x20 ∨ c = '\\' then none
    else do
      let (ps, rest) ← readPieces? t
      return (.char c :: ps, rest)
  | [] => none

/-- The characters of a string; none if half of a surrogate pair stands alone. -/
def charsOf? : List Piece → Option Text
  | [] => some []
  | .char c :: ps => (charsOf? ps).map (c :: ·)
  | [.unit n] => if 0xD800 ≤ n ∧ n ≤ 0xDFFF then none else some [Char.ofNat n]
  | .unit n :: p :: ps =>
    if 0xD800 ≤ n ∧ n ≤ 0xDBFF then
      match p with
      | .unit m =>
        if 0xDC00 ≤ m ∧ m ≤ 0xDFFF then
          (charsOf? ps).map (Char.ofNat (0x10000 + (n - 0xD800) * 0x400 + (m - 0xDC00)) :: ·)
        else none
      | .char _ => none
    else if 0xDC00 ≤ n ∧ n ≤ 0xDFFF then none
    else (charsOf? (p :: ps)).map (Char.ofNat n :: ·)

/-- The string behind an opening quote, and the rest. -/
def readString? (t : Text) : Option (Option Text × Text) :=
  (readPieces? t).map fun p => (charsOf? p.1, p.2)

/-! ## Numbers -/

def naturalOf (digits : Text) : Nat := digits.foldl (fun n c => 10 * n + (c.toNat - '0'.toNat)) 0

/-- Some digits, and the rest. -/
def readDigits? (t : Text) : Option (Text × Text) :=
  match t.takeWhile Char.isDigit with
  | [] => none
  | digits => some (digits, t.dropWhile Char.isDigit)

/-- The digits before the fraction: a zero stands alone. -/
def readWhole? (t : Text) : Option (Text × Text) :=
  match readDigits? t with
  | some (['0'], rest) => some (['0'], rest)
  | some ('0' :: _, _) => none
  | whole => whole

/-- The rest behind a fraction, if there is one; also whether there was. -/
def skipFraction? : Text → Option (Bool × Text)
  | '.' :: t => (readDigits? t).map fun p => (true, p.2)
  | t => some (false, t)

def skipSign : Text → Text
  | '+' :: t => t
  | '-' :: t => t
  | t => t

/-- The rest behind an exponent, if there is one; also whether there was. -/
def skipExponent? : Text → Option (Bool × Text)
  | 'e' :: t | 'E' :: t => (readDigits? (skipSign t)).map fun p => (true, p.2)
  | t => some (false, t)

/-- The number that a text starts with, and the rest. -/
def readNumber? (t : Text) : Option (Json × Text) := do
  let (negative, t) := match t with
    | '-' :: t => (true, t)
    | t => (false, t)
  let (digits, t) ← readWhole? t
  let (fraction, t) ← skipFraction? t
  let (exponent, t) ← skipExponent? t
  return (.number (if negative || fraction || exponent then none else some (naturalOf digits)), t)

/-! ## Values -/

mutual

/-- The value that a text starts with, and the rest. Every value takes a character, so the length
    of the text is fuel enough. -/
def readValue? : (fuel : Nat) → Text → Option (Json × Text)
  | 0, _ => none
  | fuel + 1, t => match skip t with
    | 'n' :: 'u' :: 'l' :: 'l' :: r => some (.null, r)
    | 't' :: 'r' :: 'u' :: 'e' :: r => some (.bool true, r)
    | 'f' :: 'a' :: 'l' :: 's' :: 'e' :: r => some (.bool false, r)
    | '"' :: r => (readString? r).map fun p => (.string p.1, p.2)
    | '[' :: r => match skip r with
      | ']' :: r => some (.array [], r)
      | r => (readItems? fuel r).map fun p => (.array p.1, p.2)
    | '\x7b' :: r => match skip r with
      | '\x7d' :: r => some (.object [], r)
      | r => (readMembers? fuel r).map fun p => (.object p.1, p.2)
    | r => readNumber? r

/-- One item and those behind it, up to the closing bracket. -/
def readItems? : (fuel : Nat) → Text → Option (List Json × Text)
  | 0, _ => none
  | fuel + 1, t => do
    let (v, r) ← readValue? fuel t
    match skip r with
    | ',' :: r =>
      let (vs, r) ← readItems? fuel r
      return (v :: vs, r)
    | ']' :: r => return ([v], r)
    | _ => none

/-- One member and those behind it, up to the closing brace. -/
def readMembers? : (fuel : Nat) → Text → Option (List (Option Text × Json) × Text)
  | 0, _ => none
  | fuel + 1, t => match skip t with
    | '"' :: r => do
      let (key, r) ← readString? r
      match skip r with
      | ':' :: r =>
        let (v, r) ← readValue? fuel r
        match skip r with
        | ',' :: r =>
          let (ms, r) ← readMembers? fuel r
          return ((key, v) :: ms, r)
        | '\x7d' :: r => return ([(key, v)], r)
        | _ => none
      | _ => none
    | _ => none

end

/-- The document that a text is. -/
def ofText? (t : Text) : Option Json :=
  match readValue? (t.length + 1) t with
  | some (v, r) => if (skip r).isEmpty then some v else none
  | none => none

end Json

end InstitutionalGrammar
