import OpenWop.Js.JsonGrammar

/-!
# The text boundary of canonical JSON

`parseIJson` reads a JSON text by recursive descent and refuses what `JSON.parse` would
change silently. A position is the text that is left from there on. Fuel bounds the
recursion; a text never uses up what it is given.
-/

namespace OpenWop.Js

open Grammar

section Outcomes

/-- How a reader stops: with a refusal, or for want of fuel. -/
inductive ParseStop where
  | refused (refusal : JcsRefusal)
  | outOfFuel
  deriving DecidableEq, Repr

/-- The result of a reader. -/
abbrev Parse (α : Type) := Except ParseStop α

/-- `throw new JcsRefusal(kind, message)`. -/
def refuse {α : Type} (kind : JcsRefusalKind) (message : JsString) : Parse α :=
  .error (.refused (jcsRefusal kind message))

/-- `fail(m)` at an offset. -/
def failAt {α : Type} (offset : Nat) (m : JsString) : Parse α :=
  refuse .notJson (m ++ js " at offset " ++ decimal offset)

end Outcomes

section Tokens

/-- `ws`. -/
def skipWs (s : JsString) : JsString := s.dropWhile isWs

/-- The digits a text starts with, and what follows them. -/
def spanDigits (s : JsString) : JsString × JsString := s.span isDigit

/-- `0|[1-9][0-9]*`. -/
def matchInteger : JsString → Option (JsString × JsString)
  | [] => none
  | u :: s =>
    if u = unit '0' then some ([u], s)
    else if isDigit u then some (u :: (spanDigits s).1, (spanDigits s).2)
    else none

/-- `(\.[0-9]+)?`. -/
def matchFraction : JsString → Option JsString × JsString
  | [] => (none, [])
  | u :: s =>
    if u = unit '.' && (spanDigits s).1 ≠ [] then (some (spanDigits s).1, (spanDigits s).2)
    else (none, u :: s)

/-- `[+-]?`. -/
def matchSign : JsString → Option UInt16 × JsString
  | [] => (none, [])
  | u :: s => if u = unit '+' || u = unit '-' then (some u, s) else (none, u :: s)

/-- `([eE][+-]?[0-9]+)?`. -/
def matchExponent : JsString → Option ExponentPart × JsString
  | [] => (none, [])
  | u :: s =>
    let digits := spanDigits (matchSign s).2
    if (u = unit 'e' || u = unit 'E') && digits.1 ≠ [] then
      (some ⟨u, (matchSign s).1, digits.1⟩, digits.2)
    else (none, u :: s)

/-- `-?`. -/
def matchMinus : JsString → Bool × JsString
  | [] => (false, [])
  | u :: s => if u = unit '-' then (true, s) else (false, u :: s)

/-- `NUMBER.exec(text)`, with the groups of the match. -/
def matchNumber (s : JsString) : Option (NumberLiteral × JsString) :=
  (matchInteger (matchMinus s).2).map fun integer =>
    let fraction := matchFraction integer.2
    let exponent := matchExponent fraction.2
    (⟨(matchMinus s).1, integer.1, fraction.1, exponent.1⟩, exponent.2)

/-- The units of a string up to its closing quote. `n` is the length of the whole text. -/
def scanString (n : Nat) : JsString → Parse (JsString × JsString)
  | [] => failAt n (js "unterminated string")
  | c :: s =>
    if c = unit '"' then .ok ([], s)
    else if c = unit '\\' then
      match s with
      | [] => failAt (n + 1) (js "bad escape")
      | e :: s =>
        if e = unit 'u' then
          match s with
          | a :: b :: c :: d :: rest =>
            if [a, b, c, d].all isHexDigit then do
              let (out, r) ← scanString n rest
              return (hexUnit a b c d :: out, r)
            else failAt (n - s.length) (js "bad \\u escape")
          | _ => failAt (n - s.length) (js "bad \\u escape")
        else
          match shortEscape e with
          | some u => do
            let (out, r) ← scanString n s
            return (u :: out, r)
          | none => failAt (n - s.length) (js "bad escape")
    else if c < 32 then failAt (n - s.length) (js "raw control character in a string")
    else do
      let (out, r) ← scanString n s
      return (c :: out, r)

/-- `assertWellFormed(out, 'a string')`. -/
def checkString (out : JsString) : Parse Unit :=
  match assertWellFormed (js "a string") out with
  | .ok () => .ok ()
  | .error refusal => .error (.refused refusal)

/-- `str`. -/
def readString (n : Nat) (s : JsString) : Parse (JsString × JsString) :=
  match s with
  | [] => failAt n (js "expected a string")
  | q :: rest =>
    if q = unit '"' then do
      let (out, r) ← scanString n rest
      checkString out
      return (out, r)
    else failAt (n - s.length) (js "expected a string")

/-- `num`. -/
def readNumber (n : Nat) (s : JsString) : Parse (Json × JsString) :=
  match matchNumber s with
  | none => failAt (n - s.length) (js "bad number")
  | some (l, r) =>
    if l.isInteger && JsonTree.maxExact < digitsValue l.integer then
      refuse .integerOutOfRange (js "integer literal " ++ l.text ++ js " is outside ±(2^53 − 1)")
    else
      match l.value with
      | .finite d => .ok (.num (.finite d), r)
      | _ => refuse .nonFinite (l.text ++ js " overflows to a non-finite number")

end Tokens

section Values

mutual

/-- `val`. -/
def readValue (n : Nat) : Nat → JsString → Parse (Json × JsString)
  | 0, _ => .error .outOfFuel
  | fuel + 1, s =>
    match skipWs s with
    | [] => failAt n (js "unexpected token")
    | c :: rest =>
      if c = unit '\x7b' then
        if (skipWs rest).head? = some (unit '\x7d') then .ok (.obj [], (skipWs rest).tail)
        else do
          let (members, r) ← readMembers n fuel [] (skipWs rest)
          return (.obj members, r)
      else if c = unit '[' then
        if (skipWs rest).head? = some (unit ']') then .ok (.arr [], (skipWs rest).tail)
        else do
          let (items, r) ← readItems n fuel (skipWs rest)
          return (.arr items, r)
      else if c = unit '"' then do
        let (out, r) ← readString n (c :: rest)
        return (.str out, r)
      else if startsWith (c :: rest) (js "true") then .ok (.bool true, rest.drop 3)
      else if startsWith (c :: rest) (js "false") then .ok (.bool false, rest.drop 4)
      else if startsWith (c :: rest) (js "null") then .ok (.null, rest.drop 3)
      else if c = unit '-' || isDigit c then readNumber n (c :: rest)
      else failAt (n - (c :: rest).length) (js "unexpected token")

/-- The loop over the items of an array. -/
def readItems (n : Nat) : Nat → JsString → Parse (List Json × JsString)
  | 0, _ => .error .outOfFuel
  | fuel + 1, s => do
    let (v, r) ← readValue n fuel s
    match skipWs r with
    | [] => failAt (n + 1) (js "expected , or ]")
    | d :: rest =>
      if d = unit ']' then return ([v], rest)
      else if d = unit ',' then do
        let (vs, r) ← readItems n fuel rest
        return (v :: vs, r)
      else failAt (n - rest.length) (js "expected , or ]")

/-- The loop over the members of an object. `seen` are the names it has already. -/
def readMembers (n : Nat) : Nat → List JsString → JsString →
    Parse (List (JsString × Json) × JsString)
  | 0, _, _ => .error .outOfFuel
  | fuel + 1, seen, s => do
    let (k, r) ← readString n (skipWs s)
    if k ∈ seen then refuse .duplicateName (js "duplicate member name " ++ quote k)
    match skipWs r with
    | [] => failAt n (js "expected :")
    | c :: rest =>
      if c = unit ':' then do
        let (v, r) ← readValue n fuel rest
        match skipWs r with
        | [] => failAt (n + 1) (js "expected , or \x7d")
        | d :: rest =>
          if d = unit '\x7d' then return ([(k, v)], rest)
          else if d = unit ',' then do
            let (ms, r) ← readMembers n fuel (k :: seen) rest
            return ((k, v) :: ms, r)
          else failAt (n - rest.length) (js "expected , or \x7d")
      else failAt (n - (c :: rest).length) (js "expected :")

end

/-- `parseIJson`. -/
def parseIJson (text : JsString) : Parse Json := do
  let (v, r) ← readValue text.length (2 * text.length + 2) text
  match skipWs r with
  | [] => return v
  | rest => failAt (text.length - rest.length) (js "trailing data")

/-- `canonicalizeText`. -/
def canonicalizeText (text : JsString) : Parse JsString := do
  let v ← parseIJson text
  match Json.canonicalJSON v with
  | .ok t => return t
  | .error refusal => .error (.refused refusal)

end Values

end OpenWop.Js
