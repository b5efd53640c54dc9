import OpenWop.Js.Json

/-!
# JSON text

`JSON.stringify` without indentation: control characters, quotes, backslashes and
lone surrogates are escaped, everything else is written as it is.
-/

namespace OpenWop.Js

/-- One lower-case hexadecimal digit. -/
def hexDigit (n : Nat) : UInt16 := UInt16.ofNat (if n < 10 then 48 + n else 87 + n)

/-- The escape `\uXXXX` of a code unit. -/
def unicodeEscape (u : UInt16) : JsString :=
  [unit '\\', unit 'u', hexDigit (u.toNat / 4096 % 16), hexDigit (u.toNat / 256 % 16),
    hexDigit (u.toNat / 16 % 16), hexDigit (u.toNat % 16)]

/-- How a code unit that is not half of a pair is written. -/
def escapeUnit (u : UInt16) : JsString :=
  if u = 34 then [unit '\\', unit '"']
  else if u = 92 then [unit '\\', unit '\\']
  else if u = 8 then [unit '\\', unit 'b']
  else if u = 9 then [unit '\\', unit 't']
  else if u = 10 then [unit '\\', unit 'n']
  else if u = 12 then [unit '\\', unit 'f']
  else if u = 13 then [unit '\\', unit 'r']
  else if u < 32 || isHighSurrogate u || isLowSurrogate u then unicodeEscape u
  else [u]

/-- The text between the quotes. -/
def quoteBody : JsString → JsString
  | [] => []
  | [u] => escapeUnit u
  | u :: v :: rest =>
    if isHighSurrogate u && isLowSurrogate v then u :: v :: quoteBody rest
    else escapeUnit u ++ quoteBody (v :: rest)

/-- `JSON.stringify` of a string. -/
def quote (s : JsString) : JsString := unit '"' :: (quoteBody s ++ [unit '"'])

namespace Json

mutual

/-- `JSON.stringify(v)`. -/
def stringify : Json → JsString
  | .null => js "null"
  | .bool true => js "true"
  | .bool false => js "false"
  | .num (.finite d) => d.text
  | .num _ => js "null"
  | .str s => quote s
  | .arr items => unit '[' :: (join [unit ','] (stringifyItems items) ++ [unit ']'])
  | .obj members => unit '\x7b' :: (join [unit ','] (stringifyMembers members) ++ [unit '\x7d'])

/-- The texts of the items. -/
def stringifyItems : List Json → List JsString
  | [] => []
  | v :: vs => stringify v :: stringifyItems vs

/-- The texts of the members. -/
def stringifyMembers : List (JsString × Json) → List JsString
  | [] => []
  | (k, v) :: ms => (quote k ++ unit ':' :: stringify v) :: stringifyMembers ms

end

end Json

example : quote (js "a\"\n") = js "\"a\\\"\\n\"" := by decide

end OpenWop.Js
