import AliasTaint.Yaml.Source

/-!
# Numbers in YAML

A whole number is written in base ten without leading zeros, or in base two, eight or sixteen after
`0b`, `0o` or `0x`.
-/

namespace AliasTaint.Yaml

/-- A decimal number has no leading zeros. -/
def decimal? (text : List Char) : Option Nat :=
  if text.length ≠ 1 && text.head? = some '0' then none else digits? 10 text

/-- A number without its sign, in base ten or in the base that its first two characters name. -/
def magnitude? : List Char → Option Nat
  | '0' :: 'x' :: digits => digits? 16 digits
  | '0' :: 'o' :: digits => digits? 8 digits
  | '0' :: 'b' :: digits => digits? 2 digits
  | text => decimal? text

/-- A number that may have a plus sign. -/
def number? (text : List Char) : Option UInt64 :=
  let unsigned := match text with
    | '+' :: rest => rest
    | _ => text
  (magnitude? unsigned).bind fun value =>
    if value < UInt64.size then some value.toUInt64 else none

end AliasTaint.Yaml
