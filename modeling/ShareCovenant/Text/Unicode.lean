import ShareCovenant.Bytes

/-!
# Characters and their bytes

The UTF-8 bytes of a text, the characters that the single bytes stand for, trimming of white space and
cutting at a separator.
-/

namespace ShareCovenant.Text

/-- The UTF-8 bytes of a text. -/
def utf8 (s : String) : Bytes := s.toUTF8.data.toList

/-- One character for every byte of the text, with the byte's value as its code point. -/
def byteChars (s : String) : List Char := (utf8 s).map fun b => Char.ofNat b.toNat

/-- The characters with the Unicode property `White_Space`. -/
def isBlank (c : Char) : Bool :=
  let n := c.toNat
  (0x09 ≤ n && n ≤ 0x0d) || n == 0x20 || n == 0x85 || n == 0xa0 || n == 0x1680 ||
    (0x2000 ≤ n && n ≤ 0x200a) || n == 0x2028 || n == 0x2029 || n == 0x202f || n == 0x205f ||
    n == 0x3000

/-- The text without the blanks at both ends. -/
def trim (s : String) : String :=
  String.ofList ((s.toList.dropWhile isBlank).reverse.dropWhile isBlank).reverse

/-- The parts before and after the first `sep`, if there is one. -/
def cutFirst? (sep : Char) : List Char → Option (List Char × List Char)
  | [] => none
  | c :: cs =>
      if c = sep then some ([], cs)
      else (cutFirst? sep cs).map fun (before, after) => (c :: before, after)

/-- The parts before and after the last `sep`, if there is one. -/
def cutLast? (sep : Char) (cs : List Char) : Option (List Char × List Char) :=
  (cutFirst? sep cs.reverse).map fun (after, before) => (before.reverse, after.reverse)

/-- A character between quotes: quotes, backslashes and the usual controls are escaped by a letter,
other characters below U+0100 that do not print by their code point. -/
def quoteChar (c : Char) : String :=
  let n := c.toNat
  let body :=
    if n = 0 then "\\0"
    else if n = 9 then "\\t"
    else if n = 10 then "\\n"
    else if n = 13 then "\\r"
    else if n = 39 then "\\'"
    else if n = 92 then "\\\\"
    else if n < 32 ∨ (127 ≤ n ∧ n ≤ 0xa0) ∨ n = 0xad then
      "\\u\x7b" ++ String.ofList (Nat.toDigits 16 n) ++ "\x7d"
    else String.singleton c
  "'" ++ body ++ "'"

end ShareCovenant.Text
