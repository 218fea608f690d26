import ShareCovenant.Bytes.Hex

/-!
# JSON values

The values that the commands report, written in two ways: `compact` without any space, and `pretty` with
one member a line and two spaces a level. The members of an object keep their order.
-/

namespace ShareCovenant

inductive Json where
  | bool (b : Bool)
  | num (n : Nat)
  | str (s : String)
  | arr (items : List Json)
  | obj (members : List (String × Json))

namespace Json

/-- The characters that write one character inside a string. -/
def escapeChar (c : Char) : List Char :=
  let n := c.toNat
  if n = 34 then ['\\', '"']
  else if n = 92 then ['\\', '\\']
  else if n = 8 then ['\\', 'b']
  else if n = 9 then ['\\', 't']
  else if n = 10 then ['\\', 'n']
  else if n = 12 then ['\\', 'f']
  else if n = 13 then ['\\', 'r']
  else if n < 32 then '\\' :: 'u' :: '0' :: '0' :: Hex.encodeByte (UInt8.ofNat n)
  else [c]

def quote (s : String) : String := "\"" ++ String.ofList (s.toList.flatMap escapeChar) ++ "\""

mutual
/-- The value without any space. -/
def compact : Json → String
  | .bool b => if b then "true" else "false"
  | .num n => toString n
  | .str s => quote s
  | .arr items => "[" ++ ",".intercalate (compactItems items) ++ "]"
  | .obj members => "\x7b" ++ ",".intercalate (compactMembers members) ++ "\x7d"

def compactItems : List Json → List String
  | [] => []
  | v :: vs => compact v :: compactItems vs

def compactMembers : List (String × Json) → List String
  | [] => []
  | (k, v) :: ms => (quote k ++ ":" ++ compact v) :: compactMembers ms
end

/-- A line break and the spaces of a level. -/
def newline (level : Nat) : String := String.ofList ('\n' :: List.replicate (2 * level) ' ')

/-- Items one a line between two brackets, which stand together when there are none. -/
def bracket (level : Nat) (left right : String) : List String → String
  | [] => left ++ right
  | items =>
      left ++ newline (level + 1) ++ ("," ++ newline (level + 1)).intercalate items ++
        newline level ++ right

mutual
/-- The value with one item or member a line, at a level of indentation. -/
def prettyAt (level : Nat) : Json → String
  | .arr items => bracket level "[" "]" (prettyItems level items)
  | .obj members => bracket level "\x7b" "\x7d" (prettyMembers level members)
  | .bool b => if b then "true" else "false"
  | .num n => toString n
  | .str s => quote s

def prettyItems (level : Nat) : List Json → List String
  | [] => []
  | v :: vs => prettyAt (level + 1) v :: prettyItems level vs

def prettyMembers (level : Nat) : List (String × Json) → List String
  | [] => []
  | (k, v) :: ms => (quote k ++ ": " ++ prettyAt (level + 1) v) :: prettyMembers level ms
end

/-- The value with one item or member a line. -/
def pretty (v : Json) : String := prettyAt 0 v

end Json

end ShareCovenant
