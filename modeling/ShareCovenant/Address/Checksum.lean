import ShareCovenant.Address.Symbol
import ShareCovenant.Text.Unicode

/-!
# The checksum of addresses

Symbols are taken into a register of forty bits: the register moves up by one symbol, the new symbol
enters at the bottom, and the symbol that leaves at the top selects which generators are added. The last
eight symbols of an address make the register end at one.
-/

namespace ShareCovenant.Checksum

/-- The register. -/
abbrev Register := BitVec 40

/-- The generators, for the bits of the leaving symbol from the lowest on. -/
def generators : List Register :=
  [0x98f2bc8e61, 0x79b76d99e2, 0xf33e5fb3c4, 0xae2eabe2a8, 0x1e4f43e470]

/-- The sum of the generators that the bits of a symbol select. -/
def feedback (top : Symbol) : Register :=
  (generators.zipIdx).foldl (fun acc (g, i) => if top.getLsbD i then acc ^^^ g else acc) 0

/-- Takes in one symbol. -/
def step (c : Register) (s : Symbol) : Register :=
  ((c <<< 5) ^^^ s.setWidth 40) ^^^ feedback ((c >>> 35).setWidth 5)

/-- The register after the symbols. -/
def run (c : Register) (symbols : List Symbol) : Register := symbols.foldl step c

/-- What the symbols leave in a register that starts at one, up to the one it should end with. -/
def residue (symbols : List Symbol) : Register := run 1 symbols ^^^ 1

/-- The symbols of the part before the colon: the low bits of its bytes, and a zero. -/
def hrpSymbols (hrp : String) : List Symbol :=
  (Text.utf8 hrp).map (fun b => b.toBitVec.setWidth 5) ++ [0]

/-- Whether the payload ends with its checksum. -/
def isValid (hrp : String) (payload : List Symbol) : Bool := residue (hrpSymbols hrp ++ payload) == 0

/-- The eight symbols of a register, the highest first. -/
def symbols (c : Register) : List Symbol :=
  [35, 30, 25, 20, 15, 10, 5, 0].map fun shift => (c >>> shift).setWidth 5

/-- The checksum of a payload. -/
def make (hrp : String) (payload : List Symbol) : List Symbol :=
  symbols (residue (hrpSymbols hrp ++ payload ++ List.replicate 8 0))

end ShareCovenant.Checksum
