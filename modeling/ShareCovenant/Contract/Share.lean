import ShareCovenant.Contract.Terms

/-!
# Shares and units

What is left of an amount after the fee is divided into a thousand units, and a party is paid its share of
units. A payment must reach the dust threshold, so each share has a least unit from which on it is paid;
the largest share is the first to be paid.
-/

namespace ShareCovenant.Share

/-- The smallest amount that the network passes on. -/
def dustThreshold : UInt64 := 546

/-- The quotient of two amounts, rounded down. -/
def quotient (numerator divisor : UInt64) : Except ContractError UInt64 :=
  if divisor = 0 then .error (.divisionByZero numerator) else .ok (numerator / divisor)

/-- The least unit with which a share reaches the dust threshold: the quotient of the two, rounded up. -/
def minUnit (share : UInt32) : Except ContractError UInt64 := do
  let unit ← quotient dustThreshold share.toUInt64
  return if dustThreshold % share.toUInt64 = 0 then unit else unit + 1

/-- The largest share of the parties. -/
def largest (parties : List Party) : UInt32 := parties.foldl (fun m p => max m p.share) 0

/-- The least unit with which some party is paid. -/
def minUnitForAll (parties : List Party) : Except ContractError UInt64 := minUnit (largest parties)

end ShareCovenant.Share
