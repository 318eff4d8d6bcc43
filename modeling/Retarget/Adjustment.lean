import Retarget.Adjustment.Series
import Retarget.Consensus

/-!
# Adjusting a target to the spacing of blocks

The next target of a kind follows from the last one and from the seconds between
the last two blocks of that kind. Slow blocks make the target larger and the next
block easier, fast blocks make it smaller. The measured spacing is first brought
into a range of a few expected spacings. Until QIP9 the target then follows a
fraction that is linear in the spacing, from QIP9 on an exponential.
-/

namespace Retarget

def signed (n : UInt32) : Int64 := Int64.ofNat n.toNat

theorem toInt_signed (n : UInt32) : (signed n).toInt = n.toNat :=
  Int64.toInt_ofNat_of_lt (Nat.lt_of_lt_of_le n.toNat_lt (by decide))

namespace Adjustment

/-- The greatest measured spacing of the linear rule, in expected spacings. -/
def linearMultiplier : Int64 := 10

/-- The greatest measured spacing of the exponential rule, in expected spacings. -/
def exponentialMultiplier : Int64 := 20

/-- The measured spacing brought into range. A block that claims to be older than
the one before it counts as punctual. -/
def constrain (actual spacing multiplier : Int64) : Int64 :=
  if actual < 0 then spacing
  else if spacing * multiplier < actual then spacing * multiplier
  else actual

def numerator (actual spacing interval : Int64) : Int64 :=
  (interval - 1) * spacing + 2 * actual

/-- The denominator of the linear rule, which is the numerator of a punctual block. -/
def denominator (spacing interval : Int64) : Int64 := (interval + 1) * spacing

/-- The linear rule. Multiplying before dividing keeps all of the precision. -/
def linear (target : Target) (actual spacing interval : Int64) : WideTarget :=
  if numerator actual spacing interval ≤ 0 ∨ denominator spacing interval ≤ 0 then 0
  else
    target.widen * WideTarget.ofAbs (numerator actual spacing interval) /
      WideTarget.ofAbs (denominator spacing interval)

/-- Seconds between two times at which a block can be staked. -/
def granularity (mask : Int64) : Int64 := mask + 1

/-- Twice the deviation from the expected spacing, in units of the granularity. -/
def deviation (actual spacing mask : Int64) : Int64 :=
  2 * (actual - spacing) / granularity mask

/-- The averaging window, in units of the granularity. -/
def window (spacing interval mask : Int64) : Int64 :=
  (interval + 1) * spacing / granularity mask

def exponential (target : Target) (actual spacing interval mask : Int64) :
    Except WorkError WideTarget :=
  if granularity mask = 0 then .error .divisionByZero
  else mulExp target (deviation actual spacing mask) (window spacing interval mask)

def exponentialLog (target : Target) (actual spacing interval mask : Int64) : List Log.Record :=
  if granularity mask = 0 then []
  else mulExpLog target (deviation actual spacing mask) (window spacing interval mask)

end Adjustment

end Retarget
