import Retarget.Consensus
import Retarget.Compact.Text

/-!
# Consensus parameters as text

One line for each parameter that is in force at a height. There is no report for
a height whose block spacing is zero, since its interval is undefined.
-/

namespace Retarget.Consensus

def describe? (c : Consensus) (height : UInt32) : Option (List String) :=
  (c.interval? height).map fun interval =>
    [ "network:                  " ++ c.network.name,
      "magic:                    " ++ Numeral.hexWord c.network.magic,
      "default port:             " ++ toString c.network.defaultPort,
      "height:                   " ++ toString height,
      "epoch:                    " ++ (c.epoch height).name,
      "retargeting:              " ++ (if c.isQip9 height then "exponential" else "linear"),
      "target spacing:           " ++ toString (c.spacing height),
      "timespan:                 " ++ toString (c.timespan height),
      "interval:                 " ++ toString interval,
      "stake timestamp mask:     " ++ toString (c.stakeMask height),
      "PoW max target:           " ++ (Compact.ofTarget (c.maxTarget height .work)).toText,
      "PoS max target:           " ++ (Compact.ofTarget (c.maxTarget height .stake)).toText,
      "PoW retargeting:          " ++ toString (!c.noRetargeting .work),
      "PoS retargeting:          " ++ toString (!c.noRetargeting .stake),
      "spendable coinbase depth: " ++ toString (c.spendableDepth height),
      "subsidy decrease blocks:  " ++ toString c.subsidyDecreaseInterval,
      "reward halving point:     " ++ toString (c.isRewardHalvingPoint height) ]

end Retarget.Consensus
