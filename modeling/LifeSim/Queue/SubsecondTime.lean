import Mathlib.Data.List.Basic

/-!
# Times in femtoseconds

`subsecond_time.h`: a time is an unsigned number of 64 bits, and its arithmetic wraps around.
-/

namespace LifeSim.Queue

/-- `SubsecondTime`. -/
abbrev SubsecondTime := BitVec 64

namespace SubsecondTime

/-- `MaxTime`. -/
def maxTime : SubsecondTime := BitVec.allOnes 64

/-- `getPS`. -/
def getPS (t : SubsecondTime) : BitVec 64 := t / 1000

/-- `std::max`. -/
def latest (a b : SubsecondTime) : SubsecondTime := if a < b then b else a

end SubsecondTime

end LifeSim.Queue
