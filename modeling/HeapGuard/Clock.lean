/-! # The clock

Only the status of a pause is modelled: it passes, or its length is no valid time.
-/

namespace HeapGuard.Clock

def invalidTime : Int := -22

def pause (seconds nanoseconds : Int) : Int :=
  if 0 ≤ seconds ∧ 0 ≤ nanoseconds ∧ nanoseconds < 1000000000 then 0 else invalidTime

/-- Pause for so many milliseconds; division goes toward zero. -/
def sleep (milliseconds : Int32) : Int :=
  let ms := milliseconds.toInt
  pause (ms.tdiv 1000) (ms.tmod 1000 * 1000000)

end HeapGuard.Clock
