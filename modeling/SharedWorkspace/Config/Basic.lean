/-!
The weights that a dispatch reports its progress with, and how often a wait for a scope looks up.
-/

namespace SharedWorkspace

structure DispatchConfig where
  providerBudget : UInt64 := 1000
  batchUnits : UInt64 := 100
  nontraversedUnits : UInt64 := 10
  lockPollIntervalMs : UInt64 := 50
  deriving DecidableEq

end SharedWorkspace
