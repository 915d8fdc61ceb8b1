import TeamsInC.HbTree.Balance

/-!
# How far the loops walk

A balanced tree is low, so the loops that walk down from the root make few rounds: a number of
rounds below which no balanced tree with so many pairs can be that high.
-/

set_option autoImplicit false

namespace TeamsInC
open BinaryTree LinkedTree

namespace HbTree

namespace BalancedTree
variable {T : HbTree} {m : Nat}

theorem height_le (H : T.BalancedTree) (hm : T.pairs.length + 1 < Nat.fib (m + 3)) : T.shape.height ≤ m := by
  refine H.balanced.height_le ?_
  rwa [pairs, Shape.pairs, List.length_map] at hm

variable (key : CString)

end BalancedTree
end HbTree
end TeamsInC
