/-!
# SumOver — adding up over a list

Weights and degrees are sums over lists of arcs, neighbours or members.
-/

namespace CallCommunities

/-- The numbers that `f` gives the entries of a list, added up. -/
def sumOver {α : Type} (f : α → Nat) : List α → Nat
  | [] => 0
  | x :: rest => f x + sumOver f rest

variable {α : Type}

@[simp] theorem sumOver_nil (f : α → Nat) : sumOver f [] = 0 := rfl

@[simp] theorem sumOver_cons (f : α → Nat) (x : α) (rest : List α) :
    sumOver f (x :: rest) = f x + sumOver f rest := rfl

@[simp] theorem sumOver_append (f : α → Nat) (l r : List α) :
    sumOver f (l ++ r) = sumOver f l + sumOver f r := by
  induction l with
  | nil => simp
  | cons x rest ih => simp [ih, Nat.add_assoc]

end CallCommunities
