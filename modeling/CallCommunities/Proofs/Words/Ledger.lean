import CallCommunities.Proofs.Graph.Weights
import Mathlib.Logic.Function.Basic

/-!
# Proofs/Words/Ledger — adding up in words

Sums over a graph can be kept in cells of 64 bits.  A **ledger** lists what is added to which cell, and
`post` makes these additions one after the other, wrapping around.  A cell holds what it is owed modulo
`2 ^ 64` (`foldl_credit`), so **a ledger whose amounts stay below `2 ^ 64` together is posted exactly**,
in the end and after every addition on the way (`posts_of_lt`).
-/

namespace CallCommunities

variable {κ α : Type} [DecidableEq κ] {ledger : List (κ × ℕ)} {f : κ → ℕ} {k : κ}

/-- What a ledger owes a cell. -/
def owed (k : κ) (ledger : List (κ × ℕ)) : ℕ := sumOver (fun e => if e.1 = k then e.2 else 0) ledger

/-- One addition to one cell. -/
def credit (cells : κ → UInt64) (entry : κ × ℕ) : κ → UInt64 :=
  Function.update cells entry.1 (cells entry.1 + .ofNat entry.2)

/-- The cells after all additions, from zero. -/
def post (ledger : List (κ × ℕ)) : κ → UInt64 := ledger.foldl credit fun _ => 0

/-- The cells of the ledger come to hold `f`, and none wraps around on the way. -/
structure Posts (ledger : List (κ × ℕ)) (f : κ → ℕ) : Prop where
  exact : ∀ n k, (post (ledger.take n) k).toNat = owed k (ledger.take n)
  eq : ∀ k, (post ledger k).toNat = f k

/-! ## What is owed -/

theorem owed_append (k : κ) (l r : List (κ × ℕ)) : owed k (l ++ r) = owed k l + owed k r :=
  sumOver_append _ l r

theorem owed_map (k : κ) (p : α → κ × ℕ) (l : List α) :
    owed k (l.map p) = sumOver (fun x => if (p x).1 = k then (p x).2 else 0) l :=
  sumOver_map _ p l

theorem owed_flatMap (k : κ) (p : α → List (κ × ℕ)) (l : List α) :
    owed k (l.flatMap p) = sumOver (fun x => owed k (p x)) l := by
  induction l with
  | nil => rfl
  | cons x rest ih => rw [List.flatMap_cons, owed_append, ih, sumOver_cons]

theorem owed_le (k : κ) (ledger : List (κ × ℕ)) : owed k ledger ≤ sumOver (·.2) ledger := by
  induction ledger with
  | nil => exact le_rfl
  | cons e rest ih =>
    refine Nat.add_le_add ?_ ih
    show (if e.1 = k then e.2 else 0) ≤ e.2
    split <;> omega

theorem owed_take_le (n : ℕ) (k : κ) (ledger : List (κ × ℕ)) :
    owed k (ledger.take n) ≤ owed k ledger := by
  conv_rhs => rw [← List.take_append_drop n ledger, owed_append]
  exact Nat.le_add_right _ _

/-! ## What is posted -/

/-- **A cell holds what it is owed, modulo `2 ^ 64`.** -/
theorem foldl_credit (k : κ) : ∀ (ledger : List (κ × ℕ)) (cells : κ → UInt64),
    ledger.foldl credit cells k = cells k + .ofNat (owed k ledger)
  | [], cells => (UInt64.add_zero (cells k)).symm
  | e :: rest, cells => by
    rw [List.foldl_cons, foldl_credit k rest]
    by_cases he : e.1 = k
    · subst he
      simp [credit, owed, UInt64.ofNat_add, UInt64.add_assoc]
    · simp [credit, owed, he, Function.update_of_ne (Ne.symm he)]

theorem post_eq (ledger : List (κ × ℕ)) (k : κ) : post ledger k = .ofNat (owed k ledger) := by
  rw [post, foldl_credit, UInt64.zero_add]

theorem toNat_post (h : owed k ledger < UInt64.size) : (post ledger k).toNat = owed k ledger := by
  rw [post_eq, UInt64.toNat_ofNat_of_lt' h]

/-- **Amounts that stay below `2 ^ 64` together are added up exactly.** -/
theorem posts_of_lt (hsum : sumOver (·.2) ledger < UInt64.size) (h : ∀ k, owed k ledger = f k) :
    Posts ledger f where
  exact n k :=
    toNat_post (((owed_take_le n k ledger).trans (owed_le k ledger)).trans_lt hsum)
  eq k := (toNat_post ((owed_le k ledger).trans_lt hsum)).trans (h k)

end CallCommunities
