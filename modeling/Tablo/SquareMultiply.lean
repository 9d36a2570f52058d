import Mathlib.Data.Nat.ModEq

/-! Right-to-left square and multiply. `Rep k x` reads "`x` stands for the
`k`-th power of the base"; the products that an exponent makes the algorithm
form are the only ones that have to be right. -/

namespace SquareMultiply

variable {β : Type} {Rep : Nat → β → Prop} {mul : β → β → β} {e i : Nat} {acc base : β}

/-- The products of a `j`-th and a `k`-th power on the way to the `e`-th. -/
inductive Formed (e : Nat) : Nat → Nat → Prop where
  | square {i : Nat} (h : 2 ^ (i + 1) ≤ e) : Formed e (2 ^ i) (2 ^ i)
  | multiply {i : Nat} (h : e / 2 ^ i % 2 = 1) : Formed e (e % 2 ^ i) (2 ^ i)

def Respects (Rep : Nat → β → Prop) (mul : β → β → β) (e : Nat) : Prop :=
  ∀ j k x y, Formed e j k → Rep j x → Rep k y → Rep (j + k) (mul x y)

theorem Respects.bit (hmul : Respects Rep mul e) (hacc : Rep (e % 2 ^ i) acc) (hbase : Rep (2 ^ i) base) :
    Rep (e % 2 ^ (i + 1)) (if e / 2 ^ i % 2 = 1 then mul acc base else acc) := by
  rw [Nat.mod_pow_succ]
  split
  next h =>
    rw [h, Nat.mul_one]
    exact hmul _ _ _ _ (.multiply h) hacc hbase
  next h =>
    rw [show e / 2 ^ i % 2 = 0 by omega, Nat.mul_zero]
    exact hacc

theorem Respects.square (hmul : Respects Rep mul e) (hle : 2 ^ (i + 1) ≤ e) (hbase : Rep (2 ^ i) base) :
    Rep (2 ^ (i + 1)) (mul base base) := by
  rw [pow_succ, Nat.mul_two]
  exact hmul _ _ _ _ (.square hle) hbase hbase

end SquareMultiply
