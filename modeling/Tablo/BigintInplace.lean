import Tablo.BigintDivision
import Tablo.Globals

/-! Multiplying a limb array by a word in place. -/

namespace Tablo.Globals

open Bigint

theorem bigintMulAddSmallInplace_spec {limbs : List Nat} (h : IsNormal limbs) {m add : Nat} (hm : m < limbBase)
    (hadd : add < limbBase) : magnitude (bigintMulAddSmallInplace limbs m add) = magnitude limbs * m + add ∧
      IsNormal (bigintMulAddSmallInplace limbs m add) := by
  unfold bigintMulAddSmallInplace
  split_ifs with hnil h0
  · subst hnil
    rw [h0, magnitude_nil, Nat.zero_mul]
    exact ⟨rfl, h⟩
  · subst hnil
    rw [magnitude_nil, Nat.zero_mul, Nat.zero_add]
    exact ⟨rfl, by simpa [IsLimbs] using hadd, by simpa using h0⟩
  · obtain ⟨heq, hl, hn, hlt⟩ := mulSmallLoop_spec hm h.limbs hadd
    dsimp only
    split_ifs with hc
    · refine ⟨?_, .trimmed (isLimbs_append.mpr ⟨hl, by simpa [IsLimbs] using Nat.mod_lt _ (by decide)⟩)⟩
      rw [magnitude_trimmed, magnitude_append, magnitude_singleton, Nat.mod_eq_of_lt hlt, hn, heq]
    · have hc0 : (mulSmallLoop m limbs add).2 = 0 := by simpa using hc
      rw [hc0, Nat.mul_zero, Nat.add_zero] at heq
      exact ⟨by rw [magnitude_trimmed, heq], .trimmed hl⟩

theorem objBigintMulSmallInplace_spec {x : ObjBigInt} (hx : x.Normal) {m : Nat} (hm : m < limbBase) :
    (objBigintMulSmallInplace x m).Normal ∧ (objBigintMulSmallInplace x m).value = x.value * m := by
  unfold objBigintMulSmallInplace
  split_ifs with h0 hm0 hm1
  · have hzero : x.value = 0 := by
      rcases h0 with h0 | h0 <;> simp [ObjBigInt.value, h0]
    exact ⟨hx, by rw [hzero, Int.zero_mul]⟩
  · exact ⟨⟨isLimbs_nil, by simp, .inl ⟨rfl, rfl⟩⟩, by simp [hm0, ObjBigInt.value]⟩
  · exact ⟨hx, by rw [hm1, Int.natCast_one, Int.mul_one]⟩
  · obtain ⟨hmag, hnormal⟩ := bigintMulAddSmallInplace_spec ⟨hx.limbs_lt, hx.last_ne⟩ hm (show 0 < limbBase by decide)
    have hpos : 0 < magnitude x.limbs := IsNormal.pos ⟨hx.limbs_lt, hx.last_ne⟩ fun h => h0 (.inr h)
    have hprod : 0 < magnitude (bigintMulAddSmallInplace x.limbs m 0) := by
      rw [hmag]
      exact Nat.mul_pos hpos (by omega)
    have hne : bigintMulAddSmallInplace x.limbs m 0 ≠ [] := by
      intro h
      rw [h] at hprod
      exact absurd hprod (lt_irrefl 0)
    simp only [hne, if_false]
    refine ⟨⟨hnormal.limbs, hnormal.last_ne, .inr ⟨?_, hne⟩⟩, ?_⟩
    · rcases hx.sign_eq with hs | hs
      · exact absurd (.inl hs.1) h0
      · exact hs.1
    · rw [ObjBigInt.value, ObjBigInt.value, hmag, Nat.add_zero, Nat.cast_mul, Int.mul_assoc]

end Tablo.Globals
