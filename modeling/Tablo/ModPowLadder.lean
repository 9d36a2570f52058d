import Tablo.ModPowMontgomery
import Tablo.SquareMultiply

/-! The two exponent scans of `modPow` are square-and-multiply. -/

namespace Tablo.Bigint

open SquareMultiply Nat

variable {β : Type} {Rep : Nat → β → Prop} {mul : β → β → β} {e : Nat} {acc base : β}

theorem powLoop_spec (hmul : Respects Rep mul e) (fuel i : Nat) (hfuel : e / 2 ^ i < 2 ^ fuel)
    (hacc : Rep (e % 2 ^ i) acc) (hbase : Rep (2 ^ i) base) :
    Rep e (powLoop mul fuel (e / 2 ^ i) acc base) := by
  induction fuel generalizing i acc base with
  | zero =>
    have hlt : e < 2 ^ i := by
      rwa [pow_zero, Nat.div_lt_iff_lt_mul (Nat.two_pow_pos i), Nat.one_mul] at hfuel
    rw [mod_eq_of_lt hlt] at hacc
    exact hacc
  | succ fuel ih =>
    have hhalf : e / 2 ^ i / 2 = e / 2 ^ (i + 1) := by rw [Nat.div_div_eq_div_mul, ← pow_succ]
    rw [powLoop]
    split
    next h0 =>
      have hlt : e < 2 ^ i := (div_eq_zero_iff_lt (Nat.two_pow_pos i)).mp h0
      rwa [mod_eq_of_lt hlt] at hacc
    next =>
      have hacc' := hmul.bit hacc hbase
      rw [hhalf]
      dsimp only
      split
      next h0 =>
        have hlt : e < 2 ^ (i + 1) := (div_eq_zero_iff_lt (Nat.two_pow_pos _)).mp h0
        rwa [mod_eq_of_lt hlt] at hacc'
      next hne =>
        have hle : 2 ^ (i + 1) ≤ e := by
          by_contra hlt
          exact hne (div_eq_of_lt (by omega))
        exact ih (i + 1) (by rw [← hhalf]; omega) hacc' (hmul.square hle hbase)

/-- The bits of one word, which stand at `i` in the exponent. A word that is
not the last ends on a square; the last ends on the top bit. -/
theorem powBits_spec (hmul : Respects Rep mul e) (last : Bool) (w : Nat) {bits i : Nat}
    (hw : e / 2 ^ i % 2 ^ bits = w % 2 ^ bits)
    (hle : if last then bits ≠ 0 → 2 ^ (i + bits - 1) ≤ e else 2 ^ (i + bits) ≤ e)
    (hacc : Rep (e % 2 ^ i) acc) (hbase : Rep (2 ^ i) base) :
    Rep (e % 2 ^ (i + bits)) (powBits mul last bits w acc base).1 ∧
      (last = false → Rep (2 ^ (i + bits)) (powBits mul last bits w acc base).2) := by
  induction bits generalizing i w acc base with
  | zero => exact ⟨hacc, fun _ => hbase⟩
  | succ bits ih =>
    have hbit : w % 2 = e / 2 ^ i % 2 := by
      have h2 : 2 ∣ 2 ^ (bits + 1) := ⟨2 ^ bits, pow_succ' 2 bits⟩
      rw [← mod_mod_of_dvd w h2, ← hw, mod_mod_of_dvd _ h2]
    have hrest : e / 2 ^ (i + 1) % 2 ^ bits = w / 2 % 2 ^ bits := by
      rw [pow_succ 2 i, ← Nat.div_div_eq_div_mul, ← mod_mul_right_div_self, ← pow_succ', hw,
        pow_succ', mod_mul_right_div_self]
    have hnext := hmul.bit hacc hbase
    rw [powBits, hbit, show i + (bits + 1) = i + 1 + bits by omega]
    by_cases hend : last = true ∧ bits = 0
    · obtain ⟨rfl, rfl⟩ := hend
      exact ⟨hnext, fun h => by cases h⟩
    · rw [if_neg hend]
      have hle' : 2 ^ (i + 1) ≤ e := by
        cases last with
        | false => exact (Nat.pow_le_pow_right (by omega) (by omega)).trans hle
        | true =>
          have hne : bits ≠ 0 := fun h => hend ⟨rfl, h⟩
          exact (Nat.pow_le_pow_right (by omega) (by omega)).trans (hle (by omega))
      refine ih (w / 2) hrest ?_ hnext (hmul.square hle' hbase)
      rw [show i + 1 + bits = i + (bits + 1) by omega]
      cases last with
      | false => exact hle
      | true => exact fun _ => hle (by omega)

theorem u32BitLength_spec {fuel x : Nat} (hx : x < 2 ^ fuel) :
    x < 2 ^ u32BitLength fuel x ∧ (x ≠ 0 → u32BitLength fuel x ≠ 0 ∧ 2 ^ (u32BitLength fuel x - 1) ≤ x) := by
  induction fuel generalizing x with
  | zero => exact ⟨hx, fun h => absurd (show x = 0 by simpa using hx) h⟩
  | succ fuel ih =>
    rw [u32BitLength]
    split
    next h0 => exact ⟨by omega, fun h => absurd h0 h⟩
    next hne =>
      obtain ⟨hlt, hge⟩ := ih (x := x / 2) (by omega)
      refine ⟨by rw [pow_succ]; omega, fun _ => ⟨by omega, ?_⟩⟩
      rw [Nat.add_sub_cancel]
      by_cases h1 : x / 2 = 0
      · have h10 : u32BitLength fuel (x / 2) = 0 := by
          rw [h1]
          cases fuel <;> rfl
        rw [h10]
        omega
      · obtain ⟨hpos, hle⟩ := hge h1
        obtain ⟨k, hk⟩ := exists_eq_succ_of_ne_zero hpos
        rw [hk, succ_sub_one] at hle
        rw [hk]
        omega

theorem powWords_spec (hmul : Respects Rep mul e) {words : List Nat} {i : Nat} (hwords : IsNormal words)
    (he : magnitude words = e / 2 ^ i) (hacc : Rep (e % 2 ^ i) acc)
    (hbase : words ≠ [] → Rep (2 ^ i) base) : Rep e (powWords mul words acc base) := by
  induction words generalizing i acc base with
  | nil =>
    have hlt : e < 2 ^ i := (div_eq_zero_iff_lt (Nat.two_pow_pos i)).mp he.symm
    rwa [mod_eq_of_lt hlt] at hacc
  | cons w words ih =>
    have hw : w < 2 ^ 32 := (isLimbs_cons.mp hwords.limbs).1
    have hmag : w + 2 ^ 32 * magnitude words = e / 2 ^ i := by rw [← he]; rfl
    rw [powWords]
    by_cases hend : words = []
    · subst hend
      rw [magnitude_nil, Nat.mul_zero, Nat.add_zero] at hmag
      obtain ⟨hlt, hge⟩ := u32BitLength_spec hw
      have hw0 : w ≠ 0 := fun h => hwords.last_ne (by simp [h])
      obtain ⟨hpos, htop⟩ := hge hw0
      have hle : 2 ^ (i + u32BitLength 32 w - 1) ≤ e := by
        rw [Nat.add_sub_assoc (by omega), pow_add, Nat.mul_comm, ← Nat.le_div_iff_mul_le (Nat.two_pow_pos i), ← hmag]
        exact htop
      have hlt' : e < 2 ^ (i + u32BitLength 32 w) := by
        rw [pow_add, Nat.mul_comm, ← Nat.div_lt_iff_lt_mul (Nat.two_pow_pos i), ← hmag]
        exact hlt
      have hbits := powBits_spec hmul true w (by rw [← hmag]) (fun _ => hle) hacc (hbase (by simp))
      rw [mod_eq_of_lt hlt'] at hbits
      exact hbits.1
    · have hrest : magnitude words = e / 2 ^ (i + 32) := by
        rw [pow_add, ← Nat.div_div_eq_div_mul]
        omega
      have htail : IsNormal words :=
        ⟨(isLimbs_cons.mp hwords.limbs).2, by
          have := hwords.last_ne
          rwa [List.getLast?_cons_of_ne_nil hend] at this⟩
      have hle : 2 ^ (i + 32) ≤ e := by
        by_contra hlt
        have := htail.pos hend
        rw [hrest, div_eq_of_lt (by omega)] at this
        omega
      have hbits := powBits_spec hmul false w (by rw [← hmag]; omega) hle hacc (hbase (by simp))
      rw [if_neg hend, decide_eq_false hend]
      exact ih htail hrest hbits.1 fun _ => hbits.2 rfl

end Tablo.Bigint
