import Tablo.ModPowLimbs
import Tablo.Montgomery

/-! Montgomery multiplication on arrays of the width of the modulus. -/

namespace Tablo.Bigint

open List Nat

theorem n0invStep_eq (n0 inv : Nat) : ∃ c : Int, (n0invStep n0 inv : Int) = inv * (2 - n0 * inv) + limbBase * c := by
  unfold n0invStep u32
  have hw := mod_add_div (n0 * inv) limbBase
  have hlt := mod_lt (n0 * inv) (show 0 < limbBase by decide)
  generalize n0 * inv % limbBase = w at *
  have hs := mod_add_div (2 + limbBase - w) limbBase
  generalize (2 + limbBase - w) % limbBase = s at *
  have hr := mod_add_div (inv * s) limbBase
  generalize inv * s % limbBase = r at *
  have hs' : (s : Int) + limbBase * ((2 + limbBase - w) / limbBase : Nat) = 2 + limbBase - w := by omega
  have hw' : (w : Int) + limbBase * (n0 * inv / limbBase : Nat) = n0 * inv := by exact_mod_cast hw
  have hr' : (r : Int) + limbBase * (inv * s / limbBase : Nat) = inv * s := by exact_mod_cast hr
  refine ⟨inv * (1 + (n0 * inv / limbBase : Nat) - ((2 + limbBase - w) / limbBase : Nat)) -
    (inv * s / limbBase : Nat), ?_⟩
  linear_combination hr' + inv * hs' - inv * hw'

theorem n0invStep_spec {n0 inv j : Nat} (h : (2 ^ j : Int) ∣ n0 * inv - 1) (hj : 2 * j ≤ 32) :
    (2 ^ (2 * j) : Int) ∣ n0 * n0invStep n0 inv - 1 := by
  obtain ⟨c, hc⟩ := n0invStep_eq n0 inv
  have hsq : (2 ^ (2 * j) : Int) ∣ n0 * inv * (2 - n0 * inv) - 1 := by
    rw [Nat.two_mul, pow_add]
    exact Montgomery.newton h
  have hB : (2 ^ (2 * j) : Int) ∣ limbBase := by
    exact pow_dvd_pow 2 hj
  rw [hc, show (n0 : Int) * (inv * (2 - n0 * inv) + limbBase * c) - 1 =
    (n0 * inv * (2 - n0 * inv) - 1) + limbBase * (n0 * c) by ring]
  exact Int.dvd_add hsq (Dvd.dvd.mul_right hB _)

theorem montgomeryN0inv_spec {n0 : Nat} (hodd : n0 % 2 = 1) : (n0 * montgomeryN0inv n0 + 1) % limbBase = 0 := by
  have h1 : (2 ^ 1 : Int) ∣ n0 * (1 : Nat) - 1 := by omega
  have h2 := n0invStep_spec h1 (by decide)
  have h4 := n0invStep_spec h2 (by decide)
  have h8 := n0invStep_spec h4 (by decide)
  have h16 := n0invStep_spec h8 (by decide)
  have h32 := n0invStep_spec h16 (by decide)
  have hdef : montgomeryN0inv n0 = u32 (limbBase - (n0invStep n0)^[5] 1) := rfl
  have hlt : (n0invStep n0)^[5] 1 < limbBase := mod_lt _ (by decide)
  rw [hdef]
  change (2 ^ 32 : Int) ∣ n0 * ((n0invStep n0)^[5] 1 : Nat) - 1 at h32
  generalize (n0invStep n0)^[5] 1 = inv at *
  have hm : n0 * u32 (limbBase - inv) + 1 ≡ n0 * (limbBase - inv) + 1 [MOD limbBase] :=
    ((mod_modEq (limbBase - inv) limbBase).mul_left n0).add_right 1
  refine ModEq.trans hm (modEq_zero_iff_dvd.mpr (Int.natCast_dvd_natCast.mp ?_))
  have hneg : ((n0 * (limbBase - inv) + 1 : Nat) : Int) = n0 * limbBase - (n0 * inv - 1) := by
    rw [cast_add, cast_mul, cast_sub (le_of_lt hlt)]
    ring
  rw [hneg]
  exact Int.dvd_sub (Dvd.intro_left _ rfl) h32

section Product

variable {ctx : MontgomeryCtx}

structure MontgomeryCtx.Ok (ctx : MontgomeryCtx) : Prop where
  limbs : IsLimbs ctx.mod
  pos : 0 < magnitude ctx.mod
  inv : (magnitude ctx.mod * ctx.n0inv + 1) % limbBase = 0

theorem montReduce_spec (hctx : ctx.Ok) (rounds i : Nat) {scratch : List Nat} (hs : IsLimbs scratch)
    (hlen : i + rounds + ctx.mod.length ≤ scratch.length) (hdvd : limbBase ^ i ∣ magnitude scratch)
    (hroom : magnitude scratch + limbBase ^ i * ((limbBase ^ rounds - 1) * magnitude ctx.mod) <
      limbBase ^ scratch.length) : ∃ M < limbBase ^ rounds, magnitude (montReduce ctx rounds i scratch) =
        magnitude scratch + limbBase ^ i * (M * magnitude ctx.mod) ∧
      limbBase ^ (i + rounds) ∣ magnitude (montReduce ctx rounds i scratch) ∧
      IsLimbs (montReduce ctx rounds i scratch) ∧
      (montReduce ctx rounds i scratch).length = scratch.length := by
  induction rounds generalizing i scratch with
  | zero => exact ⟨0, by simp, by simp [montReduce], by simpa [montReduce] using hdvd, hs, rfl⟩
  | succ rounds ih =>
    obtain ⟨m, hm⟩ : ∃ m, u32 (scratch.getD i 0 * ctx.n0inv) = m := ⟨_, rfl⟩
    have hmlt : m < limbBase := hm ▸ mod_lt _ (by decide)
    have hclear := Montgomery.clear_next (show 0 < limbBase by decide) hctx.inv hdvd
    rw [magnitude_div_pow hs, show scratch.getD i 0 * ctx.n0inv % limbBase = m from hm] at hclear
    -- the rounds together add at most `limbBase ^ rounds - 1` multiples of the modulus
    have hpos : 0 < limbBase ^ rounds := Nat.pow_pos (by decide)
    have hbound : ∀ M, M < limbBase ^ rounds → m + limbBase * M ≤ limbBase ^ (rounds + 1) - 1 := by
      intro M hM
      have := Nat.mul_le_mul_left limbBase (show M + 1 ≤ limbBase ^ rounds from hM)
      rw [mul_add] at this
      rw [Nat.pow_succ']
      omega
    have hroom' : ∀ M, M < limbBase ^ rounds → magnitude scratch + limbBase ^ i *
        ((m + limbBase * M) * magnitude ctx.mod) < limbBase ^ scratch.length := by
      intro M hM
      have := Nat.mul_le_mul_left (limbBase ^ i) (Nat.mul_le_mul_right (magnitude ctx.mod) (hbound M hM))
      omega
    obtain ⟨hmag, hl, hn⟩ := mulAddRow_spec (i := i) hs hctx.limbs hmlt (by omega) (by simpa using hroom' 0 hpos)
    have hsplit : ∀ M, limbBase ^ i * ((m + limbBase * M) * magnitude ctx.mod) =
        limbBase ^ i * (m * magnitude ctx.mod) + limbBase ^ (i + 1) * (M * magnitude ctx.mod) := by
      intro M
      ring
    have hnext := hroom' (limbBase ^ rounds - 1) (by omega)
    rw [hsplit, ← add_assoc, ← hmag, ← hn] at hnext
    obtain ⟨M, hM, heq, hdvd', hl', hn'⟩ := ih (i + 1) hl (by omega) (by rw [hmag]; exact hclear) hnext
    rw [montReduce, hm]
    refine ⟨m + limbBase * M, ?_, ?_, ?_, hl', hn'.trans hn⟩
    · have := hbound M hM
      have : 0 < limbBase ^ (rounds + 1) := Nat.pow_pos (by decide)
      omega
    · rw [heq, hmag, hsplit, add_assoc]
    · rwa [add_assoc, add_comm 1 rounds] at hdvd'

theorem montFinish_spec (hctx : ctx.Ok) {t : List Nat} (ht : IsLimbs t)
    (hlen : t.length = ctx.mod.length + 1) (hlt : magnitude t < 2 * magnitude ctx.mod) :
    ∃ r, (if t.getD ctx.mod.length 0 ≠ 0 ∨ 0 ≤ compareAbsFrom (t.take ctx.mod.length) ctx.mod ctx.mod.length
        then subLoop (t.take ctx.mod.length) ctx.mod 0 else t.take ctx.mod.length) = r ∧
      IsLimbs r ∧ r.length = ctx.mod.length ∧
      magnitude r = if magnitude ctx.mod ≤ magnitude t then magnitude t - magnitude ctx.mod
        else magnitude t := by
  refine ⟨_, rfl, ?_⟩
  obtain ⟨n, hn⟩ : ∃ n, ctx.mod.length = n := ⟨_, rfl⟩
  have htl : (t.take n).length = n := by
    rw [length_take]
    omega
  have hlow := magnitude_lt (ht.take n)
  have hN := magnitude_lt hctx.limbs
  have hsplit : magnitude t = magnitude (t.take n) + limbBase ^ n * t.getD n 0 := by
    rw [magnitude_take_add_drop t (j := n) (by omega), magnitude_drop ht,
      magnitude_div_pow_last ht (hlen.trans (by rw [hn]))]
  rw [hn] at hN ⊢
  have hcmp := compareAbsFrom_eq (ht.take n) hctx.limbs (n := n) (by omega) (by omega)
  rw [take_of_length_le (l := t.take n) (by omega), take_of_length_le (l := ctx.mod) (by omega)] at hcmp
  have hdue : (t.getD n 0 ≠ 0 ∨ 0 ≤ compareAbsFrom (t.take n) ctx.mod n) ↔ magnitude ctx.mod ≤ magnitude t := by
    rw [hcmp]
    by_cases h0 : t.getD n 0 = 0
    · rw [hsplit]
      simp only [h0]
      split_ifs <;> omega
    · have := Nat.mul_le_mul_left (limbBase ^ n) (one_le_iff_ne_zero.mpr h0)
      exact iff_of_true (.inl h0) (by omega)
  by_cases h : magnitude ctx.mod ≤ magnitude t
  · rw [if_pos (hdue.mpr h), if_pos h]
    obtain ⟨hl, hsn, out, hout, heq⟩ := subLoop_spec (ht.take n) hctx.limbs (by omega) (Nat.zero_le 1)
    refine ⟨hl, hsn.trans htl, ?_⟩
    -- the top limb pays the borrow that the subtraction drops
    have hsub := magnitude_lt hl
    rw [hsn, htl] at hsub
    rw [htl] at heq
    have hout1 : out = t.getD n 0 := by
      by_contra hne
      rcases lt_or_gt_of_ne hne with hlt' | hgt
      · have := Nat.mul_le_mul_left (limbBase ^ n) (show out + 1 ≤ t.getD n 0 from hlt')
        rw [mul_add] at this
        omega
      · have := Nat.mul_le_mul_left (limbBase ^ n) (show t.getD n 0 + 1 ≤ out from hgt)
        rw [mul_add] at this
        omega
    rw [hout1] at heq
    omega
  · rw [if_neg (fun hd => h (hdue.mp hd)), if_neg h]
    refine ⟨ht.take n, htl, ?_⟩
    have h0 : t.getD n 0 = 0 := by
      by_contra hne
      exact h (hdue.mp (.inl hne))
    rw [hsplit, h0, Nat.mul_zero, add_zero]

theorem montMul_spec (hctx : ctx.Ok) {a b : List Nat} (ha : IsLimbs a) (hb : IsLimbs b)
    (hal : a.length = ctx.mod.length) (hbl : b.length = ctx.mod.length)
    (hlt : magnitude a * magnitude b < limbBase ^ ctx.mod.length * magnitude ctx.mod) :
    IsLimbs (montMul ctx a b) ∧ (montMul ctx a b).length = ctx.mod.length ∧
      magnitude (montMul ctx a b) < magnitude ctx.mod ∧
      magnitude (montMul ctx a b) * limbBase ^ ctx.mod.length ≡ magnitude a * magnitude b
        [MOD magnitude ctx.mod] := by
  obtain ⟨n, hn⟩ : ∃ n, ctx.mod.length = n := ⟨_, rfl⟩
  have hN := magnitude_lt hctx.limbs
  have hab := magnitude_mul_lt ha hb
  rw [hn] at hal hbl hlt hN
  rw [hal, hbl] at hab
  have hwide : limbBase ^ (n * 2 + 1) = limbBase * limbBase ^ (n + n) := by
    rw [mul_two, pow_succ']
  have hprod : (limbBase ^ n - 1) * magnitude ctx.mod ≤ limbBase ^ (n + n) := by
    rw [pow_add]
    exact Nat.mul_le_mul (by omega) (by omega)
  obtain ⟨hmag, hl, hlen⟩ := mulRows_spec (i := 0) (isLimbs_replicate_zero (n * 2 + 1)) hb ha
    (by rw [length_replicate]; omega)
    (by rw [magnitude_replicate_zero, length_replicate, hwide]; simp only [limbBase] at *; omega)
  rw [magnitude_replicate_zero, pow_zero, Nat.zero_add, one_mul] at hmag
  rw [length_replicate] at hlen
  obtain ⟨M, hM, hsum, hdvd, hsl, hsn⟩ := montReduce_spec hctx n 0 hl (by omega)
    (one_dvd _) (by rw [hlen, hwide]; simp only [limbBase] at *; omega)
  have hdef : montMul ctx a b = (fun s : List Nat =>
      if s.getD (n * 2) 0 ≠ 0 ∨ 0 ≤ compareAbsFrom ((s.drop n).take n) ctx.mod n
      then subLoop ((s.drop n).take n) ctx.mod 0 else (s.drop n).take n)
      (montReduce ctx n 0 (mulRows b a 0 (List.replicate (n * 2 + 1) 0))) := by
    rw [← hn]
    rfl
  rw [hdef]
  generalize montReduce ctx n 0 (mulRows b a 0 (List.replicate (n * 2 + 1) 0)) = s at *
  rw [hmag, pow_zero, one_mul] at hsum
  rw [Nat.zero_add] at hdvd
  have hT : magnitude (s.drop n) * limbBase ^ n = magnitude a * magnitude b + M * magnitude ctx.mod := by
    rw [magnitude_drop hsl, Nat.div_mul_cancel hdvd, hsum]
  have htop : s.getD (n * 2) 0 = (s.drop n).getD n 0 := by
    rw [getD_eq_getElem?_getD, getD_eq_getElem?_getD, getElem?_drop, mul_two]
  have hlt2 : magnitude (s.drop n) < 2 * magnitude ctx.mod := by
    refine Nat.lt_of_mul_lt_mul_right (a := limbBase ^ n) ?_
    have := Nat.mul_le_mul_right (magnitude ctx.mod) (le_of_lt hM)
    rw [mul_assoc, mul_comm (magnitude ctx.mod)]
    omega
  obtain ⟨r, hr, hrl, hrn, hrm⟩ := montFinish_spec hctx (hsl.drop n)
    (by rw [length_drop, hsn, hlen]; omega) hlt2
  rw [hn] at hr hrn
  simp only [htop, hr, hn]
  refine ⟨hrl, hrn, ?_, ?_⟩
  · rw [hrm]
    exact Montgomery.reduced_lt hT hM hlt
  · rw [hrm]
    exact Montgomery.reduced_modEq hT

end Product

variable {m x : ObjBigInt}

theorem ObjBigInt.Normal.magnitude_eq (hx : x.Normal) : magnitude x.limbs = x.value.natAbs := by
  rcases hx.sign_eq with ⟨hs, hl⟩ | ⟨hs | hs, -⟩
  · simp [value, hl]
  · simp [value, hs]
  · simp [value, hs]

theorem fixedLimbs_residue (hx : x.Normal) (hm : m.Normal) {k : Nat} (hv : x.value = k)
    (hk : k < magnitude m.limbs) :
    IsLimbs (fixedLimbs x m.limbs.length) ∧ (fixedLimbs x m.limbs.length).length = m.limbs.length ∧
      magnitude (fixedLimbs x m.limbs.length) = k := by
  have hmag : magnitude x.limbs = k := by rw [hx.magnitude_eq, hv, Int.natAbs_natCast]
  have hn : x.limbs.length ≤ m.limbs.length := hm.isNormal.length_le hx.isNormal (by omega)
  unfold fixedLimbs
  rw [take_of_length_le hn]
  refine ⟨isLimbs_append.mpr ⟨hx.limbs_lt, isLimbs_replicate_zero _⟩, ?_, ?_⟩
  · rw [length_append, length_replicate]
    omega
  · rw [magnitude_append, magnitude_replicate_zero, Nat.mul_zero, add_zero, hmag]

theorem radixPower_normal (n : Nat) : (ObjBigInt.mk 1 (List.replicate n 0 ++ [1])).Normal where
  limbs_lt := isLimbs_append.mpr ⟨isLimbs_replicate_zero n, by simp [IsLimbs]⟩
  last_ne := by simp
  sign_eq := .inr ⟨.inl rfl, by simp⟩

theorem magnitude_radixPower (n : Nat) : magnitude (List.replicate n 0 ++ [1]) = limbBase ^ n := by
  rw [magnitude_append, magnitude_replicate_zero, magnitude_singleton, length_replicate, Nat.zero_add, mul_one]

theorem magnitude_odd {l : List Nat} : magnitude l % 2 = 1 ↔ l.getD 0 0 % 2 = 1 := by
  cases l with
  | nil => simp
  | cons x xs =>
    rw [magnitude_cons, getD_cons_zero]
    simp only [limbBase]
    omega

theorem montCtxInit_ok (hm : m.Normal) (hs : m.sign = 1) (hodd : magnitude m.limbs % 2 = 1) :
    (montCtxInit m).Ok where
  limbs := hm.limbs_lt
  pos := hm.isNormal.pos (hm.limbs_ne hs)
  inv := by
    have hlow : magnitude m.limbs * montgomeryN0inv (m.limbs.getD 0 0) + 1 ≡
        m.limbs.getD 0 0 * montgomeryN0inv (m.limbs.getD 0 0) + 1 [MOD limbBase] := by
      refine (ModEq.mul_right _ ?_).add_right 1
      have := magnitude_div_pow hm.limbs_lt 0
      rw [pow_zero, Nat.div_one] at this
      rw [← this]
      exact (mod_modEq _ _).symm
    exact Eq.trans hlow (montgomeryN0inv_spec (magnitude_odd.mp hodd))

theorem montCtxInit_r2 (hm : m.Normal) (hs : m.sign = 1)
    (hclamp : NoClampedDigit (List.replicate (m.limbs.length * 2) 0 ++ [1]) m.limbs) :
    IsLimbs (montCtxInit m).r2 ∧ (montCtxInit m).r2.length = m.limbs.length ∧
      magnitude (montCtxInit m).r2 = limbBase ^ (m.limbs.length * 2) % magnitude m.limbs := by
  obtain ⟨hn, hv⟩ := objBigintMod_signed (radixPower_normal (m.limbs.length * 2)) hm hs (.inl rfl) hclamp
  rw [one_mul, magnitude_radixPower] at hv
  exact fixedLimbs_residue hn hm hv (mod_lt _ (hm.isNormal.pos (hm.limbs_ne hs)))

end Tablo.Bigint
