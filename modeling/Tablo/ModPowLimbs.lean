import Tablo.BigintSum

/-! Products and sums of limb arrays, as equations between magnitudes. -/

namespace Tablo.Bigint

open List

theorem mul_add_add_lt {x y o c : Nat} (hx : x < limbBase) (hy : y < limbBase) (ho : o < limbBase)
    (hc : c < limbBase) : x * y + o + c < limbBase * limbBase := by
  have hm : x * y ≤ (limbBase - 1) * (limbBase - 1) := Nat.mul_le_mul (by omega) (by omega)
  simp only [limbBase] at *
  omega

variable {a b out : List Nat}

theorem mulAddLoop_spec {x : Nat} (hx : x < limbBase) (hout : IsLimbs out)
    (hb : IsLimbs b) (hlen : out.length = b.length) {carry : Nat} (hc : carry < limbBase) :
    magnitude (mulAddLoop x out b carry).1 + limbBase ^ out.length * (mulAddLoop x out b carry).2 =
        magnitude out + x * magnitude b + carry ∧
      IsLimbs (mulAddLoop x out b carry).1 ∧ (mulAddLoop x out b carry).1.length = out.length ∧
      (mulAddLoop x out b carry).2 < limbBase := by
  induction out generalizing b carry with
  | nil =>
    have hb0 : b = [] := eq_nil_of_length_eq_zero hlen.symm
    subst b
    exact ⟨by simp [mulAddLoop], isLimbs_nil, rfl, hc⟩
  | cons o out ih =>
    cases b with
    | nil => simp at hlen
    | cons y b =>
      have hcur := mul_add_add_lt hx (isLimbs_cons.mp hb).1 (isLimbs_cons.mp hout).1 hc
      have hd := Nat.mod_add_div (x * y + o + carry) limbBase
      obtain ⟨heq, hl, hn, hlt⟩ := ih (isLimbs_cons.mp hout).2 (isLimbs_cons.mp hb).2
        (by simpa using hlen) (show (x * y + o + carry) / limbBase < limbBase from Nat.div_lt_of_lt_mul hcur)
      simp only [mulAddLoop, u64_of_lt hcur, magnitude_cons, length_cons]
      refine ⟨?_, isLimbs_cons.mpr ⟨Nat.mod_lt _ (by decide), hl⟩, by omega, hlt⟩
      have hm := congrArg (limbBase * ·) heq
      simp only [Nat.mul_add, ← Nat.mul_assoc] at hm
      rw [pow_succ', Nat.mul_add x, ← Nat.mul_assoc x, Nat.mul_comm x limbBase]
      omega

theorem mulAddRow_spec {i x : Nat} (hout : IsLimbs out) (hb : IsLimbs b)
    (hx : x < limbBase) (hi : i + b.length ≤ out.length)
    (hroom : magnitude out + limbBase ^ i * (x * magnitude b) < limbBase ^ out.length) :
    magnitude (mulAddRow out b i x) = magnitude out + limbBase ^ i * (x * magnitude b) ∧
      IsLimbs (mulAddRow out b i x) ∧ (mulAddRow out b i x).length = out.length := by
  have hlen : ((out.drop i).take b.length).length = b.length := by
    rw [length_take, length_drop]
    omega
  obtain ⟨heq, hl, hn, hlt⟩ := mulAddLoop_spec hx ((hout.drop i).take b.length) hb hlen (show 0 < limbBase by decide)
  have hdef : mulAddRow out b i x = out.take i ++ ((mulAddLoop x ((out.drop i).take b.length) b 0).1 ++
        carryLoop (out.drop (i + b.length)) (mulAddLoop x ((out.drop i).take b.length) b 0).2) := rfl
  rw [hdef]
  generalize mulAddLoop x ((out.drop i).take b.length) b 0 = w at *
  obtain ⟨⟨lost, hcarry⟩, hcl, hcn⟩ := carryLoop_spec (hout.drop (i + b.length)) hlt
  have hti : (out.take i).length = i := by
    rw [length_take]
    omega
  have hsplit : magnitude out = magnitude (out.take i) + limbBase ^ i *
      (magnitude ((out.drop i).take b.length) + limbBase ^ b.length * magnitude (out.drop (i + b.length))) := by
    rw [magnitude_take_add_drop out (show i ≤ out.length by omega),
      magnitude_take_add_drop (out.drop i) (j := b.length) (by rw [length_drop]; omega), drop_drop]
  have hsum : magnitude (out.take i ++ (w.1 ++ carryLoop (out.drop (i + b.length)) w.2)) +
      limbBase ^ out.length * lost = magnitude out + limbBase ^ i * (x * magnitude b) := by
    have hpow : limbBase ^ out.length =
        limbBase ^ i * (limbBase ^ b.length * limbBase ^ (out.drop (i + b.length)).length) := by
      rw [← pow_add, ← pow_add, length_drop]
      congr 1
      omega
    rw [magnitude_append, magnitude_append, hti, hn, hlen, hsplit, hpow]
    rw [hlen] at heq
    calc magnitude (out.take i) + limbBase ^ i * (magnitude w.1 + limbBase ^ b.length *
            magnitude (carryLoop (out.drop (i + b.length)) w.2)) +
          limbBase ^ i * (limbBase ^ b.length * limbBase ^ (out.drop (i + b.length)).length) * lost
        = magnitude (out.take i) + limbBase ^ i * (magnitude w.1 + limbBase ^ b.length *
            (magnitude (carryLoop (out.drop (i + b.length)) w.2) +
              limbBase ^ (out.drop (i + b.length)).length * lost)) := by ring
      _ = magnitude (out.take i) + limbBase ^ i * ((magnitude w.1 + limbBase ^ b.length * w.2) +
            limbBase ^ b.length * magnitude (out.drop (i + b.length))) := by
          rw [hcarry]
          ring
      _ = _ := by
          rw [heq]
          ring
  have hover : lost = 0 := by
    by_contra hne
    have := Nat.mul_le_mul_left (limbBase ^ out.length) (Nat.one_le_iff_ne_zero.mpr hne)
    omega
  refine ⟨?_, isLimbs_append.mpr ⟨hout.take i, isLimbs_append.mpr ⟨hl, hcl⟩⟩, ?_⟩
  · rw [hover, Nat.mul_zero] at hsum
    exact hsum
  · rw [length_append, length_append, hn, hcn, length_drop]
    omega

theorem mulRows_spec {i : Nat} (hout : IsLimbs out) (hb : IsLimbs b) (ha : IsLimbs a)
    (hi : i + a.length + b.length ≤ out.length)
    (hroom : magnitude out + limbBase ^ i * (magnitude a * magnitude b) < limbBase ^ out.length) :
    magnitude (mulRows b a i out) = magnitude out + limbBase ^ i * (magnitude a * magnitude b) ∧
      IsLimbs (mulRows b a i out) ∧ (mulRows b a i out).length = out.length := by
  induction a generalizing i out with
  | nil => simpa [mulRows] using hout
  | cons x a ih =>
    have hexp : limbBase ^ i * (magnitude (x :: a) * magnitude b) =
        limbBase ^ i * (x * magnitude b) + limbBase ^ (i + 1) * (magnitude a * magnitude b) := by
      rw [magnitude_cons]
      ring
    rw [length_cons] at hi
    obtain ⟨hmag, hl, hn⟩ := mulAddRow_spec hout hb (isLimbs_cons.mp ha).1 (show i + b.length ≤ out.length by omega)
      (show magnitude out + limbBase ^ i * (x * magnitude b) < limbBase ^ out.length by omega)
    obtain ⟨hmag', hl', hn'⟩ := ih hl (isLimbs_cons.mp ha).2 (i := i + 1) (by omega) (by rw [hn]; omega)
    rw [mulRows, hmag', hn', hn]
    exact ⟨by omega, hl', rfl⟩

theorem isLimbs_replicate_zero (n : Nat) : IsLimbs (List.replicate n 0) := by
  intro x hx
  rw [eq_of_mem_replicate hx]
  decide

theorem magnitude_mul_lt (ha : IsLimbs a) (hb : IsLimbs b) :
    magnitude a * magnitude b < limbBase ^ (a.length + b.length) := by
  rw [pow_add]
  exact Nat.mul_lt_mul'' (magnitude_lt ha) (magnitude_lt hb)

theorem bigintMulAbsLimbs_spec (ha : IsLimbs a) (hb : IsLimbs b) :
    magnitude (bigintMulAbsLimbs a b) = magnitude a * magnitude b ∧ IsLimbs (bigintMulAbsLimbs a b) := by
  unfold bigintMulAbsLimbs
  split
  next h =>
    refine ⟨?_, isLimbs_nil⟩
    rcases h with rfl | rfl <;> simp
  next =>
    have hlt := magnitude_mul_lt ha hb
    have hpow : limbBase ^ (a.length + b.length) ≤ limbBase ^ (a.length + b.length + 1) :=
      Nat.pow_le_pow_right (by decide) (by omega)
    have hroom : magnitude (List.replicate (a.length + b.length + 1) 0) + limbBase ^ 0 * (magnitude a * magnitude b) <
          limbBase ^ (List.replicate (a.length + b.length + 1) 0).length := by
      rw [magnitude_replicate_zero, length_replicate, pow_zero]
      omega
    obtain ⟨hmag, hl, -⟩ := mulRows_spec (isLimbs_replicate_zero _) hb ha (by simp) hroom
    rw [magnitude_trimmed, hmag, magnitude_replicate_zero]
    exact ⟨by rw [pow_zero]; omega, hl.trimmed⟩

theorem mulSmall_single (hb : IsNormal b) (hone : b.length = 1) (ha : IsLimbs a) (hne : a ≠ []) :
    magnitude (bigintMulSmall a (b.getD 0 0)) = magnitude a * magnitude b ∧ IsLimbs (bigintMulSmall a (b.getD 0 0)) := by
  obtain ⟨x, rfl⟩ := length_eq_one_iff.mp hone
  have hpos := hb.pos (cons_ne_nil x [])
  obtain ⟨hm, hl, -⟩ := bigintMulSmall_spec (hb.limbs x mem_cons_self) hpos ha hne
  exact ⟨hm, hl⟩

variable {a m : ObjBigInt}

theorem objBigintMul_spec {b : ObjBigInt} (ha : a.Normal) (hb : b.Normal) :
    (objBigintMul a b).Normal ∧ (objBigintMul a b).value = a.value * b.value := by
  unfold objBigintMul
  by_cases h0 : a.sign = 0 ∨ b.sign = 0
  · rw [if_pos h0]
    refine ⟨bigintFromLimbs_normal isLimbs_nil 0, ?_⟩
    rcases h0 with h0 | h0
    · rw [ha.value_eq_zero.mpr h0, zero_mul]
      rfl
    · rw [hb.value_eq_zero.mpr h0, mul_zero]
      rfl
  obtain ⟨has, hane⟩ := ha.sign_eq.resolve_left fun h => h0 (.inl h.1)
  obtain ⟨hbs, hbne⟩ := hb.sign_eq.resolve_left fun h => h0 (.inr h.1)
  have hsign : a.sign * b.sign = 1 ∨ a.sign * b.sign = -1 := by
    rcases has with has | has <;> rcases hbs with hbs | hbs <;> simp [has, hbs]
  have hval : ∀ l, IsLimbs l → magnitude l = magnitude a.limbs * magnitude b.limbs →
      (bigintFromLimbs (a.sign * b.sign) l).Normal ∧
        (bigintFromLimbs (a.sign * b.sign) l).value = a.value * b.value := by
    intro l hl hm
    obtain ⟨hn, hv⟩ := bigintFromLimbs_signed hl hsign
    refine ⟨hn, ?_⟩
    rw [hv, hm, ObjBigInt.value, ObjBigInt.value]
    push_cast
    ring
  split_ifs with ha1 hb1
  · obtain ⟨hm, hl⟩ := mulSmall_single ha.isNormal ha1 hb.limbs_lt hbne
    exact hval _ hl (by rw [hm, Nat.mul_comm])
  · obtain ⟨hm, hl⟩ := mulSmall_single hb.isNormal hb1 ha.limbs_lt hane
    exact hval _ hl hm
  · obtain ⟨hm, hl⟩ := bigintMulAbsLimbs_spec ha.limbs_lt hb.limbs_lt
    exact hval _ hl hm

theorem ObjBigInt.Normal.sign_neg_iff {x : ObjBigInt} (h : x.Normal) : x.sign < 0 ↔ x.value < 0 := by
  rcases h.sign_eq with ⟨hs, -⟩ | ⟨hs | hs, hne⟩
  · simp [value, hs]
  · simp [value, hs]
  · have hpos := h.isNormal.pos hne
    rw [value, hs]
    omega

theorem ObjBigInt.Normal.limbs_ne (hm : m.Normal) (hs : m.sign = 1) : m.limbs ≠ [] := by
  intro h
  have := hm.sign_eq_zero.mpr h
  omega

theorem neg_natCast_emod {x m : Nat} (hm : 0 < m) :
    (-(x : Int)) % m = if x % m = 0 then 0 else (m : Int) - (x % m : Nat) := by
  have hdiv := Nat.div_add_mod x m
  have hlt := Nat.mod_lt x hm
  split
  next h0 =>
    rw [Int.emod_eq_zero_of_dvd]
    exact (Int.dvd_neg).mpr (Int.natCast_dvd_natCast.mpr (Nat.dvd_of_mod_eq_zero h0))
  next hne =>
    have hx : (x : Int) = m * (x / m : Nat) + (x % m : Nat) := by exact_mod_cast hdiv.symm
    have heq : -(x : Int) = ((m : Int) - (x % m : Nat)) + m * (-((x / m : Nat) : Int) - 1) := by
      linear_combination -hx
    rw [heq, Int.add_mul_emod_self_left, Int.emod_eq_of_lt (by omega) (by omega)]

theorem objBigintMod_signed (ha : a.Normal) (hm : m.Normal) (hms : m.sign = 1)
    (has : a.sign = 1 ∨ a.sign = -1) (hclamp : NoClampedDigit a.limbs m.limbs) : (objBigintMod a m).1.Normal ∧
      (objBigintMod a m).1.value = a.sign * (magnitude a.limbs % magnitude m.limbs : Nat) := by
  have hane : a.limbs ≠ [] := fun h => by
    have := ha.sign_eq_zero.mpr h
    omega
  obtain ⟨-, -, hrl, -, hrem⟩ := bigintDivmodAbsLimbs_spec ha.isNormal hm.isNormal hane (hm.limbs_ne hms)
  have hmod : (objBigintMod a m).1 = bigintFromLimbs (if (bigintDivmodAbsLimbs a.limbs m.limbs).r = [] then 0
      else a.sign) (bigintDivmodAbsLimbs a.limbs m.limbs).r := by
    rw [objBigintMod, if_neg (by omega), if_neg (by omega)]
  rw [hmod, bigintFromLimbs_value has, hrem hclamp]
  exact ⟨bigintFromLimbs_normal hrl _, rfl⟩

theorem bigintModPositive_spec (ha : a.Normal) (hm : m.Normal) (hms : m.sign = 1)
    (hclamp : NoClampedDigit a.limbs m.limbs) :
    (bigintModPositive a m).Normal ∧ (bigintModPositive a m).value = a.value % m.value := by
  have hpos := hm.isNormal.pos (hm.limbs_ne hms)
  have hmv : m.value = magnitude m.limbs := by rw [ObjBigInt.value, hms, one_mul]
  unfold bigintModPositive
  by_cases h0 : a.sign = 0
  · have hzero : (objBigintMod a m).1 = bigintFromLimbs 0 [] := by
      rw [objBigintMod, if_neg (by omega), if_pos h0]
    rw [hzero, ha.value_eq_zero.mpr h0]
    exact ⟨bigintFromLimbs_normal isLimbs_nil 0, by rw [Int.zero_emod]; rfl⟩
  obtain ⟨has, -⟩ := ha.sign_eq.resolve_left fun h => h0 h.1
  obtain ⟨hnorm, hval⟩ := objBigintMod_signed ha hm hms has hclamp
  generalize (objBigintMod a m).1 = rem at hval hnorm
  rw [hmv]
  rcases has with has | has
  · rw [has, one_mul] at hval
    have hsign : ¬ rem.sign < 0 := by
      rw [hnorm.sign_neg_iff]
      omega
    rw [if_neg hsign, hval, ObjBigInt.value, has, one_mul]
    exact ⟨hnorm, Int.natCast_mod _ _⟩
  · have hav : a.value = -magnitude a.limbs := by rw [ObjBigInt.value, has, neg_one_mul]
    rw [has] at hval
    rw [hav, neg_natCast_emod hpos]
    by_cases hr : magnitude a.limbs % magnitude m.limbs = 0
    · have hsign : ¬ rem.sign < 0 := by
        rw [hnorm.sign_neg_iff]
        omega
      rw [if_neg hsign, hval, hr]
      exact ⟨hnorm, rfl⟩
    · have hneg : rem.sign < 0 := by
        rw [hnorm.sign_neg_iff]
        omega
      have hrs : rem.sign = -1 := by
        rcases hnorm.sign_eq with ⟨hs, -⟩ | ⟨hs | hs, -⟩ <;> omega
      obtain ⟨hadd, hsum⟩ := objBigintAdd_spec hnorm hm
      rw [if_pos hneg, if_neg hr, hsum, hval, hmv]
      exact ⟨hadd, by ring⟩

end Tablo.Bigint
