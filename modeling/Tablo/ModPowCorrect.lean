import Tablo.ModPowLadder

/-! `modPow` returns the residue of the power, as long as no division on its
way clamps a quotient digit. -/

namespace Tablo.Bigint

open List SquareMultiply Int

theorem IsNormal.eq_digits {l : List Nat} (h : IsNormal l) : l = Nat.digits limbBase (magnitude l) := by
  refine (Nat.digits_ofDigits limbBase (by decide) l h.limbs fun hne hlast => ?_).symm
  exact h.last_ne (by rw [getLast?_eq_some_getLast hne, hlast])

theorem ObjBigInt.Normal.limbs_eq {x : ObjBigInt} (hx : x.Normal) {k : Nat} (hv : x.value = k) :
    x.limbs = Nat.digits limbBase k := by
  rw [hx.isNormal.eq_digits, hx.magnitude_eq, hv, natAbs_natCast]

variable {m mod : ObjBigInt}

theorem bigintAbsCloneValue_spec (hm : m.Normal) (h0 : m.value ≠ 0) :
    (bigintAbsCloneValue m).Normal ∧ (bigintAbsCloneValue m).sign = 1 ∧ (bigintAbsCloneValue m).limbs = m.limbs := by
  have hs0 : m.sign ≠ 0 := fun h => h0 (hm.value_eq_zero.mpr h)
  obtain ⟨hs, hne⟩ := hm.sign_eq.resolve_left fun h => hs0 h.1
  unfold bigintAbsCloneValue
  rcases hs with hs | hs
  · rw [if_neg (by omega)]
    exact ⟨hm, hs, rfl⟩
  · rw [objBigintNegate, hs]
    obtain ⟨hn, hv⟩ := bigintFromLimbs_signed hm.limbs_lt (.inl (Eq.refl (1 : Int)))
    rw [one_mul] at hv
    have hlimbs := (hn.limbs_eq hv).trans hm.isNormal.eq_digits.symm
    refine ⟨hn, ?_, hlimbs⟩
    rcases hn.sign_eq with ⟨-, h⟩ | ⟨h | h, -⟩
    · exact absurd (hlimbs.symm.trans h) hne
    · exact h
    · have := hn.sign_neg_iff.mp (by omega)
      omega

theorem coprime_radix {N : Nat} (hodd : N % 2 = 1) (n : Nat) : Nat.Coprime N (limbBase ^ n) := by
  have h2 : Nat.Coprime N 2 := by
    rw [Nat.coprime_comm, Nat.Coprime, Nat.gcd_rec, hodd]
    decide
  exact Nat.Coprime.pow_right n (Nat.Coprime.pow_right 32 h2)

theorem mul_lt_radix_mul {x y : List Nat} (hx : IsLimbs x) (hlen : x.length = m.limbs.length)
    (hy : magnitude y < magnitude m.limbs) :
    magnitude x * magnitude y < limbBase ^ m.limbs.length * magnitude m.limbs := by
  have := magnitude_lt hx
  rw [hlen] at this
  exact Nat.mul_lt_mul'' this hy

theorem oneLimbs_spec {n : Nat} (hn : n ≠ 0) :
    IsLimbs (1 :: replicate (n - 1) 0) ∧ (1 :: replicate (n - 1) 0).length = n ∧
      magnitude (1 :: replicate (n - 1) 0) = 1 := by
  refine ⟨isLimbs_cons.mpr ⟨by decide, isLimbs_replicate_zero _⟩, ?_, ?_⟩
  · rw [length_cons, length_replicate]
    omega
  · rw [magnitude_cons, magnitude_replicate_zero, Nat.mul_zero]

def Exponent.value : Exponent → Nat
  | .int e => e
  | .bigint e => magnitude e.limbs

def Exponent.Ok : Exponent → Prop
  | .int e => e < 2 ^ 64
  | .bigint e => IsNormal e.limbs

theorem Exponent.pow_spec {β : Type} {Rep : Nat → β → Prop} {mul : β → β → β} {exp : Exponent} (hok : exp.Ok)
    (hmul : Respects Rep mul exp.value) {acc base : β} (hacc : Rep 0 acc) (hbase : Rep 1 base) :
    Rep exp.value (exp.pow mul acc base) := by
  have hacc' : ∀ e, Rep (e % 2 ^ 0) acc := by
    intro e
    rwa [pow_zero, Nat.mod_one]
  cases exp with
  | int e =>
    have h := powLoop_spec hmul 64 0 (by rwa [pow_zero, Nat.div_one]) (hacc' e) hbase
    rwa [pow_zero, Nat.div_one] at h
  | bigint e => exact powWords_spec hmul (i := 0) hok (by rw [pow_zero, Nat.div_one]; rfl) (hacc' _) fun _ => hbase

section Modulus

def residue (base m : ObjBigInt) (k : Nat) : Nat := (base.value ^ k % magnitude m.limbs).toNat

def IsResidue (base m : ObjBigInt) (k : Nat) (x : ObjBigInt) : Prop := x.Normal ∧ x.value = residue base m k

/-- A fixed-width array that stands for a power of the base, scaled by the
radix of the modulus. -/
structure IsScaled (b : Nat) (m : ObjBigInt) (k : Nat) (x : List Nat) : Prop where
  limbs : IsLimbs x
  length : x.length = m.limbs.length
  lt : magnitude x < magnitude m.limbs
  modEq : magnitude x ≡ b ^ k * limbBase ^ m.limbs.length [MOD magnitude m.limbs]

variable {base m : ObjBigInt} {e : Nat} {exp : Exponent} (hm : m.Normal) (hs : m.sign = 1)

include hm hs

theorem residue_cast (k : Nat) : (residue base m k : Int) = base.value ^ k % magnitude m.limbs := by
  have hpos := hm.isNormal.pos (hm.limbs_ne hs)
  exact toNat_of_nonneg (emod_nonneg _ (by omega))

theorem residue_lt (k : Nat) : residue base m k < magnitude m.limbs := by
  have hpos := hm.isNormal.pos (hm.limbs_ne hs)
  have := emod_lt_of_pos (base.value ^ k) (show (0 : Int) < magnitude m.limbs by omega)
  rw [← residue_cast hm hs] at this
  omega

theorem bigintModPositive_isResidue (hb : base.Normal) (hbase : NoClampedDigit base.limbs m.limbs) :
    IsResidue base m 1 (bigintModPositive base m) := by
  obtain ⟨hn, hv⟩ := bigintModPositive_spec hb hm hs hbase
  refine ⟨hn, ?_⟩
  rw [hv, residue_cast hm hs, pow_one, ObjBigInt.value, ObjBigInt.value, hs, one_mul]

theorem modPositive_respects (hclamp : ∀ j k, Formed e j k →
      NoClampedDigit (Nat.digits limbBase (residue base m j * residue base m k)) m.limbs) :
    Respects (IsResidue base m) (fun x y => bigintModPositive (objBigintMul x y) m) e := by
  intro j k x y hformed ⟨hx, hxv⟩ ⟨hy, hyv⟩
  obtain ⟨hn, hv⟩ := objBigintMul_spec hx hy
  rw [hxv, hyv, ← Nat.cast_mul] at hv
  have hno := hclamp j k hformed
  rw [← hn.limbs_eq hv] at hno
  obtain ⟨hr, hrv⟩ := bigintModPositive_spec hn hm hs hno
  refine ⟨hr, ?_⟩
  rw [hrv, hv, residue_cast hm hs, ObjBigInt.value, hs, one_mul, Nat.cast_mul, residue_cast hm hs,
    residue_cast hm hs, ← mul_emod, pow_add]

theorem montMul_scaled (hodd : magnitude m.limbs % 2 = 1) {x y : List Nat}
    (hx : IsLimbs x) (hxn : x.length = m.limbs.length) (hy : IsLimbs y) (hyn : y.length = m.limbs.length)
    (hlt : magnitude x * magnitude y < limbBase ^ m.limbs.length * magnitude m.limbs) {z : Nat}
    (hz : magnitude x * magnitude y ≡ z * limbBase ^ m.limbs.length [MOD magnitude m.limbs]) :
    IsLimbs (montMul (montCtxInit m) x y) ∧ (montMul (montCtxInit m) x y).length = m.limbs.length ∧
      magnitude (montMul (montCtxInit m) x y) < magnitude m.limbs ∧
      magnitude (montMul (montCtxInit m) x y) ≡ z [MOD magnitude m.limbs] := by
  obtain ⟨hl, hn, hr, hmod⟩ := montMul_spec (montCtxInit_ok hm hs hodd) hx hy hxn hyn hlt
  exact ⟨hl, hn, hr, Nat.ModEq.cancel_right_of_coprime (coprime_radix hodd _) (hmod.trans hz)⟩

theorem montMul_respects (hodd : magnitude m.limbs % 2 = 1) (b e : Nat) :
    Respects (IsScaled b m) (montMul (montCtxInit m)) e := by
  intro j k x y _ hx hy
  have hz : magnitude x * magnitude y ≡ b ^ (j + k) * limbBase ^ m.limbs.length * limbBase ^ m.limbs.length
      [MOD magnitude m.limbs] := by
    refine (hx.modEq.mul hy.modEq).trans ?_
    rw [show b ^ j * limbBase ^ m.limbs.length * (b ^ k * limbBase ^ m.limbs.length) =
      b ^ (j + k) * limbBase ^ m.limbs.length * limbBase ^ m.limbs.length by ring]
  obtain ⟨hl, hn, hr, hmod⟩ := montMul_scaled hm hs hodd hx.limbs hx.length hy.limbs hy.length
    (mul_lt_radix_mul hx.limbs hx.length hy.lt) hz
  exact ⟨hl, hn, hr, hmod⟩

theorem natCast_residue_emod (e : Nat) : residue base m 1 ^ e % magnitude m.limbs = residue base m e := by
  refine Int.natCast_inj.mp ?_
  rw [natCast_mod, Nat.cast_pow, residue_cast hm hs, residue_cast hm hs, pow_one]
  exact ((mod_modEq base.value (magnitude m.limbs)).pow e)

theorem bigintModPowMontgomeryCommon_spec (hb : base.Normal) (hodd : magnitude m.limbs % 2 = 1) (hok : exp.Ok)
    (hbase : NoClampedDigit base.limbs m.limbs)
    (hr2 : NoClampedDigit (replicate (m.limbs.length * 2) 0 ++ [1]) m.limbs) :
    IsResidue base m exp.value (bigintModPowMontgomeryCommon base m exp) := by
  obtain ⟨hrl, hrn, hrm⟩ := montCtxInit_r2 hm hs hr2
  have hpos := hm.isNormal.pos (hm.limbs_ne hs)
  have hrlt : magnitude (montCtxInit m).r2 < magnitude m.limbs := hrm ▸ Nat.mod_lt _ hpos
  have hrmod : magnitude (montCtxInit m).r2 ≡ limbBase ^ m.limbs.length * limbBase ^ m.limbs.length
      [MOD magnitude m.limbs] := by
    rw [hrm, ← pow_add, ← Nat.mul_two]
    exact Nat.mod_modEq _ _
  obtain ⟨hol, hon, hom⟩ := oneLimbs_spec (n := m.limbs.length)
    (fun h => hm.limbs_ne hs (eq_nil_of_length_eq_zero h))
  obtain ⟨hbn, hbv⟩ := bigintModPositive_isResidue hm hs hb hbase
  obtain ⟨hfl, hfn, hfm⟩ := fixedLimbs_residue hbn hm hbv (residue_lt hm hs 1)
  -- the square of the radix scales an array
  have henter : ∀ k x, IsLimbs x → x.length = m.limbs.length → magnitude x = residue base m 1 ^ k →
      IsScaled (residue base m 1) m k (montMul (montCtxInit m) x (montCtxInit m).r2) := by
    intro k x hx hxn hxm
    have hz := hrmod.mul_left (magnitude x)
    rw [hxm, ← Nat.mul_assoc, ← hxm] at hz
    obtain ⟨hl, hn, hlt, hmod⟩ := montMul_scaled hm hs hodd hx hxn hrl hrn (mul_lt_radix_mul hx hxn hrlt) hz
    exact ⟨hl, hn, hlt, by rwa [hxm] at hmod⟩
  have hacc := henter 0 _ hol hon (by rw [hom, pow_zero])
  have hbaseM := henter 1 _ hfl hfn (by rw [hfm, pow_one])
  have hpow := Exponent.pow_spec hok (montMul_respects hm hs hodd _ _) hacc hbaseM
  rw [bigintModPowMontgomeryCommon]
  generalize exp.pow (montMul (montCtxInit m)) _ _ = acc at hpow ⊢
  -- and multiplication by one takes the scale away
  have hone : magnitude acc * magnitude (1 :: replicate (m.limbs.length - 1) 0) ≡
      residue base m 1 ^ exp.value * limbBase ^ m.limbs.length [MOD magnitude m.limbs] := by
    rw [hom, Nat.mul_one]
    exact hpow.modEq
  have hlt := mul_lt_radix_mul hol hon hpow.lt
  rw [Nat.mul_comm] at hlt
  obtain ⟨hl, -, hr, hmod⟩ := montMul_scaled hm hs hodd hpow.limbs hpow.length hol hon hlt hone
  generalize montMul (montCtxInit m) acc _ = r at hl hr hmod ⊢
  have hval : magnitude r = residue base m exp.value := by
    rw [← natCast_residue_emod hm hs, ← Nat.mod_eq_of_lt hr]
    exact hmod
  split
  next h0 =>
    refine ⟨⟨isLimbs_nil, by simp [bigintZero], .inl ⟨rfl, rfl⟩⟩, ?_⟩
    rw [← hval, (trimmed_eq_nil r).mp h0]
    rfl
  next hne =>
    refine ⟨⟨hl.trimmed, trimmed_last_ne r, .inr ⟨.inl rfl, hne⟩⟩, ?_⟩
    rw [ObjBigInt.value, one_mul, magnitude_trimmed, hval]

theorem bigintModPowValue_spec (hb : base.Normal) (hok : exp.Ok) (hbase : NoClampedDigit base.limbs m.limbs)
    (hodd : magnitude m.limbs % 2 = 1 → NoClampedDigit (replicate (m.limbs.length * 2) 0 ++ [1]) m.limbs)
    (heven : magnitude m.limbs % 2 = 0 → ∀ j k, Formed exp.value j k →
      NoClampedDigit (Nat.digits limbBase (residue base m j * residue base m k)) m.limbs) :
    IsResidue base m exp.value (bigintModPowValue base m exp) := by
  have hcan : bigintCanUseMontgomery m = true ↔ magnitude m.limbs % 2 = 1 := by
    simp [bigintCanUseMontgomery, hs, hm.limbs_ne hs, magnitude_odd]
  unfold bigintModPowValue
  split
  next h => exact bigintModPowMontgomeryCommon_spec hm hs hb (hcan.mp h) hok hbase (hodd (hcan.mp h))
  next h =>
    have h2 : magnitude m.limbs % 2 = 0 := by
      have := mt hcan.mpr h
      omega
    have hpos := hm.isNormal.pos (hm.limbs_ne hs)
    have hacc : IsResidue base m 0 bigintOne := by
      refine ⟨⟨by simp [IsLimbs, bigintOne], by simp [bigintOne], .inr ⟨.inl rfl, by simp [bigintOne]⟩⟩, ?_⟩
      rw [residue_cast hm hs, pow_zero, emod_eq_of_lt (by omega) (by omega)]
      rfl
    obtain ⟨hn, hv⟩ := Exponent.pow_spec hok (modPositive_respects hm hs (heven h2)) hacc
      (bigintModPositive_isResidue hm hs hb hbase)
    have hlt : residue base m exp.value < magnitude m.limbs := residue_lt hm hs exp.value
    have hno := noClampedDigit_of_small (a := (exp.pow _ bigintOne (bigintModPositive base m)).limbs) hm.isNormal
      (hm.limbs_ne hs) (by rw [hn.magnitude_eq, hv, natAbs_natCast, Nat.div_eq_of_lt hlt]; decide)
    obtain ⟨hr, hrv⟩ := bigintModPositive_spec hn hm hs hno
    refine ⟨hr, ?_⟩
    rw [hrv, hv, ObjBigInt.value, hs, one_mul, ← natCast_mod, Nat.mod_eq_of_lt hlt]

end Modulus

structure ModPowLaw (base mod : ObjBigInt) (e : Nat) (r : ObjBigInt) : Prop where
  normal : r.Normal
  unique : ∀ z : Int, z = r.value ↔ 0 ≤ z ∧ z < |mod.value| ∧ z ≡ base.value ^ e [ZMOD |mod.value|]

structure MontgomeryLaw (m : ObjBigInt) : Prop where
  n0inv_lt : (montCtxInit m).n0inv < limbBase
  n0inv : (magnitude m.limbs * (montCtxInit m).n0inv + 1) % limbBase = 0
  r2 : magnitude (montCtxInit m).r2 = limbBase ^ (m.limbs.length * 2) % magnitude m.limbs
  product : ∀ a b, IsLimbs a → IsLimbs b → a.length = m.limbs.length → b.length = m.limbs.length →
    magnitude a < magnitude m.limbs → magnitude b < magnitude m.limbs →
    magnitude (montMul (montCtxInit m) a b) < magnitude m.limbs ∧
      magnitude (montMul (montCtxInit m) a b) * limbBase ^ m.limbs.length ≡ magnitude a * magnitude b
        [MOD magnitude m.limbs]

inductive IsExponent : ModPowArg → Nat → Prop where
  | int (n : Int64) (h : 0 ≤ n) : IsExponent (.int n) n.toInt.toNat
  | bigint (x : NormalBigInt) (h : 0 ≤ x.value) : IsExponent (.bigint x.toObjBigInt) x.value.toNat

/-- No division on the way to the power clamps a quotient digit: not that of
the base, nor that of the squared radix for an odd modulus, nor that of a
product for an even one. -/
structure ModPowUnclamped (base mod : ObjBigInt) (e : Nat) : Prop where
  reduction : NoClampedDigit base.limbs mod.limbs
  radix : magnitude mod.limbs % 2 = 1 →
    NoClampedDigit (replicate (mod.limbs.length * 2) 0 ++ [1]) mod.limbs
  products : magnitude mod.limbs % 2 = 0 → ∀ j k, Formed e j k →
    NoClampedDigit (Nat.digits limbBase (residue base mod j * residue base mod k)) mod.limbs

theorem montgomeryLaw_of_unclamped (hm : m.Normal) (hs : m.sign = 1)
    (hodd : magnitude m.limbs % 2 = 1)
    (hr2 : NoClampedDigit (replicate (m.limbs.length * 2) 0 ++ [1]) m.limbs) : MontgomeryLaw m where
  n0inv_lt := Nat.mod_lt _ (by decide)
  n0inv := (montCtxInit_ok hm hs hodd).inv
  r2 := (montCtxInit_r2 hm hs hr2).2.2
  product := by
    intro a b ha hb han hbn _ hlt
    obtain ⟨-, -, hr, hmod⟩ := montMul_spec (montCtxInit_ok hm hs hodd) ha hb han hbn (mul_lt_radix_mul ha han hlt)
    exact ⟨hr, hmod⟩

theorem modPowLaw_of_residue {base r : ObjBigInt} {e : Nat} (hm : m.Normal) (hs : m.sign = 1)
    (habs : |mod.value| = magnitude m.limbs) (hr : IsResidue base m e r) : ModPowLaw base mod e r := by
  obtain ⟨hn, hv⟩ := hr
  refine ⟨hn, fun z => ?_⟩
  have hpos := hm.isNormal.pos (hm.limbs_ne hs)
  rw [habs, hv, residue_cast hm hs]
  constructor
  · rintro rfl
    exact ⟨emod_nonneg _ (by omega), emod_lt_of_pos _ (by omega), mod_modEq _ _⟩
  · rintro ⟨h0, hlt, hz⟩
    rw [← hz.eq, emod_eq_of_lt h0 hlt]

theorem builtinModPowBigint_eq (base : ObjBigInt) (hs : (bigintAbsCloneValue mod).sign = 1)
    {exp : ModPowArg} {e : Nat} (hexp : IsExponent exp e) :
    ∃ x : Exponent, x.Ok ∧ x.value = e ∧ builtinModPowBigint (.bigint base) exp (.bigint mod) =
      bigintModPowValue base (bigintAbsCloneValue mod) x := by
  have hne : (bigintAbsCloneValue mod).sign ≠ 0 := by omega
  cases hexp with
  | int n h =>
    have hlt := n.toInt_lt
    refine ⟨.int n.toInt.toNat, ?_, rfl, ?_⟩
    · change n.toInt.toNat < 2 ^ 64
      omega
    · dsimp only [builtinModPowBigint]
      rw [if_neg hne, if_neg (Int64.not_lt.mpr h)]
  | bigint x h =>
    refine ⟨.bigint x.toObjBigInt, x.normal.isNormal, ?_, ?_⟩
    · change magnitude x.limbs = x.value.toNat
      rw [x.normal.magnitude_eq]
      omega
    · have hsign : ¬ x.sign < 0 := by
        rw [x.normal.sign_neg_iff]
        omega
      dsimp only [builtinModPowBigint]
      rw [if_neg hne, if_neg hsign]

theorem modPow_law (base mod : NormalBigInt) (hmod : mod.value ≠ 0) {exp : ModPowArg} {e : Nat}
    (hexp : IsExponent exp e) (hno : ModPowUnclamped base.toObjBigInt mod.toObjBigInt e) :
    ModPowLaw base.toObjBigInt mod.toObjBigInt e
        (builtinModPowBigint (.bigint base.toObjBigInt) exp (.bigint mod.toObjBigInt)) ∧
      (magnitude mod.limbs % 2 = 1 → MontgomeryLaw (bigintAbsCloneValue mod.toObjBigInt)) := by
  obtain ⟨hn, hs, hl⟩ := bigintAbsCloneValue_spec mod.normal hmod
  have habs : |mod.value| = magnitude (bigintAbsCloneValue mod.toObjBigInt).limbs := by
    rw [hl, mod.normal.magnitude_eq, natCast_natAbs]
  obtain ⟨hbase, hradix, hprod⟩ := hno
  rw [← hl] at hbase hradix ⊢
  have hprod' : magnitude (bigintAbsCloneValue mod.toObjBigInt).limbs % 2 = 0 → ∀ j k, Formed e j k →
      NoClampedDigit (Nat.digits limbBase (residue base.toObjBigInt (bigintAbsCloneValue mod.toObjBigInt) j *
        residue base.toObjBigInt (bigintAbsCloneValue mod.toObjBigInt) k))
        (bigintAbsCloneValue mod.toObjBigInt).limbs := by
    unfold residue at hprod ⊢
    rw [hl]
    exact hprod
  refine ⟨?_, fun hodd => montgomeryLaw_of_unclamped hn hs hodd (hradix hodd)⟩
  refine modPowLaw_of_residue hn hs habs ?_
  obtain ⟨x, hok, hval, hdef⟩ := builtinModPowBigint_eq base.toObjBigInt hs hexp
  rw [hdef, ← hval]
  rw [← hval] at hprod'
  exact bigintModPowValue_spec hn hs base.normal hok hbase hradix hprod'

def oddModulus : NormalBigInt :=
  ⟨⟨-1, [1, 1]⟩, by constructor <;> simp [IsLimbs, limbBase]⟩

def threeLimbBase : NormalBigInt :=
  ⟨⟨-1, [7, 0, 5]⟩, by constructor <;> simp [IsLimbs, limbBase]⟩

theorem modPow_law_oddModulus : ModPowLaw threeLimbBase.toObjBigInt oddModulus.toObjBigInt 3
        (builtinModPowBigint (.bigint threeLimbBase.toObjBigInt) (.int 3) (.bigint oddModulus.toObjBigInt)) ∧
      (magnitude oddModulus.limbs % 2 = 1 → MontgomeryLaw (bigintAbsCloneValue oddModulus.toObjBigInt)) := by
  refine modPow_law threeLimbBase oddModulus (by decide) (.int 3 (by decide)) ⟨?_, ?_, ?_⟩
  · decide +kernel
  · intro _
    decide +kernel
  · intro heven
    exact absurd heven (by decide)

def clampedBase : NormalBigInt :=
  ⟨⟨1, [0, 2147483647, 4294967295]⟩, by constructor <;> simp [IsLimbs, limbBase]⟩

def clampedModulus : NormalBigInt :=
  ⟨⟨1, [4294967295, 4294967295]⟩, by constructor <;> simp [IsLimbs, limbBase]⟩

/-- The first power of a base that is reduced with a clamped digit. -/
theorem modPow_clamped_fails :
    builtinModPowBigint (.bigint clampedBase.toObjBigInt) (.int 1) (.bigint clampedModulus.toObjBigInt) =
        ⟨1, [4294967294, 2147483647]⟩ ∧
      ¬ ModPowLaw clampedBase.toObjBigInt clampedModulus.toObjBigInt 1
        (builtinModPowBigint (.bigint clampedBase.toObjBigInt) (.int 1) (.bigint clampedModulus.toObjBigInt)) := by
  have heval : builtinModPowBigint (.bigint clampedBase.toObjBigInt) (.int 1)
      (.bigint clampedModulus.toObjBigInt) = ⟨1, [4294967294, 2147483647]⟩ := by decide +kernel
  refine ⟨heval, fun hlaw => ?_⟩
  have hmod := ((hlaw.unique _).mp rfl).2.2
  exact absurd hmod.eq (by decide +kernel)

end Tablo.Bigint
