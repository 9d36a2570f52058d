import Tablo.BigintText

/-! Printed big integers are read back, and the parser accepts the numerals it is
meant for. -/

namespace Tablo.Bigint

open List Nat

open Encoding (Byte Text)
open Globals (bigintMulAddSmallInplace bigintMulAddSmallInplace_spec)

/-! ### Numerals -/

def numeral (base : Nat) (digit : Byte → Nat) (t : Text) : Nat := Nat.ofDigits base (t.reverse.map digit)

variable {base : Nat} {digit : Byte → Nat}

theorem numeral_append (s t : Text) :
    numeral base digit (s ++ t) = numeral base digit s * base ^ t.length + numeral base digit t := by
  rw [numeral, reverse_append, map_append, ofDigits_append, length_map, length_reverse,
    add_comm, mul_comm]
  rfl

theorem numeral_concat (t : Text) (b : Byte) : numeral base digit (t ++ [b]) = numeral base digit t * base + digit b := by
  rw [numeral_append]
  simp [numeral]

theorem numeral_cons (b : Byte) (t : Text) :
    numeral base digit (b :: t) = digit b * base ^ t.length + numeral base digit t := by
  have h := @numeral_append base digit [b] t
  rw [singleton_append] at h
  rw [h]
  simp [numeral]

theorem numeral_lt {t : Text} (hbase : 1 < base) (h : ∀ b ∈ t, digit b < base) :
    numeral base digit t < base ^ t.length := by
  have hlt : ∀ d ∈ t.reverse.map digit, d < base := by
    intro d hd
    obtain ⟨b, hb, rfl⟩ := mem_map.mp hd
    exact h b (mem_reverse.mp hb)
  have hpow := ofDigits_lt_base_pow_length hbase hlt
  rwa [length_map, length_reverse] at hpow

theorem foldl_numeral (step : Nat → Byte → Nat) (limit : Nat)
    (hstep : ∀ v b, v * base + digit b < limit → step v b = v * base + digit b) (hbase : 0 < base) (t : Text)
    (hlt : numeral base digit t < limit) : t.foldl step 0 = numeral base digit t := by
  induction t using List.reverseRecOn with
  | nil => rfl
  | append_singleton t b ih =>
    rw [numeral_concat] at hlt ⊢
    have hle : numeral base digit t ≤ numeral base digit t * base := Nat.le_mul_of_pos_right _ hbase
    rw [foldl_append, ih (by omega)]
    exact hstep _ b hlt

theorem foldl_block {step : Nat → Byte → Nat} {limit : Nat} {t : Text} (hbase : 1 < base)
    (h : ∀ b ∈ t, digit b < base) (hpow : base ^ t.length ≤ limit)
    (hstep : ∀ v b, v * base + digit b < limit → step v b = v * base + digit b) :
    t.foldl step 0 = numeral base digit t ∧ t.foldl step 0 < limit := by
  have hlt := (numeral_lt hbase h).trans_le hpow
  have heq := foldl_numeral step limit hstep (zero_lt_of_lt hbase) t hlt
  exact ⟨heq, heq ▸ hlt⟩

def decimalDigit (b : Byte) : Nat := b.toNat - 48

def hexDigit (b : Byte) : Nat := (bigintHexDigitValue b).getD 0

inductive Literal : Text → Int → Prop
  | decimal {sign : Int} {s ds : Text} (hs : (sign, s) ∈ [((1 : Int), []), (1, [43]), (-1, [45])]) (hne : ds ≠ [])
      (hds : ∀ b ∈ ds, isDigit b = true) : Literal (s ++ ds) (sign * numeral 10 decimalDigit ds)
  | hex {sign : Int} {s ds : Text} {x : Byte} (hs : (sign, s) ∈ [((1 : Int), []), (1, [43]), (-1, [45])])
      (hx : x = 120 ∨ x = 88) (hne : ds ≠ []) (hds : ∀ b ∈ ds, (bigintHexDigitValue b).isSome = true) :
      Literal (s ++ 48 :: x :: ds) (sign * numeral 16 hexDigit ds)

theorem decimalDigit_lt {b : Byte} (h : isDigit b = true) : decimalDigit b < 10 := by
  simp only [isDigit, Bool.and_eq_true, decide_eq_true_eq] at h
  simp only [decimalDigit]
  omega

theorem hexDigit_lt (b : Byte) : hexDigit b < 16 := by
  simp only [hexDigit, bigintHexDigitValue]
  split_ifs <;> simp only [Option.getD_some, Option.getD_none] <;> omega

/-! ### Reading digits -/

variable {t : Text} {limbs : List Nat} {p : Text} {n v : Nat} {s : Text} {x : ObjBigInt} {format : Nat → Text}
  {l : List Nat}
  {w : Nat} (hlen : ∀ c < base ^ w, (format c).length = w) (hval : ∀ c < base ^ w, numeral base digit (format c) = c)
  {d : Nat}

theorem numeral_stripZeros (h0 : digit 48 = 0) (t : Text) :
    numeral base digit (stripZeros t) = numeral base digit t := by
  fun_induction stripZeros t with
  | case1 c r ih => rw [ih, numeral_cons 48, h0, Nat.zero_mul, Nat.zero_add]
  | case2 | case3 => rfl

theorem stripZeros_subset (t : Text) : ∀ b ∈ stripZeros t, b ∈ t := by
  fun_induction stripZeros t with
  | case1 c r ih => exact fun b hb => mem_cons_of_mem _ (ih b hb)
  | case2 | case3 => exact fun b hb => hb

theorem stripZeros_ne_nil (h : t ≠ []) : stripZeros t ≠ [] := by
  fun_induction stripZeros t with
  | case1 c r ih => exact ih (by simp)
  | case2 | case3 => exact h

abbrev Digits (t : Text) : Prop := ∀ b ∈ t, isDigit b = true

theorem decimalChunk_eq (hlen : t.length ≤ 9) (hds : Digits t) :
    decimalChunk t = numeral 10 decimalDigit t ∧ decimalChunk t < decBase := by
  refine foldl_block (by decide) (fun b hb => decimalDigit_lt (hds b hb)) ?_ ?_
  · exact Nat.pow_le_pow_right (by decide) hlen
  · intro v b hv
    exact mod_eq_of_lt (hv.trans (by decide))

/-- All chunks but the first have nine digits, and in front of the first stands nothing. -/
theorem decimalLoop_spec {k : Nat} (hl : IsNormal limbs) (hds : Digits p)
    (hk : 0 < k ∧ k ≤ 9) (hfirst : k = 9 ∨ limbs = []) (hlen : p ≠ [] → ∃ j, p.length = k + 9 * j) (hn : p.length ≤ n) :
    magnitude (decimalLoop n limbs k p) = magnitude limbs * 10 ^ p.length + numeral 10 decimalDigit p ∧
      IsNormal (decimalLoop n limbs k p) := by
  induction n generalizing limbs p k with
  | zero =>
    have hp : p = [] := eq_nil_of_length_eq_zero (by omega)
    subst hp
    simpa [decimalLoop, numeral] using hl
  | succ n ih =>
    rw [decimalLoop]
    split_ifs with hp
    · subst hp
      simpa [numeral] using hl
    · obtain ⟨j, hj⟩ := hlen hp
      have htake : (p.take k).length = k := length_take_of_le (by omega)
      have hdrop : (p.drop k).length = 9 * j := by
        rw [length_drop]
        omega
      obtain ⟨hchunk, hlt⟩ := decimalChunk_eq (htake.trans_le hk.2) fun b hb => hds b (mem_of_mem_take hb)
      obtain ⟨hmag, hnormal⟩ := bigintMulAddSmallInplace_spec hl (show decBase < limbBase by decide)
        (hlt.trans (show decBase < limbBase by decide))
      have hmore : p.drop k ≠ [] → ∃ j, (p.drop k).length = 9 + 9 * j := by
        intro hne
        have := length_pos_iff.mpr hne
        exact ⟨j - 1, by omega⟩
      obtain ⟨heq, hres⟩ := ih hnormal (fun b hb => hds b (mem_of_mem_drop hb)) (by decide) (.inl rfl) hmore (by omega)
      refine ⟨?_, hres⟩
      have hsplit : numeral 10 decimalDigit p =
          numeral 10 decimalDigit (p.take k) * 10 ^ (p.drop k).length + numeral 10 decimalDigit (p.drop k) := by
        rw [← numeral_append, take_append_drop]
      have hpow : magnitude limbs * 10 ^ p.length = magnitude limbs * decBase * 10 ^ (p.drop k).length := by
        rcases hfirst with rfl | rfl
        · rw [hdrop, hj, pow_add, mul_assoc]
          rfl
        · simp
      rw [heq, hmag, hsplit, hpow, hchunk, add_mul, add_assoc]

theorem decimal_spec (hne : p ≠ []) (hds : Digits p) :
    magnitude (decimalLoop p.length [] (firstDigits p.length) p) = numeral 10 decimalDigit p ∧
      IsNormal (decimalLoop p.length [] (firstDigits p.length) p) := by
  have hpos : 0 < p.length := length_pos_iff.mpr hne
  have hfirst : (0 < firstDigits p.length ∧ firstDigits p.length ≤ 9) ∧ ∃ j, p.length = firstDigits p.length + 9 * j := by
    rw [firstDigits]
    split_ifs with h
    · exact ⟨by omega, p.length / 9 - 1, by omega⟩
    · exact ⟨by omega, p.length / 9, by omega⟩
  have hspec := decimalLoop_spec ⟨isLimbs_nil, by simp⟩ hds hfirst.1 (.inr rfl) (fun _ => hfirst.2) le_rfl
  rwa [magnitude_nil, Nat.zero_mul, Nat.zero_add] at hspec

theorem hexLimb_eq (hlen : t.length ≤ 8) : hexLimb t = numeral 16 hexDigit t ∧ hexLimb t < limbBase := by
  refine foldl_block (by decide) (fun b _ => hexDigit_lt b) (Nat.pow_le_pow_right (by decide) hlen) ?_
  intro v b hv
  rw [mod_eq_of_lt (by omega)]
  rfl

theorem hexLoop_spec (hn : p.length ≤ n) :
    magnitude (hexLoop n p) = numeral 16 hexDigit p ∧ IsLimbs (hexLoop n p) := by
  induction n generalizing p with
  | zero =>
    have hp : p = [] := eq_nil_of_length_eq_zero (by omega)
    subst hp
    exact ⟨rfl, isLimbs_nil⟩
  | succ n ih =>
    rw [hexLoop]
    split_ifs with hp
    · subst hp
      exact ⟨rfl, isLimbs_nil⟩
    · have hdrop : (p.drop (p.length - 8)).length = min 8 p.length := by
        rw [length_drop]
        omega
      obtain ⟨hlimb, hlt⟩ := hexLimb_eq (hdrop.trans_le (min_le_left _ _))
      have htake : (p.take (p.length - 8)).length ≤ n := by
        rw [length_take]
        omega
      obtain ⟨heq, hl⟩ := ih htake
      refine ⟨?_, isLimbs_cons.mpr ⟨hlt, hl⟩⟩
      have hsplit : numeral 16 hexDigit p = numeral 16 hexDigit (p.take (p.length - 8)) *
          16 ^ (p.drop (p.length - 8)).length + numeral 16 hexDigit (p.drop (p.length - 8)) := by
        rw [← numeral_append, take_append_drop]
      rw [magnitude_cons, heq, hlimb, hsplit, hdrop, add_comm, mul_comm]
      by_cases h8 : 8 ≤ p.length
      · rw [min_eq_left h8]
        rfl
      · have h0 : p.take (p.length - 8) = [] := by
          rw [show p.length - 8 = 0 by omega, take_zero]
        have hz : numeral 16 hexDigit [] = 0 := rfl
        rw [h0, hz, Nat.zero_mul, Nat.zero_mul]

/-! ### The parser -/

inductive Unsigned : Text → Nat → Prop
  | decimal {ds : Text} (hne : ds ≠ []) (hds : ∀ b ∈ ds, isDigit b = true) : Unsigned ds (numeral 10 decimalDigit ds)
  | hex {ds : Text} {x : Byte} (hx : x = 120 ∨ x = 88) (hne : ds ≠ [])
      (hds : ∀ b ∈ ds, (bigintHexDigitValue b).isSome = true) : Unsigned (48 :: x :: ds) (numeral 16 hexDigit ds)

theorem stripped_zero (h0 : digit 48 = 0) (h : stripZeros p = [48]) : numeral base digit p = 0 := by
  rw [← numeral_stripZeros h0 p, h, numeral_cons, h0]
  rfl

theorem parseMagnitude_of_unsigned (h : Unsigned p v) :
    ∃ limbs, parseMagnitude p = some limbs ∧ magnitude limbs = v ∧ IsLimbs limbs := by
  cases h with
  | decimal hne hds =>
    have hhead : ¬ (p.head? = some 48 ∧ (p.tail.head? = some 120 ∨ p.tail.head? = some 88)) := by
      rintro ⟨-, hx⟩
      cases p with
      | nil => exact hne rfl
      | cons b r =>
        cases r with
        | nil => simp at hx
        | cons c r =>
          have hc := hds c (by simp)
          simp only [tail_cons, head?_cons, Option.some.injEq] at hx
          rcases hx with rfl | rfl <;> exact absurd hc (by decide)
    have hany : ¬ (p.any fun b => !isDigit b) = true := by
      simpa using hds
    rw [parseMagnitude, if_neg hne, if_neg hhead]
    dsimp only
    split_ifs with hz
    · exact ⟨[], rfl, (stripped_zero rfl hz).symm, isLimbs_nil⟩
    · obtain ⟨hmag, hl⟩ := decimal_spec (stripZeros_ne_nil hne) fun b hb => hds b (stripZeros_subset p b hb)
      exact ⟨_, rfl, by rw [hmag, numeral_stripZeros rfl], hl.limbs⟩
  | @hex ds x hx hne hds =>
    have hhead : (48 :: x :: ds).head? = some 48 ∧
        ((48 :: x :: ds).tail.head? = some 120 ∨ (48 :: x :: ds).tail.head? = some 88) := by
      simpa using hx
    have hany : ¬ (ds.any fun b => (bigintHexDigitValue b).isNone) = true := by
      simpa [Option.isSome_iff_ne_none] using hds
    have hdrop : List.drop 2 (48 :: x :: ds) = ds := rfl
    rw [parseMagnitude, if_neg (by simp), hdrop, if_neg hne]
    dsimp only
    split_ifs with hz
    · exact ⟨[], rfl, (stripped_zero rfl hz).symm, isLimbs_nil⟩
    · obtain ⟨hmag, hl⟩ := hexLoop_spec (le_refl (stripZeros ds).length)
      exact ⟨_, rfl, by rw [hmag, numeral_stripZeros rfl], hl⟩

theorem unsigned_of_parseMagnitude (h : parseMagnitude p = some limbs) : ∃ v, Unsigned p v := by
  rw [parseMagnitude] at h
  split_ifs at h with hnil hhead hany hdigits
  · dsimp only at h
    split_ifs at h with hrest hall
    all_goals
      obtain ⟨h48, hx⟩ := hhead
      obtain ⟨b, r, rfl⟩ := exists_cons_of_ne_nil hnil
      cases r with
      | nil => simp at hx
      | cons x ds =>
        simp only [head?_cons, tail_cons, Option.some.injEq] at h48 hx
        subst h48
        exact ⟨_, .hex hx (by simpa using hrest) (by simpa [Option.isSome_iff_ne_none] using hall)⟩
  · exact ⟨_, .decimal hnil (by simpa using hany)⟩

theorem Unsigned.head_digit (h : Unsigned p v) : ∃ b r, p = b :: r ∧ isDigit b = true := by
  cases h with
  | decimal hne hds =>
    obtain ⟨b, r, rfl⟩ := exists_cons_of_ne_nil hne
    exact ⟨b, r, rfl, hds b mem_cons_self⟩
  | hex hx hne hds => exact ⟨48, _, rfl, by decide⟩

theorem literal_of_unsigned {sign : Int} {k : Nat}
    (hs : (sign, t) ∈ [((1 : Int), []), (1, [43]), (-1, [45])]) (hp : Unsigned p k) : Literal (t ++ p) (sign * k) := by
  cases hp with
  | decimal hne hds => exact .decimal hs hne hds
  | hex hx hne hds => exact .hex hs hx hne hds

theorem literal_iff {v : Int} : Literal s v ↔ ∃ k, Unsigned (splitSign s).2 k ∧ v = (splitSign s).1 * k := by
  constructor
  · intro h
    obtain ⟨sign, t, p, k, hs, hp, rfl, rfl⟩ : ∃ (sign : Int) (t p : Text) (k : Nat),
        (sign, t) ∈ [((1 : Int), []), (1, [43]), (-1, [45])] ∧ Unsigned p k ∧ s = t ++ p ∧ v = sign * k := by
      cases h with
      | decimal hs hne hds => exact ⟨_, _, _, _, hs, .decimal hne hds, rfl, rfl⟩
      | hex hs hx hne hds => exact ⟨_, _, _, _, hs, .hex hx hne hds, rfl, rfl⟩
    obtain ⟨b, r, rfl, hb⟩ := hp.head_digit
    have h45 : b ≠ 45 := by
      rintro rfl
      exact absurd hb (by decide)
    have h43 : b ≠ 43 := by
      rintro rfl
      exact absurd hb (by decide)
    simp only [mem_cons, not_mem_nil, or_false] at hs
    rcases hs with ⟨rfl, rfl⟩ | ⟨rfl, rfl⟩ | ⟨rfl, rfl⟩
    · have hsplit : splitSign ([] ++ b :: r) = (1, b :: r) := by
        rw [nil_append, splitSign, head?_cons, if_neg (fun h => h45 (Option.some.inj h)),
          if_neg (fun h => h43 (Option.some.inj h))]
      rw [hsplit]
      exact ⟨k, hp, rfl⟩
    · exact ⟨k, hp, rfl⟩
    · exact ⟨k, hp, rfl⟩
  · rintro ⟨k, hp, rfl⟩
    obtain ⟨t, hs, ht⟩ : ∃ t, ((splitSign s).1, t) ∈ [((1 : Int), []), (1, [43]), (-1, [45])] ∧
        s = t ++ (splitSign s).2 := by
      rw [splitSign]
      split_ifs with h45 h43
      · obtain ⟨r, rfl⟩ := head?_eq_some_iff.mp h45
        exact ⟨[45], by simp, rfl⟩
      · obtain ⟨r, rfl⟩ := head?_eq_some_iff.mp h43
        exact ⟨[43], by simp, rfl⟩
      · exact ⟨[], by simp, rfl⟩
    have hlit := literal_of_unsigned hs hp
    rwa [← ht] at hlit

theorem ObjBigInt.Normal.eq_of_value {y : ObjBigInt} (hx : x.Normal) (hy : y.Normal) (h : x.value = y.value) : x = y := by
  have hmag : magnitude x.limbs = magnitude y.limbs := by rw [hx.magnitude_eq, hy.magnitude_eq, h]
  have hlimbs : x.limbs = y.limbs := by rw [hx.isNormal.eq_digits, hy.isNormal.eq_digits, hmag]
  have hsign : x.sign = y.sign := by
    have hneg := hx.sign_neg_iff
    have hneg' := hy.sign_neg_iff
    rcases hx.sign_eq with ⟨hs, hl⟩ | ⟨hs, hl⟩ <;> rcases hy.sign_eq with ⟨hs', hl'⟩ | ⟨hs', hl'⟩
    · rw [hs, hs']
    · exact absurd (hlimbs ▸ hl) hl'
    · exact absurd (hlimbs ▸ hl') hl
    · omega
  obtain ⟨sx, lx⟩ := x
  simp only at hsign hlimbs
  rw [hsign, hlimbs]

theorem tryFromString_of_literal {v : Int} (h : Literal s v) :
    ∃ x, objBigintTryFromString s = some x ∧ x.Normal ∧ x.value = v := by
  obtain ⟨k, hp, rfl⟩ := literal_iff.mp h
  obtain ⟨limbs, hparse, hmag, hl⟩ := parseMagnitude_of_unsigned hp
  have hsign : (splitSign s).1 = 1 ∨ (splitSign s).1 = -1 := by
    rw [splitSign]
    split_ifs
    · exact .inr rfl
    · exact .inl rfl
    · exact .inl rfl
  refine ⟨bigintFromLimbs (if limbs = [] then 0 else (splitSign s).1) limbs, ?_, bigintFromLimbs_normal hl _, ?_⟩
  · rw [objBigintTryFromString, bigintParseString, hparse]
    rfl
  · rw [bigintFromLimbs_value hsign, hmag]

theorem literal_of_tryFromString (h : objBigintTryFromString s = some x) : ∃ v, Literal s v := by
  obtain ⟨⟨sign, limbs⟩, hparse, -⟩ := Option.bind_eq_some_iff.mp h
  obtain ⟨limbs', hmag, -⟩ := Option.bind_eq_some_iff.mp hparse
  obtain ⟨k, hp⟩ := unsigned_of_parseMagnitude hmag
  exact ⟨_, literal_iff.mpr ⟨k, hp, rfl⟩⟩

theorem objBigintTryFromString_iff (s : Text) (x : ObjBigInt) :
    objBigintTryFromString s = some x ↔ x.Normal ∧ Literal s x.value := by
  constructor
  · intro h
    obtain ⟨v, hv⟩ := literal_of_tryFromString h
    obtain ⟨y, hy, hnormal, hval⟩ := tryFromString_of_literal hv
    rw [h] at hy
    cases hy
    exact ⟨hnormal, hval ▸ hv⟩
  · rintro ⟨hnormal, hlit⟩
    obtain ⟨y, hy, hynormal, hval⟩ := tryFromString_of_literal hlit
    rw [hy, hynormal.eq_of_value hnormal hval]

/-! ### Printed digits -/

include hlen hval

theorem numeral_blocks (hl : ∀ c ∈ l, c < base ^ w) :
    numeral base digit (l.reverse.map format).flatten = ofDigits (base ^ w) l ∧
      (l.reverse.map format).flatten.length = w * l.length := by
  induction l with
  | nil => exact ⟨rfl, rfl⟩
  | cons c l ih =>
    have hc := hl c mem_cons_self
    obtain ⟨hnum, hcount⟩ := ih fun d hd => hl d (mem_cons_of_mem _ hd)
    rw [reverse_cons, map_append, flatten_append, map_singleton, flatten_singleton]
    constructor
    · rw [numeral_append, hnum, hlen c hc, hval c hc, ofDigits_cons, mul_comm, add_comm]
    · rw [length_append, hcount, hlen c hc, length_cons, mul_succ]

theorem numeral_top (hne : l ≠ []) (hl : ∀ c ∈ l, c < base ^ w) {top : Text}
    (htop : numeral base digit top = l.getLastD 0) :
    numeral base digit (top ++ (l.dropLast.reverse.map format).flatten) = ofDigits (base ^ w) l := by
  have hsplit : l.dropLast ++ [l.getLastD 0] = l := by
    rw [getLastD_eq_getLast?, getLast?_eq_getLast_of_ne_nil hne]
    exact dropLast_append_getLast hne
  obtain ⟨hnum, hcount⟩ := numeral_blocks hlen hval fun c hc => hl c (dropLast_subset l hc)
  rw [numeral_append, hnum, hcount, htop]
  conv_rhs => rw [← hsplit, ofDigits_append, ofDigits_singleton]
  rw [pow_mul, mul_comm, add_comm]

omit hlen hval

theorem decimalDigit_digitChar (h : d < 10) : decimalDigit (digitChar d) = d := by
  rw [decimalDigit, digitChar, BitVec.toNat_ofNat]
  omega

theorem isDigit_digitChar (h : d < 10) : isDigit (digitChar d) = true := by
  have hval : (digitChar d).toNat = 48 + d := by
    rw [digitChar, BitVec.toNat_ofNat]
    omega
  simp only [isDigit, Bool.and_eq_true, decide_eq_true_eq]
  omega

theorem formatU_digits (v : Nat) : Digits (formatU v) := by
  intro b hb
  rw [formatU] at hb
  split_ifs at hb
  · rw [mem_singleton.mp hb]
    decide
  · obtain ⟨d, hd, rfl⟩ := mem_map.mp (mem_reverse.mp hb)
    exact isDigit_digitChar (digits_lt_base (by decide) hd)

theorem numeral_formatU (v : Nat) : numeral 10 decimalDigit (formatU v) = v := by
  rw [formatU]
  split_ifs with h0
  · rw [h0]
    rfl
  · have hmap : ((digits 10 v).map digitChar).map decimalDigit = digits 10 v := by
      rw [map_map]
      refine (map_congr_left fun d hd => ?_).trans (map_id _)
      exact decimalDigit_digitChar (digits_lt_base (by decide) hd)
    rw [numeral, reverse_reverse, hmap, ofDigits_digits]

theorem length_formatU (h : v < 10 ^ 9) : (formatU v).length ≤ 9 := by
  rw [formatU]
  split_ifs
  · decide
  · rw [length_reverse, length_map]
    exact (digits_length_le_iff (by decide) v).mpr h

theorem length_formatU9 (h : v < 10 ^ 9) : (formatU9 v).length = 9 := by
  have hle := length_formatU h
  rw [formatU9, length_append, length_replicate]
  omega

theorem numeral_replicate_zero (n : Nat) : numeral 10 decimalDigit (List.replicate n 48) = 0 := by
  induction n with
  | zero => rfl
  | succ n ih =>
    have hzero : decimalDigit 48 = 0 := rfl
    rw [replicate_succ, numeral_cons, ih, hzero, Nat.zero_mul]

theorem numeral_formatU9 (v : Nat) : numeral 10 decimalDigit (formatU9 v) = v := by
  rw [formatU9, numeral_append, numeral_replicate_zero, Nat.zero_mul, Nat.zero_add, numeral_formatU]

theorem formatU9_digits (v : Nat) : Digits (formatU9 v) := by
  intro b hb
  rcases mem_append.mp hb with hb | hb
  · rw [eq_of_mem_replicate hb]
    decide
  · exact formatU_digits v b hb

theorem length_formatU_eq (h0 : v ≠ 0) (h : v < 10 ^ 9) : (formatU v).length = bigintDigitsU32 v := by
  have hlen : (formatU v).length = (digits 10 v).length := by
    rw [formatU, if_neg h0, length_reverse, length_map]
  have hexact : ∀ k, 10 ^ k ≤ v → v < 10 ^ (k + 1) → (formatU v).length = k + 1 := by
    intro k hlo hhi
    have h1 := (digits_length_le_iff (show 1 < 10 by decide) v).mpr hhi
    have h2 := (lt_digits_length_iff (show 1 < 10 by decide) v).mpr hlo
    omega
  rw [bigintDigitsU32]
  split_ifs with h9 h8 h7 h6 h5 h4 h3 h2
  · exact hexact 8 h9 h
  · exact hexact 7 h8 (Nat.lt_of_not_le h9)
  · exact hexact 6 h7 (Nat.lt_of_not_le h8)
  · exact hexact 5 h6 (Nat.lt_of_not_le h7)
  · exact hexact 4 h5 (Nat.lt_of_not_le h6)
  · exact hexact 3 h4 (Nat.lt_of_not_le h5)
  · exact hexact 2 h3 (Nat.lt_of_not_le h4)
  · exact hexact 1 h2 (Nat.lt_of_not_le h3)
  · exact hexact 0 (by rw [pow_zero]; omega) (Nat.lt_of_not_le h2)

theorem formatU_head (h0 : v ≠ 0) : (formatU v).head? ≠ some 48 := by
  rw [formatU, if_neg h0, head?_reverse, getLast?_map]
  intro h
  obtain ⟨d, hd, hchar⟩ := Option.map_eq_some_iff.mp h
  have hne : digits 10 v ≠ [] := digits_ne_nil_iff_ne_zero.mpr h0
  have hlast := getLast_digit_ne_zero 10 h0
  rw [getLast?_eq_getLast_of_ne_nil hne, Option.some.injEq] at hd
  have hlt : d < 10 := by
    rw [← hd]
    exact digits_lt_base (by decide) (getLast_mem hne)
  have hdec := decimalDigit_digitChar hlt
  rw [hchar] at hdec
  rw [hd] at hlast
  exact hlast hdec.symm

theorem chunkLoop_eq {work : List Nat} (h : IsNormal work) (hfuel : magnitude work < decBase ^ n) :
    chunkLoop n work = digits decBase (magnitude work) := by
  induction n generalizing work with
  | zero =>
    have h0 : magnitude work = 0 := by simpa using hfuel
    rw [h0]
    rfl
  | succ n ih =>
    rw [chunkLoop]
    split_ifs with hnil
    · subst hnil
      rfl
    · obtain ⟨hq, hr, hl⟩ := bigintDivmodSmall_spec (show 0 < decBase by decide) (show decBase ≤ limbBase by decide)
        h.limbs
      have hnormal : IsNormal (bigintDivmodSmall work decBase).1 := ⟨hl, trimmed_last_ne _⟩
      have hless : magnitude (bigintDivmodSmall work decBase).1 < decBase ^ n := by
        rw [hq]
        apply Nat.div_lt_of_lt_mul
        rwa [← pow_succ']
      rw [ih hnormal hless, hq, hr, digits_def' (show 1 < decBase by decide) (h.pos hnil)]

theorem chunks_eq (h : IsNormal limbs) : chunks limbs = digits decBase (magnitude limbs) := by
  apply chunkLoop_eq h
  calc magnitude limbs < limbBase ^ limbs.length := magnitude_lt h.limbs
    _ ≤ (decBase ^ 2) ^ limbs.length := Nat.pow_le_pow_left (by decide) _
    _ = decBase ^ (limbs.length * 2) := by rw [← pow_mul, mul_comm]
    _ ≤ decBase ^ (limbs.length * 2 + 1) := Nat.pow_le_pow_right (by decide) (le_succ _)

def decimalText (limbs : List Nat) : Text :=
  formatU ((chunks limbs).getLastD 0) ++ ((chunks limbs).dropLast.reverse.map formatU9).flatten

section Decimal

variable {limbs : List Nat} (h : IsNormal limbs) (hne : limbs ≠ [])

include h hne

theorem chunks_ne_nil : chunks limbs ≠ [] := by
  rw [chunks_eq h]
  exact digits_ne_nil_iff_ne_zero.mpr (h.pos hne).ne'

theorem chunks_lt : ∀ c ∈ chunks limbs, c < 10 ^ 9 := by
  intro c hc
  rw [chunks_eq h] at hc
  exact digits_lt_base (by decide) hc

theorem chunks_top : (chunks limbs).getLastD 0 ≠ 0 ∧ (chunks limbs).getLastD 0 < 10 ^ 9 := by
  have hnil := chunks_ne_nil h hne
  have hlast : (chunks limbs).getLastD 0 = (chunks limbs).getLast hnil := by
    rw [getLastD_eq_getLast?, getLast?_eq_getLast_of_ne_nil hnil, Option.getD_some]
  rw [hlast]
  refine ⟨?_, chunks_lt h hne _ (getLast_mem hnil)⟩
  have hdigit := getLast_digit_ne_zero decBase (h.pos hne).ne'
  simpa only [chunks_eq h] using hdigit

theorem numeral_decimalText : numeral 10 decimalDigit (decimalText limbs) = magnitude limbs := by
  have htop := numeral_top (fun c hc => length_formatU9 hc) (fun c _ => numeral_formatU9 c) (chunks_ne_nil h hne)
    (chunks_lt h hne) (numeral_formatU ((chunks limbs).getLastD 0))
  rw [decimalText, htop, chunks_eq h]
  exact ofDigits_digits decBase (magnitude limbs)

theorem length_decimalText :
    (decimalText limbs).length = ((chunks limbs).length - 1) * 9 + bigintDigitsU32 ((chunks limbs).getLastD 0) := by
  obtain ⟨htop0, htop⟩ := chunks_top h hne
  obtain ⟨-, hcount⟩ := numeral_blocks (fun c hc => length_formatU9 hc) (fun c _ => numeral_formatU9 c)
    (fun c hc => chunks_lt h hne c (dropLast_subset (chunks limbs) hc))
  rw [decimalText, length_append, hcount, length_formatU_eq htop0 htop, length_dropLast, add_comm, mul_comm]

theorem decimalText_head : (decimalText limbs).head? ≠ some 48 := by
  have hhead := formatU_head (chunks_top h hne).1
  rw [decimalText, head?_append]
  cases htext : (formatU ((chunks limbs).getLastD 0)).head? with
  | none =>
    have hnum := numeral_formatU ((chunks limbs).getLastD 0)
    rw [head?_eq_none_iff.mp htext] at hnum
    exact absurd hnum.symm (chunks_top h hne).1
  | some b => rwa [htext] at hhead

end Decimal

theorem decimalText_digits (limbs : List Nat) : Digits (decimalText limbs) := by
  intro b hb
  rcases mem_append.mp hb with hb | hb
  · exact formatU_digits _ b hb
  · obtain ⟨t, ht, hbt⟩ := mem_flatten.mp hb
    obtain ⟨c, -, rfl⟩ := mem_map.mp ht
    exact formatU9_digits c b hbt

/-! ### Printed nibbles -/

theorem hexChar_some (h : d < 16) : bigintHexDigitValue (hexChar d) = some d := by
  rw [hexChar]
  split_ifs with h10
  · have hval : (BitVec.ofNat 8 (48 + d)).toNat = 48 + d := by
      rw [BitVec.toNat_ofNat]
      omega
    rw [bigintHexDigitValue, hval, if_pos (by omega), Nat.add_sub_cancel_left]
  · have hval : (BitVec.ofNat 8 (87 + d)).toNat = 87 + d := by
      rw [BitVec.toNat_ofNat]
      omega
    rw [bigintHexDigitValue, if_neg (by omega), if_pos (by omega)]
    congr 1
    omega

theorem nibble_lt (v i : Nat) : nibble v i < 16 := mod_lt _ (by decide)

theorem nibbles_succ (v n : Nat) : nibbles v (n + 1) = hexChar (nibble v n) :: nibbles v n := by
  rw [nibbles, range_succ, map_append, reverse_append]
  rfl

theorem length_nibbles (v n : Nat) : (nibbles v n).length = n := by
  rw [nibbles, length_reverse, length_map, length_range]

theorem numeral_nibbles (v n : Nat) : numeral 16 hexDigit (nibbles v n) = v % 16 ^ n := by
  induction n with
  | zero =>
    rw [pow_zero, mod_one]
    rfl
  | succ n ih =>
    have hdigit : hexDigit (hexChar (nibble v n)) = nibble v n := by
      rw [hexDigit, hexChar_some (nibble_lt v n), Option.getD_some]
    rw [nibbles_succ, numeral_cons, hdigit, ih, length_nibbles, mod_pow_succ, nibble, mul_comm, add_comm]

theorem nibbles_hex (v n : Nat) : ∀ b ∈ nibbles v n, (bigintHexDigitValue b).isSome = true := by
  intro b hb
  obtain ⟨i, -, rfl⟩ := mem_map.mp (mem_reverse.mp hb)
  rw [hexChar_some (nibble_lt v i)]
  rfl

theorem msNibbles_spec {ms : Nat} (h : ms < 16 ^ n) (hn : 0 < n) : ms < 16 ^ msNibbles ms n ∧ 0 < msNibbles ms n := by
  induction n with
  | zero => omega
  | succ n ih =>
    rw [msNibbles]
    split_ifs with hz
    · have hdiv : ms / 16 ^ n < 16 := by
        apply Nat.div_lt_of_lt_mul
        rwa [← pow_succ]
      have hz0 : ms / 16 ^ n = 0 := by
        have := hz.2
        rwa [nibble, mod_eq_of_lt hdiv] at this
      exact ih ((div_eq_zero_iff_lt (by positivity)).mp hz0) hz.1
    · exact ⟨h, succ_pos n⟩

def hexText (limbs : List Nat) : Text :=
  nibbles (limbs.getLastD 0) (msNibbles (limbs.getLastD 0) 8) ++
    (limbs.dropLast.reverse.map fun limb => nibbles limb 8).flatten

theorem numeral_hexText (h : IsNormal limbs) (hne : limbs ≠ []) :
    numeral 16 hexDigit (hexText limbs) = magnitude limbs ∧ hexText limbs ≠ [] := by
  have htop : limbs.getLastD 0 < 16 ^ 8 := by
    rw [getLastD_eq_getLast?, getLast?_eq_getLast_of_ne_nil hne]
    exact h.limbs _ (getLast_mem hne)
  obtain ⟨hms, hpos⟩ := msNibbles_spec htop (by decide)
  constructor
  · have hval : ∀ c < 16 ^ 8, numeral 16 hexDigit (nibbles c 8) = c := by
      intro c hc
      rw [numeral_nibbles, mod_eq_of_lt hc]
    have htext : numeral 16 hexDigit (nibbles (limbs.getLastD 0) (msNibbles (limbs.getLastD 0) 8)) =
        limbs.getLastD 0 := by rw [numeral_nibbles, mod_eq_of_lt hms]
    exact numeral_top (fun c _ => length_nibbles c 8) hval hne (fun c hc => h.limbs c hc) htext
  · intro hnil
    have hlen := congrArg List.length hnil
    rw [hexText, length_append, length_nibbles, length_nil] at hlen
    omega

theorem hexText_hex (limbs : List Nat) : ∀ b ∈ hexText limbs, (bigintHexDigitValue b).isSome = true := by
  intro b hb
  rcases mem_append.mp hb with hb | hb
  · exact nibbles_hex _ _ b hb
  · obtain ⟨t, ht, hbt⟩ := mem_flatten.mp hb
    obtain ⟨c, -, rfl⟩ := mem_map.mp ht
    exact nibbles_hex c 8 b hbt

/-! ### Both ways -/

theorem mem_signs (h : x.Normal) (hne : x.limbs ≠ []) :
    (x.sign, signText x.sign) ∈ [((1 : Int), []), (1, [43]), (-1, [45])] := by
  rcases h.sign_eq with ⟨-, hl⟩ | ⟨hs | hs, -⟩
  · exact absurd hl hne
  · rw [hs]
    decide
  · rw [hs]
    decide

theorem literal_toString (h : x.Normal) : Literal (objBigintToString x) x.value := by
  rw [objBigintToString]
  split_ifs with hnil
  · have hzero : x.value = 1 * numeral 10 decimalDigit [48] := by
      rw [ObjBigInt.value, hnil]
      simp [numeral, decimalDigit]
    rw [hzero]
    exact @Literal.decimal 1 [] [48] (by decide) (by decide) (by decide)
  · rw [ObjBigInt.value, ← numeral_decimalText h.isNormal hnil]
    have htext : decimalText x.limbs ≠ [] := by
      intro htext
      have hnum := numeral_decimalText h.isNormal hnil
      rw [htext] at hnum
      exact (h.isNormal.pos hnil).ne hnum
    exact .decimal (mem_signs h hnil) htext (decimalText_digits x.limbs)

theorem literal_toHexString (h : x.Normal) : Literal (objBigintToHexString x) x.value := by
  rw [objBigintToHexString]
  split_ifs with hnil
  · have hzero : x.value = 1 * numeral 16 hexDigit [48] := by
      rcases hnil with hnil | hnil
      · rw [ObjBigInt.value, hnil]
        simp [numeral, hexDigit, bigintHexDigitValue]
      · rw [h.value_eq_zero.mpr hnil]
        simp [numeral, hexDigit, bigintHexDigitValue]
    rw [hzero]
    exact @Literal.hex 1 [] [48] 120 (by decide) (.inl rfl) (by decide) (by decide)
  · have hne : x.limbs ≠ [] := fun h => hnil (.inl h)
    obtain ⟨hnum, htext⟩ := numeral_hexText h.isNormal hne
    rw [ObjBigInt.value, ← hnum]
    exact .hex (mem_signs h hne) (.inl rfl) htext (hexText_hex x.limbs)

theorem toString_digits (h : x.Normal) :
    ∃ ds, objBigintToString x = signText x.sign ++ ds ∧ ds.length = objBigintDecimalDigits x ∧
      (∀ b ∈ ds, isDigit b = true) ∧ (ds.head? = some 48 → ds = [48]) := by
  rw [objBigintToString, objBigintDecimalDigits]
  split_ifs with hnil
  · have hs : signText x.sign = [] := by rw [h.sign_eq_zero.mpr hnil]; rfl
    exact ⟨[48], by rw [hs]; rfl, rfl, by decide, fun _ => rfl⟩
  · exact ⟨decimalText x.limbs, rfl, length_decimalText h.isNormal hnil, decimalText_digits x.limbs,
      fun hhead => absurd hhead (decimalText_head h.isNormal hnil)⟩

theorem bigint_text_exact (x : NormalBigInt) (s : Text) (y : ObjBigInt) :
    objBigintTryFromString (objBigintToString x.toObjBigInt) = some x.toObjBigInt ∧
    objBigintTryFromString (objBigintToHexString x.toObjBigInt) = some x.toObjBigInt ∧
    (∃ ds, objBigintToString x.toObjBigInt = signText x.sign ++ ds ∧
      ds.length = objBigintDecimalDigits x.toObjBigInt ∧ (∀ b ∈ ds, isDigit b = true) ∧
      (ds.head? = some 48 → ds = [48])) ∧
    ((∃ z, objBigintTryFromString s = some z) ↔ ∃ v, Literal s v) ∧
    (objBigintTryFromString s = some y ↔ y.Normal ∧ Literal s y.value) := by
  refine ⟨?_, ?_, toString_digits x.normal, ⟨?_, ?_⟩, objBigintTryFromString_iff s y⟩
  · exact (objBigintTryFromString_iff _ _).mpr ⟨x.normal, literal_toString x.normal⟩
  · exact (objBigintTryFromString_iff _ _).mpr ⟨x.normal, literal_toHexString x.normal⟩
  · rintro ⟨z, hz⟩
    exact literal_of_tryFromString hz
  · rintro ⟨v, hv⟩
    obtain ⟨z, hz, -⟩ := tryFromString_of_literal hv
    exact ⟨z, hz⟩

end Tablo.Bigint
