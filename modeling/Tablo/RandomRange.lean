import Tablo.BigintArith
import Mathlib.Data.Int.CardIntervalMod

/-! Random integers and big integers of a range. A source is the list of its draws, with `none` where the operating
system fails; the generator of the `_sfc` functions never fails. -/

namespace Tablo.RandomRange

open Bigint List BitVec

/-- The loops end with the first draw that fails or is not rejected. -/
def firstAccepted {α : Type} (rejects : α → Bool) (draws : List (Option α)) : Option α :=
  (draws.find? fun draw => draw.all fun r => !rejects r).join

def u64Limit (span : BitVec 64) : BitVec 64 := allOnes 64 - allOnes 64 % span

def randomU64Range (span : BitVec 64) (draws : List (Option (BitVec 64))) : Option (BitVec 64) :=
  if span = 0 then draws.head?.join else (firstAccepted (u64Limit span ≤ ·) draws).map (· % span)

def randomIntRange (a b : BitVec 64) (draws : List (Option (BitVec 64))) : Option (BitVec 64) :=
  let min := if b.toInt < a.toInt then b else a
  let max := if b.toInt < a.toInt then a else b
  let span := max - min + 1
  if span = 0 then draws.head?.join else (randomU64Range span draws).map (· + min)

def topBits (top : Nat) : Nat := if top = 0 then 0 else topBits (top / 2) + 1

def bigintBitLengthUpper (x : ObjBigInt) : Nat :=
  if x.limbs = [] then 0 else (x.limbs.length - 1) * 32 + topBits (x.limbs.getLastD 0)

variable (bytes : List UInt8) (bits : Nat) (a b : ObjBigInt)

def limbOf : Nat := bytes.foldr (fun byte limb => limb <<< 8 ||| byte.toNat) 0

def limbsOf (bytes : List UInt8) : List Nat :=
  if bytes = [] then [] else limbOf (bytes.take 4) :: limbsOf (bytes.drop 4)
termination_by bytes.length
decreasing_by
  have := List.length_pos_iff.mpr ‹¬bytes = []›
  grind

def bigintFromBytesBe : ObjBigInt := bigintFromLimbs 1 (limbsOf bytes.reverse)

def byteLen : Nat := (bits + 7) / 8

/-- The bits of the first byte that are not asked for are cleared. -/
def clearExtra : List UInt8 → List UInt8
  | [] => []
  | byte :: bytes => (byte &&& (0xFF >>> UInt8.ofNat (byteLen bits * 8 - bits))) :: bytes

/-- A draw gives the bytes the buffer is filled with. -/
def randomBigintBits (draw : Nat → UInt8) : ObjBigInt :=
  bigintFromBytesBe (clearExtra bits ((List.range (byteLen bits)).map draw))

def bounds : ObjBigInt × ObjBigInt := if objBigintCompare a b > 0 then (b, a) else (a, b)

def bigintSpan : ObjBigInt :=
  objBigintAdd (objBigintSub (bounds a b).2 (bounds a b).1) (objBigintFromInt64 1)

def randomBigintRange (draws : List (Option (Nat → UInt8))) : Option ObjBigInt :=
  if objBigintCompare (bounds a b).1 (bounds a b).2 = 0 then some (bounds a b).1
  else (firstAccepted (0 ≤ objBigintCompare · (bigintSpan a b))
    (draws.map (Option.map (randomBigintBits (bigintBitLengthUpper (bigintSpan a b)))))).map
      (objBigintAdd (bounds a b).1)

/-! ### The loops -/

theorem firstAccepted_some {α : Type} {rejects : α → Bool} {draws : List (Option α)} {r : α}
    (h : firstAccepted rejects draws = some r) : some r ∈ draws ∧ rejects r = false := by
  have hfind := Option.join_eq_some_iff.mp h
  exact ⟨mem_of_find?_eq_some hfind, by simpa using find?_some hfind⟩

theorem firstAccepted_append {α : Type} {rejects : α → Bool} {rejected : List α} (h : ∀ w ∈ rejected, rejects w = true)
    {r : α} (hr : rejects r = false) (draws : List (Option α)) :
    firstAccepted rejects (rejected.map some ++ some r :: draws) = some r := by
  have hnone : (rejected.map some).find? (fun draw => draw.all fun r => !rejects r) = none := by simpa using h
  simp [firstAccepted, hnone, hr]

/-! ### Integers -/

theorem toNat_u64Limit {span : BitVec 64} : (u64Limit span).toNat = span.toNat * ((2 ^ 64 - 1) / span.toNat) := by
  have hdiv := Nat.div_add_mod (2 ^ 64 - 1) span.toNat
  have hle : allOnes 64 % span ≤ allOnes 64 := by
    exact Nat.mod_le _ _
  rw [u64Limit, toNat_sub_of_le hle, toNat_umod, toNat_allOnes]
  omega

theorem count_accepted {span k : BitVec 64} (hk : k < span) :
    (u64Limit span).toNat.count (· % span.toNat = k.toNat) = (2 ^ 64 - 1) / span.toNat := by
  have hlt : k.toNat < span.toNat := hk
  have hcount := Nat.count_modEq_card (b := (u64Limit span).toNat) (by omega : 0 < span.toNat) k.toNat
  rw [toNat_u64Limit, Nat.mul_mod_right, Nat.mul_div_cancel_left _ (by omega)] at hcount
  simp only [Nat.ModEq, Nat.mod_eq_of_lt hlt] at hcount
  rw [toNat_u64Limit]
  exact hcount

theorem span_mem {lo hi x : BitVec 64} (hle : lo.toInt ≤ hi.toInt) (hx : hi - lo + 1 = 0 ∨ x - lo < hi - lo + 1) :
    lo.toInt ≤ x.toInt ∧ x.toInt ≤ hi.toInt := by
  have hlo := lo.toInt_eq_toNat_cond
  have hhi := hi.toInt_eq_toNat_cond
  have hx' := x.toInt_eq_toNat_cond
  bv_omega

theorem randomIntRange_mem {a b x : BitVec 64} {draws : List (Option (BitVec 64))}
    (h : randomIntRange a b draws = some x) : min a.toInt b.toInt ≤ x.toInt ∧ x.toInt ≤ max a.toInt b.toInt := by
  simp only [randomIntRange] at h
  set lo := if b.toInt < a.toInt then b else a with hlo
  set hi := if b.toInt < a.toInt then a else b with hhi
  have hlo : lo.toInt = min a.toInt b.toInt := by rw [hlo]; split_ifs <;> omega
  have hhi : hi.toInt = max a.toInt b.toInt := by rw [hhi]; split_ifs <;> omega
  rw [← hlo, ← hhi]
  refine span_mem (by omega) ?_
  split_ifs at h with hspan
  · exact .inl hspan
  · rw [randomU64Range, if_neg hspan, Option.map_map, Option.map_eq_some_iff] at h
    obtain ⟨r, -, rfl⟩ := h
    rw [Function.comp_apply, add_sub_cancel]
    exact .inr (BitVec.umod_lt r (by bv_omega))

/-! ### Big integers -/

theorem lt_two_pow_topBits (top : Nat) : top < 2 ^ topBits top := by
  fun_induction topBits top with
  | case1 => decide
  | case2 top h ih => rw [Nat.pow_succ]; omega

theorem magnitude_lt_bits {x : ObjBigInt} (h : x.Normal) : magnitude x.limbs < 2 ^ bigintBitLengthUpper x := by
  rw [bigintBitLengthUpper]
  rcases x.limbs.eq_nil_or_concat' with hl | ⟨low, top, hl⟩
  · rw [hl]
    decide
  · have hlow := magnitude_lt (isLimbs_append.mp (hl ▸ h.limbs_lt)).1
    have htop := lt_two_pow_topBits top
    rw [hl, if_neg (by simp), magnitude_append, magnitude_singleton, getLastD_concat, length_append,
      length_singleton, Nat.add_sub_cancel, Nat.pow_add, Nat.mul_comm low.length, Nat.pow_mul,
      show 2 ^ 32 = limbBase from rfl]
    have hmul := Nat.mul_le_mul_left (limbBase ^ low.length) htop
    rw [Nat.mul_succ] at hmul
    omega

def bytesValue : Nat := Nat.ofDigits 256 (bytes.reverse.map UInt8.toNat)

theorem limbOf_eq : limbOf bytes = Nat.ofDigits 256 (bytes.map UInt8.toNat) := by
  induction bytes with
  | nil => rfl
  | cons byte bytes ih =>
    rw [limbOf, foldr_cons, ← limbOf, ← Nat.shiftLeft_add_eq_or_of_lt byte.toNat_lt, map_cons, Nat.ofDigits_cons]
    omega

theorem digits_lt : ∀ x ∈ bytes.map UInt8.toNat, x < 256 := by
  intro x hx
  obtain ⟨byte, -, rfl⟩ := mem_map.mp hx
  exact byte.toNat_lt

theorem limbsOf_spec :
    IsLimbs (limbsOf bytes) ∧ magnitude (limbsOf bytes) = Nat.ofDigits 256 (bytes.map UInt8.toNat) := by
  fun_induction limbsOf bytes with
  | case1 => exact ⟨isLimbs_nil, rfl⟩
  | case2 bytes hne ih =>
    have hlt : limbOf (bytes.take 4) < limbBase := by
      rw [limbOf_eq]
      have hpow := Nat.ofDigits_lt_base_pow_length (by decide) (digits_lt (bytes.take 4))
      exact hpow.trans_le (Nat.pow_le_pow_right (j := 4) (by decide) (by simp))
    refine ⟨isLimbs_cons.mpr ⟨hlt, ih.1⟩, ?_⟩
    rw [magnitude_cons, ih.2, limbOf_eq]
    conv_rhs => rw [← take_append_drop 4 bytes, map_append, Nat.ofDigits_append]
    by_cases hlen : 4 ≤ bytes.length
    · rw [length_map, length_take, min_eq_left hlen]
      rfl
    · rw [drop_eq_nil_of_le (by omega)]
      rfl

theorem computes_fromBytes : Computes (bigintFromBytesBe bytes) (bytesValue bytes) := by
  obtain ⟨hl, hm⟩ := limbsOf_spec bytes.reverse
  have h := computes_fromLimbs hl (.inl rfl)
  rw [hm, one_mul] at h
  exact h

/-- The strings of that many bits, filled up to whole bytes. -/
def IsBits (bytes : List UInt8) : Prop :=
  bytes.length = byteLen bits ∧ clearExtra bits bytes = bytes

theorem clearExtra_eq {bits : Nat} {bytes : List UInt8} (hlen : bytes.length = byteLen bits)
    (hlt : bytesValue bytes < 2 ^ bits) : clearExtra bits bytes = bytes := by
  cases bytes with
  | nil => rfl
  | cons byte rest =>
    have hvalue : bytesValue (byte :: rest) = bytesValue rest + 256 ^ rest.length * byte.toNat := by
      simp [bytesValue, Nat.ofDigits_append]
    rw [byteLen, length_cons] at hlen
    obtain ⟨e, he⟩ : ∃ e, e = byteLen bits * 8 - bits := ⟨_, rfl⟩
    have hbits : bits = 8 * rest.length + (8 - e) := by rw [byteLen] at he; omega
    have hbyte : byte.toNat < 2 ^ (8 - e) := by
      rw [hbits, Nat.pow_add, Nat.pow_mul, show 2 ^ 8 = 256 from rfl] at hlt
      exact Nat.lt_of_mul_lt_mul_left (a := 256 ^ rest.length) (by omega)
    have he8 : e < 8 := by rw [byteLen] at he; omega
    rw [clearExtra, ← he]
    congr 1
    apply UInt8.toNat_inj.mp
    interval_cases e <;> exact Nat.and_two_pow_sub_one_of_lt_two_pow hbyte

theorem existsUnique_bits {bits c : Nat} (hc : c < 2 ^ bits) : ∃! bytes, IsBits bits bytes ∧ bytesValue bytes = c := by
  have hbij := Nat.bijOn_ofDigits (by decide : 1 < 256) (byteLen bits)
  have hpow : 2 ^ bits ≤ 256 ^ byteLen bits := by
    rw [show 256 = 2 ^ 8 from rfl, ← Nat.pow_mul]
    exact Nat.pow_le_pow_right (by decide) (by rw [byteLen]; omega)
  obtain ⟨ds, ⟨hlen, hds⟩, hvalue⟩ := hbij.surjOn (hc.trans_le hpow)
  have hround : (ds.map UInt8.ofNat).map UInt8.toNat = ds := by
    rw [map_map]
    exact map_congr_left (fun d hd => UInt8.toNat_ofNat_of_lt (hds d hd)) |>.trans (map_id ds)
  have hbytes : bytesValue (ds.map UInt8.ofNat).reverse = c := by rw [bytesValue, reverse_reverse, hround, hvalue]
  have hlen' : (ds.map UInt8.ofNat).reverse.length = byteLen bits := by simpa using hlen
  refine ⟨_, ⟨⟨hlen', clearExtra_eq hlen' (hbytes ▸ hc)⟩, hbytes⟩, ?_⟩
  rintro bytes ⟨⟨hlength, -⟩, rfl⟩
  have := hbij.injOn ⟨by simpa using hlength, digits_lt bytes.reverse⟩ ⟨hlen, hds⟩ hvalue.symm
  simp [← this, Function.comp_def]

section Range

variable {a b : ObjBigInt} (ha : a.Normal) (hb : b.Normal)
include ha hb

theorem bounds_spec : Computes (bounds a b).1 (min a.value b.value) ∧ Computes (bounds a b).2 (max a.value b.value) := by
  have hcmp := objBigintCompare_eq ha hb
  rw [bounds]
  split_ifs with h
  · have hlt := Int.sign_pos_iff.mp (hcmp ▸ h)
    exact ⟨⟨hb, by dsimp only; omega⟩, ha, by dsimp only; omega⟩
  · have hle := mt Int.sign_pos_iff.mpr (hcmp ▸ h)
    exact ⟨⟨ha, by dsimp only; omega⟩, hb, by dsimp only; omega⟩

theorem span_spec : Computes (bigintSpan a b) (max a.value b.value - min a.value b.value + 1) := by
  obtain ⟨hlo, hhi⟩ := bounds_spec ha hb
  have hsub := computes_sub hhi.normal hlo.normal
  have hone := computes_fromInt64 1
  have hadd := computes_add hsub.normal hone.normal
  rw [hsub.value, hhi.value, hlo.value] at hadd
  exact hadd

theorem accepted_iff (bytes : List UInt8) : objBigintCompare (bigintFromBytesBe bytes) (bigintSpan a b) < 0 ↔
    (bytesValue bytes : Int) < max a.value b.value - min a.value b.value + 1 := by
  have hbytes := computes_fromBytes bytes
  have hspan := span_spec ha hb
  rw [objBigintCompare_eq hbytes.normal hspan.normal, hbytes.value, hspan.value, Int.sign_neg_iff]
  omega

theorem sum_spec (bytes : List UInt8) :
    Computes (objBigintAdd (bounds a b).1 (bigintFromBytesBe bytes)) (min a.value b.value + bytesValue bytes) := by
  have hbytes := computes_fromBytes bytes
  have hlower := (bounds_spec ha hb).1
  have hadd := computes_add hlower.normal hbytes.normal
  rw [hlower.value, hbytes.value] at hadd
  exact hadd

theorem randomBigintRange_mem {x : ObjBigInt} {draws : List (Option (Nat → UInt8))}
    (h : randomBigintRange a b draws = some x) :
    x.Normal ∧ min a.value b.value ≤ x.value ∧ x.value ≤ max a.value b.value := by
  rw [randomBigintRange] at h
  split_ifs at h with heq
  · cases h
    have hlower := (bounds_spec ha hb).1
    exact ⟨hlower.normal, by rw [hlower.value]; omega⟩
  · obtain ⟨c, hc, rfl⟩ := Option.map_eq_some_iff.mp h
    obtain ⟨hmem, haccepted⟩ := firstAccepted_some hc
    obtain ⟨draw, -, hdraw⟩ := mem_map.mp hmem
    obtain ⟨draw, -, rfl⟩ := Option.map_eq_some_iff.mp hdraw
    rw [randomBigintBits] at haccepted ⊢
    generalize clearExtra _ _ = bytes at haccepted ⊢
    have hlt := (accepted_iff ha hb bytes).mp (lt_of_not_ge (of_decide_eq_false haccepted))
    have hsum := sum_spec ha hb bytes
    exact ⟨hsum.normal, by rw [hsum.value]; omega⟩

theorem existsUnique_accepted {v : Int} (hlo : min a.value b.value ≤ v) (hhi : v ≤ max a.value b.value) :
    ∃! bytes, IsBits (bigintBitLengthUpper (bigintSpan a b)) bytes ∧
      objBigintCompare (bigintFromBytesBe bytes) (bigintSpan a b) < 0 ∧
      (objBigintAdd (bounds a b).1 (bigintFromBytesBe bytes)).value = v := by
  have hspan := span_spec ha hb
  have hbits := magnitude_lt_bits hspan.normal
  have hle : (bigintSpan a b).value ≤ magnitude (bigintSpan a b).limbs := by
    rw [ObjBigInt.value]
    rcases hspan.normal.sign_eq with ⟨hs, -⟩ | ⟨hs | hs, -⟩ <;> rw [hs] <;> omega
  rw [hspan.value] at hle
  obtain ⟨bytes, ⟨hbytes, hc⟩, hunique⟩ := existsUnique_bits
    (show (v - min a.value b.value).toNat < 2 ^ bigintBitLengthUpper (bigintSpan a b) by omega)
  simp only [accepted_iff ha hb, (sum_spec ha hb _).value]
  refine ⟨bytes, ⟨hbytes, by omega, by omega⟩, ?_⟩
  rintro bytes' ⟨hbytes', -, hv⟩
  exact hunique bytes' ⟨hbytes', by omega⟩

end Range

end Tablo.RandomRange
