import Mathlib.Algebra.Order.Ring.Int
import Tablo.PackedBits
import Tablo.Bitset

/-! The words of a store as a set of numbers, and what the functions that look
at or change single bits do to that set. -/

namespace Tablo.Bitset

open PackedBits Int

@[ext]
structure IndexSet where
  length : Nat
  members : Finset Nat
  bound : ∀ i ∈ members, i < length

def wordsFor (n : Nat) : Nat := (n + 29) / 30

structure Packs (store : BitsetStore) (s : IndexSet) (ws : List Nat) : Prop where
  words : store.words = ws.map Nat.cast
  bitLength : store.bitLength = s.length
  wordCount : ws.length = wordsFor s.length
  small : ∀ w ∈ ws, w < 2 ^ 30
  holds : ∀ i, i ∈ s.members ↔ Holds 30 ws i
  count : store.setCount = s.members.card

/-- The store is the set: its words hold the members and nothing behind the
length, and its count is their number. -/
def Represents (store : BitsetStore) (s : IndexSet) : Prop := ∃ ws, Packs store s ws

variable {store : BitsetStore} {s : IndexSet} {ws : List Nat} {i j k n w x : Nat}

theorem getD_small (h : ∀ w ∈ ws, w < 2 ^ 30) (j : Nat) : ws.getD j 0 < 2 ^ 30 := by
  by_cases hj : j < ws.length
  · rw [List.getD_eq_getElem _ _ hj]
    exact h _ (List.getElem_mem hj)
  · rw [List.getD_eq_default _ _ (by omega)]
    decide

theorem testBit_small (h : ∀ w ∈ ws, w < 2 ^ 30) (j : Nat) (hi : 30 ≤ i) :
    (ws.getD j 0).testBit i = false :=
  Nat.testBit_lt_two_pow (lt_of_lt_of_le (getD_small h j) (Nat.pow_le_pow_right (by decide) hi))

theorem Packs.testBit (h : Packs store s ws) (k : Nat) :
    (ws.getD (k / 30) 0).testBit (k % 30) = decide (k ∈ s.members) := by
  rw [Bool.eq_iff_iff, decide_eq_true_iff]
  exact (h.holds k).symm

theorem div_lt_wordsFor (h : i < n) : i / 30 < wordsFor n := by
  rw [wordsFor]
  omega

section Arithmetic

variable (a b : Nat)

@[simp] theorem land_cast : land a b = ((a &&& b : Nat) : Int) := rfl

@[simp] theorem lor_cast : lor a b = ((a ||| b : Nat) : Int) := rfl

@[simp] theorem xor_cast : Int.xor a b = ((a ^^^ b : Nat) : Int) := rfl

@[simp] theorem land_lnot_cast : land a (lnot b) = ((Nat.ldiff a b : Nat) : Int) := rfl

theorem arrayGet_cast (h : j < ws.length) :
    arrayGet (ws.map Nat.cast) j = .ok (ws.getD j 0 : Nat) := by
  simp [arrayGet, h]

theorem arraySet_cast (h : j < ws.length) :
    arraySet (ws.map Nat.cast) j w = .ok ((ws.set j w).map Nat.cast) := by
  simp [arraySet, h]

theorem bitsetBitMasks_eq : bitsetBitMasks = (List.range 30).map fun k => ((2 ^ k : Nat) : Int) := by decide

theorem arrayGet_bitsetBitMasks (h : k < 30) : arrayGet bitsetBitMasks k = .ok (2 ^ k : Nat) := by
  rw [bitsetBitMasks_eq]
  simp [arrayGet, h]

theorem bitsetMaskForBits_eq (h : k ≤ 30) : bitsetMaskForBits k = .ok (2 ^ k - 1 : Nat) := by
  have hall : ∀ k : Fin 31, bitsetMaskForBits (k : Nat) = .ok (2 ^ (k : Nat) - 1 : Nat) := by decide
  exact hall ⟨k, by omega⟩

def lastBits (n : Nat) : Nat := if n % 30 = 0 then 30 else n % 30

theorem bitsetLastWordMask_eq (h : 0 < n) : bitsetLastWordMask n = .ok (2 ^ lastBits n - 1 : Nat) := by
  have hmod : tmod n bitsetWordBits = (n % 30 : Nat) := ofNat_tmod n 30
  rw [bitsetLastWordMask, if_neg (by omega), hmod, lastBits]
  by_cases hz : n % 30 = 0
  · simp only [hz, Nat.cast_zero]
    rfl
  · rw [if_neg (by omega), if_neg hz]
    exact bitsetMaskForBits_eq (by omega)

theorem popcountLoop_eq (h : x < 16 ^ k) (c : Int) : popcountLoop x c = c + (bits (4 * k) x).length := by
  induction k generalizing x c with
  | zero =>
    obtain rfl : x = 0 := by simpa using h
    rw [popcountLoop]
    simp
  | succ k ih =>
    rw [popcountLoop]
    by_cases hx : x = 0
    · simp [hx]
    · have hnibble : ∀ m : Fin 16, bitsetPopcountNibble.getD m 0 = (bits 4 m).length := by decide
      have hlow : x &&& 15 = x % 16 := Nat.and_two_pow_sub_one_eq_mod x 4
      have hcount := length_bits_add 4 (4 * k) x
      have hdiv : tdiv x 16 = (x / 16 : Nat) := ofNat_tdiv x 16
      have hland : (land x 15).toNat = x % 16 := by
        rw [show (15 : Int) = ((15 : Nat) : Int) from rfl, land_cast, toNat_natCast, hlow]
      have hlt : x / 16 < 16 ^ k := by
        omega
      rw [if_neg (by exact_mod_cast hx), hdiv, hland, ih hlt, hnibble ⟨x % 16, Nat.mod_lt _ (by decide)⟩,
        show 4 * (k + 1) = 4 + 4 * k by omega, hcount]
      exact add_assoc _ _ _

theorem bitsetPopcountWord_eq (h : x < 2 ^ 30) : bitsetPopcountWord x = (bits 30 x).length := by
  have hlt : x < 16 ^ 8 := lt_trans h (by decide)
  rw [bitsetPopcountWord, popcountLoop_eq hlt, bits_of_lt (by decide) h, zero_add]

end Arithmetic

variable {i : Nat}

def IndexSet.assign (s : IndexSet) (i : Nat) (b : Bool) (h : i < s.length) : IndexSet where
  length := s.length
  members := if b then insert i s.members else s.members.erase i
  bound := by
    intro j hj
    cases b with
    | false => exact s.bound j (Finset.mem_of_mem_erase hj)
    | true => exact (Finset.mem_insert.mp hj).elim (fun he => he ▸ h) (s.bound j)

theorem IndexSet.mem_assign {b : Bool} (hi : i < s.length) (k : Nat) :
    k ∈ (s.assign i b hi).members ↔ if k = i then b = true else k ∈ s.members := by
  cases b <;> by_cases hk : k = i <;> simp [assign, hk]

theorem IndexSet.assign_same {b : Bool} (hi : i < s.length) (h : i ∈ s.members ↔ b = true) : s.assign i b hi = s := by
  refine IndexSet.ext rfl (Finset.ext fun k => ?_)
  rw [IndexSet.mem_assign]
  by_cases hk : k = i
  · rw [if_pos hk, hk, h]
  · rw [if_neg hk]

theorem Packs.div_lt (h : Packs store s ws) (hi : i < s.length) : i / 30 < ws.length := by
  rw [h.wordCount]
  exact div_lt_wordsFor hi

theorem bitPlace_eq (h : Packs store s ws) (hi : i < s.length) :
    bitPlace store i = .ok ⟨(i / 30 : Nat), (2 ^ (i % 30) : Nat), (ws.getD (i / 30) 0 : Nat)⟩ := by
  have hdiv : tdiv i bitsetWordBits = (i / 30 : Nat) := ofNat_tdiv i 30
  have hmod : tmod i bitsetWordBits = (i % 30 : Nat) := ofNat_tmod i 30
  rw [bitPlace, hdiv, hmod, arrayGet_bitsetBitMasks (Nat.mod_lt _ (by decide)), h.words, arrayGet_cast (h.div_lt hi)]
  rfl

theorem land_mask_eq_zero (x k : Nat) : land x (2 ^ k : Nat) = 0 ↔ ¬ x.testBit k = true := by
  rw [land_cast, Nat.and_two_pow]
  cases x.testBit k <;> simp

theorem holds_set (hj : j < ws.length) (k : Nat) :
    Holds 30 (ws.set j w) k ↔ if k / 30 = j then w.testBit (k % 30) = true else Holds 30 ws k := by
  by_cases hk : k / 30 = j
  · subst hk
    simp [Holds, hj]
  · simp [Holds, hk, Ne.symm hk]

variable (h : Packs store s ws)

include h

theorem land_mask_word (i : Nat) : land (ws.getD (i / 30) 0 : Nat) (2 ^ (i % 30) : Nat) = 0 ↔ i ∉ s.members := by
  rw [land_mask_eq_zero, h.holds, Holds]

variable (hi : i < s.length)

include hi

theorem Packs.update {b : Bool} {count : Int}
    (hw : ∀ m, w.testBit m = if m = i % 30 then b else (ws.getD (i / 30) 0).testBit m)
    (hcount : count = (s.assign i b hi).members.card) :
    Packs ⟨(ws.set (i / 30) w).map Nat.cast, store.bitLength, count⟩ (s.assign i b hi) (ws.set (i / 30) w) := by
  refine ⟨rfl, h.bitLength, by rw [List.length_set]; exact h.wordCount, ?_, ?_, hcount⟩
  · intro x hx
    rcases List.mem_or_eq_of_mem_set hx with hx | rfl
    · exact h.small x hx
    · refine Nat.lt_pow_two_of_testBit _ fun m hm => ?_
      have hne : m ≠ i % 30 := by
        omega
      rw [hw, if_neg hne]
      exact testBit_small h.small _ hm
  · intro k
    rw [IndexSet.mem_assign, holds_set (h.div_lt hi), hw]
    by_cases hki : k = i
    · simp [hki]
    · rw [if_neg hki, h.holds]
      by_cases hword : k / 30 = i / 30
      · have hbit : k % 30 ≠ i % 30 := by omega
        rw [if_pos hword, if_neg hbit, ← hword]
        rfl
      · rw [if_neg hword]

theorem in_range : ¬ ((i : Int) < 0 ∨ store.bitLength ≤ i) := by
  rw [h.bitLength]
  omega

theorem arraySet_word (w : Nat) : arraySet store.words (i / 30 : Nat) w = .ok ((ws.set (i / 30) w).map Nat.cast) := by
  rw [h.words]
  exact arraySet_cast (h.div_lt hi)

theorem bitsetHas_eq : bitsetHas store i = .ok (decide (i ∈ s.members), none) := by
  rw [bitsetHas, if_neg (in_range h hi), bitPlace_eq h hi]
  have hmem := (land_mask_word h i).not
  rw [not_not] at hmem
  exact congrArg (fun b => Except.ok (b, none)) (decide_eq_decide.mpr hmem)

theorem countUp_card (hmem : i ∉ s.members) : store.setCount + 1 = ((s.assign i true hi).members.card : Int) := by
  rw [show (s.assign i true hi).members.card = _ from Finset.card_insert_of_notMem hmem, h.count]
  rfl

theorem bitsetSet_eq : ∃ store' ws',
    bitsetSet store i = .ok (store', decide (i ∉ s.members), none) ∧ Packs store' (s.assign i true hi) ws' := by
  have hland := land_mask_word h i
  rw [bitsetSet, if_neg (in_range h hi), bitPlace_eq h hi]
  dsimp only [bind, Except.bind]
  by_cases hmem : i ∈ s.members
  · rw [if_pos (hland.not.mpr (not_not.mpr hmem)), IndexSet.assign_same hi (by simp [hmem])]
    exact ⟨store, ws, by simp [hmem, pure, Except.pure], h⟩
  · have hw : ∀ m, (ws.getD (i / 30) 0 ||| 2 ^ (i % 30)).testBit m =
        if m = i % 30 then true else (ws.getD (i / 30) 0).testBit m := by
      intro m
      by_cases hm : m = i % 30
      · simp [hm]
      · simp [hm, Ne.symm hm]
    rw [if_neg (not_not.mpr (hland.mpr hmem)), lor_cast, arraySet_word h hi]
    exact ⟨_, _, by simp [hmem, pure, Except.pure], h.update hi hw (countUp_card h hi hmem)⟩

theorem countDown_card (hmem : i ∈ s.members) :
    countDown store.setCount = ((s.assign i false hi).members.card : Int) := by
  rw [show (s.assign i false hi).members.card = _ from Finset.card_erase_of_mem hmem, countDown, h.count]
  split <;> omega

theorem bitsetClear_eq : ∃ store' ws',
    bitsetClear store i = .ok (store', decide (i ∈ s.members), none) ∧ Packs store' (s.assign i false hi) ws' := by
  have hland := land_mask_word h i
  rw [bitsetClear, if_neg (in_range h hi), bitPlace_eq h hi]
  dsimp only [bind, Except.bind]
  by_cases hmem : i ∈ s.members
  · have hw : ∀ m, (Nat.ldiff (ws.getD (i / 30) 0) (2 ^ (i % 30))).testBit m =
        if m = i % 30 then false else (ws.getD (i / 30) 0).testBit m := by
      intro m
      by_cases hm : m = i % 30
      · simp [hm]
      · simp [hm, Ne.symm hm]
    rw [if_neg (hland.not.mpr (not_not.mpr hmem)), land_lnot_cast, arraySet_word h hi]
    exact ⟨_, _, by simp [hmem, pure, Except.pure], h.update hi hw (countDown_card h hi hmem)⟩
  · rw [if_pos (hland.mpr hmem), IndexSet.assign_same hi (by simp [hmem])]
    exact ⟨store, ws, by simp [hmem, pure, Except.pure], h⟩

theorem bitsetToggle_eq : ∃ store' ws', bitsetToggle store i = .ok (store', decide (i ∉ s.members), none) ∧
      Packs store' (s.assign i (decide (i ∉ s.members)) hi) ws' := by
  have hland := land_mask_word h i
  have hvalid : bitsetValidateIndex store i "bitset.toggle.index" = none := if_neg (in_range h hi)
  have hw : ∀ m, (ws.getD (i / 30) 0 ^^^ 2 ^ (i % 30)).testBit m =
      if m = i % 30 then decide (i ∉ s.members) else (ws.getD (i / 30) 0).testBit m := by
    intro m
    rw [Nat.testBit_xor]
    by_cases hm : m = i % 30
    · rw [hm, h.testBit]
      by_cases hmem : i ∈ s.members <;> simp [hmem]
    · simp [hm, Ne.symm hm]
  rw [bitsetToggle, hvalid]
  rw [bitPlace_eq h hi]
  dsimp only [bind, Except.bind]
  rw [xor_cast, arraySet_word h hi]
  by_cases hmem : i ∈ s.members
  · rw [show decide (i ∉ s.members) = false by simp [hmem]] at hw ⊢
    exact ⟨_, _, by simp only [hland, hmem, not_true_eq_false, if_false, decide_false, pure, Except.pure],
      h.update hi hw (countDown_card h hi hmem)⟩
  · rw [show decide (i ∉ s.members) = true by simp [hmem]] at hw ⊢
    exact ⟨_, _, by simp only [hland, hmem, not_false_eq_true, if_true, decide_true, pure, Except.pure],
      h.update hi hw (countUp_card h hi hmem)⟩

end Tablo.Bitset
