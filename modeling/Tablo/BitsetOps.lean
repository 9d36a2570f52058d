import Mathlib.Algebra.BigOperators.Group.List.Basic
import Tablo.BitsetRep

/-! Operations on whole bitsets: a new array of words is filled, masked at its
end and counted. -/

namespace Tablo.Bitset

open PackedBits List Nat

section Fill

def Fits (maxArraySize : Int) (n : Nat) : Prop :=
  ¬ ((0 < maxArraySize ∧ maxArraySize < wordsFor n) ∨ 2147483647 < wordsFor n)

theorem arrayWithSize_of_fits {maxArraySize : Int} {n : Nat} (h : Fits maxArraySize n) :
    arrayWithSize maxArraySize (wordsFor n) 0 = (replicate (wordsFor n) 0).map Nat.cast := by
  rw [arrayWithSize, if_neg h, map_replicate]
  rfl

variable {wordAt : Nat → Result Int} {f g : Nat → Nat} {mask wc : Nat}

def filled (g : Nat → Nat) (wc done : Nat) : List Nat := (List.range done).map g ++ List.replicate (wc - done) 0

def counted (g : Nat → Nat) (done : Nat) : Nat := ((List.range done).map fun j => (bits 30 (g j)).length).sum

theorem filled_set {done : Nat} (h : done < wc) : (filled g wc done).set done (g done) = filled g wc (done + 1) := by
  have hrep : replicate (wc - done) 0 = 0 :: replicate (wc - (done + 1)) 0 := by
    rw [show wc - done = wc - (done + 1) + 1 by omega]
    rfl
  rw [filled, filled, hrep, range_succ, map_append]
  simp

theorem counted_succ (done : Nat) : counted g (done + 1) = counted g done + (bits 30 (g done)).length := by
  simp [counted, range_succ]

theorem fillLoop_eq (hat : ∀ j < wc, wordAt j = .ok (f j : Nat)) (hg : ∀ j < wc, g j < 2 ^ 30)
    (hfg : ∀ j < wc, g j = if j = wc - 1 then f j &&& mask else f j) (todo : Nat) (hl : todo ≤ wc) :
    fillLoop wordAt mask wc todo ((filled g wc (wc - todo)).map Nat.cast) (counted g (wc - todo)) =
      .ok ((filled g wc wc).map Nat.cast, (counted g wc : Int)) := by
  induction todo with
  | zero => rfl
  | succ todo ih =>
    have hlt : wc - (todo + 1) < wc := by omega
    have hnext : wc - (todo + 1) + 1 = wc - todo := by omega
    have hword : (if wc - (todo + 1) = wc - 1 then Int.land (f (wc - (todo + 1)) : Nat) (mask : Nat)
        else (f (wc - (todo + 1)) : Nat)) = (g (wc - (todo + 1)) : Int) := by
      rw [hfg _ hlt]
      split <;> rfl
    have hlen : (filled g wc (wc - (todo + 1))).length = wc := by
      simp [filled]
    rw [fillLoop, hat _ hlt]
    dsimp only [bind, Except.bind]
    rw [hword, arraySet_cast (by rw [hlen]; exact hlt), filled_set hlt, hnext, bitsetPopcountWord_eq (hg _ hlt)]
    have hsum : (counted g (wc - (todo + 1)) : Int) + (bits 30 (g (wc - (todo + 1)))).length =
        (counted g (wc - todo) : Int) := by
      rw [← hnext, counted_succ]
      rfl
    rw [hsum]
    exact ih (by omega)

end Fill

section Sets

variable {maxArraySize : Int} {store left right : BitsetStore} {s t : IndexSet} {ws vs : List Nat} {n : Nat}
  {p : Nat → Bool} {m : Finset Nat} (hl : Packs left s ws) (hr : Packs right t vs) (heq : s.length = t.length)
  (hfits : Fits maxArraySize s.length)

def IndexSet.filter (n : Nat) (p : Nat → Bool) : IndexSet where
  length := n
  members := (Finset.range n).filter (p · = true)
  bound := fun _ h => Finset.mem_range.mp (Finset.mem_filter.mp h).1

theorem IndexSet.mem_filter {k : Nat} : k ∈ (IndexSet.filter n p).members ↔ k < n ∧ p k = true := by
  simp [filter]

theorem lt_iff_lastBits {k : Nat} (hn : 0 < n) (hk : k / 30 = wordsFor n - 1) : k % 30 < lastBits n ↔ k < n := by
  rw [wordsFor] at hk
  rw [lastBits]
  split <;> omega

theorem fill_eq {f : Nat → Nat} {wordAt : Nat → Result Int} (hfits : Fits maxArraySize n)
    (hlen : store.words.length = wordsFor n) (hbits : store.bitLength = n)
    (hat : ∀ j < wordsFor n, wordAt j = .ok (f j : Nat)) (hf : ∀ j, f j < 2 ^ 30) :
    ∃ out ws, fill maxArraySize store wordAt = .ok out ∧
      Packs out (.filter n fun k => (f (k / 30)).testBit (k % 30)) ws := by
  obtain ⟨mask, hmask, hmasked⟩ : ∃ mask : Nat, bitsetLastWordMask store.bitLength = .ok (mask : Int) ∧
      ∀ j < wordsFor n, ∀ m, (f j &&& mask).testBit m = ((f j).testBit m && decide (m < lastBits n)) := by
    rw [hbits]
    by_cases hn : n = 0
    · subst hn
      exact ⟨0, rfl, fun j hj => absurd hj (by decide +revert)⟩
    · refine ⟨_, bitsetLastWordMask_eq (by omega), fun j _ m => ?_⟩
      rw [testBit_and, testBit_two_pow_sub_one]
  let g : Nat → Nat := fun j => if j = wordsFor n - 1 then f j &&& mask else f j
  have hg (j : Nat) : g j < 2 ^ 30 := by
    by_cases hj : j = wordsFor n - 1
    · simpa [g, hj] using lt_of_le_of_lt and_le_left (hf _)
    · simpa [g, hj] using hf j
  have hloop := fillLoop_eq hat (fun j _ => hg j) (fun j _ => rfl) (wordsFor n) (le_refl _)
  have hstart : filled g (wordsFor n) (wordsFor n - wordsFor n) = replicate (wordsFor n) 0 := by
    simp [filled]
  have hend : filled g (wordsFor n) (wordsFor n) = (range (wordsFor n)).map g := by
    simp [filled]
  rw [hstart, hend, Nat.sub_self] at hloop
  have hholds (k : Nat) : k < n ∧ (f (k / 30)).testBit (k % 30) = true ↔
      Holds 30 ((range (wordsFor n)).map g) k := by
    rw [Holds]
    by_cases hk : k / 30 < wordsFor n
    · have hn : 0 < n := by
        rw [wordsFor] at hk
        omega
      rw [getD_eq_getElem _ _ (by simpa using hk), getElem_map, getElem_range]
      by_cases hlast : k / 30 = wordsFor n - 1
      · simp only [g, hlast, if_true]
        rw [hmasked _ (by omega), Bool.and_eq_true, decide_eq_true_iff, lt_iff_lastBits hn hlast, and_comm]
      · have hin : k < n := by
          rw [wordsFor] at hk hlast
          omega
        simp [g, hlast, hin]
    · have hout : ¬ k < n := fun h => hk (div_lt_wordsFor h)
      rw [getD_eq_default _ _ (by simpa using hk)]
      simp [hout]
  refine ⟨⟨((range (wordsFor n)).map g).map Nat.cast, n, counted g (wordsFor n)⟩, _, ?_, rfl, rfl, ?_, ?_, ?_, ?_⟩
  · rw [fill, hmask, hlen, arrayWithSize_of_fits hfits]
    dsimp only [bind, Except.bind]
    rw [show (0 : Int) = (counted g 0 : Int) from rfl, hloop, hbits]
    rfl
  · simp [IndexSet.filter]
  · intro w hw
    obtain ⟨j, _, rfl⟩ := mem_map.mp hw
    exact hg j
  · intro k
    rw [IndexSet.mem_filter]
    exact hholds k
  · have hcard : (IndexSet.filter n fun k => (f (k / 30)).testBit (k % 30)).members.card =
        counted g (wordsFor n) := by
      rw [card_eq_members (by decide) fun k => IndexSet.mem_filter.trans (hholds k), length_members, map_map]
      rfl
    rw [hcard]

def IndexSet.below (n : Nat) (members : Finset Nat) : IndexSet where
  length := n
  members := members.filter (· < n)
  bound := fun _ h => (Finset.mem_filter.mp h).2

theorem IndexSet.filter_eq_below (h : ∀ k < n, p k = true ↔ k ∈ m) : IndexSet.filter n p = IndexSet.below n m := by
  refine IndexSet.ext rfl (Finset.ext fun k => ?_)
  rw [IndexSet.mem_filter, IndexSet.below, Finset.mem_filter, and_comm]
  exact and_congr_left fun hk => h k hk

theorem Packs.length_words (h : Packs store s ws) : store.words.length = wordsFor s.length := by
  rw [h.words, length_map, h.wordCount]

theorem combine_eq {op : Int → Int → Int} {word : Nat → Nat → Nat} (bit : Bool → Bool → Bool) {context : String}
    (hl : Packs left s ws) (hr : Packs right t vs) (heq : s.length = t.length)
    (hfits : Fits maxArraySize s.length) (hop : ∀ a b : Nat, op a b = (word a b : Nat))
    (hbit : ∀ a b m, (word a b).testBit m = bit (a.testBit m) (b.testBit m)) (hff : bit false false = false)
    (hm : ∀ k, k ∈ m ↔ bit (decide (k ∈ s.members)) (decide (k ∈ t.members)) = true) :
    ∃ out us, combine maxArraySize left right op context = .ok (out, none) ∧ Packs out (.below s.length m) us := by
  have hpair : bitsetValidatePair left right context = none := by
    rw [bitsetValidatePair, hl.bitLength, hr.bitLength, heq]
    simp
  have hat (j : Nat) (hj : j < wordsFor s.length) : (do
      let l ← arrayGet left.words j
      let r ← arrayGet right.words j
      return op l r) = (.ok (word (ws.getD j 0) (vs.getD j 0) : Nat) : Result Int) := by
    rw [hl.words, arrayGet_cast (by rw [hl.wordCount]; exact hj), hr.words,
      arrayGet_cast (by rw [hr.wordCount, ← heq]; exact hj)]
    exact congrArg Except.ok (hop _ _)
  have hsmall (j : Nat) : word (ws.getD j 0) (vs.getD j 0) < 2 ^ 30 := by
    refine lt_pow_two_of_testBit _ fun i hi => ?_
    rw [hbit, testBit_small hl.small j hi, testBit_small hr.small j hi, hff]
  obtain ⟨out, us, hfill, hpacks⟩ := fill_eq hfits hl.length_words hl.bitLength hat hsmall
  refine ⟨out, us, ?_, ?_⟩
  · rw [combine, hpair]
    rw [hfill]
    rfl
  · rwa [IndexSet.filter_eq_below (m := m)] at hpacks
    intro k _
    rw [hbit, hl.testBit, hr.testBit, hm]

include hl hr heq hfits

theorem bitsetUnion_eq : ∃ out us, bitsetUnion maxArraySize left right = .ok (out, none) ∧
    Packs out (.below s.length (s.members ∪ t.members)) us :=
  combine_eq or hl hr heq hfits (fun _ _ => rfl) (fun a b m => testBit_or a b m) rfl (by simp)

theorem bitsetIntersect_eq : ∃ out us, bitsetIntersect maxArraySize left right = .ok (out, none) ∧
    Packs out (.below s.length (s.members ∩ t.members)) us :=
  combine_eq and hl hr heq hfits (fun _ _ => rfl) (fun a b m => testBit_and a b m) rfl (by simp)

theorem bitsetDifference_eq : ∃ out us, bitsetDifference maxArraySize left right = .ok (out, none) ∧
    Packs out (.below s.length (s.members \ t.members)) us :=
  combine_eq (fun a b => a && !b) hl hr heq hfits (fun _ _ => rfl) (fun a b m => testBit_ldiff a b m) rfl
    (by simp)

theorem bitsetXor_eq : ∃ out us, bitsetXor maxArraySize left right = .ok (out, none) ∧
    Packs out (.below s.length (symmDiff s.members t.members)) us :=
  combine_eq xor hl hr heq hfits (fun _ _ => rfl) (fun a b m => testBit_xor a b m) rfl (by
    intro k
    rw [Finset.mem_symmDiff]
    by_cases hs : k ∈ s.members <;> by_cases ht : k ∈ t.members <;> simp [hs, ht])

omit hr heq

theorem bitsetComplement_eq : ∃ out us, bitsetComplement maxArraySize left = .ok out ∧
    Packs out (.below s.length (Finset.range s.length \ s.members)) us := by
  have hat (j : Nat) (hj : j < wordsFor s.length) : (do
      let word ← arrayGet left.words j
      return word.lnot.land bitsetWordAll) = (.ok (ldiff (2 ^ 30 - 1) (ws.getD j 0) : Nat) : Result Int) := by
    rw [hl.words, arrayGet_cast (by rw [hl.wordCount]; exact hj)]
    rfl
  have hbit (x i : Nat) : (ldiff (2 ^ 30 - 1) x).testBit i = (decide (i < 30) && !x.testBit i) := by
    rw [testBit_ldiff, testBit_two_pow_sub_one]
  have hsmall (j : Nat) : ldiff (2 ^ 30 - 1) (ws.getD j 0) < 2 ^ 30 := by
    refine lt_pow_two_of_testBit _ fun i hi => ?_
    rw [hbit, show decide (i < 30) = false by simp; omega]
    rfl
  obtain ⟨out, us, hfill, hpacks⟩ := fill_eq hfits hl.length_words hl.bitLength hat hsmall
  refine ⟨out, us, hfill, ?_⟩
  rwa [IndexSet.filter_eq_below (m := Finset.range s.length \ s.members)] at hpacks
  intro k hk
  rw [hbit, hl.testBit, Finset.mem_sdiff]
  simp [hk, mod_lt]

end Sets

variable {maxArraySize : Int} {store left right : BitsetStore} {s t : IndexSet} {ws vs : List Nat} {n : Nat}

def IndexSet.empty (n : Nat) : IndexSet where
  length := n
  members := ∅
  bound := fun _ h => absurd h (Finset.notMem_empty _)

theorem packs_zeros (n : Nat) :
    Packs ⟨(replicate (wordsFor n) 0).map Nat.cast, n, 0⟩ (.empty n) (replicate (wordsFor n) 0) := by
  refine ⟨rfl, rfl, by simp [IndexSet.empty], ?_, ?_, rfl⟩
  · intro w hw
    rw [(mem_replicate.mp hw).2]
    decide
  · intro i
    simp [IndexSet.empty, Holds]

theorem packs_default : Packs bitsetDefaultStore (.empty 0) [] := packs_zeros 0

theorem bitsetWordCountForBits_eq (h : 0 < n) : bitsetWordCountForBits n = wordsFor n := by
  have hdiv : Int.tdiv (n + 29 : Nat) (30 : Nat) = ((n + 29) / 30 : Nat) := Int.ofNat_tdiv _ _
  have hsum : (n : Int) + bitsetWordBits - 1 = ((n + 29 : Nat) : Int) := by
    simp only [bitsetWordBits]
    omega
  rw [bitsetWordCountForBits, if_neg (by omega), hsum]
  exact congrArg Int.toNat hdiv

theorem bitsetNew_eq (hv : bitsetValidateBitLength n = none) (hfits : Fits maxArraySize n) :
    ∃ out us, bitsetNew maxArraySize n = (out, none) ∧ Packs out (.empty n) us := by
  have hpos : 0 < n := by
    rw [bitsetValidateBitLength] at hv
    split at hv
    · exact nomatch hv
    · omega
  refine ⟨_, _, ?_, packs_zeros n⟩
  rw [bitsetNew, hv]
  rw [bitsetWordCountForBits_eq hpos, arrayWithSize_of_fits hfits]

theorem bitsetClearAll_eq (h : Packs store s ws) (hfits : Fits maxArraySize s.length) :
    ∃ out us, bitsetClearAll maxArraySize store = (out, (s.members.card : Int)) ∧ Packs out (.empty s.length) us := by
  refine ⟨_, _, ?_, packs_zeros s.length⟩
  rw [bitsetClearAll, h.length_words, arrayWithSize_of_fits hfits, h.bitLength, h.count]

theorem sum_popcount (h : ∀ w ∈ ws, w < 2 ^ 30) :
    ((ws.map (Nat.cast : Nat → Int)).map bitsetPopcountWord).sum = ((members 30 0 ws).length : Int) := by
  rw [length_members]
  induction ws with
  | nil => rfl
  | cons w ws ih =>
    simp only [map_cons, sum_cons, bitsetPopcountWord_eq (h w (by simp)), ih fun x hx => h x (by simp [hx])]
    rfl

theorem bitsetRecount_eq (h : Packs store s ws) : bitsetRecount store = store := by
  rw [bitsetRecount, h.words, sum_popcount h.small, ← card_eq_members (by decide) h.holds, ← h.count, ← h.words]

theorem bitsetTrimLastWord_eq (h : Packs store s ws) : bitsetTrimLastWord store = .ok store := by
  rw [bitsetTrimLastWord]
  by_cases hz : store.words.length = 0
  · rw [if_pos hz]
  · have hlen := h.length_words
    have hn : 0 < s.length := by
      rw [hlen, wordsFor] at hz
      omega
    have hlast : ws.length - 1 < ws.length := by
      rw [h.wordCount]
      omega
    have hindex : (store.words.length : Int) - 1 = ((ws.length - 1 : Nat) : Int) := by
      rw [h.words, length_map]
      omega
    have hkeep : ws.getD (ws.length - 1) 0 &&& (2 ^ lastBits s.length - 1) = ws.getD (ws.length - 1) 0 := by
      refine eq_of_testBit_eq fun i => ?_
      rw [testBit_and]
      by_cases hb : (ws.getD (ws.length - 1) 0).testBit i = true
      · have hi : i < 30 := by
          by_contra hge
          rw [testBit_small h.small _ (by omega)] at hb
          contradiction
        have hdiv : (30 * (ws.length - 1) + i) / 30 = ws.length - 1 := by omega
        have hmod : (30 * (ws.length - 1) + i) % 30 = i := by omega
        have hmem : 30 * (ws.length - 1) + i ∈ s.members := by
          rw [h.holds, Holds, hdiv, hmod]
          exact hb
        have hbelow := (lt_iff_lastBits hn (by rw [hdiv, h.wordCount])).mpr (s.bound _ hmem)
        rw [hmod] at hbelow
        simp [hbelow]
      · rw [Bool.not_eq_true] at hb
        rw [hb]
        rfl
    rw [if_neg hz, hindex, h.words, arrayGet_cast hlast, h.bitLength, bitsetLastWordMask_eq hn]
    dsimp only [bind, Except.bind]
    rw [land_cast, hkeep, arraySet_cast hlast, getD_eq_getElem _ _ hlast, set_getElem_self, ← h.words, ← h.bitLength]
    rfl

theorem equalsLoop_eq {ls rs : List Int} (h : ls.length = rs.length) : equalsLoop ls rs = .ok (decide (ls = rs)) := by
  induction ls generalizing rs with
  | nil =>
    obtain rfl : rs = [] := eq_nil_of_length_eq_zero h.symm
    rfl
  | cons l ls ih =>
    cases rs with
    | nil => simp at h
    | cons r rs =>
      rw [equalsLoop, ih (by simpa using h)]
      by_cases hlr : l = r <;> simp [hlr]

theorem words_unique (hlen : ws.length = vs.length) (hw : ∀ w ∈ ws, w < 2 ^ 30) (hv : ∀ v ∈ vs, v < 2 ^ 30)
    (h : ∀ k, Holds 30 ws k ↔ Holds 30 vs k) : ws = vs := by
  have hget (j : Nat) : ws.getD j 0 = vs.getD j 0 := by
    refine eq_of_testBit_eq fun i => ?_
    by_cases hi : i < 30
    · have hk := h (30 * j + i)
      rw [Holds, Holds, show (30 * j + i) / 30 = j by omega, show (30 * j + i) % 30 = i by omega] at hk
      exact Bool.eq_iff_iff.mpr hk
    · rw [testBit_small hw j (by omega), testBit_small hv j (by omega)]
  refine ext_getElem hlen fun j hj hj' => ?_
  rw [← getD_eq_getElem ws 0 hj, ← getD_eq_getElem vs 0 hj', hget]

theorem bitsetEquals_eq (hl : Packs left s ws) (hr : Packs right t vs) (heq : s.length = t.length) :
    bitsetEquals left right = .ok (decide (s.members = t.members), none) := by
  have hpair : bitsetValidatePair left right "bitset.equals.size" = none := by
    rw [bitsetValidatePair, hl.bitLength, hr.bitLength, heq]
    simp
  have hlen : left.words.length = right.words.length := by
    rw [hl.length_words, hr.length_words, heq]
  have hiff : left.words = right.words ↔ s.members = t.members := by
    constructor
    · intro h
      rw [hl.words, hr.words] at h
      have hws : ws = vs := map_injective_iff.mpr cast_injective h
      exact Finset.ext fun k => (hl.holds k).trans (hws ▸ (hr.holds k).symm)
    · intro h
      have hws : ws = vs := words_unique (by rw [hl.wordCount, hr.wordCount, heq]) hl.small hr.small fun k =>
        (hl.holds k).symm.trans (h ▸ hr.holds k)
      rw [hl.words, hr.words, hws]
  rw [bitsetEquals, hpair]
  rw [equalsLoop_eq hlen]
  exact congrArg (fun b => Except.ok (b, none)) (decide_eq_decide.mpr hiff)

end Tablo.Bitset
