import Mathlib.Data.Finset.Sort
import Mathlib.Data.Nat.Bitwise

/-! Sets of numbers packed into words of a fixed width. The members in
increasing order are a list, by recursion on the words; counting, ranks and
selection are about that list. -/

namespace PackedBits

open List Nat

section Words

variable {width : Nat} {xs : List Nat} {s : Finset Nat}

def bits (width x : Nat) : List Nat := (List.range width).filter x.testBit

def members (width : Nat) : Nat → List Nat → List Nat
  | _, [] => []
  | base, x :: xs => (bits width x).map (base + ·) ++ members width (base + width) xs

def Holds (width : Nat) (xs : List Nat) (i : Nat) : Prop := (xs.getD (i / width) 0).testBit (i % width) = true

variable {i k width x : Nat}

theorem mem_bits : i ∈ bits width x ↔ i < width ∧ x.testBit i = true := by
  simp [bits]

theorem sorted_bits (width x : Nat) : (bits width x).Pairwise (· < ·) :=
  List.Pairwise.filter _ pairwise_lt_range

@[simp] theorem bits_zero (width : Nat) : bits width 0 = [] := by
  simp [bits]

theorem holds_cons_lt (h : i < width) : Holds width (x :: xs) i ↔ x.testBit i = true := by
  simp [Holds, div_eq_of_lt h, mod_eq_of_lt h]

section

variable (hw : 0 < width)

include hw

theorem holds_cons_ge (h : width ≤ i) :
    Holds width (x :: xs) i ↔ Holds width xs (i - width) := by
  have hdiv : i / width = (i - width) / width + 1 := div_eq_sub_div hw h
  have hmod : i % width = (i - width) % width := mod_eq_sub_mod h
  simp [Holds, hdiv, hmod]

theorem mem_members {base : Nat} :
    i ∈ members width base xs ↔ base ≤ i ∧ Holds width xs (i - base) := by
  induction xs generalizing base with
  | nil => simp [members, Holds]
  | cons x xs ih =>
    rw [members, mem_append, ih]
    by_cases hb : base ≤ i
    · by_cases hlt : i - base < width
      · have hnot : ¬ base + width ≤ i := by omega
        rw [holds_cons_lt hlt]
        simp only [hb, hnot, false_and, or_false, true_and]
        constructor
        · intro h
          obtain ⟨k, hk, rfl⟩ := mem_map.mp h
          simpa using (mem_bits.mp hk).2
        · intro h
          exact mem_map.mpr ⟨i - base, mem_bits.mpr ⟨hlt, h⟩, by omega⟩
      · have hge : base + width ≤ i := by omega
        rw [holds_cons_ge hw (by omega), show i - base - width = i - (base + width) by omega]
        simp only [hb, hge]
        constructor
        · rintro (h | h)
          · obtain ⟨k, hk, rfl⟩ := mem_map.mp h
            have := (mem_bits.mp hk).1
            omega
          · exact h
        · exact .inr
    · have hnot : ¬ base + width ≤ i := by omega
      simp only [hb, hnot, false_and, or_false, iff_false]
      intro h
      obtain ⟨k, _, rfl⟩ := mem_map.mp h
      omega

theorem sorted_members (base : Nat) (xs : List Nat) : (members width base xs).Pairwise (· < ·) := by
  induction xs generalizing base with
  | nil => exact .nil
  | cons x xs ih =>
    rw [members, pairwise_append]
    refine ⟨?_, ih _, ?_⟩
    · rw [pairwise_map]
      exact (sorted_bits width x).imp fun h => by omega
    · intro a ha b hb
      obtain ⟨k, hk, rfl⟩ := mem_map.mp ha
      have hlt := (mem_bits.mp hk).1
      have hle := ((mem_members hw).mp hb).1
      omega

theorem sort_eq_members (h : ∀ i, i ∈ s ↔ Holds width xs i) :
    s.sort (· ≤ ·) = members width 0 xs := by
  have hs : s = (members width 0 xs).toFinset := by
    ext i
    rw [h, mem_toFinset, mem_members hw]
    simp
  rw [hs]
  have hsorted := sorted_members hw 0 xs
  exact (toFinset_sort (· ≤ ·) (hsorted.imp fun h => Nat.ne_of_lt h)).mpr (hsorted.imp fun h => Nat.le_of_lt h)

theorem card_eq_members (h : ∀ i, i ∈ s ↔ Holds width xs i) :
    s.card = (members width 0 xs).length := by
  rw [← sort_eq_members hw h, Finset.length_sort]

end

theorem length_members (base : Nat) (xs : List Nat) :
    (members width base xs).length = (xs.map fun x => (bits width x).length).sum := by
  induction xs generalizing base with
  | nil => rfl
  | cons x xs ih => simp [members, ih]

end Words

theorem bits_mod (k width x : Nat) : bits width (x % 2 ^ k) = (bits width x).filter (· < k) := by
  rw [bits, bits, filter_filter]
  refine filter_congr fun i _ => ?_
  rw [testBit_mod_two_pow]

theorem bits_of_lt (h : k ≤ width) (hx : x < 2 ^ k) : bits width x = bits k x := by
  have hsplit : List.range width = List.range k ++ (List.range (width - k)).map (k + ·) := by
    rw [← range_add]
    congr 1
    omega
  rw [bits, hsplit, filter_append]
  have hnil : ((List.range (width - k)).map (k + ·)).filter x.testBit = [] := by
    refine filter_eq_nil_iff.mpr fun i hi => ?_
    obtain ⟨j, _, rfl⟩ := mem_map.mp hi
    rw [testBit_lt_two_pow (lt_of_lt_of_le hx (Nat.pow_le_pow_right (by decide) (Nat.le_add_right k j)))]
    decide
  rw [hnil, append_nil]
  rfl

theorem length_bits_add (k width x : Nat) :
    (bits (k + width) x).length = (bits k (x % 2 ^ k)).length + (bits width (x / 2 ^ k)).length := by
  have hlow : (List.range k).filter x.testBit = bits k (x % 2 ^ k) := by
    refine filter_congr fun i hi => ?_
    simp [mem_range.mp hi]
  have hhigh : ((List.range width).map (k + ·)).filter x.testBit = (bits width (x / 2 ^ k)).map (k + ·) := by
    rw [filter_map]
    congr 1
    refine filter_congr fun i _ => ?_
    rw [Function.comp_apply, testBit_div_two_pow, Nat.add_comm]
  rw [bits, range_add, filter_append, hlow, hhigh, length_append, length_map]

/-- The members below a number are those of the words in front of its word and
the low bits of that one. -/
theorem members_filter_lt (hw : 0 < width) (xs : List Nat) (base i : Nat) :
    (members width base xs).filter (· < base + i) = members width base (xs.take (i / width)) ++
      ((bits width (xs.getD (i / width) 0)).filter (· < i % width)).map (base + width * (i / width) + ·) := by
  induction xs generalizing base i with
  | nil => simp [members]
  | cons x xs ih =>
    rw [members, filter_append, filter_map]
    by_cases hi : i < width
    · have hrest : (members width (base + width) xs).filter (· < base + i) = [] := by
        refine filter_eq_nil_iff.mpr fun k hk => ?_
        have := ((mem_members hw).mp hk).1
        simp only [decide_eq_true_eq]
        omega
      have hlow : (bits width x).filter ((fun k => decide (k < base + i)) ∘ (base + ·)) =
          (bits width x).filter (· < i) :=
        filter_congr fun k _ => by simp
      rw [hrest, hlow, div_eq_of_lt hi, mod_eq_of_lt hi]
      simp [members]
    · have hall : (bits width x).filter ((fun k => decide (k < base + i)) ∘ (base + ·)) = bits width x := by
        refine filter_eq_self.mpr fun k hk => ?_
        have := (mem_bits.mp hk).1
        simp only [Function.comp_apply, decide_eq_true_eq]
        omega
      have hdiv : i / width = (i - width) / width + 1 := div_eq_sub_div hw (by omega)
      have hmod : i % width = (i - width) % width := mod_eq_sub_mod (by omega)
      have hstep := ih (base + width) (i - width)
      rw [show base + width + (i - width) = base + i by omega] at hstep
      have hbase : base + width + width * ((i - width) / width) = base + width * ((i - width) / width + 1) := by
        rw [mul_succ]
        omega
      rw [hall, hstep, hdiv, hmod, take_succ_cons, members, getD_cons_succ, append_assoc, hbase]

theorem filter_lt_getElem {l : List Nat} (h : l.Pairwise (· < ·)) (hk : k < l.length) :
    l.filter (· < l[k]) = l.take k := by
  have hsplit : l.take k ++ l.drop k = l := take_append_drop k l
  have hdrop : l.drop k = l[k] :: l.drop (k + 1) := drop_eq_getElem_cons hk
  rw [← hsplit, pairwise_append] at h
  obtain ⟨_, hafter, hacross⟩ := h
  have hbefore : (l.take k).filter (· < l[k]) = l.take k := by
    refine filter_eq_self.mpr fun a ha => ?_
    simpa using hacross a ha l[k] (by rw [hdrop]; exact mem_cons_self)
  have hnone : (l.drop k).filter (· < l[k]) = [] := by
    rw [hdrop, pairwise_cons] at hafter
    refine filter_eq_nil_iff.mpr fun a ha => ?_
    rw [hdrop] at ha
    rcases mem_cons.mp ha with rfl | ha
    · simp
    · simpa using Nat.le_of_lt (hafter.1 a ha)
  calc l.filter (· < l[k]) = (l.take k ++ l.drop k).filter (· < l[k]) := by rw [hsplit]
    _ = l.take k := by rw [filter_append, hbefore, hnone, append_nil]

end PackedBits
