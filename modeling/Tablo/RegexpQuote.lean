import Tablo.RegexpCorrect

/-! Patterns whose classes can be read never fail on a text, and a quoted text matches itself only. -/

namespace Tablo.Regexp

open List

def regexpQuoteMeta (text : List Char) : List Char :=
  text.flatMap fun ch => if 0 ≤ find "\\.^$|?*+()[]\x7b\x7d".toList ch then ['\\', ch] else [ch]

theorem findLoop_ok {p : RegexpPattern} (hdec : p.Decodes) (i : Nat) (rest : List Char) :
    ∃ result, findLoop p i rest = .ok result := by
  induction rest generalizing i with
  | nil =>
    rw [findLoop.eq_def]
    split
    · exact ⟨_, rfl⟩
    · rcases regexpMatchRecursive_cases p.anchoredEnd hdec [] i with ⟨stop, h, -⟩ | ⟨h, -⟩ <;>
        exact ⟨_, by rw [h]; rfl⟩
  | cons c rest ih =>
    rw [findLoop.eq_def]
    split
    · exact ⟨_, rfl⟩
    · rcases regexpMatchRecursive_cases p.anchoredEnd hdec (c :: rest) i with ⟨stop, h, -⟩ | ⟨h, -⟩ <;> rw [h]
      · exact ⟨_, rfl⟩
      · exact ih (i + 1)

/-- The tokens that stand for a text. -/
def literals (text : List Char) : List RegexpToken := text.map fun c => ⟨.item (.literal c), .once⟩

theorem mem_language_literals {s w : List Char} : w ∈ language (literals s) ↔ w = s := by
  induction s generalizing w with
  | nil => exact mem_language_nil
  | cons c s ih =>
    rw [literals, map_cons, mem_language_cons, ← literals]
    constructor
    · rintro ⟨u, v, rfl, hu, hcount, hv⟩
      obtain ⟨d, rfl⟩ := length_eq_one_iff.mp hcount
      rw [ih.mp hv, beq_iff_eq.mp (hu d mem_cons_self), singleton_append]
    · rintro rfl
      exact ⟨[c], s, rfl, by simp [TokenKind.holds, ItemKind.holds], rfl, ih.mpr rfl⟩

theorem tame_literals (s : List Char) : tame true ((literals s).map (·.quant)) = true := by
  induction s with
  | nil => rfl
  | cons c s ih => exact ih

theorem spelling_quote (s : List Char) : Spelling (regexpQuoteMeta s ++ ['$']) (literals s) true := by
  induction s with
  | nil => exact .dollar
  | cons c s ih =>
    have hlong (a : List Char) (ha : a ≠ []) :
        a ++ (Quant.once.spelling ++ (regexpQuoteMeta s ++ ['$'])) ≠ ['$'] := by
      intro h
      have hlen := congrArg length h
      have := length_pos_iff.mpr ha
      simp at hlen
      omega
    rw [regexpQuoteMeta, flatMap_cons, ← regexpQuoteMeta, append_assoc]
    by_cases hc : 0 ≤ find "\\.^$|?*+()[]\x7b\x7d".toList c
    · have hmeta : c ∈ metacharacters :=
        (show "\\.^$|?*+()[]\x7b\x7d".toList ⊆ metacharacters by decide +kernel) (find_nonneg_iff.mp hc)
      rw [if_pos hc]
      exact .cons (.escape (if_pos hmeta)) ih (hlong _ (by simp))
    · rw [if_neg hc]
      refine .cons (.literal fun hspecial => hc (find_nonneg_iff.mpr ?_)) ih (hlong [c] (by simp))
      exact (show ['.', '\\', '[', '*', '+', '?'] ⊆ "\\.^$|?*+()[]\x7b\x7d".toList by decide +kernel) hspecial

end Tablo.Regexp
