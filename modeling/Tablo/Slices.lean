import Mathlib.Data.List.Nodup
import Mathlib.Data.List.TakeWhile

/-! The builtins `substring` and `slice`. Elements are of any type, so that a list can be sliced with its
positions attached to them. -/

namespace Tablo.Slices

open List

variable {α : Type} (nul : α → Bool) (str : List α) (start len : BitVec 64) {l : List α}

def narrow (x : BitVec 64) : Int := x.toInt.bmod 4294967296

def intMax : Int := 2147483647

/-- The result is made from a C string and ends at its first NUL; `none` if `start + len` overflows. -/
def builtinSubstring : Option (List α) :=
  let start := narrow start
  let len := narrow len
  let strLen : Int := str.length
  let start := if start < 0 then 0 else start
  let start := if start > strLen then strLen else start
  let len := if len < 0 then 0 else len
  if start + len > intMax then none
  else
    let len := if start + len > strLen then strLen - start else len
    some (((str.drop start.toNat).take len.toNat).takeWhile fun c => !nul c)

def builtinSlice (arr : List α) (start stop : BitVec 64) : List α :=
  let start := narrow start
  let stop := narrow stop
  let count : Int := arr.length
  let start := if start < 0 then 0 else start
  let stop := if stop > count then count else stop
  let stop := if stop < start then start else stop
  (arr.drop start.toNat).take (stop - start).toNat

def window (l : List α) (start count : Int) : List α := (l.drop start.toNat).take count.toNat

/-- Two pairs of a start and a number that select the same positions below `n`. -/
def SameWindow (n : Nat) (start count start' count' : Int) : Prop :=
  min count.toNat (n - start.toNat) = min count'.toNat (n - start'.toNat) ∧
    (min count.toNat (n - start.toNat) = 0 ∨ start.toNat = start'.toNat)

theorem length_window (l : List α) (start count : Int) :
    (window l start count).length = min count.toNat (l.length - start.toNat) := by
  rw [window, length_take, length_drop]

theorem SameWindow.eq {start count start' count' : Int}
    (h : SameWindow l.length start count start' count') : window l start count = window l start' count' := by
  obtain ⟨hcount, hzero | hstart⟩ := h
  · have hempty : window l start count = [] := eq_nil_of_length_eq_zero (by rw [length_window, hzero])
    have hempty' : window l start' count' = [] := eq_nil_of_length_eq_zero (by rw [length_window, ← hcount, hzero])
    rw [hempty, hempty']
  · rw [hstart] at hcount
    rw [window, window, hstart, take_eq_take_iff, length_drop]
    exact hcount

theorem sameWindow_iff (hl : l.Nodup) (start count start' count' : Int) :
    window l start count = window l start' count' ↔ SameWindow l.length start count start' count' := by
  refine ⟨fun h => ?_, SameWindow.eq⟩
  have hlen := congrArg List.length h
  rw [length_window, length_window] at hlen
  refine ⟨hlen, ?_⟩
  by_cases hzero : min count.toNat (l.length - start.toNat) = 0
  · exact Or.inl hzero
  · right
    have hfirst := congrArg (·[0]?) h
    simp only [window] at hfirst
    rw [getElem?_take_of_lt (by omega), getElem?_take_of_lt (by omega), getElem?_drop,
      getElem?_drop, getElem?_eq_getElem (by omega), getElem?_eq_getElem (by omega),
      Option.some.injEq, hl.getElem_inj_iff] at hfirst
    exact hfirst

theorem window_clamped (l : List α) {a k a' k' : Nat} (ha : min a l.length = min a' l.length)
    (hk : min k (l.length - a) = min k' (l.length - a')) : (l.drop a).take k = (l.drop a').take k' := by
  have hdrop : l.drop a = l.drop a' := by
    by_cases hle : a < l.length
    · rw [show a = a' by omega]
    · rw [drop_eq_nil_of_le (by omega), drop_eq_nil_of_le (by omega)]
  rw [hdrop, take_eq_take_iff, length_drop]
  omega

theorem builtinSubstring_eq :
    builtinSubstring nul str start len =
      if min ((narrow start).toNat : Int) str.length + (narrow len).toNat > intMax then none
      else some ((window str (narrow start) (narrow len)).takeWhile fun c => !nul c) := by
  rw [builtinSubstring]
  generalize narrow start = a
  generalize narrow len = k
  have hstart : (if (if a < 0 then 0 else a) > str.length then (str.length : Int) else if a < 0 then 0 else a) =
      min (a.toNat : Int) str.length := by
    split_ifs <;> omega
  have hlen : (if k < 0 then 0 else k) = (k.toNat : Int) := by
    split_ifs <;> omega
  rw [hstart, hlen]
  refine if_congr Iff.rfl rfl (congrArg (some ∘ List.takeWhile fun c => !nul c) ?_)
  apply window_clamped
  · omega
  · split_ifs <;> omega

theorem builtinSlice_eq (arr : List α) (start stop : BitVec 64) :
    builtinSlice arr start stop = window arr (narrow start) (narrow stop - (narrow start).toNat) := by
  rw [builtinSlice]
  generalize narrow start = a
  generalize narrow stop = e
  apply window_clamped
  · split_ifs <;> omega
  · split_ifs <;> omega

/-! ### Positions -/

theorem window_map {β : Type} (f : α → β) (l : List α) (start count : Int) :
    (window l start count).map f = window (l.map f) start count := by
  rw [window, window, map_take, map_drop]

theorem nodup_zipIdx (l : List α) : l.zipIdx.Nodup :=
  List.Nodup.of_map Prod.snd (by rw [zipIdx_map_snd]; exact nodup_range')

/-- The arguments select the same positions after the conversion to `int`, or none that are not cut off by a NUL,
and their sum is an `int`. -/
def SubstringFits : Prop :=
  min ((narrow start).toNat : Int) str.length + (narrow len).toNat ≤ intMax ∧
    (SameWindow str.length (narrow start) (narrow len) start.toInt len.toInt ∧
        (∀ c ∈ window str start.toInt len.toInt, nul c = false) ∨
      window str start.toInt len.toInt = [] ∧ ∃ c, str[(narrow start).toNat]? = some c ∧ nul c = true)

def SliceFits (count : Nat) (start stop : BitVec 64) : Prop :=
  SameWindow count (narrow start) (narrow stop - (narrow start).toNat) start.toInt (stop.toInt - start.toInt.toNat)

theorem narrow_eq {x : BitVec 64} (hlo : 0 ≤ x.toInt) (hhi : x.toInt ≤ intMax) : narrow x = x.toInt := by
  rw [intMax] at hhi
  rw [narrow, Int.bmod_def]
  split_ifs <;> omega

theorem window_take (l : List α) (start count : Int) {j : Nat} (hj : j ≤ count.toNat) :
    (window l start count).take j = window l start j := by
  rw [window, window, take_take, Nat.min_eq_left hj, Int.toNat_natCast]

variable {nul : α → Bool}

theorem takeWhile_window_nil {start count : Int} {c : α} (hfirst : l[start.toNat]? = some c) (hc : nul c = true) :
    ((window l start count).takeWhile fun c => !nul c) = [] := by
  obtain ⟨hlt, rfl⟩ := List.getElem?_eq_some_iff.mp hfirst
  rw [window, drop_eq_getElem_cons hlt]
  cases count.toNat with
  | zero => rfl
  | succ k => rw [take_succ_cons, takeWhile_cons_of_neg (by simp [hc])]

theorem window_nil_of_cut (hl : l.Nodup) (hlen : (l.length : Int) ≤ intMax) {start len : BitVec 64}
    (h : ((window l (narrow start) (narrow len)).takeWhile fun c => !nul c) = window l start.toInt len.toInt)
    (hcut : ¬ ∀ c ∈ window l (narrow start) (narrow len), nul c = false) :
    window l start.toInt len.toInt = [] ∧ ∃ c, l[(narrow start).toNat]? = some c ∧ nul c = true := by
  have hpre : window l start.toInt len.toInt <+: window l (narrow start) (narrow len) := h ▸ takeWhile_prefix _
  have hne : window l start.toInt len.toInt ≠ window l (narrow start) (narrow len) := by
    intro heq
    rw [heq, takeWhile_eq_self_iff] at h
    exact hcut fun c hc => by simpa using h c hc
  have hshort := lt_of_le_of_ne hpre.length_le fun heq => hne (hpre.eq_of_length heq)
  have htake := prefix_iff_eq_take.mp hpre
  rw [length_window, length_window] at hshort
  rw [length_window, window_take l _ _ (by omega), sameWindow_iff hl] at htake
  obtain ⟨hcount, hstart⟩ := htake
  by_cases hzero : min len.toInt.toNat (l.length - start.toInt.toNat) = 0
  · have hempty : window l start.toInt len.toInt = [] := eq_nil_of_length_eq_zero (by rw [length_window, hzero])
    refine ⟨hempty, l.get ⟨(narrow start).toNat, by omega⟩, getElem?_eq_getElem _, ?_⟩
    rw [hempty, takeWhile_eq_nil_iff] at h
    have hhead := h (by rw [length_window]; omega)
    simpa [window] using hhead
  · have hnarrow := narrow_eq (x := len) (by omega) (by omega)
    omega

variable (nul)

theorem substring_of_fits {start len : BitVec 64} (h : SubstringFits nul l start len) :
    builtinSubstring nul l start len = some (window l start.toInt len.toInt) := by
  obtain ⟨hover, ⟨hsame, hnul⟩ | ⟨hempty, c, hfirst, hc⟩⟩ := h
  · rw [builtinSubstring_eq, if_neg (by omega), hsame.eq]
    exact congrArg some (takeWhile_eq_self_iff.mpr fun c hc => by simp [hnul c hc])
  · rw [builtinSubstring_eq, if_neg (by omega), hempty, takeWhile_window_nil hfirst hc]

theorem substring_iff (hl : l.Nodup) (hlen : (l.length : Int) ≤ intMax) (start len : BitVec 64) :
    builtinSubstring nul l start len = some (window l start.toInt len.toInt) ↔ SubstringFits nul l start len := by
  refine ⟨fun h => ?_, substring_of_fits nul⟩
  rw [builtinSubstring_eq] at h
  by_cases hover : min ((narrow start).toNat : Int) l.length + (narrow len).toNat > intMax
  · rw [if_pos hover] at h
    cases h
  · rw [if_neg hover, Option.some.injEq] at h
    refine ⟨by omega, ?_⟩
    by_cases hcut : ∀ c ∈ window l (narrow start) (narrow len), nul c = false
    · have hall : ((window l (narrow start) (narrow len)).takeWhile fun c => !nul c) = window l (narrow start) (narrow len) :=
        takeWhile_eq_self_iff.mpr fun c hc => by simp [hcut c hc]
      rw [hall] at h
      exact Or.inl ⟨(sameWindow_iff hl _ _ _ _).mp h, h ▸ hcut⟩
    · exact Or.inr (window_nil_of_cut hl hlen h hcut)

theorem substringFits_zipIdx :
    SubstringFits (fun c => nul c.1) str.zipIdx start len ↔ SubstringFits nul str start len := by
  have hmap := window_map Prod.fst str.zipIdx start.toInt len.toInt
  rw [zipIdx_map_fst] at hmap
  rw [SubstringFits, SubstringFits, length_zipIdx, ← hmap, map_eq_nil_iff]
  simp only [getElem?_zipIdx, Option.map_eq_some_iff]
  grind

variable {nul}

end Tablo.Slices
