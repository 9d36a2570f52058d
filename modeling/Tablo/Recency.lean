import Mathlib.Data.List.Pairwise
import Mathlib.Data.List.Nodup

/-! Keyed items in the order in which they were last touched, with the number of the event that
touched each key last. -/

namespace Recency

open List

variable {K V : Type}

def keys (l : List (K × V)) : List K := l.map Prod.fst

section Items

variable [DecidableEq K]

def drop (k : K) (l : List (K × V)) : List (K × V) := l.filter fun item => item.1 ≠ k

def touch (k : K) (v : V) (l : List (K × V)) : List (K × V) := drop k l ++ [(k, v)]

def find (k : K) (l : List (K × V)) : Option V := (l.find? fun item => item.1 = k).map Prod.snd

variable {k : K} {l : List (K × V)}

theorem mem_keys_drop {x : K} : x ∈ keys (drop k l) ↔ x ∈ keys l ∧ x ≠ k := by
  simp [keys, drop]

theorem drop_eq_self (h : k ∉ keys l) : drop k l = l := by
  refine filter_eq_self.mpr fun item hitem => ?_
  have hne : item.1 ≠ k := fun hk => h (hk ▸ mem_map_of_mem hitem)
  simpa using hne

theorem keys_drop_middle {v : V} {r : List (K × V)} (hl : k ∉ keys l) (hr : k ∉ keys r) :
    drop k (l ++ (k, v) :: r) = l ++ r := by
  rw [drop, filter_append, filter_cons_of_neg (by simp)]
  exact congrArg₂ _ (drop_eq_self hl) (drop_eq_self hr)

theorem exists_of_find {v : V} (h : find k l = some v) : ∃ a b, l = a ++ (k, v) :: b := by
  obtain ⟨item, hitem, rfl⟩ := Option.map_eq_some_iff.mp h
  obtain ⟨hk, a, b, hl, -⟩ := find?_eq_some_iff_append.mp hitem
  obtain rfl : item.1 = k := by simpa using hk
  exact ⟨a, b, hl⟩

theorem find_eq_none : find k l = none ↔ k ∉ keys l := by
  simp only [find, keys, Option.map_eq_none_iff, find?_eq_none, mem_map, not_exists, not_and]
  exact forall₂_congr fun item _ => by simp

end Items

structure History (K V : Type) where
  items : List (K × V)
  clock : Nat
  stamp : K → Nat

def History.advance (h : History K V) (l : List (K × V)) : History K V :=
  ⟨l, h.clock + 1, h.stamp⟩

def History.touched [DecidableEq K] (h : History K V) (l : List (K × V)) (k : K) (v : V) : History K V :=
  ⟨touch k v l, h.clock + 1, Function.update h.stamp k (h.clock + 1)⟩

structure History.Ordered (h : History K V) : Prop where
  sorted : h.items.Pairwise fun a b => h.stamp a.1 < h.stamp b.1
  past : ∀ item ∈ h.items, h.stamp item.1 ≤ h.clock

variable {h : History K V} {l : List (K × V)}

theorem History.Ordered.advance (ho : h.Ordered) (hl : l.Sublist h.items) : (h.advance l).Ordered where
  sorted := ho.sorted.sublist hl
  past item hitem := Nat.le_succ_of_le (ho.past item (hl.subset hitem))

theorem History.Ordered.touched [DecidableEq K] (ho : h.Ordered)
    (hl : l.Sublist h.items) (k : K) (v : V) : (h.touched l k v).Ordered := by
  have hsub : (drop k l).Sublist h.items := filter_sublist.trans hl
  have hstamp : ∀ item ∈ drop k l, (h.touched l k v).stamp item.1 = h.stamp item.1 := by
    intro item hitem
    have hne : item.1 ≠ k := by simpa using (List.mem_filter.mp hitem).2
    exact Function.update_of_ne hne _ _
  have hnew : (h.touched l k v).stamp k = h.clock + 1 := Function.update_self _ _ _
  refine ⟨pairwise_append.mpr ⟨?_, pairwise_singleton _ _, ?_⟩, ?_⟩
  · refine (ho.sorted.sublist hsub).imp_of_mem fun ha hb hab => ?_
    rwa [hstamp _ ha, hstamp _ hb]
  · intro a ha b hb
    rw [mem_singleton.mp hb, hstamp a ha, hnew]
    exact Nat.lt_succ_of_le (ho.past a (hsub.subset ha))
  · intro item hitem
    rcases mem_append.mp hitem with hold | hlast
    · rw [hstamp item hold]
      exact Nat.le_succ_of_le (ho.past item (hsub.subset hold))
    · rw [mem_singleton.mp hlast, hnew]
      exact Nat.le_refl _

end Recency
