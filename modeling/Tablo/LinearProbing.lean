import Mathlib.Logic.Function.Basic
import Mathlib.Data.Nat.Basic
import Mathlib.Data.List.GetD

/-! Open addressing with linear probing on a cyclic table of `n` slots, and
deletion by shifting entries back. A table is a map from slot numbers to
entries; an entry names its home slot. -/

namespace LinearProbing

open Function Option List

def gap (n a b : Nat) : Nat := if a ≤ b then b - a else b + n - a

def next (n i : Nat) : Nat := if i + 1 = n then 0 else i + 1

variable {n a b h p i : Nat}

theorem next_lt (hi : i < n) : next n i < n := by
  unfold next
  split <;> omega

theorem gap_lt (ha : a < n) (hb : b < n) : gap n a b < n := by
  unfold gap
  split <;> omega

theorem gap_self (n a : Nat) : gap n a a = 0 := by
  simp [gap]

theorem gap_eq_zero (ha : a < n) (h : gap n a b = 0) : a = b := by
  unfold gap at h
  split at h <;> omega

theorem gap_inj {c : Nat} (ha : a < n) (hb : b < n) (hc : c < n) (h : gap n a b = gap n a c) : b = c := by
  unfold gap at h
  split at h <;> split at h <;> omega

theorem gap_next (ha : a < n) (hb : b < n) (hne : a ≠ b) : gap n (next n a) b + 1 = gap n a b := by
  unfold gap next
  split <;> split <;> split <;> omega

theorem gap_trans_lt (ha : a < n) (hi : i < n)
    (hah : gap n a h < gap n a i) (hpi : gap n h p < gap n h i) : gap n a p < gap n a i := by
  unfold gap at *
  split_ifs at * <;> omega

theorem gap_next_lt (hh : h < n) (hp : p < n) (hi : i < n)
    (hlt : gap n h i < gap n h (next n p)) : i = p ∨ gap n h i < gap n h p := by
  unfold gap next at *
  split_ifs at * <;> omega

theorem gap_self_next (hn : 1 < n) : gap n h (next n h) = 1 := by
  unfold gap next
  split_ifs <;> omega

theorem gap_succ (hh : h < n) :
    next n p = h ∧ gap n h p + 1 = n ∨ next n p ≠ h ∧ gap n h (next n p) = gap n h p + 1 := by
  unfold gap next
  split_ifs <;> omega

theorem next_ne (hn : 1 < n) : next n i ≠ i := by
  unfold next
  split <;> omega

def scan (n : Nat) (stop : Nat → Bool) : Nat → Nat → Option Nat
  | 0, _ => none
  | fuel + 1, i => if stop i then some i else scan n stop fuel (next n i)

theorem scan_spec {stop : Nat → Bool} {fuel z : Nat} (hi : i < n) (hz : z < n)
    (hstop : stop z = true) (hfuel : gap n i z < fuel) :
    ∃ j, scan n stop fuel i = some j ∧ j < n ∧ stop j = true ∧ ∀ k < n, gap n i k < gap n i j → stop k = false := by
  induction fuel generalizing i with
  | zero => omega
  | succ fuel ih =>
    by_cases hs : stop i = true
    · refine ⟨i, by simp [scan, hs], hi, hs, fun k _ hk => ?_⟩
      rw [gap_self] at hk
      omega
    · have hne : i ≠ z := by
        rintro rfl
        exact hs hstop
      have hgap := gap_next hi hz hne
      obtain ⟨j, hj, hjn, hjs, hbefore⟩ := ih (next_lt hi) (by omega)
      refine ⟨j, by simpa [scan, hs] using hj, hjn, hjs, fun k hk hkj => ?_⟩
      by_cases hki : i = k
      · subst hki
        simpa using hs
      · have hij : i ≠ j := by
          rintro rfl
          exact hs hjs
        have h1 := gap_next hi hk hki
        have h2 := gap_next hi hjn hij
        exact hbefore k hk (by omega)

variable {ε : Type} {home : ε → Nat} {T : Nat → Option ε} {e e' : ε} {hole pos : Nat} {κ : Type} {key : ε → κ}
  {slots : List (Option ε)}

/-- The slots from `h` up to `i` are taken. -/
def Taken (n : Nat) (T : Nat → Option ε) (h i : Nat) : Prop := ∀ j < n, gap n h j < gap n h i → T j ≠ none

def Reachable (n : Nat) (home : ε → Nat) (T : Nat → Option ε) : Prop :=
  ∀ i < n, ∀ e, T i = some e → Taken n T (home e) i

theorem Reachable.insert (h : Reachable n home T) (hpath : Taken n T (home e) i) :
    Reachable n home (update T i (some e)) := by
  intro k hk e' he' j hj hlt
  by_cases hji : j = i
  · subst hji
    simp
  rw [update_of_ne hji]
  by_cases hki : k = i
  · subst hki
    rw [update_self, some_inj] at he'
    subst he'
    exact hpath j hj hlt
  · rw [update_of_ne hki] at he'
    exact h k hk e' he' j hj hlt

/-- The state of a deletion: slot `hole` is to be emptied and the slots up to
`pos` have been looked at. Entries may be cut off from home by the hole, but
none of those already passed are. -/
structure Shifting (n : Nat) (home : ε → Nat) (T : Nat → Option ε) (hole pos : Nat) : Prop where
  hole_lt : hole < n
  pos_lt : pos < n
  pos_ne : pos ≠ hole
  path : ∀ i < n, i ≠ hole → ∀ e, T i = some e → ∀ j < n, j ≠ hole →
    gap n (home e) j < gap n (home e) i → T j ≠ none
  passed : ∀ i < n, i ≠ hole → ∀ e, T i = some e → gap n hole i < gap n hole pos →
    ¬ gap n (home e) hole < gap n (home e) i

theorem Shifting.start (h : Reachable n home T) (hh : hole < n)
    (hn : 1 < n) : Shifting n home T hole (next n hole) := by
  refine ⟨hh, next_lt hh, next_ne hn, ?_, ?_⟩
  · intro i hi _ e he j hj _ hlt
    exact h i hi e he j hj hlt
  · intro i hi hne e _ hlt
    rw [gap_self_next hn] at hlt
    exact absurd (gap_eq_zero hh (by omega)) (Ne.symm hne)

theorem Shifting.skip (h : Shifting n home T hole pos)
    (he : T pos = some e) (hkeep : ¬ gap n (home e) hole < gap n (home e) pos)
    (hlast : next n pos ≠ hole) : Shifting n home T hole (next n pos) := by
  refine ⟨h.hole_lt, next_lt h.pos_lt, hlast, h.path, ?_⟩
  intro i hi hne e' he' hlt
  rcases gap_next_lt h.hole_lt h.pos_lt hi hlt with rfl | hlt
  · rw [he, some_inj] at he'
    exact he' ▸ hkeep
  · exact h.passed i hi hne e' he' hlt

theorem Shifting.move (h : Shifting n home T hole pos)
    (hn : 1 < n) (he : T pos = some e) (hcut : gap n (home e) hole < gap n (home e) pos) :
    Shifting n home (update T hole (some e)) pos (next n pos) := by
  have hp := h.pos_lt
  have hne := h.pos_ne
  refine ⟨hp, next_lt hp, next_ne hn, ?_, ?_⟩
  · intro i hi hip e' he' j hj hjp hlt
    by_cases hjh : j = hole
    · subst hjh
      simp
    rw [update_of_ne hjh]
    by_cases hih : i = hole
    · subst hih
      rw [update_self, some_inj] at he'
      subst he'
      exact h.path pos hp hne e he j hj hjh (by omega)
    · rw [update_of_ne hih] at he'
      exact h.path i hi hih e' he' j hj hjh hlt
  · intro i hi hip e' _ hlt
    rw [gap_self_next hn] at hlt
    exact absurd (gap_eq_zero hp (by omega)) (Ne.symm hip)

theorem Shifting.finish (h : Shifting n home T hole pos)
    (hhome : ∀ i < n, ∀ e, T i = some e → home e < n) (hpos : T pos = none) :
    Reachable n home (update T hole none) := by
  intro i hi e he j hj hlt
  have hih : i ≠ hole := by
    rintro rfl
    simp at he
  rw [update_of_ne hih] at he
  have hjh : j ≠ hole := by
    rintro rfl
    have hip : pos ≠ i := by
      rintro rfl
      rw [hpos] at he
      exact absurd he (by simp)
    have hcut : ¬ gap n j i < gap n j pos := fun hlt' => h.passed i hi hih e he hlt' hlt
    have hne : gap n j pos ≠ gap n j i := fun heq => hip (gap_inj hj h.pos_lt hi heq)
    -- the empty slot lies between the hole and the entry
    have hbetween := gap_trans_lt (hhome i hi e he) hi hlt (show gap n j pos < gap n j i by omega)
    exact h.path i hi hih e he pos h.pos_lt h.pos_ne hbetween hpos
  rw [update_of_ne hjh]
  exact h.path i hi hih e he j hj hjh hlt

def Distinct (n : Nat) (key : ε → κ) (T : Nat → Option ε) : Prop :=
  ∀ i < n, ∀ j < n, ∀ e e', T i = some e → T j = some e' → key e = key e' → i = j

def Holds (n : Nat) (T : Nat → Option ε) (e : ε) : Prop := ∃ i < n, T i = some e

/-- A scan from home that stops at the key or at an empty slot decides whether
the key is stored; an empty slot it stops at is the place for a new entry. -/
theorem scan_key {k : κ} {stop : Nat → Bool} (hr : Reachable n home T)
    (hhome : ∀ e, Holds n T e → key e = k → home e = h) (hh : h < n) (hempty : ∃ z < n, T z = none)
    (hstop : ∀ j < n, stop j = true ↔ T j = none ∨ ∃ e, T j = some e ∧ key e = k) :
    ∃ j, scan n stop n h = some j ∧ j < n ∧ ((∃ e, T j = some e ∧ key e = k) ∨
        T j = none ∧ (∀ e, Holds n T e → key e ≠ k) ∧ Taken n T h j) := by
  obtain ⟨z, hz, hzn⟩ := hempty
  obtain ⟨j, hj, hjn, hjs, hbefore⟩ := scan_spec hh hz ((hstop z hz).mpr (.inl hzn)) (gap_lt hh hz)
  refine ⟨j, hj, hjn, ?_⟩
  rcases (hstop j hjn).mp hjs with hnone | hfound
  · right
    have hpath : Taken n T h j := by
      intro i hi hlt hi'
      have hs := hbefore i hi hlt
      rw [(hstop i hi).mpr (.inl hi')] at hs
      exact absurd hs (by simp)
    refine ⟨hnone, ?_, hpath⟩
    rintro e ⟨i, hi, he⟩ hk
    have hhe := hhome e ⟨i, hi, he⟩ hk
    have hij : i ≠ j := by
      rintro rfl
      rw [hnone] at he
      exact absurd he (by simp)
    rcases Nat.lt_trichotomy (gap n h i) (gap n h j) with hlt | heq | hgt
    · have hs := hbefore i hi hlt
      rw [(hstop i hi).mpr (.inr ⟨e, he, hk⟩)] at hs
      exact absurd hs (by simp)
    · exact hij (gap_inj hh hi hjn heq)
    · exact hr i hi e he j hjn (by rwa [hhe]) hnone
  · exact .inl hfound

theorem Distinct.insert (hd : Distinct n key T)
    (hnew : ∀ e', Holds n T e' → key e' ≠ key e) : Distinct n key (update T i (some e)) := by
  intro a ha b hb e1 e2 h1 h2 hk
  by_cases hai : a = i <;> by_cases hbi : b = i
  · rw [hai, hbi]
  · rw [hai, update_self, some_inj] at h1
    rw [update_of_ne hbi] at h2
    exact absurd (h1 ▸ hk.symm) (hnew e2 ⟨b, hb, h2⟩)
  · rw [hbi, update_self, some_inj] at h2
    rw [update_of_ne hai] at h1
    exact absurd (h2 ▸ hk) (hnew e1 ⟨a, ha, h1⟩)
  · rw [update_of_ne hai] at h1
    rw [update_of_ne hbi] at h2
    exact hd a ha b hb e1 e2 h1 h2 hk

theorem holds_insert (hi : i < n) (hnone : T i = none) :
    Holds n (update T i (some e)) e' ↔ e' = e ∨ Holds n T e' := by
  constructor
  · rintro ⟨j, hj, hje⟩
    by_cases hji : j = i
    · rw [hji, update_self, some_inj] at hje
      exact .inl hje.symm
    · rw [update_of_ne hji] at hje
      exact .inr ⟨j, hj, hje⟩
  · rintro (rfl | ⟨j, hj, hje⟩)
    · exact ⟨i, hi, update_self ..⟩
    · have hji : j ≠ i := by
        rintro rfl
        rw [hnone] at hje
        exact absurd hje (by simp)
      exact ⟨j, hj, by rwa [update_of_ne hji]⟩

theorem Distinct.erase (hd : Distinct n key T) (i : Nat) : Distinct n key (update T i none) := by
  intro a ha b hb e1 e2 h1 h2 hk
  have hai : a ≠ i := by
    rintro rfl
    simp at h1
  have hbi : b ≠ i := by
    rintro rfl
    simp at h2
  rw [update_of_ne hai] at h1
  rw [update_of_ne hbi] at h2
  exact hd a ha b hb e1 e2 h1 h2 hk

theorem holds_erase (hd : Distinct n key T) (hi : i < n) (he : T i = some e) :
    Holds n (update T i none) e' ↔ Holds n T e' ∧ key e' ≠ key e := by
  constructor
  · rintro ⟨j, hj, hje⟩
    have hji : j ≠ i := by
      rintro rfl
      simp at hje
    rw [update_of_ne hji] at hje
    exact ⟨⟨j, hj, hje⟩, fun hk => hji (hd j hj i hi e' e hje he hk)⟩
  · rintro ⟨⟨j, hj, hje⟩, hk⟩
    have hji : j ≠ i := by
      rintro rfl
      rw [he, some_inj] at hje
      exact hk (hje ▸ rfl)
    exact ⟨j, hj, by rwa [update_of_ne hji]⟩

/-- Moving an entry into the hole changes neither what is stored nor that keys
are distinct. The hole counts as empty although its old entry is still there. -/
theorem move_eq (T : Nat → Option ε) (hne : pos ≠ hole) : update (update T hole (some e)) pos none =
      update (update (update T hole none) pos none) hole (some e) := by
  rw [update_comm hne, update_idem]

theorem holds_move (hpos : pos < n) (hhole : hole < n) (hne : pos ≠ hole)
    (he : T pos = some e) (hd : Distinct n key (update T hole none)) :
    Holds n (update (update T hole (some e)) pos none) e' ↔
      Holds n (update T hole none) e' := by
  have hp : update T hole none pos = some e := by rwa [update_of_ne hne]
  have hh : update (update T hole none) pos none hole = none := by
    rw [update_of_ne (Ne.symm hne), update_self]
  rw [move_eq T hne, holds_insert hhole hh, holds_erase hd hpos hp]
  constructor
  · rintro (rfl | ⟨h, -⟩)
    exacts [⟨pos, hpos, hp⟩, h]
  · rintro ⟨j, hj, hje⟩
    by_cases hk : key e' = key e
    · have hjp := hd j hj pos hpos e' e hje hp hk
      rw [hjp, hp, some_inj] at hje
      exact .inl hje.symm
    · exact .inr ⟨⟨j, hj, hje⟩, hk⟩

theorem Distinct.move (hpos : pos < n) (hne : pos ≠ hole)
    (he : T pos = some e) (hd : Distinct n key (update T hole none)) :
    Distinct n key (update (update T hole (some e)) pos none) := by
  have hp : update T hole none pos = some e := by rwa [update_of_ne hne]
  rw [move_eq T hne]
  refine (hd.erase pos).insert fun e' he' => ?_
  exact ((holds_erase hd hpos hp).mp he').2

/-! ### Slots in a list -/

def slotOf (slots : List (Option ε)) (i : Nat) : Option ε := slots.getD i none

theorem slotOf_set (hi : i < slots.length) (x : Option ε) :
    slotOf (slots.set i x) = update (slotOf slots) i x := by
  funext j
  by_cases hji : j = i
  · subst hji
    simp [slotOf, hi]
  · rw [update_of_ne hji]
    simp [slotOf, getElem?_set_ne (Ne.symm hji)]

theorem slotOf_replicate (n : Nat) : slotOf (replicate n (none : Option ε)) = fun _ => none := by
  funext j
  by_cases hj : j < n <;> simp [slotOf]

theorem holds_iff_mem (hlen : slots.length = n) (e : ε) : Holds n (slotOf slots) e ↔ some e ∈ slots := by
  subst hlen
  constructor
  · rintro ⟨i, hi, he⟩
    rw [slotOf, getD_eq_getElem slots none hi] at he
    exact he ▸ getElem_mem hi
  · intro he
    obtain ⟨i, hi, hie⟩ := getElem_of_mem he
    exact ⟨i, hi, by rw [slotOf, getD_eq_getElem slots none hi, hie]⟩

theorem Distinct.nodup (h : Distinct n key (slotOf slots)) (hlen : slots.length = n) :
    (slots.filterMap (·.map key)).Nodup := by
  unfold Nodup
  rw [pairwise_filterMap, pairwise_iff_getElem]
  intro i j hi hj hij k hk k' hk' heq
  obtain ⟨e, he, hek⟩ := map_eq_some_iff.mp hk
  obtain ⟨e', he', hek'⟩ := map_eq_some_iff.mp hk'
  refine absurd (h i (by omega) j (by omega) e e' ?_ ?_ (by rw [hek, hek', heq])) (by omega)
  · rw [slotOf, getD_eq_getElem slots none hi, he]
  · rw [slotOf, getD_eq_getElem slots none hj, he']

end LinearProbing
