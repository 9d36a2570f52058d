import Tablo.LinearProbing
import Tablo.ObjMap
import Mathlib.Algebra.Group.Nat.Defs
import Mathlib.Data.List.GetD
import Mathlib.Data.List.Basic

/-! The slot array as a cyclic table: masking is reduction modulo the
capacity, and every probe loop is a scan. -/

namespace Tablo.Vm

open LinearProbing List Option Nat

variable {V : Type} {i : Nat}

section Masking

variable {c k : Nat}

variable (hc : c = 2 ^ k)

include hc

theorem mask_eq_mod (x : Nat) : x &&& (c - 1) = x % c := by
  rw [hc, and_two_pow_sub_one_eq_mod]

theorem home_lt (hash : UInt32) : home c hash < c := by
  rw [home, mask_eq_mod hc]
  exact mod_lt _ (hc ▸ Nat.two_pow_pos k)

theorem mask_succ (hi : i < c) : (i + 1) &&& (c - 1) = next c i := by
  rw [mask_eq_mod hc, LinearProbing.next]
  split
  next h => rw [h, mod_self]
  next h => exact mod_eq_of_lt (by omega)

theorem maskedSub_eq (hk : k ≤ 32) {a b : Nat} (ha : a < c) (hb : b < c) :
    maskedSub (c - 1) a b = gap c b a := by
  obtain ⟨m, hm⟩ : c ∣ 4294967296 := by
    rw [hc]
    exact Nat.pow_dvd_pow 2 hk
  have hpos : 0 < m := by
    rcases Nat.eq_zero_or_pos m with h0 | h0
    · simp [h0] at hm
    · exact h0
  obtain ⟨m', rfl⟩ : ∃ m', m = m' + 1 := ⟨m - 1, by omega⟩
  rw [maskedSub, mask_eq_mod hc, mod_mod_of_dvd _ ⟨m' + 1, hm⟩, hm, gap, mul_succ]
  split
  next h =>
    rw [show a + (c * m' + c) - b = (a - b) + c * (m' + 1) by rw [mul_succ]; omega, add_mul_mod_self_left]
    exact mod_eq_of_lt (by omega)
  next h =>
    rw [show a + (c * m' + c) - b = (a + c - b) + c * m' by omega, add_mul_mod_self_left]
    exact mod_eq_of_lt (by omega)

end Masking

variable {slots : List (Option (MapEntry V))}

theorem slot_set (hi : i < slots.length) (x : Option (MapEntry V)) :
    slot (slots.set i x) = Function.update (slot slots) i x := slotOf_set hi x

theorem slot_replicate (c : Nat) : slot (List.replicate c (none : Option (MapEntry V))) = fun _ => none :=
  slotOf_replicate c

def stopAt (slots : List (Option (MapEntry V))) (hit : MapEntry V → Bool) (i : Nat) : Bool :=
  match slot slots i with
  | none => true
  | some e => hit e

theorem probeLoop_eq_scan {c k : Nat} (hc : c = 2 ^ k) {hit : MapEntry V → Bool} {fuel : Nat} (hi : i < c) :
    probeLoop slots (c - 1) hit fuel i =
      match scan c (stopAt slots hit) fuel i with
      | none => .error .endless
      | some j => .ok (j, (slot slots j).isSome) := by
  induction fuel generalizing i with
  | zero => rfl
  | succ fuel ih =>
    cases hs : slot slots i with
    | none => simp [probeLoop, scan, stopAt, hs]
    | some e =>
      by_cases hh : hit e = true
      · simp [probeLoop, scan, stopAt, hs, hh]
      · have hn := ih (next_lt hi)
        simp [probeLoop, scan, stopAt, hs, hh, mask_succ hc hi, hn]

theorem countP_lt_exists_none (h : slots.countP isSome < slots.length) : ∃ z < slots.length, slot slots z = none := by
  by_contra hall
  push Not at hall
  refine absurd (countP_eq_length.mpr fun x hx => ?_) (Nat.ne_of_lt h)
  obtain ⟨i, hi, rfl⟩ := getElem_of_mem hx
  have hs := hall i hi
  rw [slot, getD_eq_getElem slots none hi] at hs
  exact isSome_iff_ne_none.mpr hs

theorem countP_set_none (hi : i < slots.length) (hs : slot slots i ≠ none) :
    (slots.set i none).countP isSome = slots.countP isSome - 1 := by
  rw [slot, getD_eq_getElem slots none hi] at hs
  rw [countP_set hi]
  simp [isSome_iff_ne_none.mpr hs]

theorem countP_set_some (hi : i < slots.length) (e : MapEntry V) : (slots.set i (some e)).countP isSome =
      if slot slots i = none then slots.countP isSome + 1 else slots.countP isSome := by
  have hslot : slot slots i = slots[i] := getD_eq_getElem slots none hi
  rw [countP_set hi, hslot]
  by_cases h : slots[i] = none
  · simp [h]
  · have hpos : 0 < slots.countP isSome :=
      countP_pos_iff.mpr ⟨slots[i], getElem_mem hi, isSome_iff_ne_none.mpr h⟩
    rw [if_neg h, if_pos (isSome_iff_ne_none.mpr h), if_pos (isSome_some)]
    omega

/-! The invariant of the map and the operations that keep it. -/

open Function

variable {c j : Nat} {e : MapEntry V}

def keyHash : MapKey → UInt32
  | .int n => intHash n ||| 2
  | .string chars => mapStringHashChars chars ||| 2

theorem mapStringHashObj_eq (key : ObjString) : mapStringHashObj key = mapStringHashChars key.chars := by
  unfold mapStringHashObj
  split
  next => rfl
  next h => exact key.hash_eq.resolve_left h

theorem KeyPath.hash_eq (path : KeyPath) : path.hash = keyHash path.stored := by
  cases path with
  | int n => rfl
  | obj key => simp only [hash, mapStringHashObj_eq, stored, keyHash]
  | chars cs => rfl

theorem KeyPath.equals_iff (path : KeyPath) (key : MapKey) : path.equals key = true ↔ key = path.stored := by
  cases path <;> cases key <;>
    simp only [equals, valueEqualsKeyFast, mapSlotKeyEqualsStringObj,
      mapSlotKeyEqualsStringChars, stored, Bool.and_eq_true, beq_iff_eq,
      MapKey.int.injEq, MapKey.string.injEq, reduceCtorEq]
  all_goals exact and_iff_right_of_imp fun h => congrArg List.length h

/-- A table of `c` slots with distinct keys under their own hashes, each
reachable from its home slot. -/
structure IsTable (c : Nat) (slots : List (Option (MapEntry V))) : Prop where
  length_eq : slots.length = c
  reach : Reachable c (fun e => home c e.hash) (slot slots)
  distinct : Distinct c MapEntry.key (slot slots)
  hashed : ∀ e, Holds c (slot slots) e → e.hash = keyHash e.key

/-- The capacity is a power of two that an `int` can triple, and at most three
quarters of the slots are taken. -/
structure Inv (map : ObjMap V) : Prop where
  table : IsTable map.capacity map.slots
  capacity_eq : ∃ k, 4 ≤ k ∧ k ≤ 29 ∧ map.capacity = 2 ^ k
  count_eq : map.count = map.slots.countP Option.isSome
  used_eq : map.used = map.count
  load : map.count ≤ map.capacity * 3 / 4

theorem IsTable.exists_none (h : IsTable c slots)
    (hlt : slots.countP Option.isSome < c) : ∃ z < c, slot slots z = none := by
  have hz := countP_lt_exists_none (h.length_eq.symm ▸ hlt)
  rwa [h.length_eq] at hz

theorem isTable_replicate (c : Nat) : IsTable c (List.replicate c (none : Option (MapEntry V))) := by
  refine ⟨List.length_replicate, ?_, ?_, ?_⟩ <;> rw [slot_replicate]
  · intro i _ e he
    exact absurd he (by simp)
  · intro i _ j _ e e' he
    exact absurd he (by simp)
  · rintro e ⟨i, _, he⟩
    exact absurd he (by simp)

/-- What a lookup finds: the slot of the key, or the empty slot that ends its
probe chain. -/
theorem findSlot_spec {k : Nat} (hc : c = 2 ^ k)
    (h : IsTable c slots) (hlt : slots.countP Option.isSome < c) (key : MapKey) (hit : MapEntry V → Bool)
    (hhit : ∀ e, Holds c (slot slots) e → (hit e = true ↔ e.key = key)) :
    ∃ j < c, probeLoop slots (c - 1) hit c (home c (keyHash key)) = .ok (j, (slot slots j).isSome) ∧
      ((∃ e, slot slots j = some e ∧ e.key = key) ∨
        slot slots j = none ∧ (∀ e, Holds c (slot slots) e → e.key ≠ key) ∧
          Taken c (slot slots) (home c (keyHash key)) j) := by
  have hstop : ∀ j < c, stopAt slots hit j = true ↔
      slot slots j = none ∨ ∃ e, slot slots j = some e ∧ e.key = key := by
    intro j hj
    unfold stopAt
    cases hs : slot slots j with
    | none => simp
    | some e => simpa using hhit e ⟨j, hj, hs⟩
  have hhome : ∀ e, Holds c (slot slots) e → e.key = key → home c e.hash = home c (keyHash key) := by
    intro e he hk
    rw [h.hashed e he, hk]
  obtain ⟨j, hj, hjc, hres⟩ :=
    scan_key h.reach hhome (home_lt hc _) (h.exists_none hlt) hstop
  refine ⟨j, hjc, ?_, hres⟩
  rw [probeLoop_eq_scan hc (home_lt hc _), hj]

theorem IsTable.insert (h : IsTable c slots)
    (hj : j < c) (hhash : e.hash = keyHash e.key) (hnone : slot slots j = none)
    (hnew : ∀ e', Holds c (slot slots) e' → e'.key ≠ e.key) (hpath : Taken c (slot slots) (home c e.hash) j) :
    IsTable c (slots.set j (some e)) ∧
      ∀ e', Holds c (slot (slots.set j (some e))) e' ↔ e' = e ∨ Holds c (slot slots) e' := by
  have hset := slot_set (h.length_eq.symm ▸ hj) (some e)
  have hholds : ∀ e', Holds c (slot (slots.set j (some e))) e' ↔ e' = e ∨ Holds c (slot slots) e' := by
    intro e'
    rw [hset]
    exact holds_insert hj hnone
  refine ⟨⟨by rw [List.length_set, h.length_eq], ?_, ?_, ?_⟩, hholds⟩
  · rw [hset]
    exact h.reach.insert hpath
  · rw [hset]
    exact h.distinct.insert hnew
  · intro e' he'
    rcases (hholds e').mp he' with rfl | he'
    · exact hhash
    · exact h.hashed e' he'

theorem IsTable.replace (h : IsTable c slots) (hj : j < c) (he : slot slots j = some e) (v : V) :
    IsTable c (slots.set j (some { e with value := v })) ∧
      ∀ e', Holds c (slot (slots.set j (some { e with value := v }))) e' ↔
        e' = { e with value := v } ∨ Holds c (slot slots) e' ∧ e'.key ≠ e.key := by
  have hset := slot_set (h.length_eq.symm ▸ hj) (some { e with value := v })
  have hdef : update (slot slots) j (some { e with value := v }) =
      update (update (slot slots) j none) j (some { e with value := v }) := by
    rw [update_idem]
  have hholds : ∀ e', Holds c (slot (slots.set j (some { e with value := v }))) e' ↔
      e' = { e with value := v } ∨ Holds c (slot slots) e' ∧ e'.key ≠ e.key := by
    intro e'
    rw [hset, hdef, holds_insert hj (update_self ..), holds_erase h.distinct hj he]
  refine ⟨⟨by rw [List.length_set, h.length_eq], ?_, ?_, ?_⟩, hholds⟩
  · rw [hset]
    exact h.reach.insert (h.reach j hj e he)
  · rw [hset, hdef]
    refine (h.distinct.erase j).insert fun e' he' => ?_
    exact ((holds_erase h.distinct hj he).mp he').2
  · intro e' he'
    rcases (hholds e').mp he' with rfl | ⟨he', -⟩
    · exact h.hashed e ⟨j, hj, he⟩
    · exact h.hashed e' he'

end Tablo.Vm
