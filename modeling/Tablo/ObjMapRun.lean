import Tablo.Fallible
import Tablo.ObjMapOps
import Mathlib.Data.Set.Card

/-! Any sequence of operations on a map behaves as a finite partial function
from keys to values. -/

namespace Tablo.Vm

open Fallible LinearProbing Finset MapOp

variable {V : Type} {f : MapKey → Option V} {m : ObjMap V}

def KeyArg.key (arg : KeyArg) : Option MapKey := arg.path.map KeyPath.stored

def MapOp.apply (f : MapKey → Option V) : MapOp V → MapKey → Option V
  | .set arg v =>
    match arg.key with
    | none => f
    | some key => Function.update f key (some v)
  | .delete arg =>
    match arg.key with
    | none => f
    | some key => Function.update f key none
  | _ => f

def valueAt (f : MapKey → Option V) (arg : KeyArg) : Option V := arg.key.bind f

def Answers (nil : V) (m : ObjMap V) (f : MapKey → Option V) : MapOp V → MapResult V → Prop
  | .set _ _, r => r = .unit
  | .get arg, r => r = .value ((valueAt f arg).getD nil)
  | .has arg, r => r = .bool (valueAt f arg).isSome
  | .tryGetCstr chars, r =>
    r = .tryGet (valueAt f (.cstr chars)).isSome ((valueAt f (.cstr chars)).getD nil)
  | .delete _, r => r = .unit
  | .count, r => r = .count {key | f key ≠ none}.ncard
  | .keys, r => r = .keys (objMapKeys m)
  | .values, r => r = .values (objMapValues m)

/-- What holds of a map that stands for `f`: the count, the listings, an empty
slot for every probe loop to end at, and unbroken probe chains. -/
structure Consistent (m : ObjMap V) (f : MapKey → Option V) : Prop where
  finite : {key | f key ≠ none}.Finite
  count_eq : m.count = {key | f key ≠ none}.ncard
  keys_nodup : (objMapKeys m).Nodup
  mem_keys : ∀ key, key ∈ objMapKeys m ↔ f key ≠ none
  values_eq : (objMapKeys m).map f = (objMapValues m).map some
  exists_empty : ∃ i < m.capacity, slot m.slots i = none
  reachable : Reachable m.capacity (fun e => home m.capacity e.hash) (slot m.slots)

/-- Every operation of the sequence returns, answers as the partial function
does, and leaves a map that stands for the updated function. -/
def RunsAs (nil : V) : ObjMap V → (MapKey → Option V) → List (MapOp V) → Prop
  | m, f, [] => Consistent m f
  | m, f, op :: ops =>
    Consistent m f ∧ ∃ m' r, step nil m op = .ok (m', r) ∧ Answers nil m f op r ∧ RunsAs nil m' (op.apply f) ops

theorem length_slotKeys (slots : List (Option (MapEntry V))) :
    (slotKeys slots).length = slots.countP Option.isSome := by
  induction slots with
  | nil => rfl
  | cons x slots ih =>
    cases x with
    | none | some e => simpa [slotKeys] using ih

theorem map_slotKeys {slots : List (Option (MapEntry V))} (h : ∀ e, some e ∈ slots → f e.key = some e.value) :
    (slotKeys slots).map f = (slots.filterMap (·.map (·.value))).map some := by
  induction slots with
  | nil => rfl
  | cons x slots ih =>
    have hrest := ih fun e he => h e (List.mem_cons_of_mem _ he)
    cases x with
    | none => simpa [slotKeys] using hrest
    | some e => simpa [slotKeys, h e List.mem_cons_self] using hrest

def MapOp.Fits (f : MapKey → Option V) : MapOp V → Prop
  | .set arg _ => arg.key ≠ none → {key | f key ≠ none}.ncard < maxCount
  | _ => True

def Fits : (MapKey → Option V) → List (MapOp V) → Prop
  | _, [] => True
  | f, op :: ops => op.Fits f ∧ Fits (op.apply f) ops

section

variable (h : Inv m) (hf : Represents m f) (nil : V)

include h hf

theorem consistent_of_inv : Consistent m f := by
  have hmem := h.table.holds_iff
  have hkeys : ∀ key, key ∈ objMapKeys m ↔ f key ≠ none := by
    intro key
    change key ∈ slotKeys m.slots ↔ _
    rw [mem_slotKeys, Option.ne_none_iff_exists']
    simp only [hf key, hmem]
    constructor
    · rintro ⟨e, he, hk⟩
      exact ⟨e.value, e, he, hk, rfl⟩
    · rintro ⟨v, e, he, hk, -⟩
      exact ⟨e, he, hk⟩
  have hnodup : (objMapKeys m).Nodup := h.table.slotKeys_nodup
  have hset : {key | f key ≠ none} = ↑(objMapKeys m).toFinset := by
    ext key
    simp [hkeys key]
  refine ⟨?_, ?_, hnodup, hkeys, ?_, h.table.exists_none h.count_lt, h.table.reach⟩
  · rw [hset]
    exact finite_toSet _
  · rw [hset, Set.ncard_coe_finset, List.toFinset_card_of_nodup hnodup, h.count_eq]
    exact (length_slotKeys m.slots).symm
  · exact map_slotKeys fun e he => (hf e.key e.value).mpr ⟨e, (hmem e).mpr he, rfl, rfl⟩

theorem set_spec (arg : KeyArg) (v : V) : ((MapOp.set arg v).Fits f → ∃ m', objMapSet m arg v = .ok m' ∧ Inv m' ∧
        Represents m' ((MapOp.set arg v).apply f)) ∧
      (¬ (MapOp.set arg v).Fits f → objMapSet m arg v = .error .overflow) := by
  have hcount := (consistent_of_inv h hf).count_eq
  simp only [objMapSet, apply, MapOp.Fits, KeyArg.key]
  cases arg.path with
  | none => exact ⟨fun _ => ⟨m, rfl, h, hf⟩, fun hno => absurd (by simp) hno⟩
  | some path =>
    have hset := setAt_spec h hf path v
    rw [hcount] at hset
    constructor
    · intro hfit
      rwa [if_pos (hfit (by simp))] at hset
    · intro hno
      rwa [if_neg fun hlt => hno fun _ => hlt] at hset

theorem delete_spec (arg : KeyArg) :
    ∃ m', objMapDelete m arg = .ok m' ∧ Inv m' ∧ Represents m' ((MapOp.delete arg).apply f) := by
  simp only [objMapDelete, apply, KeyArg.key]
  cases arg.path with
  | none => exact ⟨m, rfl, h, hf⟩
  | some path => exact deleteAt_spec h hf path

theorem lookup_spec (arg : KeyArg) :
    objMapGet nil m arg = .ok ((valueAt f arg).getD nil) ∧ objMapHas m arg = .ok (valueAt f arg).isSome := by
  simp only [objMapGet, objMapHas, valueAt, KeyArg.key]
  cases arg.path with
  | none => exact ⟨rfl, rfl⟩
  | some path =>
    dsimp only
    rw [lookupAt_spec h hf path]
    exact ⟨rfl, rfl⟩

theorem tryGetCstr_spec (chars : Option (List UInt8)) :
    objMapTryGetCstr nil m chars = .ok ((valueAt f (.cstr chars)).isSome, (valueAt f (.cstr chars)).getD nil) := by
  simp only [objMapTryGetCstr, valueAt, KeyArg.key]
  cases (KeyArg.cstr chars).path with
  | none => rfl
  | some path =>
    dsimp only
    rw [lookupAt_spec h hf path]
    rfl

theorem step_spec (op : MapOp V) :
    (op.Fits f → ∃ m' r, step nil m op = .ok (m', r) ∧ Answers nil m f op r ∧ Inv m' ∧ Represents m' (op.apply f)) ∧
      (¬ op.Fits f → step nil m op = .error .overflow) := by
  cases op with
  | set arg v =>
    obtain ⟨hok, hfail⟩ := set_spec h hf arg v
    constructor
    · intro hfit
      obtain ⟨m', hrun, hinv, hrep⟩ := hok hfit
      exact ⟨m', .unit, by rw [step, hrun]; rfl, rfl, hinv, hrep⟩
    · intro hno
      rw [step, hfail hno]
      rfl
  | delete arg =>
    obtain ⟨m', hrun, hinv, hrep⟩ := delete_spec h hf arg
    exact always trivial ⟨m', .unit, by rw [step, hrun]; rfl, rfl, hinv, hrep⟩
  | get arg =>
    have hrun := (lookup_spec h hf nil arg).1
    exact always trivial ⟨m, _, by rw [step, hrun]; rfl, rfl, h, hf⟩
  | has arg =>
    have hrun := (lookup_spec h hf nil arg).2
    exact always trivial ⟨m, _, by rw [step, hrun]; rfl, rfl, h, hf⟩
  | tryGetCstr chars =>
    have hrun := tryGetCstr_spec h hf nil chars
    exact always trivial ⟨m, _, by rw [step, hrun]; rfl, rfl, h, hf⟩
  | count =>
    have hcount := (consistent_of_inv h hf).count_eq
    exact always trivial ⟨m, _, rfl, congrArg MapResult.count hcount, h, hf⟩
  | keys | values => exact always trivial ⟨m, _, rfl, rfl, h, hf⟩

theorem runsAs_of_inv (ops : List (MapOp V)) : RunsAs nil m f ops ↔ Fits f ops := by
  induction ops generalizing m f with
  | nil => exact iff_of_true (consistent_of_inv h hf) trivial
  | cons op ops ih =>
    obtain ⟨hok, hfail⟩ := step_spec h hf nil op
    refine run_iff (consistent_of_inv h hf) ⟨fun hfit => ?_, hfail⟩
    obtain ⟨m', r, hrun, hans, hinv, hrep⟩ := hok hfit
    exact ⟨m', r, hrun, hans, ih hinv hrep⟩

end

theorem inv_create : Inv (objMapCreate : ObjMap V) := by
  refine ⟨isTable_replicate 16, ⟨4, by decide, by decide, rfl⟩, ?_, rfl, Nat.zero_le _⟩
  simp [objMapCreate]

theorem represents_create : Represents (objMapCreate : ObjMap V) fun _ => none := by
  intro key v
  refine iff_of_false (by simp) ?_
  rintro ⟨e, he, -⟩
  exact not_holds_replicate 16 e he

/-- From a new map, every sequence of operations behaves as a finite partial
function exactly when no key is set while `maxCount` keys are present. -/
theorem objMap_runsAs_iff (nil : V) (ops : List (MapOp V)) :
    RunsAs nil objMapCreate (fun _ => none) ops ↔ Fits (fun _ => none) ops :=
  runsAs_of_inv inv_create represents_create nil ops

theorem fits_append (xs ys : List (MapOp V)) : Fits f (xs ++ ys) ↔ Fits f xs ∧ Fits (xs.foldl apply f) ys := by
  induction xs generalizing f with
  | nil => simp [Fits]
  | cons op xs ih => simp [Fits, ih, and_assoc]

def setInts (n : Nat) : List (MapOp Unit) :=
  (List.range n).map fun i => .set (.value (.int (Int64.ofNat i))) ()

theorem setInts_succ (n : Nat) : setInts (n + 1) = setInts n ++ [.set (.value (.int (Int64.ofNat n))) ()] := by
  simp [setInts, List.range_succ]

theorem setInts_domain (n : Nat) : {key | (setInts n).foldl apply (fun _ => none) key ≠ none} =
      (fun i => MapKey.int (Int64.ofNat i)) '' (range n : Set Nat) := by
  induction n with
  | zero => simp [setInts]
  | succ n ih =>
    have hstep : (setInts (n + 1)).foldl apply (fun _ => none) =
        Function.update ((setInts n).foldl apply fun _ => none) (.int (Int64.ofNat n)) (some ()) := by
      rw [setInts_succ, List.foldl_append]
      rfl
    rw [hstep, range_add_one, coe_insert, Set.image_insert_eq, ← ih]
    ext key
    by_cases hk : key = .int (Int64.ofNat n) <;> simp [hk]

theorem int_ofNat_injOn {n : Nat} (hn : n ≤ 2 ^ 64) :
    Set.InjOn (fun i => MapKey.int (Int64.ofNat i)) (range n : Set Nat) := by
  intro i hi j hj hij
  rw [coe_range, Set.mem_Iio] at hi hj
  have h64 : i % 18446744073709551616 = j % 18446744073709551616 := by
    simpa using congrArg (fun x => x.toUInt64.toNat) (MapKey.int.inj hij)
  omega

/-- One key more than the table has room for. -/
theorem objMap_runsAs_fails : ¬ RunsAs () objMapCreate (fun _ => none) (setInts (maxCount + 1)) := by
  rw [runsAs_of_inv inv_create represents_create, setInts_succ, fits_append]
  rintro ⟨-, hfit, -⟩
  have hlt := hfit (by simp [KeyArg.key, KeyArg.path, KeyPath.ofValue])
  rw [setInts_domain, (int_ofNat_injOn (by decide)).ncard_image, Set.ncard_coe_finset, card_range] at hlt
  exact Nat.lt_irrefl _ hlt

end Tablo.Vm
