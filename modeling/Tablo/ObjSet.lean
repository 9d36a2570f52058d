import Tablo.ObjMapRun

/-! The sets of `vm.c`. Their table has its own copy of the functions of the map,
on slots without a value. -/

namespace Tablo.Vm

open Fallible LinearProbing

abbrev ObjSet := ObjMap Unit

/-- An element is named by a value or by a string object; `none` is a null pointer. -/
inductive SetArg where
  | value (v : KeyValue)
  | string (s : Option ObjString)

def SetArg.path : SetArg → Option KeyPath
  | .value v => KeyPath.ofValue v
  | .string s => s.map .obj

section Operations

def objSetCreate : ObjSet := objMapCreate

variable (set : ObjSet) (arg : SetArg)

def objSetAdjustCapacity (newCapacity : Nat) : Except Fault ObjSet := objMapAdjustCapacity set newCapacity

def objSetEnsureCapacity (additional : Nat) : Except Fault ObjSet := objMapEnsureCapacity set additional

def objSetMaybeCompactAfterRemove : Except Fault ObjSet := objMapMaybeCompactAfterDelete set

def objSetBackshiftRemoveAt (hole : Nat) : Except Fault ObjSet := objMapBackshiftDeleteAt set hole

def objSetFindSlot (hash : UInt32) (equals : MapKey → Bool) : Except Fault (Nat × Bool) :=
  objMapFindSlot set hash equals

def addAt (path : KeyPath) : Except Fault ObjSet := do
  let set ← objSetEnsureCapacity set 1
  let (idx, found) ← objSetFindSlot set path.hash path.equals
  if found then .ok set
  else
    .ok { set with
      slots := set.slots.set idx (some ⟨path.hash, path.stored, ()⟩)
      used := set.used + 1
      count := set.count + 1 }

/-- `obj_set_add` and `obj_set_add_string` -/
def objSetAdd : Except Fault ObjSet :=
  match arg.path with
  | none => .ok set
  | some path => addAt set path

def removeAt (path : KeyPath) : Except Fault ObjSet := do
  let (idx, found) ← objSetFindSlot set path.hash path.equals
  if found then
    let set ← objSetBackshiftRemoveAt set idx
    objSetMaybeCompactAfterRemove set
  else .ok set

/-- `obj_set_remove` and `obj_set_remove_string` -/
def objSetRemove : Except Fault ObjSet :=
  match arg.path with
  | none => .ok set
  | some path => removeAt set path

/-- `obj_set_has` and `obj_set_has_string` -/
def objSetHas : Except Fault Bool :=
  match arg.path with
  | none => .ok false
  | some path => do
    let (_, found) ← objSetFindSlot set path.hash path.equals
    .ok found

def objSetCount : Nat := set.count

def objSetToArray : List MapKey := set.slots.filterMap (·.map (·.key))

end Operations

inductive SetOp where
  | add (arg : SetArg)
  | remove (arg : SetArg)
  | has (arg : SetArg)
  | count
  | toArray

inductive SetResult where
  | unit
  | bool (b : Bool)
  | count (n : Nat)
  | elements (ks : List MapKey)

variable (set : ObjSet) (s : Set MapKey)

def setStep : SetOp → Except Fault (ObjSet × SetResult)
  | .add arg => do
    let set ← objSetAdd set arg
    .ok (set, .unit)
  | .remove arg => do
    let set ← objSetRemove set arg
    .ok (set, .unit)
  | .has arg => do
    let b ← objSetHas set arg
    .ok (set, .bool b)
  | .count => .ok (set, .count (objSetCount set))
  | .toArray => .ok (set, .elements (objSetToArray set))

/-! ### Mathematical sets -/

def SetArg.key (arg : SetArg) : Option MapKey := arg.path.map KeyPath.stored

def SetOp.apply : SetOp → Set MapKey
  | .add arg => s ∪ {key | arg.key = some key}
  | .remove arg => s \ {key | arg.key = some key}
  | .has _ | .count | .toArray => s

def SetAnswers : SetOp → SetResult → Prop
  | .add _, r | .remove _, r => r = .unit
  | .has arg, r => ∃ b, r = .bool b ∧ (b = true ↔ ∃ key ∈ s, arg.key = some key)
  | .count, r => r = .count s.ncard
  | .toArray, r => r = .elements (objSetToArray set)

/-- What holds of a table that stands for the set `s`. -/
structure SetConsistent (set : ObjSet) (s : Set MapKey) : Prop where
  finite : s.Finite
  count_eq : objSetCount set = s.ncard
  nodup : (objSetToArray set).Nodup
  mem_toArray : ∀ key, key ∈ objSetToArray set ↔ key ∈ s
  exists_empty : ∃ i < set.capacity, slot set.slots i = none
  reachable : Reachable set.capacity (fun e => home set.capacity e.hash) (slot set.slots)

/-- Every operation of the sequence returns, answers as the set does, and leaves a table for the
updated set. -/
def SetRunsAs : ObjSet → Set MapKey → List SetOp → Prop
  | set, s, [] => SetConsistent set s
  | set, s, op :: ops =>
    SetConsistent set s ∧ ∃ set' r, setStep set op = .ok (set', r) ∧ SetAnswers set s op r ∧
      SetRunsAs set' (op.apply s) ops

def SetOp.Fits : SetOp → Prop
  | .add arg => arg.key ≠ none → s.ncard < maxCount
  | .remove _ | .has _ | .count | .toArray => True

def SetFits : Set MapKey → List SetOp → Prop
  | _, [] => True
  | s, op :: ops => op.Fits s ∧ SetFits (op.apply s) ops

/-! ### The table of a set is that of a map -/

theorem addAt_eq (path : KeyPath) : addAt set path = setAt set path () := by
  have hid : (Option.map fun e : MapEntry Unit => { e with value := () }) = id := by
    funext e
    cases e <;> rfl
  rw [setAt, hid]
  simp only [List.modify_id]
  rfl

open Classical in
noncomputable def membership (s : Set MapKey) (key : MapKey) : Option Unit := if key ∈ s then some () else none

variable {s : Set MapKey}

theorem membership_ne_none {key : MapKey} : membership s key ≠ none ↔ key ∈ s := by
  rw [membership]
  split_ifs with h <;> simp [h]

theorem membership_support (s : Set MapKey) : {key | membership s key ≠ none} = s := by
  ext key
  exact membership_ne_none

theorem eq_membership {f : MapKey → Option Unit} (h : ∀ key, f key ≠ none ↔ key ∈ s) : f = membership s := by
  funext key
  by_cases hk : key ∈ s
  · rw [membership, if_pos hk]
    obtain ⟨u, hu⟩ := Option.ne_none_iff_exists'.mp ((h key).mpr hk)
    rw [hu]
  · rw [membership, if_neg hk]
    by_contra hne
    exact hk ((h key).mp hne)

theorem membership_add (s : Set MapKey) (key : MapKey) :
    Function.update (membership s) key (some ()) = membership (s ∪ {k | some key = some k}) := by
  apply eq_membership
  intro k
  by_cases hk : k = key
  · subst hk
    simp
  · rw [Function.update_of_ne hk, membership_ne_none]
    simp [hk]

theorem membership_remove (s : Set MapKey) (key : MapKey) :
    Function.update (membership s) key none = membership (s \ {k | some key = some k}) := by
  apply eq_membership
  intro k
  by_cases hk : k = key
  · subst hk
    simp
  · rw [Function.update_of_ne hk, membership_ne_none]
    simp [hk]

structure SetInv (set : ObjSet) (s : Set MapKey) : Prop where
  inv : Inv set
  represents : Represents set (membership s)

variable {set : ObjSet}

section

variable (h : SetInv set s)

include h

theorem SetInv.consistent : SetConsistent set s := by
  have hc := consistent_of_inv h.inv h.represents
  have hsupport := membership_support s
  refine ⟨?_, ?_, hc.keys_nodup, ?_, hc.exists_empty, hc.reachable⟩
  · have hfin := hc.finite
    rwa [hsupport] at hfin
  · have hcount := hc.count_eq
    rwa [hsupport] at hcount
  · intro key
    exact (hc.mem_keys key).trans membership_ne_none

theorem SetInv.add (arg : SetArg) :
    ((SetOp.add arg).Fits s → ∃ set', objSetAdd set arg = .ok set' ∧ SetInv set' ((SetOp.add arg).apply s)) ∧
      (¬ (SetOp.add arg).Fits s → objSetAdd set arg = .error .overflow) := by
  simp only [objSetAdd, SetOp.apply, SetOp.Fits, SetArg.key]
  cases arg.path with
  | none =>
    refine ⟨fun _ => ⟨set, rfl, ?_⟩, fun hno => absurd (fun hne => absurd rfl hne) hno⟩
    simpa using h
  | some path =>
    have hset := setAt_spec h.inv h.represents path ()
    have hcount : set.count = s.ncard := h.consistent.count_eq
    rw [← addAt_eq, hcount, membership_add] at hset
    constructor
    · intro hfit
      rw [if_pos (hfit (by simp))] at hset
      obtain ⟨set', hrun, hinv, hrep⟩ := hset
      exact ⟨set', hrun, hinv, hrep⟩
    · intro hno
      rwa [if_neg fun hlt => hno fun _ => hlt] at hset

theorem SetInv.remove (arg : SetArg) :
    ∃ set', objSetRemove set arg = .ok set' ∧ SetInv set' ((SetOp.remove arg).apply s) := by
  simp only [objSetRemove, SetOp.apply, SetArg.key]
  cases arg.path with
  | none => exact ⟨set, rfl, by simpa using h⟩
  | some path =>
    obtain ⟨set', hrun, hinv, hrep⟩ := deleteAt_spec h.inv h.represents path
    rw [membership_remove] at hrep
    exact ⟨set', hrun, hinv, hrep⟩

theorem SetInv.has (arg : SetArg) : ∃ b, objSetHas set arg = .ok b ∧ (b = true ↔ ∃ key ∈ s, arg.key = some key) := by
  simp only [objSetHas, SetArg.key]
  cases arg.path with
  | none => exact ⟨false, rfl, by simp⟩
  | some path =>
    have hmem : (∃ key ∈ s, some path.stored = some key) ↔ path.stored ∈ s := by simp
    rw [Option.map_some, hmem, ← membership_ne_none]
    obtain ⟨j, hj, ⟨e, hrun, he, hk⟩ | ⟨hrun, -, hnew, -⟩⟩ := objMapFindSlot_spec h.inv path
    · refine ⟨true, by simp only [objSetFindSlot, hrun]; rfl, ?_⟩
      have hv : membership s path.stored = some e.value := (h.represents _ _).mpr ⟨e, ⟨j, hj, he⟩, hk, rfl⟩
      simp [hv]
    · refine ⟨false, by simp only [objSetFindSlot, hrun]; rfl, ?_⟩
      simp [h.represents.eq_none hnew]

theorem SetInv.step (op : SetOp) :
    (op.Fits s → ∃ set' r, setStep set op = .ok (set', r) ∧ SetAnswers set s op r ∧ SetInv set' (op.apply s)) ∧
      (¬ op.Fits s → setStep set op = .error .overflow) := by
  cases op with
  | add arg =>
    obtain ⟨hok, hfail⟩ := h.add arg
    constructor
    · intro hfit
      obtain ⟨set', hrun, hinv⟩ := hok hfit
      exact ⟨set', .unit, by rw [setStep, hrun]; rfl, rfl, hinv⟩
    · intro hno
      rw [setStep, hfail hno]
      rfl
  | remove arg =>
    obtain ⟨set', hrun, hinv⟩ := h.remove arg
    exact always trivial ⟨set', .unit, by rw [setStep, hrun]; rfl, rfl, hinv⟩
  | has arg =>
    obtain ⟨b, hrun, hb⟩ := h.has arg
    exact always trivial ⟨set, .bool b, by rw [setStep, hrun]; rfl, ⟨b, rfl, hb⟩, h⟩
  | count =>
    have hcount := h.consistent.count_eq
    exact always trivial ⟨set, _, rfl, congrArg SetResult.count hcount, h⟩
  | toArray => exact always trivial ⟨set, _, rfl, rfl, h⟩

theorem SetInv.runs (ops : List SetOp) : SetRunsAs set s ops ↔ SetFits s ops := by
  induction ops generalizing set s with
  | nil => exact iff_of_true h.consistent trivial
  | cons op ops ih =>
    obtain ⟨hok, hfail⟩ := h.step op
    refine run_iff h.consistent ⟨fun hfit => ?_, hfail⟩
    obtain ⟨set', r, hrun, hans, hinv⟩ := hok hfit
    exact ⟨set', r, hrun, hans, ih hinv⟩

end

theorem setInv_create : SetInv objSetCreate ∅ := by
  refine ⟨inv_create, ?_⟩
  have hempty : membership ∅ = fun _ => none := by
    funext key
    simp [membership]
  rw [hempty]
  exact represents_create

/-- From a new set, every sequence of operations behaves as a finite set exactly when nothing is
added while `maxCount` elements are present. -/
theorem objSet_runsAs_iff (ops : List SetOp) : SetRunsAs objSetCreate ∅ ops ↔ SetFits ∅ ops :=
  setInv_create.runs ops

theorem setFits_append (xs ys : List SetOp) :
    SetFits s (xs ++ ys) ↔ SetFits s xs ∧ SetFits (xs.foldl SetOp.apply s) ys := by
  induction xs generalizing s with
  | nil => simp [SetFits]
  | cons op xs ih => simp [SetFits, ih, and_assoc]

def addInts (n : Nat) : List SetOp := (List.range n).map fun i => .add (.value (.int (Int64.ofNat i)))

theorem addInts_succ (n : Nat) : addInts (n + 1) = addInts n ++ [.add (.value (.int (Int64.ofNat n)))] := by
  simp [addInts, List.range_succ]

theorem addInts_elements (n : Nat) :
    (addInts n).foldl SetOp.apply ∅ = (fun i => MapKey.int (Int64.ofNat i)) '' (Finset.range n : Set Nat) := by
  induction n with
  | zero => simp [addInts]
  | succ n ih =>
    rw [addInts_succ, List.foldl_append, ih, Finset.range_add_one, Finset.coe_insert, Set.image_insert_eq]
    ext key
    simp [SetOp.apply, SetArg.key, SetArg.path, KeyPath.ofValue, KeyPath.stored]

/-- One element more than the table has room for. -/
theorem objSet_runsAs_fails : ¬ SetRunsAs objSetCreate ∅ (addInts (maxCount + 1)) := by
  rw [setInv_create.runs, addInts_succ, setFits_append]
  rintro ⟨-, hfit, -⟩
  have hlt := hfit (by simp [SetArg.key, SetArg.path, KeyPath.ofValue])
  rw [addInts_elements, (int_ofNat_injOn (by decide)).ncard_image, Set.ncard_coe_finset, Finset.card_range] at hlt
  exact Nat.lt_irrefl _ hlt

end Tablo.Vm
