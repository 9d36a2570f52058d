import Tablo.Fallible
import Tablo.ObjArray
import Mathlib.Algebra.Group.Nat.Defs
import Mathlib.Data.List.GetD

/-! An array behaves as the list of its values, whatever its kind. -/

namespace Tablo.ObjArray

open CellBuffer Fallible List

variable {R α : Type} (l : List (Value R))

/-! ### Lists of values -/

def valueAt (index : Int32) : Value R :=
  if index.toInt < 0 then .nil else l.getD index.toInt.toNat .nil

def Op.apply : Op R → List (Value R)
  | .push val => l ++ [val]
  | .pop => l.dropLast
  | .set index val => if index.toInt < 0 then l else l.set index.toInt.toNat val
  | .get _ | .convertToBoxed | .convertByteToInt => l

def Op.answer : Op R → Option (Value R)
  | .pop => some (l.getLastD .nil)
  | .get index => some (valueAt l index)
  | .push _ | .set _ _ | .convertToBoxed | .convertByteToInt => none

def Reads (arr : ObjArray R) (l : List (Value R)) : Prop :=
  arr.count = l.length ∧ ∀ index, objArrayGet arr index = some (valueAt l index)

/-- Every operation of the sequence is defined and answers as the list does, and the array reads as
the list before and after it. -/
def RunsAs : ObjArray R → List (Value R) → List (Op R) → Prop
  | arr, l, [] => Reads arr l
  | arr, l, op :: ops =>
    Reads arr l ∧ ∃ arr', step arr op = some (arr', op.answer l) ∧ RunsAs arr' (op.apply l) ops

/-- The largest capacity that doubling reaches in an `int`. -/
def limit (first : Nat) : Nat := first * 2 ^ (intMax / first).log2

def Op.Fits (limit : Nat) (l : List (Value R)) : Op R → Prop
  | .push _ => l.length < limit
  | .pop | .set _ _ | .get _ | .convertToBoxed | .convertByteToInt => True

def Fits (limit : Nat) : List (Value R) → List (Op R) → Prop
  | _, [] => True
  | l, op :: ops => op.Fits limit l ∧ Fits limit (op.apply l) ops

/-! ### The values behind a buffer -/

def Stores (decode : α → Value R) (xs : List (Option α)) (capacity : Nat) (l : List (Value R)) : Prop :=
  xs.length = capacity ∧ ∃ ys, l = ys.map decode ∧ Holds xs ys

def Data.Stores (capacity : Nat) (l : List (Value R)) : Data R → Prop
  | .elements xs => ObjArray.Stores id xs capacity l
  | .ints xs => ObjArray.Stores .int xs capacity l
  | .doubles xs => ObjArray.Stores .double xs capacity l
  | .bools xs => ObjArray.Stores boolValue xs capacity l
  | .bytes xs => ObjArray.Stores byteValue xs capacity l

def place (i : Nat) (v : Value R) : List (Value R) := l.take i ++ v :: l.drop (i + 1)

variable {l : List (Value R)}

theorem place_of_lt {i : Nat} (hi : i < l.length) (v : Value R) : place l i v = l.set i v := by
  rw [place, set_eq_take_append_cons_drop, if_pos hi]

theorem place_length (l : List (Value R)) (v : Value R) : place l l.length v = l ++ [v] := by
  simp [place]

variable {decode : α → Value R} {xs : List (Option α)} {capacity : Nat} {capacity first k n : Nat}

theorem stores_alloc (capacity : Nat) : Stores decode (alloc capacity) capacity [] :=
  ⟨length_alloc capacity, [], rfl, holds_alloc capacity⟩

section

variable (h : Stores decode xs capacity l)

include h

theorem Stores.load {i : Nat} (hi : i < l.length) : ∃ y, load xs i = some y ∧ decode y = l[i] := by
  obtain ⟨-, ys, rfl, hys⟩ := h
  have hlt : i < ys.length := by simpa using hi
  exact ⟨ys[i], hys.load hlt, by simp⟩

theorem Stores.store {i : Nat} (hi : i ≤ l.length) (hc : i < capacity) (y : α) :
    ∃ xs', store xs i y = some xs' ∧ Stores decode xs' capacity (place l i (decode y)) := by
  obtain ⟨hlen, ys, rfl, hys⟩ := h
  rw [length_map] at hi
  obtain ⟨xs', hstore, hlen', hys'⟩ := hys.store hi (by omega) y
  refine ⟨xs', hstore, hlen'.trans hlen, _, ?_, hys'⟩
  rw [place, map_append, map_cons, map_take, map_drop]

theorem Stores.take (i : Nat) : Stores decode xs capacity (l.take i) := by
  obtain ⟨hlen, ys, rfl, hys⟩ := h
  exact ⟨hlen, ys.take i, by rw [map_take], hys.take i⟩

theorem Stores.realloc {n : Nat} (hn : capacity ≤ n) : Stores decode (realloc xs n) n l := by
  obtain ⟨hlen, ys, hl, hys⟩ := h
  have hle : xs.length ≤ n := by omega
  exact ⟨length_realloc hle, ys, hl, hys.realloc hle⟩

end

theorem Stores.convert {β : Type} {decode' : β → Value R} {f : α → β} (hf : ∀ x, decode' (f x) = decode x)
    (h : Stores decode xs capacity l) :
    ∃ xs', CellBuffer.convert f xs (alloc capacity) 0 l.length = some xs' ∧ Stores decode' xs' capacity l := by
  obtain ⟨hlen, ys, rfl, hys⟩ := h
  have hle : ys.length ≤ capacity := hlen ▸ hys.length_le
  obtain ⟨xs', hrun, hlen', hys'⟩ := hys.convert f hle
  refine ⟨xs', by rw [length_map]; exact hrun, hlen', ys.map f, ?_, hys'⟩
  rw [map_map]
  exact (map_congr_left fun x _ => hf x).symm

theorem Stores.boxed (h : Stores decode xs capacity l) :
    ∃ xs', CellBuffer.convert decode xs (alloc capacity) 0 l.length = some xs' ∧ Stores id xs' capacity l :=
  h.convert fun _ => rfl

theorem Stores.ints {xs : List (Option UInt8)} (h : Stores byteValue xs capacity l) :
    ∃ ints, CellBuffer.convert byteInt xs (alloc capacity) 0 l.length = some ints ∧ Stores .int ints capacity l :=
  h.convert fun _ => rfl

/-! ### The operations on any kind -/

theorem Data.Stores.loadAt {arr : ObjArray R} (h : arr.data.Stores arr.capacity l) {i : Nat}
    (hi : i < l.length) : loadAt arr i = some l[i] := by
  obtain ⟨count, capacity, data⟩ := arr
  cases data with
  | elements xs =>
    obtain ⟨y, hy, hd⟩ := ObjArray.Stores.load h hi
    exact hy.trans (congrArg some hd)
  | ints xs | doubles xs | bools xs | bytes xs =>
    obtain ⟨y, hy, hd⟩ := ObjArray.Stores.load h hi
    simp only [ObjArray.loadAt, hy, Option.bind_eq_bind, Option.bind_some]
    exact congrArg some hd

theorem Data.Stores.take {data : Data R} (h : data.Stores capacity l)
    (i : Nat) : data.Stores capacity (l.take i) := by
  cases data <;> exact ObjArray.Stores.take h i

theorem Data.Stores.realloc {data : Data R} (h : data.Stores capacity l)
    (hn : capacity ≤ n) : (data.realloc n).Stores n l := by
  cases data <;> exact ObjArray.Stores.realloc h hn

theorem Data.stores_create (capacity : Nat) (kind : ArrayKind) :
    (Data.create capacity kind : Data R).Stores capacity [] := by
  cases kind <;> exact stores_alloc capacity

structure Models (arr : ObjArray R) (l : List (Value R)) : Prop where
  count_eq : arr.count = l.length
  count_le : arr.count ≤ arr.capacity
  stores : arr.data.Stores arr.capacity l

variable {arr : ObjArray R}

theorem Models.boxed (h : Models arr l) :
    ∃ xs, objArrayConvertToBoxed arr = some { arr with data := .elements xs } ∧ Stores id xs arr.capacity l := by
  obtain ⟨hc, -, h⟩ := h
  obtain ⟨count, capacity, data⟩ := arr
  subst hc
  cases data with
  | elements xs => exact ⟨xs, rfl, h⟩
  | ints xs | doubles xs | bools xs | bytes xs =>
    obtain ⟨ys, hrun, hys⟩ := ObjArray.Stores.boxed h
    refine ⟨ys, ?_, hys⟩
    simp [objArrayConvertToBoxed, hrun]

theorem Models.storeBoxed (h : Models arr l) {i : Nat} (hi : i ≤ l.length) (hc : i < arr.capacity) (val : Value R) :
    ∃ data, storeBoxed arr i val = some { arr with data } ∧ data.Stores arr.capacity (place l i val) := by
  obtain ⟨xs, hconvert, hxs⟩ := h.boxed
  obtain ⟨ys, hstore, hys⟩ := hxs.store hi hc val
  refine ⟨.elements ys, ?_, hys⟩
  simp [ObjArray.storeBoxed, hconvert, Data.getElements, hstore]

theorem byteInt_of_range {n : Int64} (h : ¬ (n < 0 ∨ n > 255)) : byteInt n.toUInt64.toUInt8 = n := by
  rw [not_or, Int64.not_lt, Int64.not_lt, Int64.le_iff_toInt_le, Int64.le_iff_toInt_le] at h
  have hnat : n.toUInt64.toNat < 256 := by
    have hint : n.toInt = n.toUInt64.toBitVec.toInt := rfl
    have hcond := BitVec.toInt_eq_toNat_cond n.toUInt64.toBitVec
    have h0 : (0 : Int64).toInt = 0 := rfl
    have h255 : (255 : Int64).toInt = 255 := rfl
    rw [← UInt64.toNat_toBitVec]
    omega
  have hsame : n.toUInt64.toUInt8.toUInt64 = n.toUInt64 := by
    apply UInt64.toNat_inj.mp
    rw [UInt8.toNat_toUInt64, UInt64.toNat_toUInt8]
    omega
  rw [byteInt, hsame]
  rfl

section

variable (h : Models arr l)

include h

theorem Models.storeAt {i : Nat} (hi : i ≤ l.length) (hc : i < arr.capacity) (val : Value R) :
    ∃ data, storeAt arr i val = some { arr with data } ∧ data.Stores arr.capacity (place l i val) := by
  have hboxed := h.storeBoxed hi hc
  obtain ⟨hcount, -, hstores⟩ := h
  obtain ⟨count, capacity, data⟩ := arr
  cases data with
  | elements xs =>
    obtain ⟨ys, hstore, hys⟩ := ObjArray.Stores.store hstores hi hc val
    exact ⟨.elements ys, by simp only [ObjArray.storeAt, hstore]; rfl, hys⟩
  | ints xs =>
    cases val with
    | int n =>
      obtain ⟨ys, hstore, hys⟩ := ObjArray.Stores.store hstores hi hc n
      exact ⟨.ints ys, by simp only [ObjArray.storeAt, hstore]; rfl, hys⟩
    | nil | bool | double | object => exact hboxed _
  | doubles xs =>
    cases val with
    | double d =>
      obtain ⟨ys, hstore, hys⟩ := ObjArray.Stores.store hstores hi hc d
      exact ⟨.doubles ys, by simp only [ObjArray.storeAt, hstore]; rfl, hys⟩
    | nil | bool | int | object => exact hboxed _
  | bools xs =>
    cases val with
    | bool b =>
      obtain ⟨ys, hstore, hys⟩ := ObjArray.Stores.store hstores hi hc (if b then 1 else 0)
      have hb : boolValue (if b then 1 else 0) = (.bool b : Value R) := by cases b <;> rfl
      rw [hb] at hys
      exact ⟨.bools ys, by simp only [ObjArray.storeAt, hstore]; rfl, hys⟩
    | nil | double | int | object => exact hboxed _
  | bytes xs =>
    cases val with
    | int n =>
      by_cases hn : n < 0 ∨ n > 255
      · obtain ⟨ints, hconvert, hints⟩ := ObjArray.Stores.ints hstores
        obtain ⟨ys, hstore, hys⟩ := hints.store hi hc n
        refine ⟨.ints ys, ?_, hys⟩
        dsimp only at hcount
        simp [ObjArray.storeAt, if_pos hn, objArrayConvertByteToInt, hcount, hconvert, Data.getInts, hstore]
      · obtain ⟨ys, hstore, hys⟩ := ObjArray.Stores.store hstores hi hc n.toUInt64.toUInt8
        rw [byteValue, byteInt_of_range hn] at hys
        exact ⟨.bytes ys, by simp only [ObjArray.storeAt, if_neg hn, hstore]; rfl, hys⟩
    | nil | bool | double | object => exact hboxed _

theorem Models.toInt :
    ∃ data, objArrayConvertByteToInt arr = some { arr with data } ∧ data.Stores arr.capacity l := by
  obtain ⟨hc, -, hstores⟩ := h
  obtain ⟨count, capacity, data⟩ := arr
  subst hc
  cases data with
  | bytes xs =>
    obtain ⟨ints, hconvert, hints⟩ := ObjArray.Stores.ints hstores
    refine ⟨.ints ints, ?_, hints⟩
    simp [objArrayConvertByteToInt, hconvert]
  | elements | ints | doubles | bools => exact ⟨_, rfl, hstores⟩

theorem Models.get (index : Int32) : objArrayGet arr index = some (valueAt l index) := by
  have hcount := h.count_eq
  rw [objArrayGet, valueAt]
  by_cases hneg : index.toInt < 0
  · rw [if_pos (.inl hneg), if_pos hneg]
  · rw [if_neg hneg]
    by_cases hge : index.toInt ≥ arr.count
    · rw [if_pos (.inr hge), getD_eq_default _ _ (by omega)]
    · have hlt : index.toInt.toNat < l.length := by omega
      rw [if_neg (not_or.mpr ⟨hneg, hge⟩), h.stores.loadAt hlt, getD_eq_getElem _ _ hlt]

theorem Models.reads : Reads arr l := ⟨h.count_eq, h.get⟩

theorem Models.pop : ∃ count, objArrayPop arr = some ({ arr with count }, l.getLastD .nil) ∧
      Models { arr with count } l.dropLast := by
  have hcount := h.count_eq
  rw [objArrayPop]
  by_cases hzero : arr.count = 0
  · have hnil : l = [] := eq_nil_of_length_eq_zero (by omega)
    subst hnil
    exact ⟨arr.count, if_pos hzero, h⟩
  · refine ⟨arr.count - 1, ?_, ?_, ?_, ?_⟩
    · have hlt : arr.count - 1 < l.length := by omega
      have hload : ObjArray.loadAt { arr with count := arr.count - 1 } (arr.count - 1) = some l[arr.count - 1] :=
        Data.Stores.loadAt h.stores hlt
      have hlast : l.getLastD .nil = l[arr.count - 1] := by
        rw [getLastD_eq_getLast?, getLast?_eq_getElem?, ← hcount, getElem?_eq_getElem hlt]
        rfl
      rw [if_neg hzero, hlast]
      simp [hload]
    · rw [length_dropLast]
      dsimp only
      omega
    · have hle := h.count_le
      dsimp only
      omega
    · rw [dropLast_eq_take]
      exact h.stores.take _

theorem Models.set (index : Int32) (val : Value R) : ∃ data, objArraySet arr index val = some { arr with data } ∧
      Models { arr with data } ((Op.set index val).apply l) := by
  have hcount := h.count_eq
  have hle := h.count_le
  rw [objArraySet, Op.apply]
  by_cases hneg : index.toInt < 0
  · rw [if_pos (.inl hneg), if_pos hneg]
    exact ⟨arr.data, rfl, h⟩
  · rw [if_neg hneg]
    by_cases hge : index.toInt ≥ arr.count
    · rw [if_pos (.inr hge), set_eq_of_length_le (by omega)]
      exact ⟨arr.data, rfl, h⟩
    · have hlt : index.toInt.toNat < l.length := by omega
      obtain ⟨data, hrun, hdata⟩ := h.storeAt (Nat.le_of_lt hlt) (by omega) val
      rw [if_neg (not_or.mpr ⟨hneg, hge⟩)]
      rw [place_of_lt hlt] at hdata
      exact ⟨data, hrun, by rw [length_set]; exact hcount, hle, hdata⟩

end

/-! ### Growth -/

structure Inv (first : Nat) (arr : ObjArray R) (l : List (Value R)) : Prop where
  models : Models arr l
  capacity_le : arr.capacity ≤ intMax
  doubled : ∃ k, arr.capacity = first * 2 ^ k

theorem le_limit (hpos : 0 < first) (hle : first ≤ intMax) :
    first * 2 ^ k ≤ intMax ↔ first * 2 ^ k ≤ limit first := by
  have hne : intMax / first ≠ 0 := Nat.ne_of_gt (Nat.div_pos hle hpos)
  rw [limit, Nat.mul_le_mul_left_iff hpos, Nat.pow_le_pow_iff_right (by omega), Nat.le_log2 hne,
    Nat.le_div_iff_mul_le hpos, Nat.mul_comm]

theorem double_le_limit (hpos : 0 < first) :
    first * 2 ^ (k + 1) ≤ limit first ↔ first * 2 ^ k < limit first := by
  rw [limit, Nat.mul_le_mul_left_iff hpos, Nat.pow_le_pow_iff_right (by omega), Nat.mul_lt_mul_left hpos,
    Nat.pow_lt_pow_iff_right (by omega), Nat.succ_le_iff]

variable {first : Nat}

theorem Inv.grow (h : Inv first arr l) (hpos : 0 < first) (hle : first ≤ intMax) :
    (l.length < limit first → ∃ arr', grow arr = some arr' ∧ Inv first arr' l ∧ arr'.count < arr'.capacity) ∧
      (¬ l.length < limit first → grow arr = none) := by
  obtain ⟨hmodels, hcap, k, hk⟩ := h
  have hcount := hmodels.count_eq
  have hroom := hmodels.count_le
  rw [ObjArray.grow]
  by_cases hfull : arr.count ≥ arr.capacity
  · have hnext : arr.capacity * 2 = first * 2 ^ (k + 1) := by rw [hk, Nat.pow_succ, Nat.mul_assoc]
    have hiff : arr.capacity * 2 ≤ intMax ↔ l.length < limit first := by
      have hlen : l.length = first * 2 ^ k := by omega
      rw [hnext, le_limit hpos hle, double_le_limit hpos, hlen]
    rw [if_pos hfull]
    constructor
    · intro hlt
      rw [if_pos (hiff.mpr hlt)]
      have hstores := hmodels.stores.realloc (show arr.capacity ≤ arr.capacity * 2 by omega)
      have hcpos : 0 < arr.capacity := hk ▸ Nat.mul_pos hpos (Nat.two_pow_pos k)
      refine ⟨_, rfl, ⟨⟨hcount, ?_, hstores⟩, hiff.mpr hlt, k + 1, hnext⟩, ?_⟩
      · dsimp only
        omega
      · dsimp only
        omega
    · intro hno
      rw [if_neg (mt hiff.mp hno)]
  · rw [if_neg hfull]
    refine ⟨fun _ => ⟨arr, rfl, ⟨hmodels, hcap, k, hk⟩, by omega⟩, fun hno => absurd ?_ hno⟩
    have hmax := (le_limit hpos hle).mp (hk ▸ hcap)
    omega

theorem Inv.push (h : Inv first arr l) (hpos : 0 < first) (hle : first ≤ intMax) (val : Value R) :
    (l.length < limit first → ∃ arr', objArrayPush arr val = some arr' ∧ Inv first arr' (l ++ [val])) ∧
      (¬ l.length < limit first → objArrayPush arr val = none) := by
  obtain ⟨hok, hfail⟩ := h.grow hpos hle
  rw [objArrayPush]
  constructor
  · intro hlt
    obtain ⟨arr', hgrow, ⟨hmodels, hcap, hdoubled⟩, hroom⟩ := hok hlt
    have hcount := hmodels.count_eq
    obtain ⟨data, hstore, hdata⟩ := hmodels.storeAt (Nat.le_of_eq hcount) hroom val
    rw [hcount, place_length] at hdata
    refine ⟨{ arr' with count := arr'.count + 1, data }, ?_, ⟨?_, hroom, hdata⟩, hcap, hdoubled⟩
    · simp [hgrow, hstore]
    · simp [hcount]
  · intro hno
    rw [hfail hno]
    rfl

theorem Inv.step (h : Inv first arr l) (hpos : 0 < first) (hle : first ≤ intMax) (op : Op R) :
    (op.Fits (limit first) l → ∃ arr', step arr op = some (arr', op.answer l) ∧ Inv first arr' (op.apply l)) ∧
      (¬ op.Fits (limit first) l → step arr op = none) := by
  have hpush := h.push hpos hle
  obtain ⟨hmodels, hcap, hdoubled⟩ := h
  cases op with
  | push val =>
    obtain ⟨hok, hfail⟩ := hpush val
    constructor
    · intro hlt
      obtain ⟨arr', hrun, hinv⟩ := hok hlt
      exact ⟨arr', by rw [ObjArray.step, hrun]; rfl, hinv⟩
    · intro hno
      rw [ObjArray.step, hfail hno]
      rfl
  | pop =>
    obtain ⟨count, hrun, hpop⟩ := hmodels.pop
    exact always trivial ⟨_, by rw [ObjArray.step, hrun]; rfl, hpop, hcap, hdoubled⟩
  | set index val =>
    obtain ⟨data, hrun, hset⟩ := hmodels.set index val
    exact always trivial ⟨_, by rw [ObjArray.step, hrun]; rfl, hset, hcap, hdoubled⟩
  | get index =>
    have hrun := hmodels.get index
    exact always trivial ⟨arr, by rw [ObjArray.step, hrun]; rfl, hmodels, hcap, hdoubled⟩
  | convertToBoxed =>
    obtain ⟨xs, hrun, hxs⟩ := hmodels.boxed
    have hboxed : Models { arr with data := .elements xs } l := ⟨hmodels.count_eq, hmodels.count_le, hxs⟩
    exact always trivial ⟨_, by rw [ObjArray.step, hrun]; rfl, hboxed, hcap, hdoubled⟩
  | convertByteToInt =>
    obtain ⟨data, hrun, hdata⟩ := hmodels.toInt
    have hints : Models { arr with data } l := ⟨hmodels.count_eq, hmodels.count_le, hdata⟩
    exact always trivial ⟨_, by rw [ObjArray.step, hrun]; rfl, hints, hcap, hdoubled⟩

theorem Inv.runs (h : Inv first arr l) (hpos : 0 < first) (hle : first ≤ intMax) (ops : List (Op R)) :
    RunsAs arr l ops ↔ Fits (limit first) l ops := by
  induction ops generalizing arr l with
  | nil => exact iff_of_true h.models.reads trivial
  | cons op ops ih =>
    obtain ⟨hok, hfail⟩ := h.step hpos hle op
    by_cases hfit : op.Fits (limit first) l
    · obtain ⟨arr', hrun, hinv⟩ := hok hfit
      have hrest := ih hinv
      constructor
      · rintro ⟨-, arr'', hrun', hruns⟩
        rw [hrun, Option.some.injEq] at hrun'
        obtain ⟨rfl, -⟩ := hrun'
        exact ⟨hfit, hrest.mp hruns⟩
      · rintro ⟨-, hfits⟩
        exact ⟨h.models.reads, arr', hrun, hrest.mpr hfits⟩
    · refine iff_of_false ?_ fun hh => hfit hh.1
      rintro ⟨-, arr', hrun, -⟩
      rw [hfail hfit] at hrun
      cases hrun

theorem initialCapacity_range (capacity : Int32) :
    0 < initialCapacity capacity ∧ initialCapacity capacity ≤ intMax := by
  have hlt := capacity.toInt_lt
  rw [initialCapacity, intMax]
  split_ifs with hpos <;> omega

theorem inv_create (capacity : Int32) (kind : ArrayKind) :
    Inv (initialCapacity capacity) (objArrayCreateTyped capacity kind : ObjArray R) [] := by
  refine ⟨⟨rfl, Nat.zero_le _, Data.stores_create _ kind⟩, (initialCapacity_range capacity).2, 0, ?_⟩
  rw [Nat.pow_zero, Nat.mul_one]
  rfl

/-- From a new array of any kind and capacity, a sequence of operations behaves as on a list exactly
when nothing is pushed at the largest capacity that doubling reaches in an `int`. -/
theorem objArray_runsAs_iff (capacity : Int32) (kind : ArrayKind) (ops : List (Op R)) :
    RunsAs (objArrayCreateTyped capacity kind) [] ops ↔ Fits (limit (initialCapacity capacity)) [] ops :=
  (inv_create capacity kind).runs (initialCapacity_range capacity).1 (initialCapacity_range capacity).2 ops

theorem not_fits_pushes {max : Nat} (val : Value R) (hl : l.length ≤ max)
    (hn : max < l.length + n) : ¬ Fits max l (List.replicate n (.push val)) := by
  induction n generalizing l with
  | zero => omega
  | succ n ih =>
    rintro ⟨hlt, hrest⟩
    have hlen : ((Op.push val).apply l).length = l.length + 1 := by simp [Op.apply]
    exact ih (hlen ▸ hlt) (by omega) hrest

/-- One byte more than the largest capacity that starts at 4. -/
theorem objArray_runsAs_fails :
    ¬ RunsAs (objArrayCreateTyped 0 .byte : ObjArray Unit) [] (List.replicate (2 ^ 30 + 1) (.push (.int 0))) := by
  have hlimit : limit (initialCapacity 0) = 2 ^ 30 := by decide
  rw [(inv_create 0 .byte).runs (by decide) (by decide)]
  exact not_fits_pushes _ (Nat.zero_le _) (by decide)

end Tablo.ObjArray
