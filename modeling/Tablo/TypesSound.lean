import Tablo.Types
import Tablo.Variance
import Mathlib.Tactic.Tauto

/-! When a value of one type can stand for a value of another, and for which
types `type_assignable` says so. -/

namespace Tablo.Types

open Variance

/-! A value of type `src` can be used as a `to`. What is read through `to` must
be a `to`, and what is written through it must still be a `src`: the parts that
can be written (elements of arrays, sets and maps, the result of a future,
fields of records) have to be usable both ways. A parameter, and the
constraint of a type parameter, is supplied by the caller, so it has to be
usable the other way. -/

mutual

inductive Usable : Ty → Ty → Prop
  | nil {to' : Ty} {m : Bool} (h : to'.nullable = true ∨ to'.isNil = true) : Usable to' (.nil m)
  | leaf {l : Leaf} {n m : Bool} (hn : n ≥ m) : Usable (.leaf l n) (.leaf l m)
  | cell {k : CellKind} {x y : Ty} {n m : Bool} (hn : n ≥ m) (hread : Usable x y)
    (hwrite : Usable y x) : Usable (.cell k x n) (.cell k y m)
  | map {k k' x y : Ty} {n m : Bool} (hn : n ≥ m) (hkread : Usable k k') (hkwrite : Usable k' k)
    (hread : Usable x y) (hwrite : Usable y x) : Usable (.map k x n) (.map k' y m)
  | tuple {xs ys : Tys} {n m : Bool} (hn : n ≥ m) (hread : UsableAll xs ys) :
    Usable (.tuple xs n) (.tuple ys m)
  | record {d : Nat} {xs ys : Tys} {n m : Bool} (hn : n ≥ m) (hread : UsableAll xs ys)
    (hwrite : UsableAll ys xs) : Usable (.record d xs n) (.record d ys m)
  | function {tps tps' : TypeParams} {ps ps' : Tys} {r r' : Ty} {n m : Bool} (hn : n ≥ m)
    (hbounds : UsableBounds tps' tps) (hargs : UsableAll ps' ps) (hresult : Usable r r') :
    Usable (.function tps ps r n) (.function tps' ps' r' m)

inductive UsableAll : Tys → Tys → Prop
  | nil : UsableAll .nil .nil
  | cons {t s : Ty} {ts ss : Tys} (h : Usable t s) (hs : UsableAll ts ss) :
    UsableAll (.cons t ts) (.cons s ss)

inductive UsableBounds : TypeParams → TypeParams → Prop
  | nil : UsableBounds .nil .nil
  | plain {name : String} {ts ss : TypeParams} (hs : UsableBounds ts ss) :
    UsableBounds (.plain name ts) (.plain name ss)
  | bounded {name : String} {t s : Ty} {ts ss : TypeParams} (h : Usable t s)
    (hs : UsableBounds ts ss) : UsableBounds (.bounded name t ts) (.bounded name s ss)

end

mutual

/-- The part of usability that `type_assignable` does not look at, for two types at a position of
the given variance: enum names agree, and away from covariant positions nullability agrees. -/
def settled (v : Variance) : Ty → Ty → Bool
  | to', .nil _ => v == .co || to'.isNil
  | .leaf l n, .leaf l' m => (v == .co || n == m) && l == l'
  | .cell _ x n, .cell _ y m => (v == .co || n == m) && settled .inv x y
  | .map k x n, .map k' y m => (v == .co || n == m) && settled .inv k k' && settled .inv x y
  | .tuple xs n, .tuple ys m => (v == .co || n == m) && settledAll v xs ys
  | .record _ xs n, .record _ ys m => (v == .co || n == m) && settledAll .inv xs ys
  | .function tps ps r n, .function tps' ps' r' m =>
    (v == .co || n == m) && settledBounds v.flip tps tps' && settledAll v.flip ps ps' && settled v r r'
  | _, _ => true

def settledAll (v : Variance) : Tys → Tys → Bool
  | .cons t ts, .cons s ss => settled v t s && settledAll v ts ss
  | _, _ => true

def settledBounds (v : Variance) : TypeParams → TypeParams → Bool
  | .plain _ ts, .plain _ ss => settledBounds v ts ss
  | .bounded _ t ts, .bounded _ s ss => settled v t s && settledBounds v ts ss
  | _, _ => true

end

mutual

/-- Every `nil` inside is marked nullable. -/
def Ty.nilsNullable : Ty → Bool
  | .any _ | .leaf _ _ => true
  | .nil n => n
  | .cell _ x _ => x.nilsNullable
  | .map k x _ => k.nilsNullable && x.nilsNullable
  | .tuple xs _ | .record _ xs _ => xs.nilsNullable
  | .function tps ps r _ => tps.nilsNullable && r.nilsNullable && ps.nilsNullable

def Tys.nilsNullable : Tys → Bool
  | .nil => true
  | .cons t ts => t.nilsNullable && ts.nilsNullable

def TypeParams.nilsNullable : TypeParams → Bool
  | .nil => true
  | .plain _ ts => ts.nilsNullable
  | .bounded _ t ts => t.nilsNullable && ts.nilsNullable

end

variable {n m : Bool} {v : Variance}

theorem usable_of_nil {a : Ty} (h : Usable (.nil n) a) : a.isNil = true := by
  cases h
  rfl

theorem usable_leaf {l l' : Leaf} : Usable (.leaf l n) (.leaf l' m) ↔ n ≥ m ∧ l = l' :=
  ⟨fun | .leaf h => ⟨h, rfl⟩, fun ⟨h, hl⟩ => hl ▸ .leaf h⟩

theorem usable_cell {k : CellKind} {x y : Ty} : Usable (.cell k x n) (.cell k y m) ↔ n ≥ m ∧ Fits Usable .inv x y :=
  ⟨fun | .cell h hr hw => ⟨h, hr, hw⟩, fun ⟨h, hr, hw⟩ => .cell h hr hw⟩

theorem usable_map {k k' x y : Ty} : Usable (.map k x n) (.map k' y m) ↔
    n ≥ m ∧ Fits Usable .inv k k' ∧ Fits Usable .inv x y :=
  ⟨fun | .map h hk hk' hr hw => ⟨h, ⟨hk, hk'⟩, hr, hw⟩, fun ⟨h, ⟨hk, hk'⟩, hr, hw⟩ => .map h hk hk' hr hw⟩

theorem usable_tuple {xs ys : Tys} : Usable (.tuple xs n) (.tuple ys m) ↔ n ≥ m ∧ UsableAll xs ys :=
  ⟨fun | .tuple h hs => ⟨h, hs⟩, fun ⟨h, hs⟩ => .tuple h hs⟩

theorem usable_record {d : Nat} {xs ys : Tys} :
    Usable (.record d xs n) (.record d ys m) ↔ n ≥ m ∧ Fits UsableAll .inv xs ys :=
  ⟨fun | .record h hr hw => ⟨h, hr, hw⟩, fun ⟨h, hr, hw⟩ => .record h hr hw⟩

theorem usable_function {tps tps' : TypeParams} {ps ps' : Tys} {r r' : Ty} :
    Usable (.function tps ps r n) (.function tps' ps' r' m) ↔
      n ≥ m ∧ UsableBounds tps' tps ∧ UsableAll ps' ps ∧ Usable r r' :=
  ⟨fun | .function h hb ha hr => ⟨h, hb, ha, hr⟩, fun ⟨h, hb, ha, hr⟩ => .function h hb ha hr⟩

theorem usableAll_cons {t s : Ty} {ts ss : Tys} :
    UsableAll (.cons t ts) (.cons s ss) ↔ Usable t s ∧ UsableAll ts ss :=
  ⟨fun | .cons h hs => ⟨h, hs⟩, fun ⟨h, hs⟩ => .cons h hs⟩

theorem usableBounds_plain {name : String} {ts ss : TypeParams} :
    UsableBounds (.plain name ts) (.plain name ss) ↔ UsableBounds ts ss :=
  ⟨fun | .plain hs => hs, .plain⟩

theorem usableBounds_bounded {name : String} {t s : Ty} {ts ss : TypeParams} :
    UsableBounds (.bounded name t ts) (.bounded name s ss) ↔ Usable t s ∧ UsableBounds ts ss :=
  ⟨fun | .bounded h hs => ⟨h, hs⟩, fun ⟨h, hs⟩ => .bounded h hs⟩

/-! Where `type_assignable` is a sound order on types without `any`. -/

theorem fits_leaf {l l' : Leaf} : Fits Usable v (.leaf l n) (.leaf l' m) ↔ Fits (· ≥ ·) v n m ∧ l = l' :=
  (fits_and usable_leaf usable_leaf).trans (and_congr_right' fits_eq)

theorem fits_cell {k : CellKind} {x y : Ty} :
    Fits Usable v (.cell k x n) (.cell k y m) ↔ Fits (· ≥ ·) v n m ∧ Fits Usable .inv x y :=
  (fits_and usable_cell usable_cell).trans (and_congr_right' fits_inv)

theorem fits_map {k k' x y : Ty} : Fits Usable v (.map k x n) (.map k' y m) ↔
    Fits (· ≥ ·) v n m ∧ Fits Usable .inv k k' ∧ Fits Usable .inv x y := by
  cases v <;> simp only [Fits, usable_map] <;> tauto

theorem fits_tuple {xs ys : Tys} :
    Fits Usable v (.tuple xs n) (.tuple ys m) ↔ Fits (· ≥ ·) v n m ∧ Fits UsableAll v xs ys :=
  fits_and usable_tuple usable_tuple

theorem fits_record {d : Nat} {xs ys : Tys} : Fits Usable v (.record d xs n) (.record d ys m) ↔
    Fits (· ≥ ·) v n m ∧ Fits UsableAll .inv xs ys :=
  (fits_and usable_record usable_record).trans (and_congr_right' fits_inv)

theorem fits_function {tps tps' : TypeParams} {ps ps' : Tys} {r r' : Ty} :
    Fits Usable v (.function tps ps r n) (.function tps' ps' r' m) ↔
      Fits (· ≥ ·) v n m ∧ Fits UsableBounds v.flip tps tps' ∧ Fits UsableAll v.flip ps ps' ∧ Fits Usable v r r' := by
  cases v <;> simp only [Fits, Variance.flip, usable_function]
  tauto

theorem fits_cons {t s : Ty} {ts ss : Tys} :
    Fits UsableAll v (.cons t ts) (.cons s ss) ↔ Fits Usable v t s ∧ Fits UsableAll v ts ss :=
  fits_and usableAll_cons usableAll_cons

theorem fits_bounded {name : String} {t s : Ty} {ts ss : TypeParams} :
    Fits UsableBounds v (.bounded name t ts) (.bounded name s ss) ↔ Fits Usable v t s ∧ Fits UsableBounds v ts ss :=
  fits_and usableBounds_bounded usableBounds_bounded

theorem fits_nil {a : Ty} (h : a.nullable = true) : Fits Usable v a (.nil m) ↔ v = .co ∨ a.isNil = true := by
  have hto : Usable a (.nil m) := .nil (.inl h)
  have hback : Usable (.nil m) a ↔ a.isNil = true := by
    refine ⟨usable_of_nil, fun ha => ?_⟩
    cases a with
    | nil => exact .nil (.inr rfl)
    | _ => cases ha
  cases v
  · exact ⟨fun _ => .inl rfl, fun _ => hto⟩
  · exact hback.trans (by simp)
  · exact (and_iff_right hto).trans (hback.trans (by simp))

mutual

theorem Accepted.fits_iff : ∀ {a b : Ty}, Accepted a b → ∀ v : Variance, Fits Usable v a b ↔ settled v a b = true
  | a, .nil m, .nil h, v => by
    rw [fits_nil h]
    simp [settled]
  | _, _, .leaf hn _, v => by
    rw [fits_leaf, fits_le hn]
    simp [settled]
  | _, _, .cell hn hx, v => by
    rw [fits_cell, fits_le hn, hx.fits_iff]
    simp [settled]
  | _, _, .map hn hk hx, v => by
    rw [fits_map, fits_le hn, hk.fits_iff, hx.fits_iff]
    simp [settled, and_assoc]
  | _, _, .tuple hn hxs, v => by
    rw [fits_tuple, fits_le hn, hxs.fits_iff]
    simp [settled]
  | _, _, .record hn hxs, v => by
    rw [fits_record, fits_le hn, hxs.fits_iff]
    simp [settled]
  | _, _, .function hn htps hr hps, v => by
    rw [fits_function, fits_le hn, htps.fits_iff, hps.fits_iff, hr.fits_iff]
    simp [settled, and_assoc]

theorem AcceptedAll.fits_iff : ∀ {xs ys : Tys}, AcceptedAll xs ys → ∀ v : Variance,
    Fits UsableAll v xs ys ↔ settledAll v xs ys = true
  | _, _, .nil, v => by
    cases v <;> simp [Fits, settledAll, UsableAll.nil]
  | _, _, .cons h hs, v => by
    rw [fits_cons, h.fits_iff, hs.fits_iff]
    simp [settledAll]

theorem AcceptedBounds.fits_iff : ∀ {xs ys : TypeParams}, AcceptedBounds xs ys → ∀ v : Variance,
    Fits UsableBounds v xs ys ↔ settledBounds v xs ys = true
  | _, _, .nil, v => by
    cases v <;> simp [Fits, settledBounds, UsableBounds.nil]
  | _, _, .plain hs, v => by
    rw [fits_congr usableBounds_plain usableBounds_plain, hs.fits_iff]
    simp [settledBounds]
  | _, _, .bounded h hs, v => by
    rw [fits_bounded, h.fits_iff, hs.fits_iff]
    simp [settledBounds]

end

/-! Transitivity. -/

def Leaf.forgetEnum : Leaf → Leaf
  | .int _ => .int none
  | l => l

theorem Leaf.assignable_iff {l l' : Leaf} : l.assignable l' = true ↔ l.forgetEnum = l'.forgetEnum := by
  cases l <;> cases l' <;> simp [Leaf.assignable, Leaf.forgetEnum]

theorem Accepted.nullable {a b : Ty} (h : Accepted a b) (hb : b.nullable = true) : a.nullable = true := by
  cases h with
  | nil h => exact h
  | leaf hn | cell hn | map hn | tuple hn | record hn | function hn =>
    exact Bool.eq_true_of_true_le (hb ▸ hn)

mutual

theorem Accepted.trans : ∀ {a b c : Ty}, Accepted a b → Accepted b c → Accepted a c
  | _, _, .nil _, h, .nil hb => .nil (h.nullable hb)
  | _, _, _, .leaf hn hl, .leaf hm hl' =>
    .leaf (hm.trans hn) (Leaf.assignable_iff.mpr ((Leaf.assignable_iff.mp hl).trans (Leaf.assignable_iff.mp hl')))
  | _, _, _, .cell hn hx, .cell hm hy => .cell (hm.trans hn) (hx.trans hy)
  | _, _, _, .map hn hk hx, .map hm hk' hy => .map (hm.trans hn) (hk.trans hk') (hx.trans hy)
  | _, _, _, .tuple hn hxs, .tuple hm hys => .tuple (hm.trans hn) (hxs.trans hys)
  | _, _, _, .record hn hxs, .record hm hys => .record (hm.trans hn) (hxs.trans hys)
  | _, _, _, .function hn htps hr hps, .function hm htps' hr' hps' =>
    .function (hm.trans hn) (htps.trans htps') (hr.trans hr') (hps.trans hps')

theorem AcceptedAll.trans : ∀ {xs ys zs : Tys}, AcceptedAll xs ys → AcceptedAll ys zs → AcceptedAll xs zs
  | _, _, _, .nil, .nil => .nil
  | _, _, _, .cons h hs, .cons h' hs' => .cons (h.trans h') (hs.trans hs')

theorem AcceptedBounds.trans : ∀ {xs ys zs : TypeParams}, AcceptedBounds xs ys →
    AcceptedBounds ys zs → AcceptedBounds xs zs
  | _, _, _, .nil, .nil => .nil
  | _, _, _, .plain hs, .plain hs' => .plain (hs.trans hs')
  | _, _, _, .bounded h hs, .bounded h' hs' => .bounded (h.trans h') (hs.trans hs')

end

/-! Reflexivity. -/

mutual

theorem typeAssignable_self : ∀ a : Ty, typeAssignable a a = a.nilsNullable
  | .any n => by simp [typeAssignable, Ty.isAny, Ty.nilsNullable]
  | .nil n => by
    rw [typeAssignable_nil (by trivial)]
    rfl
  | .leaf l n => by
    have hl : l.assignable l = true := Leaf.assignable_iff.mpr rfl
    simp [hl, Ty.nilsNullable]
  | .cell k x n => by simp [typeAssignable_self x, Ty.nilsNullable]
  | .map k x n => by simp [typeAssignable_self k, typeAssignable_self x, Ty.nilsNullable]
  | .tuple xs n => by simp [typesAssignable_self xs, Ty.nilsNullable]
  | .record d xs n => by simp [typesAssignable_self xs, Ty.nilsNullable]
  | .function tps ps r n => by
    simp [typeParamsAssignable_self tps, typesAssignable_self ps, typeAssignable_self r, Ty.nilsNullable]

theorem typesAssignable_self : ∀ xs : Tys, typesAssignable xs xs = xs.nilsNullable
  | .nil => rfl
  | .cons t ts => by
    simp [typesAssignable, typeAssignable_self t, typesAssignable_self ts, Tys.nilsNullable]

theorem typeParamsAssignable_self : ∀ xs : TypeParams, typeParamsAssignable xs xs = xs.nilsNullable
  | .nil => rfl
  | .plain _ ts => by
    simp [typeParamsAssignable, typeParamsAssignable_self ts, TypeParams.nilsNullable]
  | .bounded _ t ts => by
    simp [typeParamsAssignable, typeAssignable_self t, typeParamsAssignable_self ts, TypeParams.nilsNullable]

end

structure SoundAt (a b c : Ty) : Prop where
  refl : typeAssignable a a = true
  trans : typeAssignable a b = true → typeAssignable b c = true → typeAssignable a c = true
  usable : typeAssignable a b = true → Usable a b

theorem typeAssignable_sound_iff {a b c : Ty} (ha : a.AnyFree) (hb : b.AnyFree) (hc : c.AnyFree) : SoundAt a b c ↔
      a.nilsNullable = true ∧ (typeAssignable a b = true → settled .co a b = true) := by
  have husable (h : typeAssignable a b = true) : Usable a b ↔ settled .co a b = true :=
    ((typeAssignable_iff ha hb).mp h).fits_iff .co
  constructor
  · intro h
    refine ⟨?_, fun hab => (husable hab).mp (h.usable hab)⟩
    rw [← typeAssignable_self]
    exact h.refl
  · rintro ⟨hnils, hsettled⟩
    refine ⟨?_, fun hab hbc => ?_, fun hab => (husable hab).mpr (hsettled hab)⟩
    · rw [typeAssignable_self]
      exact hnils
    · rw [typeAssignable_iff ha hb] at hab
      rw [typeAssignable_iff hb hc] at hbc
      exact (hab.trans hbc).assignable

def intTy (nullable : Bool) : Ty := .leaf (.int none) nullable

def arrayOf (element : Ty) : Ty := .cell .array element false

def consumerOf (param : Ty) : Ty :=
  .function .nil (.cons param .nil) (.leaf .void false) false

theorem typeAssignable_sound_iff_arrays :
    SoundAt (arrayOf (intTy true)) (arrayOf (intTy true)) (arrayOf (intTy false)) :=
  (typeAssignable_sound_iff (by trivial) (by trivial) (by trivial)).mpr
    ⟨by decide +kernel, fun _ => by decide +kernel⟩

/-- Each of these is accepted: a function on ints for one on nullable ints, an array of ints for
one of nullable ints, and an int for a color. And `nil` is not accepted for itself. -/
theorem typeAssignable_unsound : (typeAssignable (consumerOf (intTy true)) (consumerOf (intTy false)) = true ∧
      ¬ Usable (consumerOf (intTy true)) (consumerOf (intTy false))) ∧
    (typeAssignable (arrayOf (intTy true)) (arrayOf (intTy false)) = true ∧
      ¬ Usable (arrayOf (intTy true)) (arrayOf (intTy false))) ∧
    (typeAssignable (.leaf (.int (some "Color")) false) (intTy false) = true ∧
      ¬ Usable (.leaf (.int (some "Color")) false) (intTy false)) ∧
    typeAssignable (.nil false) (.nil false) = false := by
  have hback : ¬ Usable (intTy false) (intTy true) :=
    fun h => absurd (usable_leaf.mp h).1 (by decide)
  refine ⟨⟨by decide +kernel, fun h => ?_⟩, ⟨by decide +kernel, fun h => ?_⟩,
    ⟨by decide +kernel, fun h => ?_⟩, by decide +kernel⟩
  · exact hback (usableAll_cons.mp (usable_function.mp h).2.2.1).1
  · exact hback (usable_cell.mp h).2.2
  · cases (usable_leaf.mp h).2

end Tablo.Types
