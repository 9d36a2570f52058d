import Mathlib.Data.Bool.Basic

/-! Static types and `type_assignable`. Kinds that have no component types are
leaves; arrays, futures and sets, which the source treats alike, are cells. An
enum is an int that carries the name of the enum. -/

namespace Tablo.Types

open Bool

inductive Leaf where
  | int (enumName : Option String)
  | bool | double | bigint | string | bytes | void
  | interface (definition : Nat)
  | typeParam (name : String)
  deriving DecidableEq, Repr

inductive CellKind where
  | array | future | set
  deriving DecidableEq, Repr

mutual

inductive Ty where
  | any (nullable : Bool)
  | nil (nullable : Bool)
  | leaf (leaf : Leaf) (nullable : Bool)
  | cell (kind : CellKind) (element : Ty) (nullable : Bool)
  | map (key value : Ty) (nullable : Bool)
  | tuple (elements : Tys) (nullable : Bool)
  | record (definition : Nat) (args : Tys) (nullable : Bool)
  | function (typeParams : TypeParams) (params : Tys) (result : Ty) (nullable : Bool)

inductive Tys where
  | nil
  | cons (head : Ty) (tail : Tys)

/-- The type parameters of a generic function, each with its constraint if it has one. -/
inductive TypeParams where
  | nil
  | plain (name : String) (tail : TypeParams)
  | bounded (name : String) (constraint : Ty) (tail : TypeParams)

end

namespace Ty

def nullable : Ty → Bool
  | any n | nil n | leaf _ n | cell _ _ n | map _ _ n | tuple _ n | record _ _ n
  | function _ _ _ n => n

def isAny : Ty → Bool
  | any _ => true
  | _ => false

def isNil : Ty → Bool
  | nil _ => true
  | _ => false

end Ty

/-- The last comparison of two leaves. The name of an enum is not read. -/
def Leaf.assignable : Leaf → Leaf → Bool
  | .int _, .int _ => true
  | .interface d, .interface e => d == e
  | .typeParam s, .typeParam t => s == t
  | .bool, .bool | .double, .double | .bigint, .bigint | .string, .string
  | .bytes, .bytes | .void, .void => true
  | _, _ => false

mutual

/-- `type_assignable(to, from)`. -/
def typeAssignable (to' src : Ty) : Bool :=
  if to'.nullable && src.isNil then true
  else if to'.isAny || src.isAny then true
  else if src.isNil then to'.nullable
  else if !to'.nullable && src.nullable then false
  else
    match to', src with
    | .leaf l _, .leaf l' _ => l.assignable l'
    | .cell k x _, .cell k' y _ => k == k' && typeAssignable x y
    | .map k x _, .map k' y _ => typeAssignable k k' && typeAssignable x y
    | .tuple xs _, .tuple ys _ => typesAssignable xs ys
    | .record d xs _, .record d' ys _ => d == d' && typesAssignable xs ys
    | .function tps ps r _, .function tps' ps' r' _ =>
      typeParamsAssignable tps tps' && typeAssignable r r' && typesAssignable ps ps'
    | _, _ => false

def typesAssignable : Tys → Tys → Bool
  | .nil, .nil => true
  | .cons t ts, .cons s ss => typeAssignable t s && typesAssignable ts ss
  | _, _ => false

def typeParamsAssignable : TypeParams → TypeParams → Bool
  | .nil, .nil => true
  | .plain n ts, .plain m ss => n == m && typeParamsAssignable ts ss
  | .bounded n t ts, .bounded m s ss => n == m && typeAssignable t s && typeParamsAssignable ts ss
  | _, _ => false

end

mutual

def Ty.AnyFree : Ty → Prop
  | .any _ => False
  | .nil _ | .leaf _ _ => True
  | .cell _ x _ => x.AnyFree
  | .map k x _ => k.AnyFree ∧ x.AnyFree
  | .tuple xs _ | .record _ xs _ => xs.AnyFree
  | .function tps ps r _ => tps.AnyFree ∧ ps.AnyFree ∧ r.AnyFree

def Tys.AnyFree : Tys → Prop
  | .nil => True
  | .cons t ts => t.AnyFree ∧ ts.AnyFree

def TypeParams.AnyFree : TypeParams → Prop
  | .nil => True
  | .plain _ ts => ts.AnyFree
  | .bounded _ t ts => t.AnyFree ∧ ts.AnyFree

end

section Equations

variable {n m : Bool}

theorem Ty.AnyFree.isAny {t : Ty} (h : t.AnyFree) : t.isAny = false := by
  cases t <;> simp_all [Ty.AnyFree, Ty.isAny]

theorem typeAssignable_nil {to' : Ty} (h : to'.AnyFree) : typeAssignable to' (.nil m) = to'.nullable := by
  rw [typeAssignable.eq_def, h.isAny]
  cases to'.nullable <;> simp [Ty.isNil, Ty.isAny]

@[simp]
theorem typeAssignable_leaf {l l' : Leaf} :
    typeAssignable (.leaf l n) (.leaf l' m) = ((n || !m) && l.assignable l') := by
  cases n <;> cases m <;> simp [typeAssignable, Ty.isNil, Ty.isAny, Ty.nullable]

@[simp]
theorem typeAssignable_cell {k k' : CellKind} {x y : Ty} :
    typeAssignable (.cell k x n) (.cell k' y m) = ((n || !m) && (k == k' && typeAssignable x y)) := by
  cases n <;> cases m <;> simp [typeAssignable, Ty.isNil, Ty.isAny, Ty.nullable]

@[simp]
theorem typeAssignable_map {k k' x y : Ty} : typeAssignable (.map k x n) (.map k' y m) =
      ((n || !m) && (typeAssignable k k' && typeAssignable x y)) := by
  cases n <;> cases m <;> simp [typeAssignable, Ty.isNil, Ty.isAny, Ty.nullable]

@[simp]
theorem typeAssignable_tuple {xs ys : Tys} :
    typeAssignable (.tuple xs n) (.tuple ys m) = ((n || !m) && typesAssignable xs ys) := by
  cases n <;> cases m <;> simp [typeAssignable, Ty.isNil, Ty.isAny, Ty.nullable]

@[simp]
theorem typeAssignable_record {d d' : Nat} {xs ys : Tys} : typeAssignable (.record d xs n) (.record d' ys m) =
      ((n || !m) && (d == d' && typesAssignable xs ys)) := by
  cases n <;> cases m <;> simp [typeAssignable, Ty.isNil, Ty.isAny, Ty.nullable]

@[simp]
theorem typeAssignable_function {tps tps' : TypeParams} {ps ps' : Tys} {r r' : Ty} :
    typeAssignable (.function tps ps r n) (.function tps' ps' r' m) = ((n || !m) &&
      (typeParamsAssignable tps tps' && typeAssignable r r' && typesAssignable ps ps')) := by
  cases n <;> cases m <;> simp [typeAssignable, Ty.isNil, Ty.isAny, Ty.nullable]

end Equations

/-! The rules by which the checker accepts an assignment. -/

mutual

inductive Accepted : Ty → Ty → Prop
  | nil {to' : Ty} {m : Bool} (h : to'.nullable = true) : Accepted to' (.nil m)
  | leaf {l l' : Leaf} {n m : Bool} (hn : m ≤ n) (hl : l.assignable l' = true) :
    Accepted (.leaf l n) (.leaf l' m)
  | cell {k : CellKind} {x y : Ty} {n m : Bool} (hn : m ≤ n) (hx : Accepted x y) :
    Accepted (.cell k x n) (.cell k y m)
  | map {k k' x y : Ty} {n m : Bool} (hn : m ≤ n) (hk : Accepted k k') (hx : Accepted x y) :
    Accepted (.map k x n) (.map k' y m)
  | tuple {xs ys : Tys} {n m : Bool} (hn : m ≤ n) (hxs : AcceptedAll xs ys) :
    Accepted (.tuple xs n) (.tuple ys m)
  | record {d : Nat} {xs ys : Tys} {n m : Bool} (hn : m ≤ n) (hxs : AcceptedAll xs ys) :
    Accepted (.record d xs n) (.record d ys m)
  | function {tps tps' : TypeParams} {ps ps' : Tys} {r r' : Ty} {n m : Bool} (hn : m ≤ n)
    (htps : AcceptedBounds tps tps') (hr : Accepted r r') (hps : AcceptedAll ps ps') :
    Accepted (.function tps ps r n) (.function tps' ps' r' m)

inductive AcceptedAll : Tys → Tys → Prop
  | nil : AcceptedAll .nil .nil
  | cons {t s : Ty} {ts ss : Tys} (h : Accepted t s) (hs : AcceptedAll ts ss) :
    AcceptedAll (.cons t ts) (.cons s ss)

inductive AcceptedBounds : TypeParams → TypeParams → Prop
  | nil : AcceptedBounds .nil .nil
  | plain {name : String} {ts ss : TypeParams} (hs : AcceptedBounds ts ss) :
    AcceptedBounds (.plain name ts) (.plain name ss)
  | bounded {name : String} {t s : Ty} {ts ss : TypeParams} (h : Accepted t s)
    (hs : AcceptedBounds ts ss) : AcceptedBounds (.bounded name t ts) (.bounded name s ss)

end

theorem or_not_eq_true {n m : Bool} : (n || !m) = true ↔ m ≤ n := by
  cases n <;> cases m <;> decide

theorem accepted_nil {a : Ty} {m : Bool} (ha : a.AnyFree) (h : typeAssignable a (.nil m) = true) :
    Accepted a (.nil m) :=
  .nil (by rwa [typeAssignable_nil ha] at h)

mutual

theorem accepted_of_typeAssignable : ∀ {a : Ty} (b : Ty), a.AnyFree → b.AnyFree →
    typeAssignable a b = true → Accepted a b
  | _, .nil _, ha, _, h => accepted_nil ha h
  | _, .any _, _, hb, _ => hb.elim
  | a, .leaf l' m, ha, hb, h => by
    cases a with
    | any => exact ha.elim
    | leaf l n =>
      rw [typeAssignable_leaf, and_eq_true, or_not_eq_true] at h
      exact .leaf h.1 h.2
    | _ => simp [typeAssignable, Ty.isNil, Ty.isAny] at h
  | a, .cell k' y m, ha, hb, h => by
    cases a with
    | any => exact ha.elim
    | cell k x n =>
      rw [typeAssignable_cell, and_eq_true, and_eq_true, or_not_eq_true, beq_iff_eq] at h
      obtain ⟨hn, rfl, hx⟩ := h
      exact .cell hn (accepted_of_typeAssignable y ha hb hx)
    | _ => simp [typeAssignable, Ty.isNil, Ty.isAny] at h
  | a, .map k' y m, ha, hb, h => by
    cases a with
    | any => exact ha.elim
    | map k x n =>
      rw [typeAssignable_map, and_eq_true, and_eq_true, or_not_eq_true] at h
      exact .map h.1 (accepted_of_typeAssignable k' ha.1 hb.1 h.2.1) (accepted_of_typeAssignable y ha.2 hb.2 h.2.2)
    | _ => simp [typeAssignable, Ty.isNil, Ty.isAny] at h
  | a, .tuple ys m, ha, hb, h => by
    cases a with
    | any => exact ha.elim
    | tuple xs n =>
      rw [typeAssignable_tuple, and_eq_true, or_not_eq_true] at h
      exact .tuple h.1 (acceptedAll_of_typesAssignable ys ha hb h.2)
    | _ => simp [typeAssignable, Ty.isNil, Ty.isAny] at h
  | a, .record d' ys m, ha, hb, h => by
    cases a with
    | any => exact ha.elim
    | record d xs n =>
      rw [typeAssignable_record, and_eq_true, and_eq_true, or_not_eq_true, beq_iff_eq] at h
      obtain ⟨hn, rfl, hxs⟩ := h
      exact .record hn (acceptedAll_of_typesAssignable ys ha hb hxs)
    | _ => simp [typeAssignable, Ty.isNil, Ty.isAny] at h
  | a, .function tps' ps' r' m, ha, hb, h => by
    cases a with
    | any => exact ha.elim
    | function tps ps r n =>
      rw [typeAssignable_function, and_eq_true, and_eq_true, and_eq_true, or_not_eq_true] at h
      exact .function h.1 (acceptedBounds_of_typeParamsAssignable tps' ha.1 hb.1 h.2.1.1)
        (accepted_of_typeAssignable r' ha.2.2 hb.2.2 h.2.1.2)
        (acceptedAll_of_typesAssignable ps' ha.2.1 hb.2.1 h.2.2)
    | _ => simp [typeAssignable, Ty.isNil, Ty.isAny] at h

theorem acceptedAll_of_typesAssignable : ∀ {xs : Tys} (ys : Tys), xs.AnyFree → ys.AnyFree →
    typesAssignable xs ys = true → AcceptedAll xs ys
  | .nil, .nil, _, _, _ => .nil
  | .cons t ts, .cons s ss, ha, hb, h => by
    rw [typesAssignable, and_eq_true] at h
    exact .cons (accepted_of_typeAssignable s ha.1 hb.1 h.1) (acceptedAll_of_typesAssignable ss ha.2 hb.2 h.2)
  | .nil, .cons .., _, _, h | .cons .., .nil, _, _, h => by simp [typesAssignable] at h

theorem acceptedBounds_of_typeParamsAssignable : ∀ {xs : TypeParams} (ys : TypeParams),
    xs.AnyFree → ys.AnyFree → typeParamsAssignable xs ys = true → AcceptedBounds xs ys
  | .nil, .nil, _, _, _ => .nil
  | .plain n ts, .plain m ss, ha, hb, h => by
    rw [typeParamsAssignable, and_eq_true, beq_iff_eq] at h
    obtain ⟨rfl, h⟩ := h
    exact .plain (acceptedBounds_of_typeParamsAssignable ss ha hb h)
  | .bounded n t ts, .bounded m s ss, ha, hb, h => by
    rw [typeParamsAssignable, and_eq_true, and_eq_true, beq_iff_eq] at h
    obtain ⟨⟨rfl, ht⟩, h⟩ := h
    exact .bounded (accepted_of_typeAssignable s ha.1 hb.1 ht) (acceptedBounds_of_typeParamsAssignable ss ha.2 hb.2 h)
  | .nil, .plain .., _, _, h | .nil, .bounded .., _, _, h | .plain .., .nil, _, _, h
  | .plain .., .bounded .., _, _, h | .bounded .., .nil, _, _, h
  | .bounded .., .plain .., _, _, h => by simp [typeParamsAssignable] at h

end

mutual

theorem Accepted.assignable : ∀ {a b : Ty}, Accepted a b → typeAssignable a b = true
  | _, _, .nil h => by rw [typeAssignable.eq_def, h]; rfl
  | _, _, .leaf hn hl => by rw [typeAssignable_leaf, or_not_eq_true.mpr hn, hl]; rfl
  | _, _, .cell hn hx => by
    rw [typeAssignable_cell, or_not_eq_true.mpr hn, beq_self_eq_true, hx.assignable]; rfl
  | _, _, .map hn hk hx => by
    rw [typeAssignable_map, or_not_eq_true.mpr hn, hk.assignable, hx.assignable]; rfl
  | _, _, .tuple hn hxs => by rw [typeAssignable_tuple, or_not_eq_true.mpr hn, hxs.assignable]; rfl
  | _, _, .record hn hxs => by
    rw [typeAssignable_record, or_not_eq_true.mpr hn, beq_self_eq_true, hxs.assignable]; rfl
  | _, _, .function hn htps hr hps => by
    rw [typeAssignable_function, or_not_eq_true.mpr hn, htps.assignable, hr.assignable, hps.assignable]; rfl

theorem AcceptedAll.assignable : ∀ {xs ys : Tys}, AcceptedAll xs ys → typesAssignable xs ys = true
  | _, _, .nil => rfl
  | _, _, .cons h hs => by rw [typesAssignable, h.assignable, hs.assignable]; rfl

theorem AcceptedBounds.assignable : ∀ {xs ys : TypeParams}, AcceptedBounds xs ys → typeParamsAssignable xs ys = true
  | _, _, .nil => rfl
  | _, _, .plain hs => by rw [typeParamsAssignable, beq_self_eq_true, hs.assignable]; rfl
  | _, _, .bounded h hs => by
    rw [typeParamsAssignable, beq_self_eq_true, h.assignable, hs.assignable]; rfl

end

theorem typeAssignable_iff {a b : Ty} (ha : a.AnyFree) (hb : b.AnyFree) : typeAssignable a b = true ↔ Accepted a b :=
  ⟨accepted_of_typeAssignable b ha hb, Accepted.assignable⟩

end Tablo.Types
