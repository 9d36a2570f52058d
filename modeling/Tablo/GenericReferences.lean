import Tablo.GenericInstances

/-! Which named types the resolver meets in a type, and which of them make it
expand a generic alias. -/

namespace Tablo.GenericTypes

open List

open Encoding (ascii)

mutual

def visits : Ty → List (Text × Nat)
  | .cell k e _ => if k = .future then [] else visits e
  | .function _ ps r _ => visits r ++ visitsAll ps
  | .tuple es _ => visitsAll es
  | .map k v _ => visits k ++ visits v
  | .record name args _ => visitsAll args ++ [(name, args.length)]
  | .int _ _ | .prim _ _ | .blank _ _ | .typeParam _ _ | .interface _ _ => []

def visitsAll : Tys → List (Text × Nat)
  | .nil => []
  | .cons t ts => visits t ++ visitsAll ts

end

theorem visits_orNullable (t : Ty) (n : Bool) : visits (t.orNullable n) = visits t := by
  cases t <;> rfl

theorem mem_visitsAll {ref : Text × Nat} : (ts : Tys) → (ref ∈ visitsAll ts ↔ ∃ t ∈ ts.toList, ref ∈ visits t)
  | .nil => by simp [visitsAll, Tys.toList]
  | .cons t ts => by simp [visitsAll, Tys.toList, mem_visitsAll ts]

theorem length_substituteAll (params : List Text) (bound : List Ty) : (ts : Tys) →
    (substituteAll params bound ts).length = ts.length
  | .nil => rfl
  | .cons t ts => by rw [substituteAll, Tys.length, Tys.length, length_substituteAll params bound ts]

theorem binding_mem {name : Text} {params : List Text} {bound : List Ty} {t : Ty}
    (h : binding name params bound = some t) : t ∈ bound := by
  fun_induction binding name params bound with
  | case1 ps t' ts =>
    cases h
    exact mem_cons_self
  | case2 p ps t' ts _ ih => exact mem_cons_of_mem _ (ih h)
  | case3 => cases h

section Substitution

variable (params : List Text) (bound : List Ty)

/-- What a substitution does to the references of a type: none is lost, and new ones come from the
types that were put in. -/
structure Substituted (old new : List (Text × Nat)) : Prop where
  kept : ∀ ref ∈ old, ref ∈ new
  added : ∀ ref ∈ new, ref ∈ old ∨ ∃ s ∈ bound, ref ∈ visits s

variable {bound}

theorem Substituted.refl (refs : List (Text × Nat)) : Substituted bound refs refs := ⟨fun _ h => h, fun _ h => .inl h⟩

theorem Substituted.append {old new old' new' : List (Text × Nat)} (h : Substituted bound old new)
    (h' : Substituted bound old' new') : Substituted bound (old ++ old') (new ++ new') where
  kept ref href := (mem_append.mp href).elim (fun hm => mem_append_left _ (h.kept ref hm))
    fun hm => mem_append_right _ (h'.kept ref hm)
  added ref href := (mem_append.mp href).elim (fun hm => (h.added ref hm).imp_left (mem_append_left _))
    fun hm => (h'.added ref hm).imp_left (mem_append_right _)

variable (bound)

mutual

theorem visits_substitute : (t : Ty) → Substituted bound (visits t) (visits (substituteGenericType params bound t))
  | .typeParam name n => by
    rw [substituteGenericType]
    cases hb : binding name params bound with
    | none => exact .refl []
    | some s =>
      dsimp only
      rw [visits_orNullable]
      exact ⟨fun _ h => (by cases h), fun _ h => .inr ⟨s, binding_mem hb, h⟩⟩
  | .cell k e n => by
    rw [substituteGenericType, visits, visits]
    split
    · exact .refl []
    · exact visits_substitute e
  | .map k v n => (visits_substitute k).append (visits_substitute v)
  | .tuple es n => visitsAll_substitute es
  | .function tps ps r n => (visits_substitute r).append (visitsAll_substitute ps)
  | .record name args n => by
    rw [substituteGenericType, visits, visits, length_substituteAll]
    exact (visitsAll_substitute args).append (.refl _)
  | .int _ _ | .prim _ _ | .blank _ _ | .interface _ _ => .refl []

theorem visitsAll_substitute : (ts : Tys) →
    Substituted bound (visitsAll ts) (visitsAll (substituteAll params bound ts))
  | .nil => .refl []
  | .cons t ts => (visits_substitute t).append (visitsAll_substitute ts)

end

end Substitution

/-! ### Aliases -/

/-- The resolver expands this name at this number of arguments by this declaration. -/
structure Expands (env : Env) (ref : Text × Nat) (decl : AliasDecl) : Prop where
  notFuture : ref.1 ≠ ascii "Future"
  visible : env.hidden ref.1 = false
  notEnum : env.findEnum ref.1 = none
  found : env.findAlias ref.1 = some decl
  arity : ref.2 = decl.typeParams.length

variable (env : Env)

def Refers (a b : Text) : Prop :=
  ∃ decl k other, env.findAlias a = some decl ∧ (b, k) ∈ visits decl.target ∧ Expands env (b, k) other

def Acyclic : Prop := ∀ a, ¬ Relation.TransGen (Refers env) a a

def Quiet (t : Ty) : Prop := ∀ ref ∈ visits t, ∀ decl, ¬ Expands env ref decl

def QuietAll (ts : Tys) : Prop := ∀ ref ∈ visitsAll ts, ∀ decl, ¬ Expands env ref decl

def Settled : Prop := ∀ name symbol, env.symbol name = some symbol → Quiet env symbol.type

def QuietRegistry (reg : Registry) : Prop := ∀ e ∈ reg, QuietAll env e.args

end Tablo.GenericTypes
