import Mathlib.Data.List.Find
import Tablo.Inline

/-! Evaluation of the emitted code in terms of names: substitution is a change of what the
names are loaded as, and the slots of a frame hold what the names in scope are bound to. -/

namespace Tablo.Inline

open List Function

variable {I J V E : Type} {M : Machine V E}

section Expressions

def Expr.identifiers : Expr I V → List I
  | .identifier x => [x]
  | .binary _ left right => left.identifiers ++ right.identifiers
  | .unary _ operand => operand.identifiers
  | .cast _ value => value.identifiers
  | .literal _ _ | .other _ => []

theorem Expr.eval_congr {load load' : I → Except E V} {e : Expr I V}
    (h : ∀ x ∈ e.identifiers, load x = load' x) : e.eval M load = e.eval M load' := by
  induction e with
  | literal type value => rfl
  | identifier x => exact h x (by simp [identifiers])
  | binary op left right ihl ihr =>
    rw [eval, eval, ihl fun x hx => h x (by simp [identifiers, hx]), ihr fun x hx => h x (by simp [identifiers, hx])]
  | unary op operand ih | cast target value ih => rw [eval, eval, ih h]
  | other index => rfl

variable {x : String} {e : Expr String V}

theorem Expr.eval_update {load : String → Except E V} {r : Except E V} (h : x ∉ e.identifiers) :
    e.eval M (update load x r) = e.eval M load :=
  eval_congr fun _ hy => update_of_ne (ne_of_mem_of_not_mem hy h) _ _

theorem Expr.eval_map (r : I → J) (load : J → Except E V) (e : Expr I V) :
    (e.map r).eval M load = e.eval M (load ∘ r) := by
  induction e with
  | literal type value | identifier x => rfl
  | binary op left right ihl ihr => rw [map, eval, eval, ihl, ihr]
  | unary op operand ih | cast target value ih => rw [map, eval, eval, ih]
  | other index => rfl

theorem exprSubstituteIdentifier_eval (x : String) (t e : Expr String V) (load : String → Except E V) :
    (exprSubstituteIdentifier x t e).eval M load = e.eval M (update load x (t.eval M load)) := by
  induction e with
  | literal type value => rfl
  | identifier y =>
    by_cases h : y = x <;> simp [exprSubstituteIdentifier, Expr.eval, h]
  | binary op left right ihl ihr => rw [exprSubstituteIdentifier, Expr.eval, Expr.eval, ihl, ihr]
  | unary op operand ih | cast target value ih => rw [exprSubstituteIdentifier, Expr.eval, Expr.eval, ih]
  | other index => rfl

theorem exprSubstituteParams_eval (params : List String) (args : List (Expr String V))
    (e : Expr String V) (load : String → Except E V) : (exprSubstituteParams params args e).eval M load
      = e.eval M fun x => (exprSubstituteParams params args (.identifier x)).eval M load := by
  induction e with
  | literal type value | identifier x => rfl
  | binary op left right ihl ihr => rw [exprSubstituteParams, Expr.eval, Expr.eval, ihl, ihr]
  | unary op operand ih | cast target value ih => rw [exprSubstituteParams, Expr.eval, Expr.eval, ih]
  | other index => rfl

theorem mem_exprSubstituteParams {params : List String} {args : List (Expr String V)} {y : String}
    (h : y ∈ (exprSubstituteParams params args e).identifiers) : y ∈ e.identifiers ∨ ∃ a ∈ args, y ∈ a.identifiers := by
  induction e with
  | literal type value => exact .inl h
  | identifier x =>
    rw [exprSubstituteParams] at h
    split at h
    · rename_i arg harg
      obtain ⟨i, -, hi⟩ := Option.bind_eq_some_iff.mp harg
      exact .inr ⟨arg, mem_of_getElem? hi, h⟩
    · exact .inl h
  | binary op left right ihl ihr =>
    simp only [exprSubstituteParams, Expr.identifiers, mem_append] at h ⊢
    rcases h with h | h
    · exact (ihl h).imp_left .inl
    · exact (ihr h).imp_left .inr
  | unary op operand ih | cast target value ih => exact ih h
  | other index => exact .inl h

theorem not_mem_of_exprCountIdentifier (h : exprCountIdentifier x e = 0) : x ∉ e.identifiers := by
  induction e with
  | literal type value => simp [Expr.identifiers]
  | identifier y =>
    rintro hx
    rw [Expr.identifiers, mem_singleton] at hx
    simp [exprCountIdentifier, hx] at h
  | binary op left right ihl ihr =>
    obtain ⟨hl, hr⟩ := Nat.add_eq_zero_iff.mp h
    simp [Expr.identifiers, ihl hl, ihr hr]
  | unary op operand ih | cast target value ih => exact ih h
  | other index => simp [Expr.identifiers]

end Expressions

theorem resolveLocal_append (names : List (Option String)) (x y : String) : resolveLocal (names ++ [some x]) y
      = if y = x then some names.length else resolveLocal names y := by
  unfold resolveLocal
  rw [length_append, length_singleton, range_succ, reverse_append, reverse_singleton, singleton_append, find?_cons]
  by_cases h : y = x
  · simp [h]
  · have hrest : ∀ i ∈ (List.range names.length).reverse,
        ((names ++ [some x])[i]? == some (some y)) = (names[i]? == some (some y)) := by
      intro i hi
      rw [getElem?_append_left (by simpa using hi)]
    simp only [getElem?_concat_length, if_neg h]
    rw [show (some (some x) == some (some y)) = false from by simpa using fun hxy => h hxy.symm]
    exact find?_congr hrest

theorem resolveLocal_lt {names : List (Option String)} {x : String} {slot : Nat}
    (h : resolveLocal names x = some slot) : slot < names.length := by
  simpa using mem_of_find?_eq_some h

variable (globals : String → V) (names : List (Option String)) (frame : Frame V)

def scope (x : String) : V :=
  loadRef globals frame (compileIdentifier names x)

theorem compileExpression_eval (e : Expr String V) :
    (compileExpression names e).eval M (fun r => .ok (loadRef globals frame r))
      = e.eval M fun x => .ok (scope globals names frame x) :=
  Expr.eval_map _ _ e

theorem scope_store (x : String) (v : V) :
    scope globals (names ++ [some x]) (update frame names.length v) = update (scope globals names frame) x v := by
  funext y
  unfold scope compileIdentifier
  rw [resolveLocal_append]
  by_cases h : y = x
  · simp [h, loadRef]
  · rw [if_neg h, update_of_ne h]
    cases hr : resolveLocal names y with
    | none => rfl
    | some slot => exact update_of_ne (Nat.ne_of_lt (resolveLocal_lt hr)) _ _

def evalBody (M : Machine V E) (load : String → Except E V) (ret : Expr String V) :
    List (VarDecl V) → Except E V
  | [] => ret.eval M load
  | d :: ds => do
    let v ← d.init.eval M load
    evalBody M (update load d.name (.ok v)) ret ds

theorem Code.run_nil (result : Expr Ref V) (frame : Frame V) :
    (Code.mk [] result).run M globals frame = (result.eval M fun r => .ok (loadRef globals frame r)).map (·, frame) :=
  rfl

theorem Code.run_cons (slot : Nat) (e : Expr Ref V)
    (stores : List (Nat × Expr Ref V)) (result : Expr Ref V) (frame : Frame V) :
    (Code.mk ((slot, e) :: stores) result).run M globals frame = (do
      let v ← e.eval M fun r => .ok (loadRef globals frame r)
      (Code.mk stores result).run M globals (update frame slot v)) := by
  simp only [Code.run, runStores]
  cases e.eval M _ <;> rfl

theorem compileBody_run (ret : Expr String V)
    (ds : List (VarDecl V)) (frame : Frame V) : ((compileBody names ret ds).run M globals frame).map Prod.fst
      = evalBody M (fun x => .ok (scope globals names frame x)) ret ds := by
  induction ds generalizing names frame with
  | nil =>
    rw [compileBody, Code.run_nil, compileExpression_eval, evalBody]
    cases ret.eval M _ <;> rfl
  | cons d ds ih =>
    rw [compileBody, Code.run_cons, compileExpression_eval, evalBody]
    cases d.init.eval M _ with
    | error e => rfl
    | ok v =>
      have hload : update (fun x => (.ok (scope globals names frame x) : Except E V)) d.name (.ok v)
          = fun x => .ok (scope globals (names ++ [some d.name]) (update frame names.length v) x) := by
        funext x
        rw [scope_store]
        by_cases h : x = d.name <;> simp [h]
      exact (ih _ _).trans (congrArg (evalBody M · ret ds) hload.symm)

theorem compileBody_frame {globals : String → V} {ret : Expr String V} {ds : List (VarDecl V)} :
    ∀ {names : List (Option String)} {frame frame' : Frame V} {v : V},
      (compileBody names ret ds).run M globals frame = .ok (v, frame') →
      ∀ slot < names.length, frame' slot = frame slot := by
  induction ds with
  | nil =>
    intro names frame frame' v h slot _
    rw [compileBody, Code.run_nil] at h
    cases he : (compileExpression names ret).eval M fun r => .ok (loadRef globals frame r) with
    | error e => rw [he] at h; cases h
    | ok w => rw [he] at h; cases h; rfl
  | cons d ds ih =>
    intro names frame frame' v h slot hs
    rw [compileBody, Code.run_cons] at h
    cases he : (compileExpression names d.init).eval M fun r => .ok (loadRef globals frame r) with
    | error e => rw [he] at h; cases h
    | ok w =>
      rw [he] at h
      rw [ih h slot (by simp; omega), update_of_ne (Nat.ne_of_lt hs)]

end Tablo.Inline
