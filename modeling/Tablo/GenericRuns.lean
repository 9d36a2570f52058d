import Mathlib.Order.Filter.AtTopBot.Basic
import Tablo.GenericTypes

/-! Runs of the resolver without their fuel: what a run does with a task, one
rule for each branch. -/

namespace Tablo.GenericTypes

open Encoding (ascii)

inductive Step where
  | answer (t : Ty)
  | expand (decl : AliasDecl)
  | instantiate (decl : RecordDecl)

/-- What becomes of a name with resolved arguments. -/
def Env.step (env : Env) (name : Text) (args : Tys) (n : Bool) : Step :=
  if name = ascii "Future" then .answer (resolveFuture args n)
  else if env.hidden name then .answer (.record name args n)
  else
    match env.findEnum name with
    | some decl =>
      .answer (if args.length ≠ decl.typeParams.length then anyType n
        else .int (some (buildGenericKey decl.name.text args)) n)
    | none =>
      match env.findAlias name with
      | some decl => if args.length ≠ decl.typeParams.length then .answer (anyType n) else .expand decl
      | none =>
        match env.findRecord name with
        | some decl => if args.length ≠ decl.typeParams.length then .answer (anyType n) else .instantiate decl
        | none => .answer (resolvePlain env name args n)

inductive Task where
  | type (t : Ty)
  | all (ts : Tys)
  | named (name : Text) (args : Tys) (n : Bool)
  | inst (decl : RecordDecl) (args : Tys) (n : Bool)
  | fields (params : List Text) (args : Tys) (fs : List (Text × Ty))

inductive Answer where
  | type (t : Ty)
  | all (ts : Tys)
  | fields (fs : List (Text × Ty))

inductive Gives (env : Env) (fuel : Nat) (reg reg' : Registry) : Task → Answer → Prop
  | type {t t'} : resolve env fuel reg t = some (reg', t') → Gives env fuel reg reg' (.type t) (.type t')
  | all {ts ts'} : resolveAll env fuel reg ts = some (reg', ts') → Gives env fuel reg reg' (.all ts) (.all ts')
  | named {name args n t} : resolveNamed env fuel reg name args n = some (reg', t) →
    Gives env fuel reg reg' (.named name args n) (.type t)
  | inst {decl args n t} : instantiateGenericRecord env fuel reg decl args n = some (reg', t) →
    Gives env fuel reg reg' (.inst decl args n) (.type t)
  | fields {params args fs out} : resolveFields env fuel reg params args fs = some (reg', out) →
    Gives env fuel reg reg' (.fields params args fs) (.fields out)

def Ty.Leaf : Ty → Prop
  | .cell k _ _ => k = .future
  | .function _ _ _ _ | .tuple _ _ | .map _ _ _ | .record _ _ _ => False
  | _ => True

inductive Runs (env : Env) : Registry → Registry → Task → Answer → Prop
  | leaf {reg t} : t.Leaf → Runs env reg reg (.type t) (.type t)
  | cell {reg reg' k e e' n} : k ≠ .future → Runs env reg reg' (.type e) (.type e') →
    Runs env reg reg' (.type (.cell k e n)) (.type (.cell k e' n))
  | function {reg reg₁ reg' tps ps ps' r r' n} : Runs env reg reg₁ (.type r) (.type r') →
    Runs env reg₁ reg' (.all ps) (.all ps') →
    Runs env reg reg' (.type (.function tps ps r n)) (.type (.function tps ps' r' n))
  | tuple {reg reg' es es' n} : Runs env reg reg' (.all es) (.all es') →
    Runs env reg reg' (.type (.tuple es n)) (.type (.tuple es' n))
  | map {reg reg₁ reg' k k' v v' n} : Runs env reg reg₁ (.type k) (.type k') →
    Runs env reg₁ reg' (.type v) (.type v') → Runs env reg reg' (.type (.map k v n)) (.type (.map k' v' n))
  | record {reg reg₁ reg' name args args' n t} : Runs env reg reg₁ (.all args) (.all args') →
    Runs env reg₁ reg' (.named name args' n) (.type t) → Runs env reg reg' (.type (.record name args n)) (.type t)
  | nil {reg} : Runs env reg reg (.all .nil) (.all .nil)
  | cons {reg reg₁ reg' t t' ts ts'} : Runs env reg reg₁ (.type t) (.type t') →
    Runs env reg₁ reg' (.all ts) (.all ts') → Runs env reg reg' (.all (.cons t ts)) (.all (.cons t' ts'))
  | answer {reg name args n t} : env.step name args n = .answer t → Runs env reg reg (.named name args n) (.type t)
  | expand {reg reg' name args n decl t} : env.step name args n = .expand decl →
    Runs env reg reg' (.type (substituteGenericType decl.typeParams args.toList decl.target)) (.type t) →
    Runs env reg reg' (.named name args n) (.type (t.orNullable n))
  | instantiate {reg reg' name args n decl t} : env.step name args n = .instantiate decl →
    Runs env reg reg' (.inst decl args n) (.type t) → Runs env reg reg' (.named name args n) (.type t)
  | generic {reg decl args n} : anyContainsTypeParam args = true →
    Runs env reg reg (.inst decl args n) (.type (.record decl.name.text args n))
  | found {reg decl args n e} : anyContainsTypeParam args = false →
    reg.findInstance (buildGenericKey decl.name.text args) = some e →
    Runs env reg reg (.inst decl args n) (.type (.record e.key e.args n))
  | new {reg reg' decl args n fs} : anyContainsTypeParam args = false →
    reg.findInstance (buildGenericKey decl.name.text args) = none →
    Runs env (reg.addInstance (buildGenericKey decl.name.text args) args) reg'
      (.fields decl.typeParams args decl.fields) (.fields fs) →
    Runs env reg (reg'.setFields (buildGenericKey decl.name.text args) fs) (.inst decl args n)
      (.type (.record (buildGenericKey decl.name.text args) args n))
  | noField {reg params args} : Runs env reg reg (.fields params args []) (.fields [])
  | field {reg reg₁ reg' params args field type t rest rest'} :
    Runs env reg reg₁ (.type (substituteGenericType params args.toList type)) (.type t) →
    Runs env reg₁ reg' (.fields params args rest) (.fields rest') →
    Runs env reg reg' (.fields params args ((field, type) :: rest)) (.fields ((field, t) :: rest'))

variable {env : Env} {fuel : Nat} {reg reg' : Registry}

theorem resolveNamed_eq (name : Text) (args : Tys) (n : Bool) : resolveNamed env (fuel + 1) reg name args n =
    match env.step name args n with
    | .answer t => some (reg, t)
    | .expand decl => do
      let (reg, t) ← resolve env fuel reg (substituteGenericType decl.typeParams args.toList decl.target)
      some (reg, t.orNullable n)
    | .instantiate decl => instantiateGenericRecord env fuel reg decl args n := by
  rw [resolveNamed, Env.step]
  repeat' split
  all_goals first | rfl | simp_all

theorem step_instantiate {name : Text} {args : Tys} {n : Bool} {decl : RecordDecl}
    (h : env.step name args n = .instantiate decl) : env.findAlias decl.name.text = none ∧
      env.findRecord decl.name.text = some decl ∧ args.length = decl.typeParams.length := by
  rw [Env.step] at h
  repeat' split at h
  all_goals cases h
  next halias _ hrecord hlen =>
  have hname : decl.name.text = name := by
    simpa using List.find?_some hrecord
  rw [hname]
  exact ⟨halias, hrecord, not_not.mp hlen⟩

open Option (bind_eq_some_iff)

theorem runs_of_gives {task : Task} {answer : Answer} (h : Gives env fuel reg reg' task answer) :
    Runs env reg reg' task answer := by
  induction fuel generalizing reg reg' task answer with
  | zero =>
    rcases h with h | h | h | h | h <;>
      simp [resolve, resolveAll, resolveNamed, instantiateGenericRecord, resolveFields] at h
  | succ fuel ih =>
    cases h with
    | @type t t' h =>
      cases t with
      | cell k e n =>
        rw [resolve] at h
        split at h
        · cases h
          exact .leaf ‹_›
        · obtain ⟨⟨reg₁, e₁⟩, h₁, h⟩ := bind_eq_some_iff.mp h
          cases h
          exact .cell ‹_› (ih (.type h₁))
      | function tps ps r n =>
        obtain ⟨⟨reg₁, r₁⟩, h₁, h⟩ := bind_eq_some_iff.mp h
        obtain ⟨⟨reg₂, ps₂⟩, h₂, h⟩ := bind_eq_some_iff.mp h
        cases h
        exact .function (ih (.type h₁)) (ih (.all h₂))
      | tuple es n =>
        obtain ⟨⟨reg₁, es₁⟩, h₁, h⟩ := bind_eq_some_iff.mp h
        cases h
        exact .tuple (ih (.all h₁))
      | map k v n =>
        obtain ⟨⟨reg₁, k₁⟩, h₁, h⟩ := bind_eq_some_iff.mp h
        obtain ⟨⟨reg₂, v₂⟩, h₂, h⟩ := bind_eq_some_iff.mp h
        cases h
        exact .map (ih (.type h₁)) (ih (.type h₂))
      | record name args n =>
        obtain ⟨⟨reg₁, args₁⟩, h₁, h₂⟩ := bind_eq_some_iff.mp h
        exact .record (ih (.all h₁)) (ih (.named h₂))
      | _ =>
        cases h
        exact .leaf trivial
    | @all ts ts' h =>
      cases ts with
      | nil =>
        cases h
        exact .nil
      | cons t ts =>
        obtain ⟨⟨reg₁, t₁⟩, h₁, h⟩ := bind_eq_some_iff.mp h
        obtain ⟨⟨reg₂, ts₁⟩, h₂, h⟩ := bind_eq_some_iff.mp h
        cases h
        exact .cons (ih (.type h₁)) (ih (.all h₂))
    | @named name args n t h =>
      rw [resolveNamed_eq] at h
      split at h
      · cases h
        exact .answer ‹_›
      · obtain ⟨⟨reg₁, t₁⟩, h₁, h⟩ := bind_eq_some_iff.mp h
        cases h
        exact .expand ‹_› (ih (.type h₁))
      · exact .instantiate ‹_› (ih (.inst h))
    | @inst decl args n t h =>
      rw [instantiateGenericRecord] at h
      split at h
      · cases h
        exact .generic ‹_›
      · next hp =>
        dsimp only at h
        split at h
        · cases h
          exact .found (by simpa using hp) ‹_›
        · obtain ⟨⟨reg₁, fs⟩, h₁, h⟩ := bind_eq_some_iff.mp h
          cases h
          exact .new (by simpa using hp) ‹_› (ih (.fields h₁))
    | @fields params args fs out h =>
      cases fs with
      | nil =>
        cases h
        exact .noField
      | cons f fs =>
        obtain ⟨⟨reg₁, t₁⟩, h₁, h⟩ := bind_eq_some_iff.mp h
        obtain ⟨⟨reg₂, fs₁⟩, h₂, h⟩ := bind_eq_some_iff.mp h
        cases h
        exact .field (ih (.type h₁)) (ih (.fields h₂))

/-- A run has its answer as soon as there is enough fuel. -/
theorem gives_of_runs {task : Task} {answer : Answer} (h : Runs env reg reg' task answer) :
    ∀ᶠ fuel in Filter.atTop, Gives env fuel reg reg' task answer := by
  induction h with rw [← Filter.map_add_atTop_eq_nat 1, Filter.eventually_map]
  | @leaf reg t ht =>
    refine .of_forall fun fuel => .type ?_
    cases t with
    | cell k e n => exact if_pos ht
    | function | tuple | map | record => exact ht.elim
    | _ => rfl
  | nil => exact .of_forall fun fuel => .all rfl
  | noField => exact .of_forall fun fuel => .fields rfl
  | answer hs => exact .of_forall fun fuel => .named (by rw [resolveNamed_eq, hs])
  | generic hp => exact .of_forall fun fuel => .inst (if_pos hp)
  | found hp hf => exact .of_forall fun fuel => .inst (by simp [instantiateGenericRecord, hp, hf])
  | cell hk _ ih =>
    filter_upwards [ih] with fuel h
    cases h
    exact .type (by simp [resolve, *])
  | tuple _ ih =>
    filter_upwards [ih] with fuel h
    cases h
    exact .type (by simp [resolve, *])
  | expand _ _ ih | instantiate _ _ ih =>
    filter_upwards [ih] with fuel h
    cases h
    exact .named (by simp [resolveNamed_eq, *])
  | new _ _ _ ih =>
    filter_upwards [ih] with fuel h
    cases h
    exact .inst (by simp [instantiateGenericRecord, *])
  | function _ _ ih₁ ih₂ | map _ _ ih₁ ih₂ | record _ _ ih₁ ih₂ =>
    filter_upwards [ih₁, ih₂] with fuel h₁ h₂
    cases h₁
    cases h₂
    exact .type (by simp [resolve, *])
  | cons _ _ ih₁ ih₂ =>
    filter_upwards [ih₁, ih₂] with fuel h₁ h₂
    cases h₁
    cases h₂
    exact .all (by simp [resolveAll, *])
  | field _ _ ih₁ ih₂ =>
    filter_upwards [ih₁, ih₂] with fuel h₁ h₂
    cases h₁
    cases h₂
    exact .fields (by simp [resolveFields, *])

end Tablo.GenericTypes
