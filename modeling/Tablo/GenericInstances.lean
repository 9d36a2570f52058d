import Tablo.GenericReading
import Tablo.GenericRuns

/-! The registry of generic record instances over whole runs of the resolver. -/

namespace Tablo.GenericTypes

open List

open Encoding (ascii)

variable {env : Env} {reg reg' : Registry} {args : Tys} {decl : RecordDecl} {reg reg₁ : Registry}

/-! ### The registry only grows, by instances with their own fields -/

def FieldsOf (env : Env) (params : List Text) (args : Tys) (declared stored : List (Text × Ty)) : Prop :=
  List.Forall₂ (fun declared stored => stored.1 = declared.1 ∧ ∃ fuel reg reg',
    resolve env fuel reg (substituteGenericType params args.toList declared.2) = some (reg', stored.2)) declared stored

structure FilledBy (env : Env) (decl : RecordDecl) (e : Instance) : Prop where
  key : e.key = buildGenericKey decl.name.text e.args
  fields : FieldsOf env decl.typeParams e.args decl.fields e.fields

def Filled (env : Env) (e : Instance) : Prop :=
  ∃ decl, env.findRecord decl.name.text = some decl ∧ FilledBy env decl e

structure Grows (env : Env) (reg reg' : Registry) : Prop where
  kept : ∀ e ∈ reg, e ∈ reg'
  new : ∀ e ∈ reg', e ∈ reg ∨ Filled env e
  nodup : (reg.map (·.key)).Nodup → (reg'.map (·.key)).Nodup

theorem Grows.refl (reg : Registry) : Grows env reg reg where
  kept _ h := h
  new _ h := .inl h
  nodup h := h

theorem Grows.trans {reg₂ reg₃ : Registry} (h : Grows env reg₁ reg₂) (h' : Grows env reg₂ reg₃) :
    Grows env reg₁ reg₃ where
  kept e he := h'.kept e (h.kept e he)
  new e he := by
    rcases h'.new e he with he | he
    · exact h.new e he
    · exact .inr he
  nodup hn := h'.nodup (h.nodup hn)

theorem findInstance_none {key : Text} (h : reg.findInstance key = none) : ∀ e ∈ reg, e.key ≠ key := by
  intro e he hk
  have := find?_eq_none.mp h e he
  simp [hk] at this

theorem keys_setFields (reg : Registry) (key : Text) (fields : List (Text × Ty)) :
    (reg.setFields key fields).map (·.key) = reg.map (·.key) := by
  rw [Registry.setFields, map_map]
  apply map_congr_left
  intro e _
  rw [Function.comp]
  split <;> rfl

theorem nodup_addInstance {key : Text} (hn : (reg.map (·.key)).Nodup)
    (hnew : reg.findInstance key = none) : ((reg.addInstance key args).map (·.key)).Nodup := by
  rw [Registry.addInstance, map_append, map_cons]
  refine nodup_append.mpr ⟨hn, nodup_singleton _, ?_⟩
  intro a ha b hb
  obtain ⟨e, he, rfl⟩ := mem_map.mp ha
  rw [mem_singleton.mp hb]
  exact findInstance_none hnew e he

theorem grows_instance {fields : List (Text × Ty)}
    (hdecl : env.findRecord decl.name.text = some decl) (hnew : reg.findInstance (buildGenericKey decl.name.text args) = none)
    (hnodup : (reg.map (·.key)).Nodup)
    (hgrows : Grows env (reg.addInstance (buildGenericKey decl.name.text args) args) reg₁)
    (hfields : FieldsOf env decl.typeParams args decl.fields fields) :
    Grows env reg (reg₁.setFields (buildGenericKey decl.name.text args) fields) := by
  generalize hk : buildGenericKey decl.name.text args = key at hnew hgrows ⊢
  have hfresh := findInstance_none hnew
  have hkeys : ((reg.addInstance key args).map (·.key)).Nodup := nodup_addInstance hnodup hnew
  have hpending : (⟨key, args, []⟩ : Instance) ∈ reg₁ := hgrows.kept _ (mem_append_right _ mem_cons_self)
  refine ⟨?_, ?_, ?_⟩
  · intro e he
    have hmem := hgrows.kept e (mem_append_left _ he)
    exact mem_map.mpr ⟨e, hmem, if_neg (hfresh e he)⟩
  · intro e he
    obtain ⟨e₁, he₁, rfl⟩ := mem_map.mp he
    by_cases hkey : e₁.key = key
    · -- the keys are distinct, so this is the entry that was registered here
      have heq : e₁ = ⟨key, args, []⟩ := inj_on_of_nodup_map (hgrows.nodup hkeys) he₁ hpending hkey
      rw [if_pos hkey, heq]
      exact .inr ⟨decl, hdecl, ⟨hk.symm, hfields⟩⟩
    · rw [if_neg hkey]
      rcases hgrows.new e₁ he₁ with hmem | hfilled
      · rcases mem_append.mp hmem with hmem | hmem
        · exact .inl hmem
        · rw [mem_singleton.mp hmem] at hkey
          exact absurd rfl hkey
      · exact .inr hfilled
  · intro _
    rw [keys_setFields]
    exact hgrows.nodup hkeys

theorem Runs.fieldsOf {params : List Text} {declared stored : List (Text × Ty)}
    (h : Runs env reg reg' (.fields params args declared) (.fields stored)) :
    FieldsOf env params args declared stored := by
  induction declared generalizing reg stored with
  | nil =>
    cases h
    exact .nil
  | cons f rest ih =>
    cases h with
    | field h₁ h₂ =>
      obtain ⟨fuel, hrun⟩ := (gives_of_runs h₁).exists
      cases hrun
      exact .cons ⟨rfl, fuel, _, _, ‹_›⟩ (ih h₂)

def Declared (env : Env) : Task → Prop
  | .inst decl _ _ => env.findRecord decl.name.text = some decl
  | _ => True

theorem Runs.grows {task : Task} {answer : Answer} (h : Runs env reg reg' task answer)
    (hn : (reg.map (·.key)).Nodup) (hd : Declared env task) : Grows env reg reg' := by
  induction h with
  | leaf | nil | answer | generic | found | noField => exact .refl _
  | cell _ _ ih | tuple _ ih | expand _ _ ih => exact ih hn trivial
  | instantiate hs _ ih => exact ih hn (step_instantiate hs).2.1
  | new _ hnew h ih => exact grows_instance hd hnew hn (ih (nodup_addInstance hn hnew) trivial) h.fieldsOf
  | function _ _ ih₁ ih₂ | map _ _ ih₁ ih₂ | record _ _ ih₁ ih₂ | cons _ _ ih₁ ih₂ | field _ _ ih₁ ih₂ =>
    have hg := ih₁ hn trivial
    exact hg.trans (ih₂ (hg.nodup hn) trivial)

/-! ### The instance of a list of arguments -/

mutual

theorem Ground.noTypeParam : (g : Ground) → containsTypeParam g.toTy = false
  | .int _ _ | .prim _ _ | .blank _ _ | .interface _ _ => rfl
  | .cell _ e _ => e.noTypeParam
  | .map k v _ => by rw [Ground.toTy, containsTypeParam, k.noTypeParam, v.noTypeParam]; rfl
  | .tuple es _ => es.noTypeParam
  | .function tps ps r _ => by
    rw [Ground.toTy, containsTypeParam, r.noTypeParam, ps.noTypeParam, tps.noTypeParam]
    rfl
  | .record _ args _ => args.noTypeParam

theorem Grounds.noTypeParam : (gs : Grounds) → anyContainsTypeParam gs.toTys = false
  | .nil => rfl
  | .cons t ts => by rw [Grounds.toTys, anyContainsTypeParam, t.noTypeParam, ts.noTypeParam]; rfl

theorem GroundParams.noTypeParam : (ps : GroundParams) → boundContainsTypeParam ps.toTypeParams = false
  | .nil => rfl
  | .plain _ ps => ps.noTypeParam
  | .bounded _ c ps => by
    rw [GroundParams.toTypeParams, boundContainsTypeParam, c.noTypeParam, ps.noTypeParam]
    rfl

end

def Instantiates (env : Env) (decl : RecordDecl) (args : Tys) (reg reg' : Registry) (name : Text) (own : Tys) : Prop :=
  ∃ fuel n, instantiateGenericRecord env fuel reg decl args n = some (reg', .record name own n)

def Reachable (env : Env) (reg : Registry) : Prop :=
  ∃ fuel ts ts', resolveAll env fuel [] ts = some (reg, ts')

theorem nodup_empty : (([] : Registry).map (·.key)).Nodup := nodup_nil

theorem Reachable.grows (h : Reachable env reg) : Grows env [] reg := by
  obtain ⟨fuel, ts, ts', h⟩ := h
  exact (runs_of_gives (.all h)).grows nodup_empty trivial

theorem Reachable.nodup (h : Reachable env reg) : (reg.map (·.key)).Nodup :=
  h.grows.nodup nodup_empty

theorem Reachable.filled (h : Reachable env reg) : ∀ e ∈ reg, Filled env e := by
  intro e he
  rcases h.grows.new e he with hmem | hfilled
  · cases hmem
  · exact hfilled

theorem Instantiates.entry {a : Grounds} {name : Text} {own : Tys}
    (hn : (reg.map (·.key)).Nodup) (h : Instantiates env decl a.toTys reg reg' name own) :
    name = buildGenericKey decl.name.text a.toTys ∧ ((∃ e ∈ reg, e ∈ reg' ∧ e.key = name ∧ e.args = own) ∨
        own = a.toTys ∧ ∃ e ∈ reg', e.args = own ∧ FilledBy env decl e) := by
  obtain ⟨fuel, n, h⟩ := h
  cases runs_of_gives (.inst h) with
  | generic hp =>
    rw [a.noTypeParam] at hp
    cases hp
  | @found _ _ _ _ e _ hfind =>
    have hkey : e.key = buildGenericKey decl.name.text a.toTys := by
      simpa using find?_some hfind
    have hmem := mem_of_find?_eq_some hfind
    exact ⟨hkey, .inl ⟨e, hmem, hmem, rfl, rfl⟩⟩
  | new _ hnew h₁ =>
    refine ⟨rfl, .inr ⟨rfl, ?_⟩⟩
    have hpending := (h₁.grows (nodup_addInstance hn hnew) trivial).kept _ (mem_append_right reg mem_cons_self)
    exact ⟨_, mem_map.mpr ⟨_, hpending, if_pos rfl⟩, rfl, ⟨rfl, h₁.fieldsOf⟩⟩

theorem key_inj {name name' : Ident} {a b : Grounds} (ha : a.Clean) (hb : b.Clean)
    (h : buildGenericKey name.text a.toTys = buildGenericKey name'.text b.toTys) : name = name' ∧ a = b := by
  rw [buildGenericKey, buildGenericKey] at h
  simp only [append_assoc] at h
  obtain ⟨hname, hrest⟩ := ident_inj (breaks_cons rfl _) (breaks_cons rfl _) h
  have hargs := (List.cons.inj hrest).2
  exact ⟨hname, (a.all_inj [] b ha hb ⟨[], .inr rfl⟩ ⟨[], .inr rfl⟩ hargs).1⟩

theorem key_confused (name : Text) {a : Grounds} (h : ¬ a.Clean) :
    ∃ b : Grounds, b ≠ a ∧ buildGenericKey name b.toTys = buildGenericKey name a.toTys := by
  obtain ⟨b, hne, hsame⟩ := a.confused h
  refine ⟨b, hne, ?_⟩
  rw [buildGenericKey, buildGenericKey, hsame.all]

/-! ### The result -/

def boxName : Ident := ⟨[66, 111, 120], by decide⟩

/-- `record Box[T] { value: T }` -/
def box : RecordDecl := ⟨boxName, [[84]], by decide, [([118], .typeParam [84] false)]⟩

def boxEnv : Env := ⟨[box], [], [], fun _ => none⟩

end Tablo.GenericTypes
