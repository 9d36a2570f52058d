import Tablo.GenericReferences
import Mathlib.Data.Set.Card
import Mathlib.Data.Set.Finite.List
import Mathlib.Order.CompletePartialOrder
import Mathlib.Order.WellFoundedSet

/-! Resolution ends. New instances are limited by the number of keys, since every
argument is cut to 255 characters in them; between two new instances only aliases
are expanded, and those cannot go round in circles. -/

namespace Tablo.GenericTypes

open List Option

open Encoding (Byte ascii)

variable {env : Env} {t : Ty} {name : Text} {args : Tys} {n : Bool} {reg : Registry} {key : Text} {reg' : Registry}
  {task : Task} {answer : Answer} {decl : RecordDecl}

/-! ### Answers need no further expansion -/

theorem quiet_record :
    Quiet env (.record name args n) ↔ QuietAll env args ∧ ∀ decl, ¬ Expands env (name, args.length) decl := by
  rw [Quiet, visits, forall_mem_append]
  simp only [mem_singleton, forall_eq]
  rfl

theorem quiet_orNullable : Quiet env (t.orNullable n) ↔ Quiet env t := by
  rw [Quiet, visits_orNullable]
  rfl

theorem quiet_of_visits_nil (h : visits t = []) : Quiet env t := by
  intro ref href
  rw [h] at href
  cases href

theorem quiet_record_of_none (hargs : QuietAll env args) (halias : env.findAlias name = none) :
    Quiet env (.record name args n) := by
  refine quiet_record.mpr ⟨hargs, fun decl he => ?_⟩
  have := he.found
  rw [halias] at this
  cases this

theorem not_expands_zero (decl : AliasDecl) : ¬ Expands env (name, 0) decl := fun h =>
  decl.generic (length_eq_zero_iff.mp h.arity.symm)

theorem not_expands_of_bracket {k : Nat} (h : (91 : Byte) ∈ name) (decl : AliasDecl) :
    ¬ Expands env (name, k) decl := by
  intro he
  have hname : decl.name.text = name := by
    simpa using find?_some he.found
  rw [← hname] at h
  exact bracket_not_mem decl.name h

theorem bracket_mem_key (name : Text) (args : Tys) : (91 : Byte) ∈ buildGenericKey name args := by
  have hbracket : (91 : Byte) ∈ ascii "[" := by decide
  exact mem_append_left _ (mem_append_left _ (mem_append_right _ hbracket))

theorem quiet_resolveFuture (args : Tys) (n : Bool) : Quiet env (resolveFuture args n) := by
  apply quiet_of_visits_nil
  rw [resolveFuture.eq_def]
  split <;> rfl

theorem quiet_resolvePlain (hs : Settled env) (hargs : QuietAll env args)
    (halias : env.findAlias name = none) : Quiet env (resolvePlain env name args n) := by
  have hplain : Quiet env (.record name args n) := quiet_record_of_none hargs halias
  have hany : Quiet env (anyType n) := quiet_of_visits_nil rfl
  rw [resolvePlain]
  cases hsym : env.symbol name with
  | none => exact hplain
  | some symbol =>
    have hq := hs name symbol hsym
    dsimp only
    split
    · split
      · exact hany
      · exact quiet_of_visits_nil rfl
    · next definition as m htype =>
      rw [htype] at hq
      split
      · exact hany
      split
      · exact hq
      · next hlen _ =>
        refine quiet_record.mpr ⟨hargs, fun decl he => ?_⟩
        have hzero : args.length = 0 := by omega
        rw [hzero] at he
        exact not_expands_zero decl he
    · split
      · split
        · exact hany
        · exact quiet_orNullable.mpr hq
      · exact hplain

theorem QuietRegistry.addInstance (h : QuietRegistry env reg)
    (hargs : QuietAll env args) : QuietRegistry env (reg.addInstance key args) := by
  intro e he
  rcases mem_append.mp he with he | he
  · exact h e he
  · rw [mem_singleton.mp he]
    exact hargs

theorem QuietRegistry.setFields (h : QuietRegistry env reg) (key : Text)
    (fields : List (Text × Ty)) : QuietRegistry env (reg.setFields key fields) := by
  intro e he
  obtain ⟨e₁, he₁, rfl⟩ := mem_map.mp he
  have hq := h e₁ he₁
  split <;> exact hq

theorem step_expand {decl : AliasDecl} :
    env.step name args n = .expand decl ↔ Expands env (name, args.length) decl := by
  constructor
  · intro h
    rw [Env.step] at h
    repeat' split at h
    all_goals cases h
    next hfuture hhidden _ henum _ halias hlen =>
    exact ⟨hfuture, by simpa using hhidden, henum, halias, not_not.mp hlen⟩
  · intro h
    simp [Env.step, h.notFuture, h.visible, h.notEnum, h.found, show args.length = _ from h.arity]

theorem quiet_answer (hs : Settled env) (hargs : QuietAll env args) (h : env.step name args n = .answer t) :
    Quiet env t := by
  rw [Env.step] at h
  repeat' split at h
  all_goals cases h
  · exact quiet_resolveFuture args n
  · next hhidden =>
    refine quiet_record.mpr ⟨hargs, fun decl he => ?_⟩
    have := he.visible
    rw [hhidden] at this
    cases this
  iterate 4 exact quiet_of_visits_nil rfl
  next halias _ _ => exact quiet_resolvePlain hs hargs halias

theorem visits_leaf (h : t.Leaf) : visits t = [] := by
  cases t with
  | cell k e n => exact if_pos h
  | function | tuple | map | record => exact h.elim
  | _ => rfl

def QuietTask (env : Env) : Task → Prop
  | .named _ args _ => QuietAll env args
  | .inst decl args _ => QuietAll env args ∧ env.findAlias decl.name.text = none
  | _ => True

def QuietAnswer (env : Env) : Answer → Prop
  | .type t => Quiet env t
  | .all ts => QuietAll env ts
  | .fields _ => True

theorem Runs.quiet (hs : Settled env) (h : Runs env reg reg' task answer) (hreg : QuietRegistry env reg)
    (hq : QuietTask env task) : QuietRegistry env reg' ∧ QuietAnswer env answer := by
  induction h with
  | leaf ht => exact ⟨hreg, quiet_of_visits_nil (visits_leaf ht)⟩
  | nil => exact ⟨hreg, quiet_of_visits_nil (t := .tuple .nil false) rfl⟩
  | noField => exact ⟨hreg, trivial⟩
  | answer hstep => exact ⟨hreg, quiet_answer hs hq hstep⟩
  | cell hk _ ih =>
    obtain ⟨hreg', hq'⟩ := ih hreg trivial
    refine ⟨hreg', ?_⟩
    rwa [QuietAnswer, Quiet, visits, if_neg hk]
  | tuple _ ih => exact ih hreg trivial
  | function _ _ ih₁ ih₂ | map _ _ ih₁ ih₂ | cons _ _ ih₁ ih₂ =>
    obtain ⟨hreg₁, hq₁⟩ := ih₁ hreg trivial
    obtain ⟨hreg₂, hq₂⟩ := ih₂ hreg₁ trivial
    exact ⟨hreg₂, forall_mem_append.mpr ⟨hq₁, hq₂⟩⟩
  | record _ _ ih₁ ih₂ =>
    obtain ⟨hreg₁, hq₁⟩ := ih₁ hreg trivial
    exact ih₂ hreg₁ hq₁
  | expand _ _ ih =>
    obtain ⟨hreg', hq'⟩ := ih hreg trivial
    exact ⟨hreg', quiet_orNullable.mpr hq'⟩
  | instantiate hstep _ ih => exact ih hreg ⟨hq, (step_instantiate hstep).1⟩
  | generic => exact ⟨hreg, quiet_record_of_none hq.1 hq.2⟩
  | @found _ decl args _ e _ hfind =>
    have hkey : e.key = buildGenericKey decl.name.text args := by
      simpa using find?_some hfind
    refine ⟨hreg, quiet_record.mpr ⟨hreg e (mem_of_find?_eq_some hfind), ?_⟩⟩
    rw [hkey]
    exact not_expands_of_bracket (bracket_mem_key _ _)
  | new _ _ _ ih =>
    refine ⟨(ih (hreg.addInstance hq.1) trivial).1.setFields _ _, quiet_record.mpr ⟨hq.1, ?_⟩⟩
    exact not_expands_of_bracket (bracket_mem_key _ _)
  | field _ _ ih₁ ih₂ => exact ih₂ (ih₁ hreg trivial).1 trivial

/-! ### The keys are finitely many -/

theorem finite_byte : Finite Byte := Finite.of_injective BitVec.toFin fun _ _ h => BitVec.eq_of_toFin_eq h

theorem length_composeRest (ts : Tys) : (composeRest (ascii ",") ts).length ≤ 256 * ts.length := by
  cases ts with
  | nil => exact Nat.zero_le _
  | cons t ts =>
    have ih := length_composeRest ts
    have hone : (ascii ",").length = 1 := rfl
    simp only [composeRest, Tys.length, length_append, length_take]
    omega

theorem length_composeAll (ts : Tys) : (composeAll (ascii ",") ts).length ≤ 256 * ts.length := by
  cases ts with
  | nil => exact Nat.zero_le _
  | cons t ts =>
    have hrest := length_composeRest ts
    simp only [composeAll, Tys.length, length_append, length_take]
    omega

def possibleKeys (env : Env) : Set Text :=
  ⋃ decl ∈ env.records, (fun s => decl.name.text ++ ascii "[" ++ s ++ ascii "]") ''
    {s : Text | s.length ≤ 256 * decl.typeParams.length}

theorem finite_possibleKeys (env : Env) : (possibleKeys env).Finite := by
  have := finite_byte
  apply Set.Finite.biUnion (finite_toSet env.records)
  intro decl _
  exact (finite_length_le Byte _).image _

theorem key_mem_possibleKeys (hdecl : decl ∈ env.records)
    (hlen : args.length = decl.typeParams.length) : buildGenericKey decl.name.text args ∈ possibleKeys env := by
  refine Set.mem_biUnion hdecl ⟨composeAll (ascii ",") args, ?_, rfl⟩
  rw [← hlen]
  exact length_composeAll args

def freeKeys (env : Env) (reg : Registry) : Set Text := possibleKeys env \ {key | ∃ e ∈ reg, e.key = key}

theorem finite_freeKeys (env : Env) (reg : Registry) : (freeKeys env reg).Finite :=
  (finite_possibleKeys env).subset Set.diff_subset

theorem freeKeys_grows (h : Grows env reg reg') : freeKeys env reg' ⊆ freeKeys env reg := by
  intro key hkey
  refine ⟨hkey.1, ?_⟩
  rintro ⟨e, he, hk⟩
  exact hkey.2 ⟨e, h.kept e he, hk⟩

theorem freeKeys_addInstance (args : Tys) (hnew : reg.findInstance key = none)
    (hmem : key ∈ possibleKeys env) : freeKeys env (reg.addInstance key args) ⊂ freeKeys env reg := by
  constructor
  · intro k hk
    refine ⟨hk.1, ?_⟩
    rintro ⟨e, he, hek⟩
    exact hk.2 ⟨e, mem_append_left _ he, hek⟩
  · intro hsub
    have hfree : key ∈ freeKeys env reg := by
      refine ⟨hmem, ?_⟩
      rintro ⟨e, he, hek⟩
      exact findInstance_none hnew e he hek
    exact (hsub hfree).2 ⟨⟨key, args, []⟩, mem_append_right _ mem_cons_self, rfl⟩

/-! ### Halting -/

def Halts (env : Env) (reg : Registry) (t : Ty) : Prop := ∃ fuel x, resolve env fuel reg t = some x

/-- A registry the resolver can be in, with room for at most `n` instances. -/
structure Ready (env : Env) (n : Nat) (reg : Registry) : Prop where
  quiet : QuietRegistry env reg
  nodup : (reg.map (·.key)).Nodup
  room : (freeKeys env reg).ncard ≤ n

variable {n : Nat}

theorem Ready.after (h : Ready env n reg) (hq : QuietRegistry env reg')
    (hg : Grows env reg reg') : Ready env n reg' :=
  ⟨hq, hg.nodup h.nodup, (Set.ncard_le_ncard (freeKeys_grows hg) (finite_freeKeys env reg)).trans h.room⟩

theorem Runs.length {ts ts' : Tys} (h : Runs env reg reg' (.all ts) (.all ts')) : ts'.length = ts.length := by
  generalize ht : Task.all ts = task at h
  generalize ha : Answer.all ts' = answer at h
  induction h generalizing ts ts' with
  | nil =>
    cases ht
    cases ha
    rfl
  | cons _ _ _ ih =>
    cases ht
    cases ha
    rw [Tys.length, Tys.length, ih rfl rfl]
  | _ => cases ht

def HaltsBelow (env : Env) (n : Nat) : Prop := ∀ m < n, ∀ reg, Ready env m reg → ∀ t, Halts env reg t

theorem Halts.runs (h : Halts env reg t) : ∃ reg' t', Runs env reg reg' (.type t) (.type t') := by
  obtain ⟨fuel, ⟨reg', t'⟩, h⟩ := h
  exact ⟨reg', t', runs_of_gives (.type h)⟩

theorem halts_of_runs (h : ∃ reg' t', Runs env reg reg' (.type t) (.type t')) : Halts env reg t := by
  obtain ⟨reg', t', h⟩ := h
  obtain ⟨fuel, hrun⟩ := (gives_of_runs h).exists
  cases hrun
  exact ⟨fuel, _, ‹_›⟩

theorem Ready.type {t' : Ty} (hreg : Ready env n reg) (hs : Settled env)
    (h : Runs env reg reg' (.type t) (.type t')) : Ready env n reg' :=
  hreg.after (h.quiet hs hreg.quiet trivial).1 (h.grows hreg.nodup trivial)

theorem fields_halt (hs : Settled env) (hall : ∀ reg, Ready env n reg → ∀ t, Halts env reg t)
    (params : List Text) (args : Tys) (fs : List (Text × Ty)) (hreg : Ready env n reg) :
    ∃ reg' out, Runs env reg reg' (.fields params args fs) (.fields out) := by
  induction fs generalizing reg with
  | nil => exact ⟨reg, [], .noField⟩
  | cons f fs ih =>
    obtain ⟨reg₁, t₁, h₁⟩ := (hall reg hreg (substituteGenericType params args.toList f.2)).runs
    obtain ⟨reg₂, rest, h₂⟩ := ih (hreg.type hs h₁)
    exact ⟨reg₂, (f.1, t₁) :: rest, .field h₁ h₂⟩

theorem instance_halts (hs : Settled env) (hbelow : HaltsBelow env n)
    (hdecl : decl ∈ env.records) (hlen : args.length = decl.typeParams.length) (hargs : QuietAll env args)
    (nullable : Bool) (hreg : Ready env n reg) :
    ∃ reg' t, Runs env reg reg' (.inst decl args nullable) (.type t) := by
  cases hp : anyContainsTypeParam args with
  | true => exact ⟨reg, _, .generic hp⟩
  | false =>
    cases hfind : reg.findInstance (buildGenericKey decl.name.text args) with
    | some e => exact ⟨reg, _, .found hp hfind⟩
    | none =>
      have hless := freeKeys_addInstance args hfind (key_mem_possibleKeys hdecl hlen)
      have hcard := Set.ncard_lt_ncard hless (finite_freeKeys env reg)
      have hroom := hreg.room
      have hadd : Ready env (n - 1) (reg.addInstance (buildGenericKey decl.name.text args) args) :=
        ⟨hreg.quiet.addInstance hargs, nodup_addInstance hreg.nodup hfind, by omega⟩
      obtain ⟨reg₁, fields, h₁⟩ :=
        fields_halt hs (hbelow (n - 1) (by omega)) decl.typeParams args decl.fields hadd
      exact ⟨_, _, .new hp hfind h₁⟩

def Good (env : Env) (n : Nat) (name : Text) : Prop :=
  ∀ decl, env.findAlias name = some decl → ∀ args : Tys, args.length = decl.typeParams.length → QuietAll env args →
    ∀ reg, Ready env n reg → Halts env reg (substituteGenericType decl.typeParams args.toList decl.target)

section Structure

variable {n : Nat} (hs : Settled env) (hbelow : HaltsBelow env n)

include hs hbelow

variable {name : Text}

theorem named_halts (hargs : QuietAll env args)
    (hgood : ∀ decl, Expands env (name, args.length) decl → Good env n name) (nullable : Bool)
    (hreg : Ready env n reg) : ∃ reg' t, Runs env reg reg' (.named name args nullable) (.type t) := by
  cases hstep : env.step name args nullable with
  | answer t => exact ⟨reg, t, .answer hstep⟩
  | expand decl =>
    have hexp := step_expand.mp hstep
    obtain ⟨reg₁, t₁, h₁⟩ := (hgood decl hexp decl hexp.found args hexp.arity hargs reg hreg).runs
    exact ⟨reg₁, _, .expand hstep h₁⟩
  | instantiate decl =>
    obtain ⟨-, hrecord, hlen⟩ := step_instantiate hstep
    obtain ⟨reg₁, t₁, h₁⟩ := instance_halts hs hbelow (mem_of_find?_eq_some hrecord) hlen hargs nullable hreg
    exact ⟨reg₁, t₁, .instantiate hstep h₁⟩

mutual

theorem halts_of_good : (t : Ty) → (∀ ref ∈ visits t, ∀ decl, Expands env ref decl → Good env n ref.1) →
    ∀ {reg : Registry}, Ready env n reg → ∃ reg' t', Runs env reg reg' (.type t) (.type t')
  | .int _ _, _, _, _ | .prim _ _, _, _, _ | .blank _ _, _, _, _ | .typeParam _ _, _, _, _
  | .interface _ _, _, _, _ => ⟨_, _, .leaf trivial⟩
  | .cell k e m, hgood, reg, hreg => by
    by_cases hk : k = .future
    · exact ⟨_, _, .leaf hk⟩
    · rw [visits, if_neg hk] at hgood
      obtain ⟨reg₁, e₁, h₁⟩ := halts_of_good e hgood hreg
      exact ⟨_, _, .cell hk h₁⟩
  | .map k v m, hgood, reg, hreg => by
    obtain ⟨hkey, hvalue⟩ := forall_mem_append.mp hgood
    obtain ⟨reg₁, k₁, h₁⟩ := halts_of_good k hkey hreg
    obtain ⟨reg₂, v₂, h₂⟩ := halts_of_good v hvalue (hreg.type hs h₁)
    exact ⟨_, _, .map h₁ h₂⟩
  | .tuple es m, hgood, reg, hreg => by
    obtain ⟨reg₁, es₁, h₁⟩ := haltsAll_of_good es hgood hreg
    exact ⟨_, _, .tuple h₁⟩
  | .function tps ps r m, hgood, reg, hreg => by
    obtain ⟨hresult, hparams⟩ := forall_mem_append.mp hgood
    obtain ⟨reg₁, r₁, h₁⟩ := halts_of_good r hresult hreg
    obtain ⟨reg₂, ps₂, h₂⟩ := haltsAll_of_good ps hparams (hreg.type hs h₁)
    exact ⟨_, _, .function h₁ h₂⟩
  | .record name args m, hgood, reg, hreg => by
    obtain ⟨hinner, hself⟩ := forall_mem_append.mp hgood
    obtain ⟨reg₁, args₁, h₁⟩ := haltsAll_of_good args hinner hreg
    obtain ⟨hquiet, hargs⟩ := h₁.quiet hs hreg.quiet trivial
    have hreg₁ := hreg.after hquiet (h₁.grows hreg.nodup trivial)
    have hname : ∀ decl, Expands env (name, args₁.length) decl → Good env n name := by
      rw [h₁.length]
      exact hself _ mem_cons_self
    obtain ⟨reg₂, t, h₂⟩ := named_halts hs hbelow hargs hname m hreg₁
    exact ⟨_, _, .record h₁ h₂⟩

theorem haltsAll_of_good : (ts : Tys) → (∀ ref ∈ visitsAll ts, ∀ decl, Expands env ref decl → Good env n ref.1) →
    ∀ {reg : Registry}, Ready env n reg → ∃ reg' ts', Runs env reg reg' (.all ts) (.all ts')
  | .nil, _, _, _ => ⟨_, _, .nil⟩
  | .cons t ts, hgood, reg, hreg => by
    obtain ⟨hhead, htail⟩ := forall_mem_append.mp hgood
    obtain ⟨reg₁, t₁, h₁⟩ := halts_of_good t hhead hreg
    obtain ⟨reg₂, ts₂, h₂⟩ := haltsAll_of_good ts htail (hreg.type hs h₁)
    exact ⟨_, _, .cons h₁ h₂⟩

end

theorem good_of_refers (hrefers : ∀ other, Refers env name other → Good env n other) : Good env n name := by
  intro decl hdecl args _ hargs reg hreg
  apply halts_of_runs (halts_of_good hs hbelow _ _ hreg)
  rintro ⟨other, k⟩ href decl' hexp
  rcases (visits_substitute _ _ _).added _ href with href | ⟨s, hsmem, href⟩
  · exact hrefers other ⟨decl, k, decl', hdecl, href, hexp⟩
  · exact absurd hexp (hargs _ ((mem_visitsAll args).mpr ⟨s, hsmem, href⟩) decl')

end Structure

theorem finite_aliasNames (env : Env) : {name | ∃ decl, env.findAlias name = some decl}.Finite := by
  apply (finite_toSet (env.aliases.map (·.name.text))).subset
  rintro name ⟨decl, hdecl⟩
  have hname : decl.name.text = name := by
    simpa using find?_some hdecl
  exact mem_map.mpr ⟨decl, mem_of_find?_eq_some hdecl, hname⟩

section

variable (hs : Settled env) (hacyclic : Acyclic env)

include hs hacyclic

theorem good_all
    (hbelow : HaltsBelow env n) (name : Text) : Good env n name := by
  have : IsStrictOrder Text (fun x y => Relation.TransGen (Refers env) y x) :=
    { irrefl := hacyclic
      trans := fun _ _ _ h h' => h'.trans h }
  by_cases hname : ∃ decl, env.findAlias name = some decl
  · have hfounded : {name | ∃ decl, env.findAlias name = some decl}.WellFoundedOn
        (fun x y => Relation.TransGen (Refers env) y x) := (finite_aliasNames env).wellFoundedOn
    refine hfounded.induction hname ?_
    intro a _ ih
    apply good_of_refers hs hbelow
    intro other hrefers
    have hstep := hrefers
    obtain ⟨decl, k, decl', -, -, hexp⟩ := hrefers
    exact ih other ⟨decl', hexp.found⟩ (.single hstep)
  · intro decl hdecl
    exact absurd ⟨decl, hdecl⟩ hname

theorem halts (n : Nat) (hreg : Ready env n reg) (t : Ty) :
    Halts env reg t := by
  induction n using Nat.strong_induction_on generalizing reg t with
  | _ n ih =>
    have hbelow : HaltsBelow env n := fun m hm reg hreg t => ih m hm hreg t
    exact halts_of_runs (halts_of_good hs hbelow t (fun ref _ _ _ => good_all hs hacyclic hbelow ref.1) hreg)

theorem haltsAll (hquiet : QuietRegistry env reg)
    (hnodup : (reg.map (·.key)).Nodup) (ts : Tys) : ∃ fuel x, resolveAll env fuel reg ts = some x := by
  have hreg : Ready env (freeKeys env reg).ncard reg := ⟨hquiet, hnodup, le_rfl⟩
  have hbelow : HaltsBelow env (freeKeys env reg).ncard := fun m _ reg hreg t => halts hs hacyclic m hreg t
  obtain ⟨reg', ts', h⟩ := haltsAll_of_good hs hbelow ts (fun ref _ _ _ => good_all hs hacyclic hbelow ref.1) hreg
  obtain ⟨fuel, hrun⟩ := (gives_of_runs h).exists
  cases hrun
  exact ⟨fuel, _, ‹_›⟩

end

/-! ### Circles of aliases -/

def Enters (env : Env) (circle : Set Text) (refs : List (Text × Nat)) : Prop :=
  ∃ ref ∈ refs, ref.1 ∈ circle ∧ ∃ decl, Expands env ref decl

def EntersTask (env : Env) (circle : Set Text) : Task → Prop
  | .type t => Enters env circle (visits t)
  | .all ts => Enters env circle (visitsAll ts)
  | .named name args _ => name ∈ circle ∧ ∃ decl, Expands env (name, args.length) decl
  | _ => False

theorem enters_append {circle : Set Text} {refs refs' : List (Text × Nat)} (h : Enters env circle (refs ++ refs')) :
    Enters env circle refs ∨ Enters env circle refs' := by
  obtain ⟨ref, href, hin⟩ := h
  rcases mem_append.mp href with href | href
  · exact .inl ⟨ref, href, hin⟩
  · exact .inr ⟨ref, href, hin⟩

variable {circle : Set Text} (hcircle : ∀ x ∈ circle, ∃ y ∈ circle, Refers env x y)

include hcircle

theorem no_answer (h : Runs env reg reg' task answer) :
    ¬ EntersTask env circle task := by
  induction h with
  | leaf ht =>
    rintro ⟨ref, href, -⟩
    rw [visits_leaf ht] at href
    cases href
  | nil =>
    rintro ⟨ref, href, -⟩
    cases href
  | cell hk _ ih => rwa [EntersTask, visits, if_neg hk]
  | tuple _ ih => exact ih
  | function _ _ ih₁ ih₂ | map _ _ ih₁ ih₂ | cons _ _ ih₁ ih₂ => exact fun h => (enters_append h).elim ih₁ ih₂
  | record h₁ _ ih₁ ih₂ =>
    intro henters
    rcases enters_append henters with hin | ⟨ref, href, hmem, decl, hexp⟩
    · exact ih₁ hin
    · rw [mem_singleton.mp href] at hmem hexp
      rw [← h₁.length] at hexp
      exact ih₂ ⟨hmem, decl, hexp⟩
  | answer hstep | instantiate hstep =>
    rintro ⟨-, decl, hexp⟩
    rw [step_expand.mpr hexp] at hstep
    cases hstep
  | expand hstep _ ih =>
    rintro ⟨hmem, -⟩
    obtain ⟨other, hother, decl', k, decl'', hfound, href, hexp'⟩ := hcircle _ hmem
    rw [(step_expand.mp hstep).found] at hfound
    cases hfound
    exact ih ⟨(other, k), (visits_substitute _ _ _).kept _ href, hother, decl'', hexp'⟩
  | generic | found | new | noField | field => exact id

end Tablo.GenericTypes
