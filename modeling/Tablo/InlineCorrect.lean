import Mathlib.Tactic
import Tablo.InlineEval

/-! What inlining computes: the kept variables are evaluated in order, the substituted ones by
name, where the returned expression uses them. A call that captures no name is replaced by code
of the same outcome unless an initializer that fails was substituted away. -/

namespace Tablo.Inline

open List Function

variable {V E : Type} {M : Machine V E}

def evalByName (M : Machine V E) (load : String → Except E V) (ret : Expr String V) :
    List (Decision V) → Except E V
  | [] => ret.eval M load
  | d :: ds =>
    if d.inlined then evalByName M (update load d.name (d.init.eval M load)) ret ds
    else do
      let v ← d.init.eval M load
      evalByName M (update load d.name (.ok v)) ret ds

/-- The first initializer that fails when all are evaluated in order: whether its variable is
substituted, and its error. -/
def firstFailure (M : Machine V E) (load : String → Except E V) :
    List (Decision V) → Option (Bool × E)
  | [] => none
  | d :: ds =>
    match d.init.eval M load with
    | .error e => some (d.inlined, e)
    | .ok v => firstFailure M (update load d.name (.ok v)) ds

variable {load : String → Except E V} {ret : Expr String V} {ds : List (Decision V)}

theorem evalByName_of_firstFailure (h : ∀ e, firstFailure M load ds ≠ some (true, e)) :
    evalByName M load ret ds = evalBody M load ret (ds.map (·.toVarDecl)) := by
  induction ds generalizing load with
  | nil => rfl
  | cons d ds ih =>
    simp only [firstFailure, evalByName, map_cons, evalBody] at h ⊢
    cases hd : d.init.eval M load with
    | ok v =>
      rw [hd] at h
      have hrest := ih h
      cases d.inlined with
      | true | false => exact hrest
    | error e =>
      rw [hd] at h
      cases hk : d.inlined with
      | true => exact absurd (by rw [hk]) (h e)
      | false => rfl

theorem evalBody_of_firstFailure {b : Bool} {e : E} (h : firstFailure M load ds = some (b, e)) :
    evalBody M load ret (ds.map (·.toVarDecl)) = .error e := by
  induction ds generalizing load with
  | nil => cases h
  | cons d ds ih =>
    simp only [firstFailure, map_cons, evalBody] at h ⊢
    cases hd : d.init.eval M load with
    | ok v => rw [hd] at h; exact ih h
    | error e' => rw [hd] at h; cases h; rfl

variable {params : List String} {args : List (Expr String V)} {x : String} {d : Decision V}

def bodyFree (ret : Expr String V) : List (VarDecl V) → List String
  | [] => ret.identifiers
  | d :: ds => d.init.identifiers ++ (bodyFree ret ds).filter (· ≠ d.name)

/-- A substitution passes declarations that neither use the name nor bind a name of the
replacement. -/
theorem evalBody_substitute {t : Expr String V} {ds : List (VarDecl V)}
    (h : ∀ d ∈ ds, d.name ≠ x ∧ x ∉ d.init.identifiers ∧ d.name ∉ t.identifiers) :
    evalBody M load (exprSubstituteIdentifier x t ret) ds = evalBody M (update load x (t.eval M load)) ret ds := by
  induction ds generalizing load with
  | nil => exact exprSubstituteIdentifier_eval x t ret load
  | cons d ds ih =>
    obtain ⟨hne, hinit, ht⟩ := h d mem_cons_self
    have htail := fun d' hd' => h d' (mem_cons_of_mem d hd')
    simp only [evalBody, Expr.eval_update hinit]
    cases d.init.eval M load with
    | error e => rfl
    | ok v =>
      have hrest : evalBody M (update load d.name (.ok v))
          (exprSubstituteIdentifier x t ret) ds = _ := ih htail
      rw [Expr.eval_update ht, update_comm hne] at hrest
      exact hrest

theorem exprSubstituteParams_of_not_mem (h : x ∉ params) :
    exprSubstituteParams params args (.identifier x) = (.identifier x : Expr String V) := by
  have hnone : findParamIndex params x = none :=
    findIdx?_eq_none_iff.mpr fun y hy => by
      simpa using ne_of_mem_of_not_mem hy h
  rw [exprSubstituteParams, hnone]
  rfl

theorem inlineVars_cons (ret : Expr String V) (d : VarDecl V) (ds : List (VarDecl V)) :
    inlineVars params args ret (d :: ds)
      = if doInline d (inlineVars params args ret ds).1 (inlineVars params args ret ds).2 then
          (⟨d, true⟩ :: (inlineVars params args ret ds).1,
            exprSubstituteIdentifier d.name (exprSubstituteParams params args d.init)
              (inlineVars params args ret ds).2)
        else (⟨d, false⟩ :: (inlineVars params args ret ds).1, (inlineVars params args ret ds).2) :=
  rfl

theorem inlineVars_toVarDecl (ret : Expr String V) (ds : List (VarDecl V)) :
    (inlineVars params args ret ds).1.map (·.toVarDecl) = ds := by
  induction ds with
  | nil => rfl
  | cons d ds ih =>
    rw [inlineVars_cons]
    split <;> rw [map_cons, ih]

/-- No variable of the body has the name of an argument, and no initializer that moves into the
returned expression reads a global of the name of a variable that is kept after it. -/
structure Separate (params : List String) (args : List (Expr String V)) (ds : List (Decision V)) :
    Prop where
  arguments : ∀ a ∈ args, ∀ d ∈ ds, d.name ∉ a.identifiers
  fresh : ∀ d ∈ ds, d.name ∉ params
  nodup : (ds.map (·.name)).Nodup
  later : ds.Pairwise fun d k => d.inlined = true → k.inlined = false → k.name ∉ d.init.identifiers

theorem Separate.tail (h : Separate params args (d :: ds)) : Separate params args ds :=
  ⟨fun a ha d' hd' => h.arguments a ha d' (mem_cons_of_mem d hd'),
    fun d' hd' => h.fresh d' (mem_cons_of_mem d hd'),
    (nodup_cons.mp h.nodup).2, (pairwise_cons.mp h.later).2⟩

theorem Separate.not_mem {e : Expr String V} {y : String}
    (h : Separate params args ds) (hd : d ∈ ds) (hy : d.name = y) (he : y ∉ e.identifiers) :
    y ∉ (exprSubstituteParams params args e).identifiers := by
  intro hmem
  rcases mem_exprSubstituteParams hmem with hm | ⟨a, ha, hm⟩
  · exact he hm
  · exact h.arguments a ha d hd (hy ▸ hm)

theorem Separate.eval_update {r : Except E V} (h : Separate params args ds) (hd : d ∈ ds) (hx : x ≠ d.name) :
    (exprSubstituteParams params args (.identifier x)).eval M (update load d.name r)
      = (exprSubstituteParams params args (.identifier x)).eval M load :=
  Expr.eval_update (h.not_mem hd rfl (by simpa [Expr.identifiers] using hx.symm))

theorem kept_of_usesInKeptInits
    (h : usesInKeptInits x ds = 0) : ∀ k ∈ ds, k.inlined = false → x ∉ k.init.identifiers := by
  intro k hk hkept
  have hmem : k ∈ ds.filter (!·.inlined) := List.mem_filter.mpr ⟨hk, by simp [hkept]⟩
  have hle : exprCountIdentifier x k.init ≤ usesInKeptInits x ds :=
    le_sum_of_mem (mem_map_of_mem hmem)
  exact not_mem_of_exprCountIdentifier (by omega)

theorem keptDecls_cons_inlined (d : VarDecl V) (ds : List (Decision V)) :
    keptDecls params args (⟨d, true⟩ :: ds) = keptDecls params args ds :=
  rfl

theorem keptDecls_cons_kept (d : VarDecl V) (ds : List (Decision V)) : keptDecls params args (⟨d, false⟩ :: ds)
      = ⟨d.name, exprSubstituteParams params args d.init⟩ :: keptDecls params args ds :=
  rfl

/-- The kept declarations neither use a substituted variable nor bind a name of what it is
replaced by. -/
theorem Separate.keptDecls_apart {d : VarDecl V}
    (h : Separate params args (⟨d, true⟩ :: ds)) (huses : usesInKeptInits d.name ds = 0) :
    ∀ k ∈ keptDecls params args ds, k.name ≠ d.name ∧ d.name ∉ k.init.identifiers ∧
      k.name ∉ (exprSubstituteParams params args d.init).identifiers := by
  intro k hk
  obtain ⟨k, hfilter, rfl⟩ := mem_map.mp hk
  obtain ⟨hmem, hnot⟩ := List.mem_filter.mp hfilter
  have hkept : k.inlined = false := by simpa using hnot
  refine ⟨?_, ?_, ?_⟩
  · rintro hname
    exact (nodup_cons.mp h.nodup).1 (mem_map.mpr ⟨k, hmem, hname⟩)
  · exact h.not_mem mem_cons_self rfl (kept_of_usesInKeptInits huses k hmem hkept)
  · exact h.not_mem (mem_cons_of_mem _ hmem) rfl ((pairwise_cons.mp h.later).1 k hmem rfl hkept)

/-- What the loop over the declarations leaves has the by-name meaning of the body, in a scope
where every name the body takes from outside stands for what it is in the function. -/
theorem inlineVars_eval {value : Expr String V} {ds : List (VarDecl V)} {inner : String → Except E V}
    (hret : ret = exprSubstituteParams params args value) (h : Separate params args (inlineVars params args ret ds).1)
    (hfree : ∀ x ∈ bodyFree value ds, inner x = (exprSubstituteParams params args (.identifier x)).eval M load) :
    evalBody M load (inlineVars params args ret ds).2 (keptDecls params args (inlineVars params args ret ds).1)
      = evalByName M inner value (inlineVars params args ret ds).1 := by
  induction ds generalizing load inner with
  | nil =>
    simp only [inlineVars, keptDecls, filter_nil, map_nil, evalBody]
    rw [hret, exprSubstituteParams_eval]
    exact Expr.eval_congr fun x hx => (hfree x hx).symm
  | cons d ds ih =>
    have hinit : (exprSubstituteParams params args d.init).eval M load = d.init.eval M inner := by
      rw [exprSubstituteParams_eval]
      exact Expr.eval_congr fun x hx => (hfree x (mem_append_left _ hx)).symm
    -- binding the variable on both sides keeps the correspondence for what follows
    have hbound : ∀ (k : Bool) (r : Except E V), Separate params args (⟨d, k⟩ :: (inlineVars params args ret ds).1) →
        ∀ x ∈ bodyFree value ds, update inner d.name r x
          = (exprSubstituteParams params args (.identifier x)).eval M (update load d.name r) := by
      intro k r hsep x hx
      by_cases hxd : x = d.name
      · subst hxd
        rw [exprSubstituteParams_of_not_mem (hsep.fresh _ mem_cons_self)]
        simp [Expr.eval]
      · rw [update_of_ne hxd, hsep.eval_update mem_cons_self hxd]
        exact hfree x (mem_append_right _ (List.mem_filter.mpr ⟨hx, by simpa using hxd⟩))
    rw [inlineVars_cons] at h ⊢
    split at h
    · rename_i hinline
      rw [if_pos hinline]
      have huses : usesInKeptInits d.name (inlineVars params args ret ds).1 = 0 := by
        simp only [doInline, Bool.and_eq_true, beq_iff_eq] at hinline
        exact hinline.1.2
      rw [keptDecls_cons_inlined, evalBody_substitute (h.keptDecls_apart huses), evalByName, hinit]
      exact ih h.tail (hbound true _ h)
    · rename_i hkeep
      rw [if_neg hkeep, keptDecls_cons_kept, evalBody, evalByName, hinit]
      cases d.init.eval M inner with
      | error e => rfl
      | ok v => exact ih h.tail (hbound false _ h)

variable {bound : String → V} {decls : List (VarDecl V)}

theorem resolveLocal_params (h : params.Nodup) (x : String) :
    resolveLocal (params.map some) x = findParamIndex params x := by
  induction params using List.reverseRecOn with
  | nil => rfl
  | append_singleton ps p ih =>
    obtain ⟨hps, -, hdisj⟩ := nodup_append.mp h
    have ihps := ih hps
    rw [findParamIndex] at ihps ⊢
    rw [map_append, map_singleton, resolveLocal_append, ihps, findIdx?_append]
    by_cases hx : x = p
    · subst hx
      have hnone : ps.findIdx? (· == x) = none :=
        findIdx?_eq_none_iff.mpr fun y hy => by
          simpa using hdisj y hy x (mem_singleton_self x)
      simp [hnone]
    · simp [hx, Ne.symm hx]

def argValue [Inhabited V] (bound : String → V) : Expr String V → V
  | .literal _ value => value
  | .identifier x => bound x
  | _ => default

theorem eval_argValue [Inhabited V] {a : Expr String V} (h : exprInlineSubstitutionSafe a = true) :
    a.eval M (fun x => .ok (bound x)) = .ok (argValue bound a) := by
  cases a with
  | literal type value | identifier x => rfl
  | binary op left right | unary op operand | cast target value | other index => cases h

theorem mapM_argValue [Inhabited V] (h : args.all exprInlineSubstitutionSafe = true) :
    args.mapM (fun a => a.eval M fun x => .ok (bound x)) = .ok (args.map (argValue bound)) := by
  induction args with
  | nil => rfl
  | cons a args ih =>
    obtain ⟨ha, hargs⟩ := Bool.and_eq_true_iff.mp (all_cons ▸ h)
    rw [mapM_cons, eval_argValue ha, ih hargs]
    rfl

theorem mapM_inlineDecl {body : List (Stmt V)} (h : body.mapM (inlineDecl params) = some decls) :
    body.filterMap Stmt.declared? = decls.map (·.name) := by
  induction body generalizing decls with
  | nil => cases h; rfl
  | cons s body ih =>
    rw [mapM_cons, Option.bind_eq_bind, Option.bind_eq_some_iff] at h
    obtain ⟨d, hd, h⟩ := h
    obtain ⟨ds, hds, h⟩ := Option.bind_eq_some_iff.mp h
    cases h
    have hname : s.declared? = some d.name := by
      cases s with
      | varDecl name init =>
        cases init with
        | none => cases hd
        | some init =>
          simp only [inlineDecl] at hd
          split at hd
          · cases hd; rfl
          · cases hd
      | returnStmt value | other index => cases hd
    rw [filterMap_cons, hname, map_cons, ih hds]

theorem funcInlineEligible_nodup {f : FuncDecl V} {value : Expr String V}
    (h : funcInlineEligible f = some (decls, value)) : (f.params ++ decls.map (·.name)).Nodup := by
  simp only [funcInlineEligible, Option.bind_eq_bind, Option.bind_eq_some_iff] at h
  obtain ⟨-, -, last, -, value', -, ds, hds, -, -, h⟩ := h
  cases h
  rw [← mapM_inlineDecl hds]
  exact f.nodup.sublist ((List.Sublist.refl f.params).append ((dropLast_sublist f.body).filterMap _))

/-- A call that `compileInlineCall` accepts, with the code it emits. -/
structure InlinedCall (V : Type) where
  names : List (Option String)
  f : FuncDecl V
  args : List (Expr String V)
  decls : List (VarDecl V)
  value : Expr String V
  code : Code V
  eligible : funcInlineEligible f = some (decls, value)
  accepted : compileInlineCall false names f args = some code

namespace InlinedCall

variable (c : InlinedCall V)

def decisions : List (Decision V) :=
  (inlineVars c.f.params c.args (exprSubstituteParams c.f.params c.args c.value) c.decls).1

theorem accepted_spec : c.args.length = c.f.params.length ∧ c.args.all exprInlineSubstitutionSafe = true ∧
      c.code = compileBody c.names
        (inlineVars c.f.params c.args (exprSubstituteParams c.f.params c.args c.value) c.decls).2
        (keptDecls c.f.params c.args c.decisions) := by
  have h := c.accepted
  simp only [compileInlineCall, c.eligible, Option.bind_eq_bind, Option.bind_eq_some_iff] at h
  obtain ⟨_, -, body, hbody, _, hlen, _, hsafe, _, -, h⟩ := h
  cases hbody
  refine ⟨?_, ?_, (Option.some.inj h).symm⟩
  · by_contra hne
    simp [hne] at hlen
  · by_contra hne
    simp only [guard, if_neg hne] at hsafe
    cases hsafe

def call [Inhabited V] (M : Machine V E) (globals : String → V) (frame : Frame V) : Except E V :=
  callFunction M globals c.f.params c.decls c.value c.names c.args frame

def bodyScope [Inhabited V] (globals : String → V) (frame : Frame V) (x : String) : V :=
  scope globals (c.f.params.map some) (argFrame (c.args.map (argValue (scope globals c.names frame)))) x

/-- No name changes its meaning where the body is put: the globals the body reads are not
locals of the caller, no variable of the body has the name of an argument, and no global read by
a substituted initializer has the name of a variable that is kept after it. -/
structure Uncaptured : Prop where
  caller : ∀ x ∈ bodyFree c.value c.decls, x ∉ c.f.params → resolveLocal c.names x = none
  arguments : ∀ a ∈ c.args, ∀ d ∈ c.decls, d.name ∉ a.identifiers
  later : c.decisions.Pairwise fun d k =>
    d.inlined = true → k.inlined = false → k.name ∉ d.init.identifiers

theorem separate (h : c.Uncaptured) : Separate c.f.params c.args c.decisions := by
  have hdecls : c.decisions.map (·.toVarDecl) = c.decls := inlineVars_toVarDecl _ _
  have hnames : c.decisions.map (·.name) = c.decls.map (·.name) := by
    rw [← hdecls, map_map]
    rfl
  obtain ⟨-, hnodup, hdisj⟩ := nodup_append.mp (funcInlineEligible_nodup c.eligible)
  refine ⟨fun a ha d hd => h.arguments a ha d.toVarDecl (hdecls ▸ mem_map_of_mem hd), ?_, hnames ▸ hnodup, h.later⟩
  intro d hd hmem
  exact hdisj _ hmem _ (hnames ▸ mem_map_of_mem hd) rfl

theorem call_eq [Inhabited V] (globals : String → V) (frame : Frame V) : c.call M globals frame
      = evalBody M (fun x => .ok (c.bodyScope globals frame x)) c.value c.decls := by
  obtain ⟨-, hsafe, -⟩ := c.accepted_spec
  have hvalues : c.args.mapM (fun a => (compileExpression c.names a).eval M fun r => .ok (loadRef globals frame r))
        = .ok (c.args.map (argValue (scope globals c.names frame))) := by
    simp only [compileExpression_eval]
    exact mapM_argValue hsafe
  rw [call, callFunction, hvalues]
  exact compileBody_run globals (c.f.params.map some) c.value c.decls _

/-- Inside the function every name the body takes from outside is bound to what its replacement
is in the caller. -/
theorem bodyScope_eq [Inhabited V] (h : c.Uncaptured) (globals : String → V) (frame : Frame V)
    (hx : x ∈ bodyFree c.value c.decls) :
    (.ok (c.bodyScope globals frame x) : Except E V) = (exprSubstituteParams c.f.params c.args (.identifier x)).eval M
          fun y => .ok (scope globals c.names frame y) := by
  obtain ⟨hlen, hsafe, -⟩ := c.accepted_spec
  have hparams : c.f.params.Nodup :=
    (nodup_append.mp (funcInlineEligible_nodup c.eligible)).1
  unfold bodyScope scope compileIdentifier
  rw [resolveLocal_params hparams, exprSubstituteParams]
  cases hi : findParamIndex c.f.params x with
  | none =>
    have hmem : x ∉ c.f.params := fun hmem => by
      simpa using findIdx?_eq_none_iff.mp hi x hmem
    simp [Expr.eval, loadRef, h.caller x hx hmem]
  | some i =>
    have hlt : i < c.args.length := by
      rw [hlen]
      exact (findIdx?_eq_some_iff_getElem.mp hi).1
    have hget : c.args[i]? = some c.args[i] := getElem?_eq_getElem hlt
    have harg : c.args[i].eval M (fun y => .ok (scope globals c.names frame y))
        = .ok (argValue (scope globals c.names frame) c.args[i]) :=
      eval_argValue (all_eq_true.mp hsafe _ (getElem_mem hlt))
    simp only [Option.bind_some, hget, loadRef, argFrame, getElem?_map, Option.map_some]
    exact harg.symm

end InlinedCall

inductive Value where
  | int (i : Int)
  | bool (b : Bool)
  deriving DecidableEq, Repr

instance : Inhabited Value := ⟨.int 0⟩

/-- The operators that `atLeastTwice` uses, on integers and booleans. -/
def intMachine : Machine Value String where
  binary
    | .slash, .int a, .int b =>
      if b = 0 then .error "Division by zero" else .ok (.int (Int.bmod (a.tdiv b) (2 ^ 64)))
    | .bangEq, a, b => .ok (.bool (a != b))
    | .gt, .int a, .int b => .ok (.bool (a > b))
    | _, _, _ => .error "Operands must be numbers"
  unary _ _ := .error "Operand must be a number"
  cast _ v := .ok v
  asBool
    | .bool b => .ok b
    | .int _ => .error "Condition must be bool"
  other _ := .error "Operand must be a number"

/-- `func atLeastTwice(a: int, b: int): bool { var q = a / b; return b != 0 && q > 1; }` -/
def atLeastTwice : FuncDecl Value where
  isAsync := false
  returnType := .bool
  params := ["a", "b"]
  body := [.varDecl "q" (some (.binary .slash (.identifier "a") (.identifier "b"))),
    .returnStmt (some (.binary .and (.binary .bangEq (.identifier "b") (.literal .int (.int 0)))
      (.binary .gt (.identifier "q") (.literal .int (.int 1)))))]
  nodup := by decide

/-- `atLeastTwice(x, y)` in a function with the locals `x` and `y`. -/
def shortCircuited : InlinedCall Value where
  names := [some "x", some "y"]
  f := atLeastTwice
  args := [.identifier "x", .identifier "y"]
  decls := [⟨"q", .binary .slash (.identifier "a") (.identifier "b")⟩]
  value := .binary .and
    (.binary .bangEq (.identifier "b") (.literal .int (.int 0)))
    (.binary .gt (.identifier "q") (.literal .int (.int 1)))
  code := ⟨[], .binary .and
    (.binary .bangEq (.identifier (.local 1)) (.literal .int (.int 0)))
    (.binary .gt (.binary .slash (.identifier (.local 0)) (.identifier (.local 1))) (.literal .int (.int 1)))⟩
  eligible := by rfl
  accepted := by rfl

theorem shortCircuited_uncaptured : shortCircuited.Uncaptured where
  caller := by decide
  arguments := by decide
  later := pairwise_singleton _ _

-- `return g` reads the caller's local of that name
example : compileInlineCall false [some "g"]
    ⟨false, .int, [], [.returnStmt (some (.identifier "g"))], by decide⟩ []
      = some (⟨[], .identifier (.local 0)⟩ : Code Value) := rfl

-- `var t = 5; return a + t` called as `f(t)` adds five to five
example : compileInlineCall false [some "t"]
    ⟨false, .int, ["a"], [.varDecl "t" (some (.literal .int (Value.int 5))),
      .returnStmt (some (.binary .plus (.identifier "a") (.identifier "t")))], by decide⟩
    [.identifier "t"] = some ⟨[], .binary .plus (.literal .int (Value.int 5)) (.literal .int (Value.int 5))⟩ := rfl

end Tablo.Inline
