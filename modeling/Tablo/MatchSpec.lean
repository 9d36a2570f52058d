import Tablo.Match
import Mathlib.Tactic

/-! What a match should do, and when the tests it is compiled to do that. -/

namespace Tablo.Match

variable {W E S R : Type} (P : Program W E S R) (w : W)

def element (elements : List Value) (i : Nat) : Value := elements.getD i .nil

def field (type : RecordType) (fieldNames : List String) (r : RecordObj) (i : Nat) : Value :=
  match (fieldNames[i]?).bind (resolveRecordFieldIndexFromType type) with
  | none => .nil
  | some index => r.fields.getD index .nil

def comparesEqual (e : E) (v : Value) (env : Env) : Bool :=
  match P.patternValue e env w with
  | .ok u => valueEquals v u
  | .error _ => false

mutual

def Pattern.match? : Pattern E → Bool → Value → Env → Option Env
  | .identifier name e, allowBinding, v, env =>
    if allowBinding && compilerMatchBindingNameLooksDestructure name then
      some (if name == "_" then env else env ++ [(name, v)])
    else if comparesEqual P w e v env then some env else none
  | .value e, _, v, env => if comparesEqual P w e v env then some env else none
  | .tuple ps, _, v, env =>
    match v with
    | .tuple _ elements =>
      if elements.length = ps.length then matchAll? (element elements) 0 ps env else none
    | _ => none
  | .record type fieldNames ps, _, v, env =>
    match v with
    | .record ref =>
      if (P.record w ref).typeName = type.name then
        matchAll? (field type fieldNames (P.record w ref)) 0 ps env
      else none
    | _ => none
  | .member m ps, _, v, env =>
    match v with
    | .tuple _ elements =>
      if elements.length = ps.length + 1 ∧ valueEquals (element elements 0) (.int m.tag) = true then
        matchAll? (fun i => element elements (i + 1)) 0 ps env
      else none
    | _ => none

def matchAll? (get : Nat → Value) : Nat → List (Pattern E) → Env → Option Env
  | _, [], env => some env
  | i, p :: ps, env =>
    match p.match? true (get i) env with
    | none => none
    | some env => matchAll? get (i + 1) ps env

end

/-- An arm that is to run, or the else branch, or an error of a guard. -/
inductive Choice (W E S R : Type) where
  | arm (arm : Option Nat) (b : Body E S) (env : Env) (events : List Event) (w : W)
  | nothing (events : List Event) (w : W)
  | raised (error : RunError R) (events : List Event)

def firstArm (v : Value) (elseBody : Option (Body E S)) :
    Nat → List (Arm E S) → List Event → W → Choice W E S R
  | _, [], events, w =>
    match elseBody with
    | none => .nothing events w
    | some b => .arm none b [] events w
  | i, a :: arms, events, w =>
    match a.pattern.match? P w false v [] with
    | none => firstArm v elseBody (i + 1) arms events w
    | some env =>
      match a.guard with
      | none => .arm (some i) a.body env events w
      | some g =>
        match P.exprValue g env w with
        | .error r => .raised (.raised r) (events ++ [.guard i env])
        | .ok (.bool true, w) => .arm (some i) a.body env (events ++ [.guard i env]) w
        | .ok (.bool false, w) => firstArm v elseBody (i + 1) arms (events ++ [.guard i env]) w
        | .ok _ => .raised .conditionNotBool (events ++ [.guard i env])

/-- The chosen arm runs on the stack as it was, and the value of a match
expression is left on it; `unmatched` is the stack left when nothing runs. -/
def Choice.result (stack unmatched : List Value) : Choice W E S R → Result W R
  | .nothing events w => .finished unmatched events w
  | .raised error events => .raised error events
  | .arm i (.statement s) env events w =>
    match P.execStmt s env w with
    | .falls w => .finished stack (events ++ [.body i env]) w
    | .leaves w => .left stack (events ++ [.body i env]) w
    | .raises r => .raised (.raised r) (events ++ [.body i env])
  | .arm i (.value e) env events w =>
    match P.exprValue e env w with
    | .ok (v, w) => .finished (v :: stack) (events ++ [.body i env]) w
    | .error r => .raised (.raised r) (events ++ [.body i env])

/-- The outcome of the tests of a pattern, made in order. A failure says how
many bytes of the code of the pattern end with the jump of the failed test. -/
inductive Trial where
  | matched (env : Env)
  | failed (bytes : Nat)
  | stuck

def Trial.after (bytes : Nat) : Trial → Trial
  | .failed n => .failed (bytes + n)
  | t => t

def compareBytes (e : E) : Nat := 2 + P.exprSize e + 1 + 3

def constBytes (index : Nat) : Nat := if index ≤ 0xfe then 2 else 3

def typeTestBytes (m : Member) : Nat := 2 + 1 + constBytes m.typeConstant + 1 + 3

def tagTestBytes (m : Member) : Nat := 2 + 2 + constBytes m.tagConstant + 1 + 3

mutual

def Pattern.bytes : Pattern E → Bool → Nat
  | .identifier name e, allowBinding =>
    if allowBinding && compilerMatchBindingNameLooksDestructure name then
      if name == "_" then 0 else 4
    else compareBytes P e + 1
  | .value e, _ => compareBytes P e + 1
  | .tuple ps, _ => bytesAll ps
  | .record _ _ ps, _ => bytesAll ps
  | .member m ps, _ => typeTestBytes m + 1 + (tagTestBytes m + 1) + bytesAll ps

def bytesAll : List (Pattern E) → Nat
  | [] => 0
  | p :: ps => 6 + p.bytes true + bytesAll ps

end

mutual

def Pattern.tests : Pattern E → Bool → Bool
  | .identifier name _, allowBinding => !(allowBinding && compilerMatchBindingNameLooksDestructure name)
  | .value _, _ => true
  | .tuple ps, _ => testsAny ps
  | .record _ _ ps, _ => testsAny ps
  | .member _ _, _ => true

def testsAny : List (Pattern E) → Bool
  | [] => false
  | p :: ps => p.tests true || testsAny ps

end

def compareTrial (e : E) (v : Value) (env : Env) : Trial :=
  match P.patternValue e env w with
  | .error _ => .stuck
  | .ok u => if valueEquals v u then .matched env else .failed (compareBytes P e)

mutual

/-- A component of a tuple or record pattern is fetched without looking at
the kind of the value first. -/
def Pattern.trial : Pattern E → Bool → Value → Env → Trial
  | .identifier name e, allowBinding, v, env =>
    if allowBinding && compilerMatchBindingNameLooksDestructure name then
      .matched (if name == "_" then env else env ++ [(name, v)])
    else compareTrial P w e v env
  | .value e, _, v, env => compareTrial P w e v env
  | .tuple ps, _, v, env =>
    match v with
    | .tuple _ elements => trialAll (element elements) 0 ps env
    | _ => if ps.isEmpty then .matched env else .stuck
  | .record type fieldNames ps, _, v, env =>
    match v with
    | .record ref => trialAll (field type fieldNames (P.record w ref)) 0 ps env
    | _ => if ps.isEmpty then .matched env else .stuck
  | .member m ps, _, v, env =>
    if valueEquals (.string (typeName P w v)) (.string "tuple") then
      match v with
      | .tuple _ elements =>
        if valueEquals (element elements 0) (.int m.tag) then
          (trialAll (fun i => element elements (i + 1)) 0 ps env).after (typeTestBytes m + 1 + (tagTestBytes m + 1))
        else .failed (typeTestBytes m + 1 + tagTestBytes m)
      | _ => .stuck
    else .failed (typeTestBytes m)

def trialAll (get : Nat → Value) : Nat → List (Pattern E) → Env → Trial
  | _, [], env => .matched env
  | i, p :: ps, env =>
    match p.trial true (get i) env with
    | .matched env => (trialAll get (i + 1) ps env).after (6 + p.bytes P true)
    | .failed n => .failed (6 + n)
    | .stuck => .stuck

end

mutual

/-- Tuple, record and constructor patterns meet values of their own kind,
length and type. -/
def Pattern.shaped : Pattern E → Value → Bool
  | .identifier _ _, _ | .value _, _ => true
  | .tuple ps, v =>
    match v with
    | .tuple _ elements => decide (elements.length = ps.length) && shapedAll (element elements) 0 ps
    | _ => false
  | .record type fieldNames ps, v =>
    match v with
    | .record ref => decide ((P.record w ref).typeName = type.name) &&
        shapedAll (field type fieldNames (P.record w ref)) 0 ps
    | _ => false
  | .member _ ps, v =>
    match v with
    | .tuple _ elements => decide (elements.length = ps.length + 1) &&
        shapedAll (fun i => element elements (i + 1)) 0 ps
    | _ => false

def shapedAll (get : Nat → Value) : Nat → List (Pattern E) → Bool
  | _, [] => true
  | i, p :: ps => p.shaped (get i) && shapedAll get (i + 1) ps

end

def Body.bytes : Body E S → Nat
  | .statement s => P.stmtSize s
  | .value e => P.exprSize e + 2

def Arm.tailBytes (a : Arm E S) : Nat :=
  a.body.bytes P + if armTerminates P a.body then 0 else 3

def guardBytes : Option E → Nat
  | none => 0
  | some g => P.exprSize g + 4

def Arm.popBytes (a : Arm E S) : Nat := if a.pattern.tests false || a.guard.isSome then 1 else 0

def armsBytes : List (Arm E S) → Nat
  | [] => 0
  | a :: arms =>
    a.pattern.bytes P false + guardBytes P a.guard + a.tailBytes P + a.popBytes + armsBytes arms

def elseBytes : Option (Body E S) → Nat
  | none => 0
  | some b => b.bytes P

def Body.falls (b : Body E S) (env : Env) (w : W) : Bool :=
  match b with
  | .statement s =>
    match P.execStmt s env w with
    | .falls _ => true
    | _ => false
  | .value e =>
    match P.exprValue e env w with
    | .ok _ => true
    | .error _ => false

/-- Along the arms tried, no tuple or record pattern meets another kind of
value, none passes on a value of another length or type, and the jumps taken
are no longer than an operand can say. -/
def Clean (v : Value) (elseBody : Option (Body E S)) : List (Arm E S) → W → Prop
  | [], _ => True
  | a :: arms, w =>
    let endReached (env : Env) (w : W) : Prop :=
      a.body.falls P env w = true → a.popBytes + armsBytes P arms + elseBytes P elseBody ≤ 32767
    match a.pattern.trial P w false v [] with
    | .stuck => False
    | .failed n =>
      a.pattern.bytes P false - n + guardBytes P a.guard + a.tailBytes P ≤ 32767 ∧ Clean v elseBody arms w
    | .matched env =>
      a.pattern.shaped P w v = true ∧
      match a.guard with
      | none => endReached env w
      | some g =>
        match P.exprValue g env w with
        | .ok (.bool true, w) => endReached env w
        | .ok (.bool false, w) => 1 + a.tailBytes P ≤ 32767 ∧ Clean v elseBody arms w
        | _ => True

/-! The tests of a pattern against its meaning. -/

variable {P w}

theorem tuple_named_tuple (ref : Nat) (elements : List Value) :
    valueEquals (.string (typeName P w (.tuple ref elements))) (.string "tuple") = true := by
  simp [typeName, valueEquals, valueEqualsInternal]

def Trial.Tells (shaped : Bool) (found : Option Env) : Trial → Prop
  | .matched env => found = if shaped then some env else none
  | .failed _ => found = none
  | .stuck => True

section Tells

variable {t : Trial} {shaped : Bool} {found : Option Env}

@[simp] theorem Trial.tells_after {n : Nat} : (t.after n).Tells shaped found ↔ t.Tells shaped found := by
  cases t <;> rfl

theorem Trial.tells_none (t : Trial) : t.Tells false none := by
  cases t <;> trivial

theorem Trial.Tells.guard (h : t.Tells shaped found) (c : Prop) [Decidable c] :
    t.Tells (decide c && shaped) (if c then found else none) := by
  by_cases hc : c
  · simpa [hc] using h
  · simpa [hc] using t.tells_none

end Tells

variable (P w)

theorem compareTrial_tells (e : E) (v : Value) (env : Env) :
    (compareTrial P w e v env).Tells true (if comparesEqual P w e v env then some env else none) := by
  unfold compareTrial comparesEqual
  cases P.patternValue e env w with
  | error r => trivial
  | ok u => by_cases heq : valueEquals v u = true <;> simp [heq, Trial.Tells]

mutual

theorem Pattern.trial_tells (p : Pattern E) (allow : Bool) (v : Value) (env : Env) :
    (p.trial P w allow v env).Tells (p.shaped P w v) (p.match? P w allow v env) := by
  cases p with
  | identifier name e =>
    simp only [Pattern.trial, Pattern.match?, Pattern.shaped]
    by_cases hb : (allow && compilerMatchBindingNameLooksDestructure name) = true
    · rw [if_pos hb, if_pos hb]
      rfl
    · rw [if_neg hb, if_neg hb]
      exact compareTrial_tells P w e v env
  | value e => exact compareTrial_tells P w e v env
  | tuple ps =>
    cases v with
    | tuple ref elements => exact (trialAll_tells ps (element elements) 0 env).guard _
    | _ => exact Trial.tells_none _
  | record type fieldNames ps =>
    cases v with
    | record ref => exact (trialAll_tells ps (field type fieldNames (P.record w ref)) 0 env).guard _
    | _ => exact Trial.tells_none _
  | member m ps =>
    cases v with
    | tuple ref elements =>
      simp only [Pattern.trial, Pattern.match?, Pattern.shaped, tuple_named_tuple, if_true]
      by_cases htag : valueEquals (element elements 0) (.int m.tag) = true
      · simp only [htag, if_true, and_true, Trial.tells_after]
        exact (trialAll_tells ps (fun i => element elements (i + 1)) 0 env).guard _
      · simp [htag, Trial.Tells]
    | _ => exact Trial.tells_none _

theorem trialAll_tells (ps : List (Pattern E)) (get : Nat → Value) (i : Nat) (env : Env) :
    (trialAll P w get i ps env).Tells (shapedAll P w get i ps) (matchAll? P w get i ps env) := by
  cases ps with
  | nil => rfl
  | cons p ps =>
    have hhead := p.trial_tells true (get i) env
    simp only [trialAll, shapedAll, matchAll?]
    cases ht : p.trial P w true (get i) env with
    | matched env₁ =>
      rw [ht, Trial.Tells] at hhead
      have htail := trialAll_tells ps get (i + 1) env₁
      cases hs : p.shaped P w (get i) <;> simp_all [Trial.tells_none]
    | failed n =>
      rw [ht, Trial.Tells] at hhead
      simp [hhead, Trial.Tells]
    | stuck => trivial

end

end Tablo.Match
