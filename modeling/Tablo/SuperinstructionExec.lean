import Tablo.SuperinstructionGroups

/-! Running the instructions of a group one after another, against the one instruction that
replaces them. -/

namespace Tablo.Super

variable {O D R W X : Type} (M : Machine O D R W X) (P : Pool D R) {i : Instr O} {is : List (Instr O)} {pc : Nat}

def execList : List (Instr O) → Nat → Data D R W → State D R W ⊕ Result D R W X
  | [], pc, d => .inl ⟨pc, d⟩
  | i :: is, pc, d =>
    match stepInstr M P i pc d with
    | .inl s =>
      if s.pc = pc + peepholeInstructionLen M.toLayout i then execList is s.pc s.data else .inl s
    | .inr r => .inr r

variable {M P}

def Instr.isStraight : Instr O → Bool
  | .jumpIfFalse _ | .jumpIfFalsePop _ | .other _ => false
  | _ => true

theorem stepInstr_straight (h : i.isStraight = true) (pc : Nat) (d : Data D R W) : stepInstr M P i pc d
      = andNext d (pc + peepholeInstructionLen M.toLayout i) (straight M P i d) := by
  cases i with
  | jumpIfFalse | jumpIfFalsePop | other => cases h
  | _ => rfl

theorem execList_ok (h : i.isStraight = true) {d d' : Data D R W} (hd : straight M P i d = .ok d') :
    execList M P (i :: is) pc d = execList M P is (pc + peepholeInstructionLen M.toLayout i) d' := by
  rw [execList, stepInstr_straight h, hd]
  simp [andNext]

theorem execList_error (h : i.isStraight = true) {d : Data D R W} {e : String} (hd : straight M P i d = .error e) :
    execList M P (i :: is) pc d = raise d e := by
  rw [execList, stepInstr_straight h, hd]
  rfl

theorem execList_single (i : Instr O) (pc : Nat) (d : Data D R W) : execList M P [i] pc d = stepInstr M P i pc d := by
  rw [execList]
  cases stepInstr M P i pc d with
  | inl s => simp [execList]
  | inr r => rfl

theorem applyNum_comm {op : NumOp} (h : op.commutes = true) (a b : Value D R) :
    applyNum M op a b = applyNum M op b a := by
  cases op <;> cases h <;> cases a <;> cases b <;>
    simp [applyNum, applyInt, applyDouble, Int64.add_comm, Int64.mul_comm, Int64.and_comm,
      Int64.or_comm, Int64.xor_comm, M.addDouble_comm, M.mulDouble_comm]

variable {d : Data D R W} {c : Nat} {op : NumOp} {v : Value D R} {kind : ElemKind} {array : Nat} {e : String}
  {a acc b dst index : Nat}

theorem exec_jump {off : Int} (h : off ≠ 0) :
    execList M P [.jumpIfFalse off, .pop] pc d = stepInstr M P (.jumpIfFalsePop off) pc d := by
  have hpc : ((pc + 3 : Nat) + off).toNat ≠ pc + 3 := by omega
  obtain ⟨stack, locals, globals, world⟩ := d
  cases stack with
  | nil => rfl
  | cons v rest =>
    cases v with
    | bool b =>
      cases b with
      | true => exact (if_pos rfl).trans (execList_single _ _ _)
      | false => exact if_neg hpc
    | _ => rfl

theorem exec_global (op : ArithOp) (dst a b : Nat) :
    execList M P [.loadGlobal a, .loadGlobal b, .arith op, .storeGlobal dst] pc d
      = stepInstr M P (.globalToGlobal op dst a b) pc d := by
  rw [execList_ok rfl rfl, execList_ok rfl rfl, execList, stepInstr_straight rfl, stepInstr_straight rfl]
  simp only [straight, onStack, Data.push]
  cases M.arith op (d.globals (P.names a)) (d.globals (P.names b)) with
  | error e => rfl
  | ok v => exact (if_pos rfl).trans (execList_single _ _ _)

theorem exec_locals (op : NumOp) (a b : Nat) : execList M P [.loadLocal a, .loadLocal b, .num op] pc d
      = stepInstr M P (.locals op a b) pc d := by
  rw [execList_ok rfl rfl, execList_ok rfl rfl, execList_single, stepInstr_straight rfl]
  cases applyNum M op (d.locals a) (d.locals b) <;> rfl

theorem exec_mul (kind : ElemKind) (dst a b : Nat) :
    execList M P [.loadLocal a, .loadLocal b, .num (mulOp kind), .storeLocal dst] pc d
      = stepInstr M P (.mulToLocal kind dst a b) pc d := by
  rw [execList_ok rfl rfl, execList_ok rfl rfl, execList, stepInstr_straight rfl, stepInstr_straight rfl]
  simp only [straight, onStack, Data.push]
  cases applyNum M (mulOp kind) (d.locals a) (d.locals b) with
  | error e => rfl
  | ok v => exact (if_pos rfl).trans (execList_single _ _ _)

theorem exec_stackLocal (op : NumOp) (slot : Nat) :
    execList M P [.loadLocal slot, .num op] pc d = stepInstr M P (.stackLocal op slot) pc d := by
  rw [execList_ok rfl rfl, execList_single, stepInstr_straight rfl]
  obtain ⟨stack, locals, globals, world⟩ := d
  cases stack with
  | nil => rfl
  | cons v rest =>
    cases applyNum M op v (locals slot) <;> rfl

theorem exec_sqrt (slot : Nat) :
    execList M P [.loadLocal slot, .sqrt] pc d = stepInstr M P (.sqrtLocal slot) pc d := by
  rw [execList_ok rfl rfl, execList_single]
  rfl

theorem exec_arrayLen (slot : Nat) :
    execList M P [.loadLocal slot, .arrayLen] pc d = stepInstr M P (.arrayLenLocal slot) pc d := by
  rw [execList_ok rfl rfl, execList_single]
  rfl

def InPool (P : Pool D R) (c : Nat) : Prop := c ≠ 255 ∧ c < P.values.length

theorem InPool.values (h : InPool P c) : ∃ v, constValue P c = .ok v ∧ poolValue P c = .ok v := by
  obtain ⟨v, hv⟩ : ∃ v, P.values[c]? = some v := ⟨_, List.getElem?_eq_getElem h.2⟩
  exact ⟨v, by simp [constValue, h.1, hv], by simp [poolValue, hv]⟩

theorem straight_localConst (h : poolValue P c = .ok v) :
    straight M P (.localConst op a c : Instr O) d = (applyNum M op (d.locals a) v).map d.push := by
  rw [straight, h]
  rfl

theorem exec_localConst (hc : InPool P c) : execList M P [.loadLocal a, .const c, .num op] pc d
      = stepInstr M P (.localConst op a c) pc d := by
  obtain ⟨v, hv, hp⟩ := hc.values
  have hpush : straight M P (.const c : Instr O) (d.push (d.locals a))
      = .ok ((d.push (d.locals a)).push v) := by simp [straight, hv]
  rw [execList_ok rfl rfl, execList_ok rfl hpush, execList_single, stepInstr_straight rfl,
    stepInstr_straight rfl, straight_localConst hp]
  simp only [straight, onStack, Data.push]
  cases applyNum M op (d.locals a) v <;> rfl

theorem exec_constLocal (hc : InPool P c) (hop : op.commutes = true) :
    execList M P [.const c, .loadLocal b, .num op] pc d = stepInstr M P (.localConst op b c) pc d := by
  obtain ⟨v, hv, hp⟩ := hc.values
  have hpush : straight M P (.const c : Instr O) d = .ok (d.push v) := by simp [straight, hv]
  rw [execList_ok rfl hpush, execList_ok rfl rfl, execList_single, stepInstr_straight rfl,
    stepInstr_straight rfl, straight_localConst hp, applyNum_comm hop]
  simp only [straight, onStack, Data.push]
  cases applyNum M op v (d.locals b) <;> rfl

theorem exec_stackConst (hc : InPool P c) :
    execList M P [.const c, .num op] pc d = stepInstr M P (.stackConst op c) pc d := by
  obtain ⟨v, hv, hp⟩ := hc.values
  have hpush : straight M P (.const c : Instr O) d = .ok (d.push v) := by simp [straight, hv]
  rw [execList_ok rfl hpush, execList_single, stepInstr_straight rfl, stepInstr_straight rfl]
  obtain ⟨stack, locals, globals, world⟩ := d
  cases stack with
  | nil => rfl
  | cons a rest =>
    have hfused : straight M P (.stackConst op c : Instr O) ⟨a :: rest, locals, globals, world⟩
        = (applyNum M op a v).map fun x => ⟨x :: rest, locals, globals, world⟩ := by
      rw [straight, hp]
      rfl
    rw [hfused]
    simp only [straight, onStack, Data.push]
    cases applyNum M op a v <;> rfl

theorem exec_add2 {c1 c2 : Nat} (h1 : c1 < P.values.length) (h2 : c2 < P.values.length) :
    execList M P [.addLocalConst a c1, .addLocalConst b c2] pc d
      = stepInstr M P (.add2LocalConst a c1 b c2) pc d := by
  obtain ⟨v1, hv1⟩ : ∃ v, P.values[c1]? = some v := ⟨_, List.getElem?_eq_getElem h1⟩
  obtain ⟨v2, hv2⟩ : ∃ v, P.values[c2]? = some v := ⟨_, List.getElem?_eq_getElem h2⟩
  have hp1 : poolValue P c1 = .ok v1 := by simp [poolValue, hv1]
  have hp2 : poolValue P c2 = .ok v2 := by simp [poolValue, hv2]
  rw [stepInstr_straight rfl]
  cases hadd : addConst M (d.locals a) v1 with
  | error e =>
    have hstep : straight M P (.addLocalConst a c1 : Instr O) d = .error e := by
      simp only [straight, hp1, hadd, bind, Except.bind]
    rw [execList_error rfl hstep]
    simp only [straight, hp1, hp2, hadd, bind, Except.bind]
    rfl
  | ok x =>
    have hstep : straight M P (.addLocalConst a c1 : Instr O) d = .ok (d.setLocal a x) := by
      simp only [straight, hp1, hadd, bind, Except.bind, pure, Except.pure]
    have hfused : straight M P (.add2LocalConst a c1 b c2 : Instr O) d
        = straight M P (.addLocalConst b c2 : Instr O) (d.setLocal a x) := by
      simp only [straight, hp1, hadd, bind, Except.bind]
    rw [execList_ok rfl hstep, execList_single, stepInstr_straight rfl, hfused]
    cases straight M P (.addLocalConst b c2 : Instr O) (d.setLocal a x) <;> rfl

/-- The index is not an integer and the array not an array: the two forms of the access check
them in the other order. -/
def GetMismatch (d : Data D R W) (array slot : Nat) : Prop :=
  (∀ i, d.locals slot ≠ .int i) ∧ ∀ r, d.locals array ≠ .array r

theorem asIndex_error (h : ∀ i, v ≠ .int i) : asIndex v = .error "Array index must be integer" := by
  cases v with
  | int i => exact absurd rfl (h i)
  | _ => rfl

theorem asArray_error (h : ∀ r, v ≠ .array r) : asArray v = .error "Cannot index non-array" := by
  cases v with
  | array r => exact absurd rfl (h r)
  | _ => rfl

theorem exec_get {index : Index} (h : ∀ slot, index = .local slot → ¬GetMismatch d array slot) :
    execList M P [.arrayGet kind array index, .storeLocal dst] pc d
      = stepInstr M P (.arrayGetToLocal kind array index dst) pc d := by
  rw [stepInstr_straight rfl]
  have hget := fun {i r v} (hi : indexValue d index = .ok i) (hr : asArray (d.locals array) = .ok r)
      (hv : arrayElement M d.world r i kind = .ok v) =>
    show straight M P (.arrayGet kind array index : Instr O) d = .ok (d.push v) by
      simp only [straight, hi, hr, hv, bind, Except.bind, pure, Except.pure]
  cases hi : indexValue d index with
  | error e =>
    cases hr : asArray (d.locals array) with
    | ok r =>
      rw [execList_error rfl (by simp only [straight, hi, bind]; rfl)]
      simp only [straight, hi, hr, bind]
      rfl
    | error e' =>
      cases index with
      | const i => cases hi
      | «local» slot =>
        refine absurd ⟨fun i heq => ?_, fun r heq => ?_⟩ (h slot rfl)
        · simp [indexValue, asIndex, heq] at hi
        · simp [asArray, heq] at hr
  | ok i =>
    cases hr : asArray (d.locals array) with
    | error e =>
      rw [execList_error rfl (by simp only [straight, hi, hr, bind]; rfl)]
      simp only [straight, hr, bind]
      rfl
    | ok r =>
      cases hv : arrayElement M d.world r i kind with
      | error e =>
        rw [execList_error rfl (by simp only [straight, hi, hr, hv, bind, Except.bind]; rfl)]
        simp only [straight, hi, hr, hv, bind, Except.bind]
        rfl
      | ok v =>
        rw [execList_ok rfl (hget hi hr hv), execList_single]
        simp only [straight, hi, hr, hv, bind, Except.bind]
        rfl

theorem exec_get_mismatch {slot : Nat} (h : GetMismatch d array slot) :
    execList M P [.arrayGet kind array (.local slot), .storeLocal dst] pc d = raise d "Array index must be integer" ∧
      stepInstr M P (.arrayGetToLocal kind array (.local slot) dst) pc d = raise d "Cannot index non-array" := by
  constructor
  · refine execList_error rfl ?_
    simp only [straight, indexValue, asIndex_error h.1, bind, Except.bind]
  · rw [stepInstr_straight rfl]
    simp only [straight, asArray_error h.2, bind]
    rfl

/-- The kernel fails, and a check of the multiply-add would fail with another message: the fused
instruction makes those checks first. -/
def EvalAMismatch (M : Machine O D R W X) (d : Data D R W) (acc array index a b : Nat) : Prop :=
  match evalAOperands d a b with
  | .error _ => ∃ e, maddOperands d acc array index = .error e
  | .ok (i, j) => evalADenom i j = 0 ∧
    match maddOperands d acc array index with
    | .error _ => True
    | .ok (_, r, k) => ∃ e, doubleAt M d.world r k = .error e

theorem evalAOperands_error (h : evalAOperands d a b = .error e) : e = "Operands must be integer" := by
  unfold evalAOperands at h
  split at h <;> cases h
  rfl

theorem evalAFactor_error {i j : Int64} (h : evalAFactor M i j = .error e) :
    evalADenom i j = 0 ∧ e = "Division by zero" := by
  unfold evalAFactor at h
  split at h
  · cases h
    exact ⟨by assumption, rfl⟩
  · cases h

theorem maddOperands_error (h : maddOperands d acc array index = .error e) :
    e = "Accumulator must be double" ∨ e = "Array index must be integer" ∨ e = "Cannot index non-array" := by
  unfold maddOperands at h
  cases hy : d.locals acc with
  | double y =>
    cases hi : d.locals index with
    | int i =>
      cases hr : d.locals array with
      | array r => simp [hy, hi, hr, asIndex] at h; cases h
      | _ => simp [hy, hi, hr, asIndex] at h; cases h; simp
    | _ => simp [hy, hi, asDouble] at h; cases h; simp
  | _ => simp [hy] at h; cases h; simp

theorem doubleAt_error {w : W} {r : R} {i : Int64} (h : doubleAt M w r i = .error e) :
    e = "Array index out of bounds" ∨ e = "Array element must be double" := by
  unfold doubleAt elementAt at h
  split at h
  · cases h
    exact .inl rfl
  · cases hx : M.doubleElement w r i with
    | none => rw [hx] at h; cases h; exact .inr rfl
    | some x => rw [hx] at h; cases h

theorem exec_evalA (h : ¬EvalAMismatch M d acc array index a b) :
    execList M P [.evalARecip a b, .madd acc array index] pc d
      = stepInstr M P (.evalAMadd acc array index a b) pc d := by
  rw [stepInstr_straight rfl]
  unfold EvalAMismatch at h
  cases hp : evalAOperands d a b with
  | error e =>
    rw [hp] at h
    rw [execList_error rfl (by simp only [straight, hp, bind]; rfl)]
    cases hm : maddOperands d acc array index with
    | error e' => exact absurd ⟨e', hm⟩ h
    | ok q =>
      simp only [straight, hp, hm, bind]
      rfl
  | ok ij =>
    rw [hp] at h
    cases hf : evalAFactor M ij.1 ij.2 with
    | error e =>
      rw [execList_error rfl (by simp only [straight, hp, hf, bind, Except.bind]; rfl)]
      cases hm : maddOperands d acc array index with
      | error e' => exact absurd ⟨(evalAFactor_error hf).1, by rw [hm]; trivial⟩ h
      | ok q =>
        cases hz : doubleAt M d.world q.2.1 q.2.2 with
        | error e' => exact absurd ⟨(evalAFactor_error hf).1, by rw [hm]; exact ⟨e', hz⟩⟩ h
        | ok z =>
          simp only [straight, hp, hm, hz, hf, bind, Except.bind]
          rfl
    | ok x =>
      have hrecip : straight M P (.evalARecip a b : Instr O) d = .ok (d.push (.double x)) := by
        simp only [straight, hp, hf, bind, Except.bind, pure, Except.pure]
      have hmadd : straight M P (.madd acc array index : Instr O) (d.push (.double x))
          = (maddOperands d acc array index).bind fun q => maddTo M d acc q.1 q.2.1 q.2.2 x := rfl
      rw [execList_ok rfl hrecip, execList_single, stepInstr_straight rfl, hmadd]
      cases hm : maddOperands d acc array index with
      | error e =>
        simp only [straight, hm, bind]
        rfl
      | ok q =>
        cases hz : doubleAt M d.world q.2.1 q.2.2 with
        | error e =>
          simp only [straight, maddTo, hp, hm, hz, bind, Except.bind]
          rfl
        | ok z =>
          simp only [straight, hp, hm, hz, hf, bind, Except.bind]
          rfl

theorem exec_evalA_mismatch (h : EvalAMismatch M d acc array index a b) :
    ∃ e e', execList M P [.evalARecip a b, .madd acc array index] pc d = raise d e ∧
      stepInstr M P (.evalAMadd acc array index a b) pc d = raise d e' ∧ e ≠ e' := by
  rw [stepInstr_straight rfl]
  unfold EvalAMismatch at h
  cases hp : evalAOperands d a b with
  | error e =>
    rw [hp] at h
    obtain ⟨e', hm⟩ := h
    refine ⟨e, e', execList_error rfl (by simp only [straight, hp, bind, Except.bind]), ?_, ?_⟩
    · simp only [straight, hm, bind]
      rfl
    · rw [evalAOperands_error hp]
      rcases maddOperands_error hm with rfl | rfl | rfl <;> decide
  | ok ij =>
    rw [hp] at h
    have hf : evalAFactor M ij.1 ij.2 = .error "Division by zero" := if_pos h.1
    refine ⟨"Division by zero", ?_⟩
    have hseq : execList M P [.evalARecip a b, .madd acc array index] pc d = raise d "Division by zero" :=
      execList_error rfl (by simp only [straight, hp, hf, bind, Except.bind])
    cases hm : maddOperands d acc array index with
    | error e =>
      refine ⟨e, hseq, ?_, ?_⟩
      · simp only [straight, hm, bind]
        rfl
      · rcases maddOperands_error hm with rfl | rfl | rfl <;> decide
    | ok q =>
      rw [hm] at h
      obtain ⟨e, hz⟩ := h.2
      refine ⟨e, hseq, ?_, ?_⟩
      · simp only [straight, hp, hm, hz, bind, Except.bind]
        rfl
      · rcases doubleAt_error hz with rfl | rfl <;> decide

end Tablo.Super
