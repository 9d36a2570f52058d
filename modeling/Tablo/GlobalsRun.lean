import Tablo.BigintInplace
import Tablo.GlobalsExec

/-! Runs of a machine from its start. The slots and the table are one store
from names to values as long as the debugger does not change a global. -/

namespace Tablo.Globals

open Bigint SingleStore List

variable {α : Type} {source : List Function} {store : Name → Option (Datum α)} {vm : VM α} {compute : Compute α}
  {i : Nat} {s : GlobalSlot α}

section Product

def Datum.number : Datum α → Int
  | .int n => n.toInt
  | .bigint b => b.value
  | _ => 0

variable {d : Datum α} {sign : Int} {m : Nat}

variable (hd : ∀ b, d = .bigint b → b.Normal) (h : smallMultiplier (some d) = some (sign, m))

include hd h

theorem smallMultiplier_spec :
    m < limbBase ∧ sign * m = d.number ∧ (sign = 0 ∨ sign = 1 ∨ sign = -1) := by
  cases d with
  | bigint b =>
    have hb := hd b rfl
    simp only [smallMultiplier] at h
    split_ifs at h with h0 h1
    · cases h
      refine ⟨by decide, ?_, .inl rfl⟩
      rcases h0 with h0 | h0 <;> simp [Datum.number, ObjBigInt.value, h0]
    · cases h
      obtain ⟨x, hx⟩ := length_eq_one_iff.mp h1
      refine ⟨hb.limbs_lt.getD_lt 0, by simp [Datum.number, ObjBigInt.value, hx], ?_⟩
      rcases hb.sign_eq with ⟨hs, -⟩ | ⟨hs, -⟩
      exacts [.inl hs, .inr hs]
  | int n =>
    simp only [smallMultiplier] at h
    split_ifs at h with hlt h0 hneg
    all_goals
      cases h
      refine ⟨hlt, ?_, by decide⟩
      rw [Datum.number]
      omega
  | nil | other x => exact absurd h (by simp [smallMultiplier])

theorem mulInplace_value {dst : ObjBigInt} (hdst : dst.Normal) :
    (mulInplace dst sign m).value = dst.value * d.number := by
  obtain ⟨hm, hnumber, hsign⟩ := smallMultiplier_spec hd h
  have hval := (objBigintMulSmallInplace_spec hdst hm).2
  unfold mulInplace
  rw [← hnumber]
  by_cases hzero : sign = 0 ∨ m = 0
  · rcases hzero with rfl | rfl <;> simp [ObjBigInt.value]
  · rw [if_neg hzero]
    rcases hsign with rfl | rfl | rfl
    · exact absurd (.inl rfl) hzero
    · simpa using hval
    · dsimp only
      split
      next =>
        have hneg : (⟨-(objBigintMulSmallInplace dst m).sign, (objBigintMulSmallInplace dst m).limbs⟩ :
            ObjBigInt).value = -(objBigintMulSmallInplace dst m).value := Int.neg_mul ..
        rw [hneg, hval]
        ring
      next hs =>
        have hs0 : (objBigintMulSmallInplace dst m).sign = 0 := by simpa using hs
        have hv0 : (objBigintMulSmallInplace dst m).value = 0 := by rw [ObjBigInt.value, hs0, Int.zero_mul]
        rw [hv0] at hval ⊢
        rw [← Int.mul_assoc, Int.mul_comm dst.value (-1), Int.mul_assoc, ← hval]
        simp

end Product

theorem mulInplace_value_negative : (mulInplace ⟨1, [5]⟩ (-1) 3).value = -15 :=
  mulInplace_value (d := (.int (-3) : Datum Unit)) (by simp) rfl ⟨by simp [IsLimbs, limbBase], by decide, by decide⟩

def hashValue (vm : VM α) (name : Name) : Option (Value α) :=
  (vm.globalsHash.getEntry name).map (entryValue vm)

structure Agree (vm : VM α) : Prop where
  slots : ∀ s ∈ vm.globals, hashValue vm s.name = some s.value
  entries : ∀ e ∈ vm.globalsHash.pool, ∃ s ∈ vm.globals, s.name = e.key

theorem Good.agree {transit : List (Value α)} (h : Good source store vm transit) : Agree vm := by
  constructor
  · intro s hs
    obtain ⟨i, hi⟩ := mem_iff_getElem?.mp hs
    rw [hashValue, h.getEntry_iff.mpr (slotNames_getElem? hi), Option.map_some, h.entryValue hi]
  · intro e he
    have hmem : e.key ∈ slotNames vm := h.keys ▸ mem_map_of_mem he
    exact mem_map.mp hmem

def SameProgram (functions : List Function) (vm : VM α) : Prop :=
  ∀ (f : Nat) (func : Function), vm.functions[f]? = some func →
    ∃ func₀, functions[f]? = some func₀ ∧ FunctionOk (slotNames vm) func₀ func

/-- In every state of a run the representations agree, and every read returns
the last write to its name, or nil if there is none. -/
structure OneStore (compute : Compute α) (functions : List Function) (maxStackSize : Nat)
    (events : List (Event α)) : Prop where
  agree : ∀ before rest, events = before ++ rest →
    Agree (run compute (start functions maxStackSize) before).1
  program : ∀ before rest, events = before ++ rest →
    SameProgram functions (run compute (start functions maxStackSize) before).1
  served : Served (fun _ => some .nil) (run compute (start functions maxStackSize) events).2

def DebuggerRewrites (compute : Compute α) (vm : VM α) (events : List (Event α)) : Prop :=
  ∀ before i rest, events = before ++ .debugSet i :: rest → ∀ s v, (run compute vm before).1.globals[i]? = some s →
      (run compute vm before).1.stack.head? = some v → v = s.value

theorem valueFree_valueRetain (heap : List BigintObject) (v : Value α) : valueFree (valueRetain heap v) v = heap := by
  cases v with
  | bigint a =>
    refine ext_getElem? fun b => ?_
    rw [valueFree, valueRetain, getElem?_modify, getElem?_modify]
    cases heap[b]? with
    | none => rfl
    | some o => by_cases hab : a = b <;> simp [hab]
  | nil | int n | other x => rfl

theorem vmDebugSetGlobal_self (hs : vm.globals[i]? = some s) : vmDebugSetGlobal vm i s s.value = vm := by
  have hglobals : vm.globals.modify i (fun t => { t with value := s.value }) = vm.globals := by
    refine ext_getElem? fun j => ?_
    rw [getElem?_modify]
    by_cases hij : i = j
    · subst hij
      rw [hs]
      simp
    · cases vm.globals[j]? <;> simp [hij]
  rw [vmDebugSetGlobal, valueFree_valueRetain, writeSlot, hglobals]

theorem Good.debugSet (h : Good source store vm [])
    (hsame : ∀ s v, vm.globals[i]? = some s → vm.stack.head? = some v → v = s.value) :
    Kept source store (step compute vm (.debugSet i)) := by
  rw [Globals.step]
  split
  next s v hs hv =>
    obtain rfl := hsame s v hs hv
    have hstored := h.stored s (mem_of_getElem? hs)
    dsimp only
    rw [vmDebugSetGlobal_self hs, ← hstored]
    refine Good.kept_write ?_ none
    rwa [Function.update_eq_self]
  next => exact h.kept none

theorem Good.step (h : Good source store vm []) (e : Event α)
    (hquiet : ∀ i, e = .debugSet i → ∀ s v, vm.globals[i]? = some s → vm.stack.head? = some v →
      v = s.value) : Kept source store (step compute vm e) := by
  cases e with
  | push d => exact (h.allocate d).push.kept _
  | drop => exact h.pop.free.kept _
  | hold =>
    rw [Globals.step]
    split
    next => exact h.kept _
    next v stack hs =>
      have hv : Alive vm v := fun a ha => h.alive (by simp [roots, hs]) ha
      refine Good.kept ((h.retain hv).reroot (fun a => ?_) fun _ _ => rfl) _
      refine Nat.le_trans (Nat.le_of_eq ?_) ((h.retain hv).counted a)
      simp only [roots_countP, countP_cons, countP_nil]
      omega
  | fetch i =>
    rw [Globals.step]
    split
    next => exact h.kept _
    next v hv =>
      have hmem := mem_of_getElem? hv
      exact (h.pushRetained fun a ha => h.alive (by simp [roots, hmem]) ha).kept _
  | release i =>
    rw [Globals.step]
    split
    next => exact h.kept _
    next v hv =>
      obtain ⟨hlt, rfl⟩ := List.getElem?_eq_some_iff.mp hv
      have hgood : Good source store { vm with held := vm.held.eraseIdx i } [vm.held[i]] := by
        refine h.reroot (fun a => Nat.le_trans (Nat.le_of_eq ?_) (h.counted a)) fun _ _ => rfl
        have hperm := (getElem_cons_eraseIdx_perm hlt).countP_eq (points a)
        rw [countP_cons] at hperm
        simp only [roots_countP, countP_cons, countP_nil]
        omega
      exact hgood.free.kept _
  | setGlobal name => exact (h.pop.vmSetGlobal name).kept_write _
  | getGlobal name => exact h.kept_readName name
  | debugGet i =>
    rw [Globals.step]
    split
    next => exact h.kept _
    next s hs => exact h.kept_read (mem_of_getElem? hs) none
  | debugSet i => exact h.debugSet (hquiet i rfl)
  | exec f pc => exact h.exec f pc

theorem Good.run {events : List (Event α)} (h : Good source store vm [])
    (hquiet : DebuggerRewrites compute vm events) : Served store (run compute vm events).2 ∧
      Good source (after store (Globals.run compute vm events).2) (Globals.run compute vm events).1 [] := by
  induction events generalizing vm store with
  | nil => exact ⟨served_nil store, h⟩
  | cons e events ih =>
    obtain ⟨hserved, hgood⟩ : Kept source store (Globals.step compute vm e) := by
      refine h.step e fun i hi => ?_
      subst hi
      exact hquiet [] i events rfl
    obtain ⟨hserved', hgood'⟩ := ih hgood fun before i rest heq =>
      hquiet (e :: before) i rest (by rw [heq, cons_append])
    refine ⟨served_append.mpr ⟨hserved, hserved'⟩, ?_⟩
    rw [Globals.run, after_append]
    exact hgood'

theorem good_start (functions : List Function) (maxStackSize : Nat) :
    Good functions (fun _ => some .nil) (start functions maxStackSize : VM α) [] := by
  refine ⟨fun i => rfl, fun i s hs => absurd hs (by simp [start]), fun a => Nat.zero_le _,
    fun s hs => absurd hs not_mem_nil, fun _ _ => rfl, fun f func hf => ?_⟩
  have hf : (functions.map fun func => { func with globalSlotCache := [] })[f]? = some func := hf
  rw [getElem?_map] at hf
  obtain ⟨func₀, h₀, rfl⟩ := Option.map_eq_some_iff.mp hf
  exact ⟨func₀, h₀, rfl, fun _ _ hs => absurd hs (by simp), fun pc i hi => ⟨i, hi, .same i⟩⟩

theorem DebuggerRewrites.left {events before rest : List (Event α)}
    (h : DebuggerRewrites compute vm events) (heq : events = before ++ rest) :
    DebuggerRewrites compute vm before := by
  intro before' i rest' heq'
  exact h before' i (rest' ++ rest) (by rw [heq, heq', append_assoc, cons_append])

theorem run_concat (vm : VM α) (events : List (Event α)) (e : Event α) :
    (run compute vm (events ++ [e])).1 = (step compute (run compute vm events).1 e).vm := by
  induction events generalizing vm with
  | nil => rfl
  | cons a events ih => exact ih _

theorem Agree.eq_of_debugSet {v : Value α} (h : Agree vm)
    (h' : Agree (vmDebugSetGlobal vm i s v)) (hs : vm.globals[i]? = some s) : v = s.value := by
  have hget : (vmDebugSetGlobal vm i s v).globals[i]? = some { s with value := v } := by
    change (vm.globals.modify i fun s => { s with value := v })[i]? = _
    rw [getElem?_modify_eq, hs]
    rfl
  have hnew : hashValue vm s.name = some v := h'.slots _ (mem_of_getElem? hget)
  rw [h.slots s (mem_of_getElem? hs), Option.some_inj] at hnew
  exact hnew.symm

/-- Reads and writes by every route act on one store, in every run, exactly if
the debugger sets no global to a value that it does not have already: the
debugger writes the slot and not the entry. -/
theorem globals_oneStore_iff (compute : Compute α) (functions : List Function) (maxStackSize : Nat)
    (events : List (Event α)) : OneStore compute functions maxStackSize events ↔
      DebuggerRewrites compute (start functions maxStackSize) events := by
  constructor
  · intro h before i rest heq s v hs hv
    have hagree := h.agree before _ heq
    have hagree' := h.agree (before ++ [.debugSet i]) rest (by rw [heq, append_assoc]; rfl)
    rw [run_concat] at hagree'
    refine hagree.eq_of_debugSet (i := i) ?_ hs
    simpa [step, hs, hv] using hagree'
  · intro hquiet
    have hgood := good_start (α := α) functions maxStackSize
    refine ⟨fun before rest heq => ?_, fun before rest heq => ?_, (hgood.run hquiet).1⟩
    · exact (hgood.run (hquiet.left heq)).2.agree
    · exact (hgood.run (hquiet.left heq)).2.functions

def splitEvents : List (Event Empty) := [.push (.int 1), .setGlobal [120], .push (.int 2), .debugSet 0]

theorem debugger_splits_global : ¬ OneStore (fun _ _ _ => .error "Operands must be numbers") [] 8 splitEvents := by
  intro h
  have hagree := h.agree splitEvents [] rfl
  have hslot := hagree.slots ⟨[120], .int 2, some 0⟩ (by decide +kernel)
  exact absurd hslot (by decide +kernel)

end Tablo.Globals
