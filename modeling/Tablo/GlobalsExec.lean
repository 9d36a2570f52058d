import Tablo.Fallible
import Tablo.GlobalsOps

/-! Every instruction keeps the invariant. Its reads return what the abstract
store has, and its writes go there. -/

namespace Tablo.Globals

open Bigint SingleStore List Option

variable {α : Type} {source : List Function} {store : Name → Option (Datum α)} {vm : VM α} {transit : List (Value α)}

def Kept (source : List Function) (store : Name → Option (Datum α)) (e : Effect α) : Prop :=
  Served store e.history ∧ Good source (after store e.history) e.vm []

variable {name : Name} {s : GlobalSlot α} {v : Value α} {f nameIdx : Nat} {slot : Option Nat} {compute : Compute α}

theorem served_read {d : Option (Datum α)} (h : d = store name) :
    Served store [Access.read name d] := served_cons.mpr ⟨h, served_nil _⟩

section

variable (h : Good source store vm [])

include h

theorem Good.kept (error : Option String) : Kept source store ⟨vm, [], error⟩ :=
  ⟨served_nil store, h⟩

theorem Good.kept_read (hs : s ∈ vm.globals) (error : Option String) :
    Kept source store ⟨vm, [.read s.name (readValue vm.heap s.value)], error⟩ :=
  ⟨served_read (h.stored s hs).symm, h⟩

theorem Good.kept_readName (name : Name) :
    Kept source store ⟨vm, [.read name (readValue vm.heap (Globals.vmGetGlobal vm name))], none⟩ :=
  ⟨served_read (h.vmGetGlobal name).1, h⟩

end

theorem Good.kept_write {vm' : VM α} {d : Option (Datum α)}
    (h : Good source (Function.update store name d) vm' []) (error : Option String) :
    Kept source store ⟨vm', [.write name d], error⟩ := ⟨served_cons.mpr ⟨trivial, served_nil _⟩, h⟩

theorem Good.pushRead (h : Good source store vm []) (hread : readValue vm.heap v = store name) (hv : Alive vm v) :
    Kept source store (pushRead vm name v) := ⟨served_read hread, h.pushRetained hv⟩

theorem slotAt_eq_some (h : slotAt vm slot = some s) : ∃ i, slot = some i ∧ vm.globals[i]? = some s := by
  cases slot with
  | none => exact absurd h (by simp [slotAt])
  | some i => exact ⟨i, rfl, h⟩

theorem Good.readResolved (h : Good source store vm transit) (hr : readResolved vm f nameIdx slot = .ok (name, v)) :
    readValue vm.heap v = store name ∧ Alive vm v := by
  unfold Globals.readResolved at hr
  split at hr
  next s hs =>
    obtain ⟨i, -, hget⟩ := slotAt_eq_some hs
    have hmem := mem_of_getElem? hget
    rw [Except.ok.injEq, Prod.mk.injEq] at hr
    obtain ⟨rfl, rfl⟩ := hr
    exact ⟨(h.stored s hmem).symm, h.global_alive hmem⟩
  next =>
    obtain ⟨name', -, hr⟩ := Fallible.ok_of_bind hr
    rw [Except.ok.injEq, Prod.mk.injEq] at hr
    obtain ⟨rfl, rfl⟩ := hr
    exact h.vmGetGlobal name'

theorem Good.quicken (h : Good source store vm transit) {f pc : Nat} {i : Instr}
    (instr : Nat → Instr) (hi : instrAt vm f pc = some i) (hname : ByName i)
    (hq : ∀ s func, slot = some s → vm.functions[f]? = some func →
      Quickened (slotNames vm) func.constants i (instr s)) :
    Good source store (quicken vm f pc instr slot) transit := by
  cases slot with
  | none => exact h
  | some s =>
    rw [Globals.quicken]
    split
    · exact h.setCode hi hname fun func hf => hq s func rfl hf
    · exact h

section

variable (h : Good source store vm [])

include h

theorem Good.loadByName {rewrite : VM α → Option Nat → VM α}
    (hrewrite : ∀ vm' slot, Good source store vm' [] → SameButCaches vm vm' →
      (∀ s, slot = some s → Resolves vm' f nameIdx s) → Good source store (rewrite vm' slot) []) :
    Kept source store (loadByName rewrite vm f nameIdx) := by
  obtain ⟨hgood, hsame, hres⟩ := h.resolve f nameIdx
  have hgood' := hrewrite _ _ hgood hsame fun s hs => hsame.resolves.mpr (hres s hs)
  unfold Globals.loadByName
  dsimp only
  split
  next => exact hgood'.kept _
  next name v hr =>
    obtain ⟨hread, hv⟩ := hgood'.readResolved hr
    exact hgood'.pushRead hread hv

theorem Good.loadGlobalSlot (slot : Nat) : Kept source store (loadGlobalSlot vm slot) := by
  unfold Globals.loadGlobalSlot
  split
  next => exact h.kept _
  next s hs =>
    have hmem := mem_of_getElem? hs
    exact h.pushRead (h.stored s hmem).symm (h.global_alive hmem)

theorem Good.callGlobal {f pc nameIdx argCount : Nat} (hi : instrAt vm f pc = some (.callGlobal nameIdx argCount)) :
    Kept source store (callGlobal vm f pc nameIdx argCount) := by
  obtain ⟨hgood, hsame, hres⟩ := h.resolve f nameIdx
  have hgood' := hgood.quicken (fun slot => .callGlobalSlot slot argCount) ((hsame.code f pc).trans hi) trivial
    fun s func hs hf => .call ((hsame.resolves.mpr (hres s hs)).names hf)
  unfold Globals.callGlobal
  split
  next => exact h.kept _
  next =>
    dsimp only
    split
    next => exact hgood'.kept _
    next name v hr => exact ⟨served_read (hgood'.readResolved hr).1, hgood'⟩

theorem Good.callGlobalSlot (slot argCount : Nat) : Kept source store (callGlobalSlot vm slot argCount) := by
  unfold Globals.callGlobalSlot
  split
  next => exact h.kept _
  next =>
    split
    next => exact h.kept _
    next s hs => exact h.kept_read (mem_of_getElem? hs) none

end

theorem Good.storeSlot (h : Good source store vm transit) {i : Nat}
    (hs : vm.globals[i]? = some s) : storeSlot vm i s v = assigned vm i v := by
  simp only [Globals.storeSlot, h.linked i s hs]
  rfl

theorem Good.storeResolved (h : Good source store vm transit) {i : Nat}
    (hs : vm.globals[i]? = some s) (name : Name) : storeResolved vm i s name v = assigned vm i v := by
  have hlink : linkSlot (writeSlot vm i v) i (some i) = writeSlot vm i v := by
    refine linkSlot_of_linked fun t ht => ?_
    have ht : (assigned vm i v).globals[i]? = some t := ht
    rw [assigned_slot_self hs, some_inj] at ht
    rw [← ht]
    exact h.linked i s hs
  rw [Globals.storeResolved, h.linked i s hs]
  change assignEntry (linkSlot (writeSlot vm i v) i (some i)) i v = _
  rw [hlink]
  rfl

theorem nameConstant_ok :
    vmGetGlobalNameConstant vm f nameIdx = .ok name ↔ constantAt vm f nameIdx = some ⟨2, some name⟩ := by
  unfold vmGetGlobalNameConstant
  split
  next h => simp [h]
  next name' h => simp [h]
  next c hne h =>
    rw [h, some_inj]
    exact iff_of_false (by simp) (hne name)

theorem Good.vmSetGlobalSlotValue (h : Good source store vm [v]) (slot : Nat) :
    Kept source store (vmSetGlobalSlotValue vm slot v) := by
  unfold Globals.vmSetGlobalSlotValue
  split
  next => exact h.free.kept _
  next s hs =>
    dsimp only
    rw [h.storeSlot hs]
    exact (h.assign hs).kept_write _

theorem Kept.after {e e' : Effect α} (h : Kept source store e)
    (h' : Kept source (SingleStore.after store e.history) e') (error : Option String) :
    Kept source store ⟨e'.vm, e.history ++ e'.history, error⟩ := by
  refine ⟨served_append.mpr ⟨h.1, h'.1⟩, ?_⟩
  rw [after_append]
  exact h'.2

theorem Good.kept_readBoth (h : Good source store vm []) {a b : Name × Value α}
    (ha : readValue vm.heap a.2 = store a.1) (hb : readValue vm.heap b.2 = store b.1) (error : Option String) :
    Kept source store ⟨vm, readBoth vm a b, error⟩ := ⟨served_cons.mpr ⟨ha, served_read hb⟩, h⟩

theorem byteSlots_eq_some {dst a b : Option Nat} {i j k : Nat} (h : byteSlots dst a b = some (i, j, k)) :
    dst = some i ∧ a = some j ∧ b = some k := by
  cases dst <;> cases a <;> cases b <;> simp_all [byteSlots]

theorem inplace_eq_some {op : BaseOp} {dst a obj m : Nat} {x y : GlobalSlot α} {big : ObjBigInt} {sign : Int}
    (h : inplace vm op dst a x y = some (obj, big, sign, m)) :
    dst = a ∧ x.value = .bigint obj ∧ ∃ o, vm.heap[obj]? = some o ∧ o.refCount = 1 := by
  unfold inplace at h
  split at h
  next obj' hx =>
    cases ho : vm.heap[obj']? with
    | none => simp [ho] at h
    | some o =>
      cases hm : smallMultiplier (readValue vm.heap y.value) with
      | none => simp [hm] at h
      | some r =>
        simp only [ho, hm, bind_eq_bind, bind_some, ite_none_right_eq_some, some.injEq] at h
        obtain ⟨⟨-, hda, hone⟩, rfl, -⟩ := h
        exact ⟨hda, hx, o, ho, hone⟩
  next => exact absurd h (by simp)

variable (h : Good source store vm [])

include h

theorem Good.jumpIfLocalGlobal {f pc a nameIdx : Nat} {eq : Bool}
    (hi : instrAt vm f pc = some (.jumpIfLocalGlobal eq a nameIdx)) :
    Kept source store (jumpIfLocalGlobal vm f pc eq a nameIdx) := by
  obtain ⟨hgood, hsame, hres⟩ := h.resolve f nameIdx
  unfold Globals.jumpIfLocalGlobal
  dsimp only
  split
  next _ _ s hs =>
    obtain ⟨i, -, hget⟩ := slotAt_eq_some hs
    refine ⟨served_read (hgood.stored s (mem_of_getElem? hget)).symm, ?_⟩
    exact hgood.quicken _ ((hsame.code f pc).trans hi) trivial
      fun s func hs hf => .jump ((hsame.resolves.mpr (hres s hs)).names hf)
  next => exact hgood.kept_readName _
  next => exact hgood.kept none

theorem Good.jumpIfLocalGlobalSlot (slot : Nat) : Kept source store (jumpIfLocalGlobalSlot vm slot) := by
  unfold Globals.jumpIfLocalGlobalSlot
  split
  next => exact h.kept _
  next s hs => exact h.kept_read (mem_of_getElem? hs) none

theorem Good.storeByName {rewrite : VM α → Option Nat → VM α}
    (hrewrite : ∀ {v} vm' slot, Good source store vm' [v] → (∀ pc, instrAt vm' f pc = instrAt vm f pc) →
      (∀ s, slot = some s → Resolves vm' f nameIdx s) →
      Good source store (rewrite vm' slot) [v] ∧ (rewrite vm' slot).globals = vm'.globals) :
    Kept source store (storeByName rewrite vm f nameIdx) := by
  have hpop := h.pop
  have hpopcode : ∀ pc, instrAt (Globals.pop vm).1 f pc = instrAt vm f pc := by
    intro pc
    unfold Globals.pop
    split <;> rfl
  unfold Globals.storeByName
  dsimp only
  split
  next => exact hpop.free.kept _
  next name hname =>
    obtain ⟨hgood, hsame, hres⟩ := hpop.resolve f nameIdx
    obtain ⟨hgood', hglobals⟩ := hrewrite _ _ hgood
      (fun pc => (hsame.code f pc).trans (hpopcode pc)) fun s hs => hsame.resolves.mpr (hres s hs)
    refine Good.kept_write ?_ _
    split
    next i s hslot hs =>
      obtain ⟨j, hj, hget⟩ := slotAt_eq_some hs
      rw [hslot, some_inj] at hj
      subst hj
      have hn : s.name = name := by
        obtain ⟨t, ht, hconst⟩ := (hres i hslot).slot
        rw [hglobals, hsame.globals, ht, some_inj] at hget
        rw [nameConstant_ok.mp hname, hget] at hconst
        simpa using hconst.symm
      rw [hgood'.storeResolved hget, ← hn]
      exact hgood'.assign hget
    next => exact hgood'.vmSetGlobal name

theorem Good.storeGlobalSlot (f pc slot : Nat) : Kept source store (storeGlobalSlot vm f pc slot) := by
  have hpop := h.pop
  unfold Globals.storeGlobalSlot
  dsimp only
  split
  next => exact hpop.free.kept _
  next s hs =>
    rw [hpop.storeSlot hs]
    have hgood := hpop.assign hs
    have hkept := hgood.kept_write none
    split
    next =>
      have hmem := mem_of_getElem? (assigned_slot_self hs (v := (Globals.pop vm).2.1))
      have hread := hgood.stored _ hmem
      exact hkept.after (hgood.pushRead hread.symm (hgood.global_alive hmem)) _
    next => exact hgood.kept_write _

theorem Good.arithInto (op : BaseOp) (dst : Nat) {a b : GlobalSlot α} (ha : a ∈ vm.globals) (hb : b ∈ vm.globals) :
    Kept source store (arithInto compute vm op dst a b) := by
  have hkept := h.kept_readBoth (a := (a.name, a.value)) (b := (b.name, b.value))
    (h.stored a ha).symm (h.stored b hb).symm
  unfold Globals.arithInto
  dsimp only
  split
  next => exact hkept _
  next d _ => exact (hkept none).after ((h.allocate d).vmSetGlobalSlotValue dst) _

theorem Good.arithByName (op : BaseOp) (dst a b : Option Constant) :
    Kept source store (arithByName compute vm op dst a b) := by
  unfold Globals.arithByName
  split
  next dst _ a _ b =>
    have hkept := h.kept_readBoth (a := (a, Globals.vmGetGlobal vm a))
      (b := (b, Globals.vmGetGlobal vm b)) (h.vmGetGlobal a).1 (h.vmGetGlobal b).1
    dsimp only
    split
    next => exact hkept _
    next d _ => exact (hkept none).after (((h.allocate d).vmSetGlobal dst).kept_write none) none
  next => exact h.kept _
  next => exact h.kept _

theorem Good.arith {f pc : Nat} {op : BaseOp} {dst a b : Nat} (hi : instrAt vm f pc = some (.arith op dst a b)) :
    Kept source store (arith compute vm f pc op dst a b) := by
  obtain ⟨hgood₁, hsame₁, hres₁⟩ := h.resolve f dst
  obtain ⟨hgood₂, hsame₂, hres₂⟩ := hgood₁.resolve f a
  obtain ⟨hgood₃, hsame₃, hres₃⟩ := hgood₂.resolve f b
  have hsame := hsame₁.trans (hsame₂.trans hsame₃)
  unfold Globals.arith
  dsimp only
  split
  next i j k d x y hslots hd hx hy =>
    obtain ⟨hdst, ha, hb⟩ := byteSlots_eq_some hslots
    obtain ⟨j', -, hx⟩ := slotAt_eq_some hx
    obtain ⟨k', -, hy⟩ := slotAt_eq_some hy
    have hcode := hgood₃.setCode ((hsame.code f pc).trans hi) trivial fun func hf =>
      .arith ((hsame.resolves.mpr (hres₁ i hdst)).names hf)
        (((hsame₂.trans hsame₃).resolves.mpr (hres₂ j ha)).names hf)
        ((hsame₃.resolves.mpr (hres₃ k hb)).names hf)
    exact hcode.arithInto op i (mem_of_getElem? hx) (mem_of_getElem? hy)
  next => exact hgood₃.arithByName op _ _ _

theorem Good.arithSlot (op : BaseOp) (dst a b : Nat) : Kept source store (arithSlot compute vm op dst a b) := by
  unfold Globals.arithSlot
  split
  next d x y hd hx hy =>
    have hxm := mem_of_getElem? hx
    have hym := mem_of_getElem? hy
    split
    next obj big sign m hin =>
      obtain ⟨rfl, hv, o, ho, hone⟩ := inplace_eq_some hin
      rw [hd, some_inj] at hx
      subst hx
      have hkept := h.kept_readBoth (a := (d.name, d.value)) (b := (y.name, y.value)) (h.stored d hxm).symm
        (h.stored y hym).symm none
      exact hkept.after ((h.inplace hd hv ho hone _).kept_write none) none
    next => exact h.arithInto op dst hxm hym
  next => exact h.kept _

theorem Good.exec (f pc : Nat) : Kept source store (exec compute vm f pc) := by
  unfold Globals.exec
  split
  next nameIdx hi =>
    exact h.loadByName fun vm' slot hgood hsame hres =>
      hgood.quicken _ ((hsame.code f pc).trans hi) trivial fun s func hs hf => .load ((hres s hs).names hf)
  next nameIdx hi => exact h.loadByName fun vm' slot hgood _ _ => hgood
  next slot hi => exact h.loadGlobalSlot slot
  next nameIdx hi =>
    refine h.storeByName fun vm' slot hgood hsame hres => ⟨?_, ?_⟩
    · exact hgood.quicken _ ((hsame pc).trans hi) trivial fun s func hs hf => .store ((hres s hs).names hf)
    · unfold Globals.quicken
      split
      · split <;> rfl
      · rfl
  next nameIdx hi => exact h.storeByName fun vm' slot hgood _ _ => ⟨hgood, rfl⟩
  next slot hi => exact h.storeGlobalSlot f pc slot
  next op dst a b hi => exact h.arith hi
  next op dst a b hi => exact h.arithSlot op dst a b
  next nameIdx argCount hi => exact h.callGlobal hi
  next slot argCount hi => exact h.callGlobalSlot slot argCount
  next eq a nameIdx hi => exact h.jumpIfLocalGlobal hi
  next slot hi => exact h.jumpIfLocalGlobalSlot slot
  next => exact h.kept _
  next => exact h.kept _

end Tablo.Globals
