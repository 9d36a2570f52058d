import Tablo.GlobalsRules

/-! Setting and getting by name, resolving a name to a slot, and rewriting
code keep the invariant. -/

namespace Tablo.Globals

open Bigint SingleStore List Option

variable {α : Type} {source : List Function} {store : Name → Option (Datum α)} {vm : VM α}
  {transit : List (Value α)}

section ByName

variable {s : GlobalSlot α} {name : Name} {i : Nat} {v : Value α}

section

variable (h : Good source store vm transit)

include h

theorem Good.global_alive (hs : s ∈ vm.globals) :
    Alive vm s.value := fun _ ha => h.alive (mem_roots_of_global vm hs transit) ha

theorem Good.getEntry_none (hnone : vm.globalsHash.getEntry name = none) : name ∉ slotNames vm := by
  intro hmem
  obtain ⟨i, hi⟩ := mem_iff_getElem?.mp hmem
  rw [h.getEntry_iff.mpr hi] at hnone
  exact absurd hnone (by simp)

theorem Good.slot_of_entry
    (hi : vm.globalsHash.getEntry name = some i) : ∃ s, vm.globals[i]? = some s ∧ s.name = name := by
  have hname := h.getEntry_iff.mp hi
  rw [slotNames, getElem?_map] at hname
  exact map_eq_some_iff.mp hname

theorem Good.hashedSlot (hs : vm.globals[i]? = some s) : hashedSlot vm (some i) s.name = some i := by
  have hp : vm.globalsHash.pool[i]? = some (mirror i s) := by
    rw [h.mirrored, hs]
    rfl
  simp [Globals.hashedSlot, hp, mirror, hs]

end

theorem findGlobalSlot_none (hname : name ∉ slotNames vm) : vmFindGlobalSlot vm name = none := by
  rw [vmFindGlobalSlot, findIdx?_eq_none_iff]
  intro s hs
  have hne : s.name ≠ name := by
    rintro rfl
    exact hname (mem_map_of_mem hs)
  simpa using hne

theorem Good.vmGetGlobal (h : Good source store vm transit) (name : Name) :
    readValue vm.heap (vmGetGlobal vm name) = store name ∧ Alive vm (Globals.vmGetGlobal vm name) := by
  cases hi : vm.globalsHash.getEntry name with
  | none =>
    have hnil : Globals.vmGetGlobal vm name = .nil := by simp only [Globals.vmGetGlobal, hi]
    rw [hnil, h.unset name (h.getEntry_none hi)]
    exact ⟨rfl, fun a ha => absurd ha (by simp [points])⟩
  | some i =>
    obtain ⟨s, hs, rfl⟩ := h.slot_of_entry hi
    have hmem := mem_of_getElem? hs
    have hval : Globals.vmGetGlobal vm s.name = s.value := by
      simp only [Globals.vmGetGlobal, hi, h.entryValue hs]
    rw [hval, h.stored s hmem]
    exact ⟨rfl, h.global_alive hmem⟩

theorem linkSlot_of_linked (hl : ∀ s, vm.globals[i]? = some s → s.entry = some i) : linkSlot vm i (some i) = vm := by
  have heq : vm.globals.modify i (fun s => { s with entry := some i }) = vm.globals := by
    refine ext_getElem? fun j => ?_
    rw [getElem?_modify]
    cases hj : vm.globals[j]? with
    | none => rfl
    | some s =>
      by_cases hij : i = j
      · subst hij
        simp [← hl s hj]
      · simp [hij]
  rw [linkSlot, heq]

theorem Good.link_assigned (h : Good source store vm transit)
    (hs : vm.globals[i]? = some s) : linkSlot (assigned vm i v) i (some i) = assigned vm i v := by
  refine linkSlot_of_linked fun t ht => ?_
  rw [assigned_slot_self hs, some_inj] at ht
  rw [← ht]
  exact h.linked i s hs

theorem Good.length_pool (h : Good source store vm transit) : vm.globalsHash.pool.length = vm.globals.length := by
  simpa [slotNames] using congrArg List.length h.keys

theorem Good.append (h : Good source store vm (v :: transit))
    (hname : name ∉ slotNames vm) {table : HashTable (Value α)}
    (htable : table.pool = vm.globalsHash.pool ++ [mirror vm.globals.length ⟨name, v, some vm.globals.length⟩]) :
    Good source (Function.update store name (readValue vm.heap v))
      { vm with globals := vm.globals ++ [⟨name, v, some vm.globals.length⟩], globalsHash := table }
      transit := by
  have hlen := h.length_pool
  have hnames : slotNames { vm with
      globals := vm.globals ++ [⟨name, v, some vm.globals.length⟩], globalsHash := table } =
      slotNames vm ++ [name] := map_append
  refine ⟨fun i => ?_, fun i s hs => ?_, fun a => ?_, fun s hs => ?_, fun n hn => ?_, fun f func hf => ?_⟩
  · rw [htable]
    rcases Nat.lt_trichotomy i vm.globals.length with hlt | rfl | hgt
    · rw [getElem?_append_left (by omega), getElem?_append_left hlt, h.mirrored]
    · rw [getElem?_append_right (by omega), hlen]
      simp
    · rw [getElem?_eq_none (by simp; omega), getElem?_eq_none (by simp; omega)]
      rfl
  · rcases Nat.lt_or_ge i vm.globals.length with hlt | hge
    · rw [getElem?_append_left hlt] at hs
      exact h.linked i s hs
    · have hi : i = vm.globals.length := by
        obtain ⟨hlt, -⟩ := List.getElem?_eq_some_iff.mp hs
        simp at hlt
        omega
      subst hi
      simp at hs
      rw [← hs]
  · have hc := h.counted a
    rw [roots_countP, countP_cons] at hc
    rw [roots_countP]
    simp only [map_append, countP_append, map_cons, map_nil, countP_cons, countP_nil]
    omega
  · rcases mem_append.mp hs with hold | hnew
    · have hne : s.name ≠ name := by
        rintro rfl
        exact hname (mem_map_of_mem hold)
      rw [Function.update_of_ne hne]
      exact h.stored s hold
    · rw [mem_singleton.mp hnew]
      exact Function.update_self ..
  · rw [hnames, mem_append, mem_singleton, not_or] at hn
    rw [Function.update_of_ne hn.2]
    exact h.unset n hn.1
  · obtain ⟨func₀, h₀, hok⟩ := h.functions f func hf
    rw [hnames]
    exact ⟨func₀, h₀, hok.append name⟩

theorem modify_concat {β : Type} (l : List β) (x : β) (f : β → β) : (l ++ [x]).modify l.length f = l ++ [f x] := by
  simp [modify_eq_take_drop]

theorem Good.vmSetGlobal_new (h : Good source store vm (v :: transit)) (hname : name ∉ slotNames vm) :
    ∃ table, vmSetGlobal vm name v = { vm with
        globals := vm.globals ++ [⟨name, v, some vm.globals.length⟩], globalsHash := table } ∧
      table.pool = vm.globalsHash.pool ++ [mirror vm.globals.length ⟨name, v, some vm.globals.length⟩] := by
  have hnone : vm.globalsHash.getEntry name = none := by
    rw [eq_none_iff_forall_not_mem]
    exact fun i hi => hname (mem_of_getElem? (h.getEntry_iff.mp hi))
  have hlen := h.length_pool
  obtain ⟨-, hpool⟩ := vm.globalsHash.set_spec name v
  rw [hnone] at hpool
  have hentry : (vm.globalsHash.set name v).getEntry name = some vm.globals.length := by
    rw [HashTable.getEntry_eq_some, hpool, ← hlen]
    simp
  refine ⟨(vm.globalsHash.set name v).setGlobalSlot vm.globals.length vm.globals.length, ?_, ?_⟩
  · simp only [vmSetGlobal, hnone, findGlobalSlot_none hname, insertEntry, hentry, linkSlot]
    rw [modify_concat]
  · rw [HashTable.pool_setGlobalSlot, hpool, ← hlen, modify_concat]
    rfl

theorem Good.vmSetGlobal (h : Good source store vm (v :: transit)) (name : Name) :
    Good source (Function.update store name (readValue (vmSetGlobal vm name v).heap v))
      (Globals.vmSetGlobal vm name v) transit := by
  cases hi : vm.globalsHash.getEntry name with
  | none =>
    obtain ⟨table, heq, hpool⟩ := h.vmSetGlobal_new (h.getEntry_none hi)
    rw [heq]
    exact h.append (h.getEntry_none hi) hpool
  | some i =>
    obtain ⟨s, hs, rfl⟩ := h.slot_of_entry hi
    have heq : Globals.vmSetGlobal vm s.name v = assigned vm i v := by
      rw [← h.link_assigned hs]
      simp only [Globals.vmSetGlobal, hi, h.hashedSlot hs]
      rfl
    rw [heq]
    exact h.assign hs

end ByName

def ByName : Instr → Prop
  | .loadGlobal _ | .storeGlobal _ | .arith _ _ _ _ | .callGlobal _ _ | .jumpIfLocalGlobal _ _ _ => True
  | _ => False

theorem Quickened.eq_of_byName {names : List Name} {constants : List Constant} {i₀ i : Instr}
    (h : Quickened names constants i₀ i) (hi : ByName i) : i₀ = i := by
  cases h with
  | same => rfl
  | load | store | arith | call | jump => exact hi.elim

def instrAt (vm : VM α) (f pc : Nat) : Option Instr := vm.functions[f]?.bind fun func => func.code[pc]?

def Resolves (vm : VM α) (f nameIdx slot : Nat) : Prop :=
  ∃ name, constantAt vm f nameIdx = some ⟨2, some name⟩ ∧ (slotNames vm)[slot]? = some name

theorem Resolves.names {f nameIdx slot : Nat} (h : Resolves vm f nameIdx slot) {func : Function}
    (hf : vm.functions[f]? = some func) : Names (slotNames vm) func.constants nameIdx slot := by
  obtain ⟨name, hc, hs⟩ := h
  rw [constantAt, hf] at hc
  exact ⟨name, hc, hs⟩

theorem Resolves.slot {f nameIdx slot : Nat} (h : Resolves vm f nameIdx slot) :
    ∃ s, vm.globals[slot]? = some s ∧ constantAt vm f nameIdx = some ⟨2, some s.name⟩ := by
  obtain ⟨name, hc, hs⟩ := h
  rw [slotNames, getElem?_map] at hs
  obtain ⟨s, hslot, rfl⟩ := map_eq_some_iff.mp hs
  exact ⟨s, hslot, hc⟩

structure SameButCaches (vm vm' : VM α) : Prop where
  globals : vm'.globals = vm.globals
  heap : vm'.heap = vm.heap
  code : ∀ f pc, instrAt vm' f pc = instrAt vm f pc
  constants : ∀ f nameIdx, constantAt vm' f nameIdx = constantAt vm f nameIdx

theorem SameButCaches.refl (vm : VM α) : SameButCaches vm vm :=
  ⟨rfl, rfl, fun _ _ => rfl, fun _ _ => rfl⟩

theorem SameButCaches.trans {vm₁ vm₂ vm₃ : VM α} (h : SameButCaches vm₁ vm₂) (h' : SameButCaches vm₂ vm₃) :
    SameButCaches vm₁ vm₃ :=
  ⟨h'.globals.trans h.globals, h'.heap.trans h.heap, fun f pc => (h'.code f pc).trans (h.code f pc),
    fun f nameIdx => (h'.constants f nameIdx).trans (h.constants f nameIdx)⟩

theorem SameButCaches.resolves {vm' : VM α} (h : SameButCaches vm vm') {f nameIdx slot : Nat} :
    Resolves vm' f nameIdx slot ↔ Resolves vm f nameIdx slot := by
  unfold Resolves slotNames
  rw [h.constants, h.globals]

theorem cacheOf_cached {names : List Name} {func₀ func : Function} (h : FunctionOk names func₀ func)
    {nameIdx slot : Nat} (hs : (cacheOf func)[nameIdx]? = some (some slot)) :
    Names names func.constants nameIdx slot := by
  unfold cacheOf at hs
  split at hs
  · exact h.cached nameIdx slot hs
  · rw [getElem?_replicate] at hs
    split at hs <;> simp at hs

section

variable (h : Good source store vm transit)

include h

theorem Good.updateFunction (f : Nat) {change : Function → Function}
    (hchange : ∀ func₀ func, vm.functions[f]? = some func → FunctionOk (slotNames vm) func₀ func →
      FunctionOk (slotNames vm) func₀ (change func)) : Good source store (updateFunction vm f change) transit := by
  refine ⟨h.mirrored, h.linked, h.counted, h.stored, h.unset, fun g func hg => ?_⟩
  rw [Globals.updateFunction, getElem?_modify] at hg
  obtain ⟨func', hf', rfl⟩ := map_eq_some_iff.mp hg
  obtain ⟨func₀, h₀, hok⟩ := h.functions g func' hf'
  refine ⟨func₀, h₀, ?_⟩
  by_cases hfg : f = g
  · subst hfg
    simp only [if_true]
    exact hchange func₀ func' hf' hok
  · simp only [if_neg hfg]
    exact hok

theorem Good.setCode {f pc : Nat} {i i' : Instr} (hi : instrAt vm f pc = some i) (hname : ByName i)
    (hq : ∀ func, vm.functions[f]? = some func → Quickened (slotNames vm) func.constants i i') :
    Good source store (setCode vm f pc i') transit := by
  refine h.updateFunction f fun func₀ func hf hok => ⟨hok.constants, hok.cached, fun pc' j hj => ?_⟩
  rw [instrAt, hf] at hi
  have hi : func.code[pc]? = some i := hi
  by_cases hpc : pc = pc'
  · subst hpc
    obtain ⟨hlt, -⟩ := List.getElem?_eq_some_iff.mp hi
    rw [getElem?_set_self hlt, some_inj] at hj
    subst hj
    obtain ⟨i₀, h₀, hq₀⟩ := hok.code pc i hi
    rw [hq₀.eq_of_byName hname] at h₀
    exact ⟨i, h₀, hq func hf⟩
  · rw [getElem?_set_ne hpc] at hj
    exact hok.code pc' j hj

theorem Good.lookupSlot (name : Name) : (lookupSlot vm name).1 = vm ∧
      ∀ slot, (Globals.lookupSlot vm name).2 = some slot → (slotNames vm)[slot]? = some name := by
  cases hi : vm.globalsHash.getEntry name with
  | none =>
    have heq : Globals.lookupSlot vm name = (vm, none) := by
      simp only [Globals.lookupSlot, hi, findGlobalSlot_none (h.getEntry_none hi)]
      rfl
    rw [heq]
    exact ⟨rfl, by simp⟩
  | some i =>
    obtain ⟨s, hs, rfl⟩ := h.slot_of_entry hi
    have heq : Globals.lookupSlot vm s.name = (vm, some i) := by
      simp only [Globals.lookupSlot, hi, h.hashedSlot hs]
    rw [heq]
    refine ⟨rfl, fun slot hslot => ?_⟩
    rw [← some_inj.mp hslot]
    exact slotNames_getElem? hs

theorem Good.cacheSlot {f nameIdx slot : Nat}
    (hs : Resolves vm f nameIdx slot) : Good source store (cacheSlot vm f nameIdx slot) transit := by
  refine h.updateFunction f fun func₀ func hf hok => ⟨hok.constants, fun j t ht => ?_, hok.code⟩
  rw [getElem?_set] at ht
  split at ht
  next hj =>
    subst hj
    split at ht
    · rw [some_inj, some_inj] at ht
      subst ht
      have hnames := hs.names hf
      exact hnames
    · exact absurd ht (by simp)
  next => exact hok.cached j t ht

end

theorem sameButCaches_updateFunction (vm : VM α) (f : Nat) (cache : Function → List (Option Nat)) :
    SameButCaches vm (updateFunction vm f fun func => { func with globalSlotCache := cache func }) := by
  refine ⟨rfl, rfl, fun g pc => ?_, fun g nameIdx => ?_⟩
  · rw [instrAt, instrAt, updateFunction, getElem?_modify]
    cases vm.functions[g]? with
    | none => rfl
    | some func => by_cases hfg : f = g <;> simp [hfg]
  · rw [constantAt, constantAt, updateFunction, getElem?_modify]
    cases vm.functions[g]? with
    | none => rfl
    | some func => by_cases hfg : f = g <;> simp [hfg]

/-- What resolving a name does: it may fill a cache, and a slot it returns has
the name. -/
theorem Good.resolve (h : Good source store vm transit) (f nameIdx : Nat) :
    Good source store (vmResolveGlobalSlotCached vm f nameIdx).1 transit ∧
      SameButCaches vm (vmResolveGlobalSlotCached vm f nameIdx).1 ∧
      ∀ slot, (vmResolveGlobalSlotCached vm f nameIdx).2 = some slot → Resolves vm f nameIdx slot := by
  unfold vmResolveGlobalSlotCached
  split
  next => exact ⟨h, .refl vm, by simp⟩
  next func hf =>
    split
    next => exact ⟨h, .refl vm, by simp⟩
    next hlt =>
      have hgood : Good source store
          (Globals.updateFunction vm f fun func => { func with globalSlotCache := cacheOf func }) transit :=
        h.updateFunction f fun func₀ func _ hok =>
          ⟨hok.constants, fun _ _ hs => cacheOf_cached hok hs, hok.code⟩
      have hsame := sameButCaches_updateFunction vm f cacheOf
      dsimp only
      split
      next slot hcached =>
        refine ⟨hgood, hsame, fun slot' hslot => ?_⟩
        rw [← some_inj.mp hslot]
        obtain ⟨func₀, -, hok⟩ := h.functions f func hf
        obtain ⟨hget, -⟩ := filter_eq_some_iff.mp hcached
        have hentry : (cacheOf func)[nameIdx]? = some (some slot) := by
          rw [getD_eq_getElem?_getD] at hget
          cases hc : (cacheOf func)[nameIdx]? with
          | none =>
            rw [hc] at hget
            exact absurd hget (by simp)
          | some x =>
            rw [hc] at hget
            exact congrArg some hget
        obtain ⟨name, hc, hn⟩ := cacheOf_cached hok hentry
        exact ⟨name, by rw [constantAt, hf]; exact hc, hn⟩
      next =>
        split
        next name hconst =>
          obtain ⟨hsame', hslot⟩ := hgood.lookupSlot name
          have hconst' : constantAt vm f nameIdx = some ⟨2, some name⟩ := by
            rw [constantAt, hf]
            exact hconst
          split
          next vm' heq =>
            rw [heq] at hsame'
            subst hsame'
            exact ⟨hgood, hsame, by simp⟩
          next vm' slot heq =>
            rw [heq] at hsame' hslot
            subst hsame'
            have hres : Resolves vm f nameIdx slot := ⟨name, hconst', hslot slot rfl⟩
            refine ⟨hgood.cacheSlot (hsame.resolves.mpr hres),
              hsame.trans (sameButCaches_updateFunction _ f _), fun slot' hs => ?_⟩
            rw [← some_inj.mp hs]
            exact hres
        next => exact ⟨hgood, hsame, by simp⟩

end Tablo.Globals
