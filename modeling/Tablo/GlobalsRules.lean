import Tablo.Globals

/-! The invariant of a machine whose two representations of globals agree,
and one rule for each thing an operation does to it. A value that is in no root
yet, or no longer, is in transit. -/

namespace Tablo.Globals

open Bigint SingleStore List

variable {α : Type}

def points (a : Nat) : Value α → Bool
  | .bigint b => a == b
  | _ => false

def refs (heap : List BigintObject) (a : Nat) : Nat := (heap[a]?.map BigintObject.refCount).getD 0

def bigAt (heap : List BigintObject) (a : Nat) : Option ObjBigInt := heap[a]?.map BigintObject.big

variable {a : Nat} {v : Value α} {heap : List BigintObject} {constants : List Constant}

theorem points_iff : points a v = true ↔ v = .bigint a := by
  cases v with
  | bigint b =>
    rw [points, beq_iff_eq, Value.bigint.injEq]
    exact eq_comm
  | nil | int n | other x => simp [points]

theorem lt_of_refs_pos (h : 0 < refs heap a) : a < heap.length := by
  by_contra hge
  rw [refs, getElem?_eq_none (by omega)] at h
  exact absurd h (by decide)

theorem refs_valueRetain (h : points a v = true → 0 < refs heap a) :
    refs (valueRetain heap v) a = refs heap a + if points a v then 1 else 0 := by
  cases v with
  | bigint b =>
    rw [refs, valueRetain]
    by_cases hba : b = a
    · subst hba
      have hlt := lt_of_refs_pos (h (by simp [points]))
      simp [points, refs, hlt]
    · have hab : ¬ a = b := fun h => hba h.symm
      simp [points, hba, hab, refs]
  | _ => rfl

theorem refs_valueFree (heap : List BigintObject) (a : Nat) (v : Value α) :
    refs (valueFree heap v) a = refs heap a - if points a v then 1 else 0 := by
  cases v with
  | bigint b =>
    rw [refs, valueFree]
    by_cases hba : b = a
    · subst hba
      cases h : heap[b]? <;> simp [points, refs, h]
    · have hab : ¬ a = b := fun h => hba h.symm
      simp [points, hba, hab, refs]
  | _ => rfl

theorem bigAt_modify (heap : List BigintObject) {f : BigintObject → BigintObject}
    (hf : ∀ o, (f o).big = o.big) (i a : Nat) : bigAt (heap.modify i f) a = bigAt heap a := by
  rw [bigAt, bigAt, ← getElem?_map, ← getElem?_map, map_modify hf]

theorem bigAt_valueRetain (heap : List BigintObject) (v : Value α) (a : Nat) :
    bigAt (valueRetain heap v) a = bigAt heap a := by
  cases v with
  | bigint b => exact bigAt_modify heap (fun _ => by rfl) b a
  | _ => rfl

theorem bigAt_valueFree (heap : List BigintObject) (v : Value α) (a : Nat) :
    bigAt (valueFree heap v) a = bigAt heap a := by
  cases v with
  | bigint b => exact bigAt_modify heap (fun _ => by rfl) b a
  | _ => rfl

theorem readValue_bigint (h : 0 < refs heap a) :
    readValue heap (.bigint a : Value α) = (bigAt heap a).map .bigint := by
  unfold refs at h
  cases ho : heap[a]? with
  | none =>
    rw [ho] at h
    exact absurd h (by decide)
  | some o =>
    rw [ho] at h
    have hne : o.refCount ≠ 0 := by simpa using Nat.pos_iff_ne_zero.mp h
    simp [readValue, bigAt, ho, hne]

theorem refs_allocate (heap : List BigintObject) (d : Datum α) (a : Nat) :
    refs (allocate heap d).1 a = refs heap a + if points a (allocate heap d).2 then 1 else 0 := by
  cases d with
  | bigint big =>
    simp only [allocate, refs, points, getElem?_append]
    rcases lt_trichotomy a heap.length with hlt | heq | hgt
    · simp [hlt, Nat.ne_of_lt hlt]
    · simp [heq]
    · have hone : 1 ≤ a - heap.length := by omega
      simp [lt_asymm hgt, Nat.ne_of_gt hgt, getElem?_eq_none, hone]
  | _ => rfl

theorem bigAt_allocate (d : Datum α) (ha : a < heap.length) : bigAt (allocate heap d).1 a = bigAt heap a := by
  cases d with
  | bigint big => rw [allocate, bigAt, bigAt, getElem?_append_left ha]
  | _ => rfl

theorem readValue_congr {heap' : List BigintObject}
    (h : ∀ a, points a v = true → 0 < refs heap a ∧ 0 < refs heap' a ∧ bigAt heap' a = bigAt heap a) :
    readValue heap' v = readValue heap v := by
  cases v with
  | bigint a =>
    obtain ⟨hr, hr', hb⟩ := h a (by simp [points])
    rw [readValue_bigint hr, readValue_bigint hr', hb]
  | _ => rfl

section Code

def Names (names : List Name) (constants : List Constant) (nameIdx slot : Nat) : Prop :=
  ∃ name, constants[nameIdx]? = some ⟨2, some name⟩ ∧ names[slot]? = some name

inductive Quickened (names : List Name) (constants : List Constant) : Instr → Instr → Prop
  | same (i : Instr) : Quickened names constants i i
  | load {nameIdx slot : Nat} (h : Names names constants nameIdx slot) :
      Quickened names constants (.loadGlobal nameIdx) (.loadGlobalSlot slot)
  | store {nameIdx slot : Nat} (h : Names names constants nameIdx slot) :
      Quickened names constants (.storeGlobal nameIdx) (.storeGlobalSlot slot)
  | arith {op : BaseOp} {dst a b i j k : Nat} (hd : Names names constants dst i)
      (ha : Names names constants a j) (hb : Names names constants b k) :
      Quickened names constants (.arith op dst a b) (.arithSlot op i j k)
  | call {nameIdx slot argCount : Nat} (h : Names names constants nameIdx slot) :
      Quickened names constants (.callGlobal nameIdx argCount) (.callGlobalSlot slot argCount)
  | jump {eq : Bool} {a nameIdx slot : Nat} (h : Names names constants nameIdx slot) :
      Quickened names constants (.jumpIfLocalGlobal eq a nameIdx) (.jumpIfLocalGlobalSlot eq a slot)

structure FunctionOk (names : List Name) (source func : Function) : Prop where
  constants : func.constants = source.constants
  cached : ∀ nameIdx slot : Nat, func.globalSlotCache[nameIdx]? = some (some slot) →
    Names names func.constants nameIdx slot
  code : ∀ (pc : Nat) (i : Instr), func.code[pc]? = some i →
    ∃ i₀, source.code[pc]? = some i₀ ∧ Quickened names func.constants i₀ i

variable {names : List Name}

theorem Names.append {nameIdx slot : Nat}
    (h : Names names constants nameIdx slot) (name : Name) : Names (names ++ [name]) constants nameIdx slot := by
  obtain ⟨n, hc, hs⟩ := h
  obtain ⟨hlt, -⟩ := List.getElem?_eq_some_iff.mp hs
  exact ⟨n, hc, by rw [getElem?_append_left hlt, hs]⟩

theorem Quickened.append {i₀ i : Instr}
    (h : Quickened names constants i₀ i) (name : Name) : Quickened (names ++ [name]) constants i₀ i := by
  cases h with
  | same => exact .same _
  | load h => exact .load (h.append name)
  | store h => exact .store (h.append name)
  | arith hd ha hb => exact .arith (hd.append name) (ha.append name) (hb.append name)
  | call h => exact .call (h.append name)
  | jump h => exact .jump (h.append name)

theorem FunctionOk.append {source func : Function} (h : FunctionOk names source func)
    (name : Name) : FunctionOk (names ++ [name]) source func := by
  refine ⟨h.constants, fun nameIdx slot hs => (h.cached nameIdx slot hs).append name, fun pc i hi => ?_⟩
  obtain ⟨i₀, h₀, hq⟩ := h.code pc i hi
  exact ⟨i₀, h₀, hq.append name⟩

end Code

def roots (vm : VM α) (transit : List (Value α)) : List (Value α) :=
  transit ++ (vm.stack ++ (vm.held ++ vm.globals.map GlobalSlot.value))

def slotNames (vm : VM α) : List Name := vm.globals.map GlobalSlot.name

def mirror (i : Nat) (s : GlobalSlot α) : HashEntry (Value α) :=
  ⟨hashTableHashKey s.name, s.name, s.value, some i⟩

/-- Entry `i` of the pool mirrors slot `i`, every root is counted, and the
globals say what `store` has under their names. -/
structure Good (source : List Function) (store : Name → Option (Datum α)) (vm : VM α)
    (transit : List (Value α)) : Prop where
  mirrored : ∀ i : Nat, vm.globalsHash.pool[i]? = vm.globals[i]?.map (mirror i)
  linked : ∀ (i : Nat) (s : GlobalSlot α), vm.globals[i]? = some s → s.entry = some i
  counted : ∀ a, (roots vm transit).countP (points a) ≤ refs vm.heap a
  stored : ∀ s ∈ vm.globals, store s.name = readValue vm.heap s.value
  unset : ∀ name, name ∉ slotNames vm → store name = some .nil
  functions : ∀ (f : Nat) (func : Function), vm.functions[f]? = some func →
    ∃ func₀, source[f]? = some func₀ ∧ FunctionOk (slotNames vm) func₀ func

variable {source : List Function} {store : Name → Option (Datum α)} {vm : VM α} {transit : List (Value α)}

theorem mem_roots_of_global (vm : VM α) {s : GlobalSlot α} (hs : s ∈ vm.globals)
    (transit : List (Value α)) : s.value ∈ roots vm transit := by
  simp only [roots, mem_append]
  exact .inr (.inr (.inr (mem_map_of_mem hs)))

def Alive (vm : VM α) (v : Value α) : Prop := ∀ a, points a v = true → 0 < refs vm.heap a

section

variable (h : Good source store vm transit)

include h

theorem Good.alive (hv : v ∈ roots vm transit) (ha : points a v = true) : 0 < refs vm.heap a :=
  lt_of_lt_of_le (countP_pos_iff.mpr ⟨v, hv, ha⟩) (h.counted a)

theorem Good.reroot {stack held transit' : List (Value α)}
    (hcounted : ∀ a, (roots { vm with heap, stack, held } transit').countP (points a) ≤ refs heap a)
    (hbig : ∀ a, 0 < refs vm.heap a → bigAt heap a = bigAt vm.heap a) :
    Good source store { vm with heap, stack, held } transit' := by
  refine ⟨h.mirrored, h.linked, hcounted, fun s hs => ?_, h.unset, h.functions⟩
  rw [h.stored s hs]
  refine (readValue_congr fun a ha => ?_).symm
  have hold := h.alive (mem_roots_of_global vm hs transit) ha
  refine ⟨hold, ?_, hbig a hold⟩
  refine lt_of_lt_of_le (countP_pos_iff.mpr ⟨s.value, ?_, ha⟩) (hcounted a)
  exact mem_roots_of_global { vm with heap, stack, held } hs transit'

theorem Good.retain (hv : Alive vm v) :
    Good source store { vm with heap := valueRetain vm.heap v } (v :: transit) := by
  refine h.reroot (fun a => ?_) fun a _ => bigAt_valueRetain vm.heap v a
  have hc := h.counted a
  rw [refs_valueRetain (hv a), roots, cons_append, countP_cons]
  exact Nat.add_le_add_right hc _

theorem Good.allocate (d : Datum α) :
    Good source store { vm with heap := (allocate vm.heap d).1 } ((Globals.allocate vm.heap d).2 :: transit) := by
  refine h.reroot (fun a => ?_) fun a ha => bigAt_allocate d (lt_of_refs_pos ha)
  have hc := h.counted a
  rw [roots, cons_append, countP_cons, refs_allocate]
  exact Nat.add_le_add_right hc _

end

theorem Good.forget (h : Good source store vm (v :: transit)) : Good source store vm transit := by
  refine h.reroot (fun a => ?_) fun _ _ => rfl
  refine le_trans ?_ (h.counted a)
  exact List.Sublist.countP_le (sublist_cons_self v (roots vm transit))

theorem Good.free (h : Good source store vm (v :: transit)) :
    Good source store { vm with heap := valueFree vm.heap v } transit := by
  refine h.reroot (fun a => ?_) fun a _ => bigAt_valueFree vm.heap v a
  have hc := h.counted a
  rw [roots, cons_append, countP_cons] at hc
  rw [refs_valueFree]
  exact Nat.le_sub_of_add_le hc

theorem Good.push (h : Good source store vm (v :: transit)) : Good source store (push vm v).1 transit := by
  unfold Globals.push
  split
  · exact h.forget
  · refine h.reroot (fun a => le_trans (le_of_eq ?_) (h.counted a)) fun _ _ => rfl
    simp only [roots, countP_append, countP_cons]
    omega

theorem Good.pop (h : Good source store vm transit) : Good source store (pop vm).1 ((pop vm).2.1 :: transit) := by
  unfold Globals.pop
  split
  next =>
    refine h.reroot (fun a => le_trans (le_of_eq ?_) (h.counted a)) fun _ _ => rfl
    simp only [roots, cons_append, countP_cons]
    rfl
  next v stack hs =>
    refine h.reroot (fun a => le_trans (le_of_eq ?_) (h.counted a)) fun _ _ => rfl
    simp only [roots, hs, cons_append, countP_append, countP_cons]
    omega

theorem Good.pushRetained (h : Good source store vm transit) (hv : Alive vm v) :
    Good source store (pushRetained vm v).1 transit := (h.retain hv).push

variable {i : Nat} {s : GlobalSlot α}

theorem eq_of_countP_le_one {β : Type} {p : β → Bool} {l : List β} (h : l.countP p ≤ 1) {j : Nat}
    {x y : β} (hx : l[i]? = some x) (hy : l[j]? = some y) (hpx : p x = true) (hpy : p y = true) : i = j := by
  have hlt : ∀ {i j : Nat} {x y : β}, l[i]? = some x → l[j]? = some y → p x = true → p y = true → ¬ i < j := by
    intro i j x y hx hy hpx hpy hij
    have hcount : (l.take j).countP p + (l.drop j).countP p ≤ 1 := by
      rwa [← countP_append, take_append_drop]
    have hleft : x ∈ l.take j := mem_of_getElem? (by rw [getElem?_take_of_lt hij, hx])
    have hright : y ∈ l.drop j := mem_of_getElem? (i := 0) (by rw [getElem?_drop]; exact hy)
    have h1 := countP_pos_iff.mpr ⟨x, hleft, hpx⟩
    have h2 := countP_pos_iff.mpr ⟨y, hright, hpy⟩
    omega
  have h1 := hlt hx hy hpx hpy
  have h2 := hlt hy hx hpy hpx
  omega

theorem slotNames_getElem? (hs : vm.globals[i]? = some s) : (slotNames vm)[i]? = some s.name := by
  rw [slotNames, getElem?_map, hs]
  rfl

variable (vm)

theorem roots_countP (transit : List (Value α)) (p : Value α → Bool) :
    (roots vm transit).countP p = transit.countP p +
      (vm.stack.countP p + (vm.held.countP p + (vm.globals.map GlobalSlot.value).countP p)) := by
  simp [roots]

def assigned (i : Nat) (v : Value α) : VM α := assignEntry (writeSlot vm i v) i v

theorem assigned_globals (i : Nat) (v : Value α) :
    (assigned vm i v).globals = vm.globals.modify i fun s => { s with value := v } := rfl

theorem slotNames_assigned (i : Nat) (v : Value α) : slotNames (assigned vm i v) = slotNames vm := by
  exact map_modify (by intro _; rfl) vm.globals i

variable {vm}

theorem assigned_slot {j : Nat} {t : GlobalSlot α}
    (ht : (assigned vm i v).globals[j]? = some t) (hji : j ≠ i) : vm.globals[j]? = some t := by
  rw [assigned_globals] at ht
  simpa [Ne.symm hji] using ht

theorem assigned_slot_self (hs : vm.globals[i]? = some s) :
    (assigned vm i v).globals[i]? = some { s with value := v } := by
  rw [assigned_globals, getElem?_modify_eq, hs]
  rfl

theorem assigned_values (hs : vm.globals[i]? = some s) :
    (assigned vm i v).globals.map GlobalSlot.value = (vm.globals.map GlobalSlot.value).set i v := by
  refine ext_getElem? fun j => ?_
  rw [assigned_globals, getElem?_map, getElem?_modify, getElem?_set, getElem?_map]
  by_cases hij : i = j
  · subst hij
    obtain ⟨hlt, -⟩ := List.getElem?_eq_some_iff.mp hs
    simp [hlt]
  · cases hj : vm.globals[j]? <;> simp [hij]

section

variable (h : Good source store vm transit)

include h

theorem Good.keys : vm.globalsHash.pool.map HashEntry.key = slotNames vm := by
  refine ext_getElem? fun i => ?_
  rw [slotNames, getElem?_map, getElem?_map, h.mirrored]
  cases vm.globals[i]? <;> rfl

theorem Good.getEntry_iff {name : Name} : vm.globalsHash.getEntry name = some i ↔ (slotNames vm)[i]? = some name := by
  rw [HashTable.getEntry_eq_some, h.keys]

theorem Good.unset_update (hs : vm.globals[i]? = some s) {name : Name}
    (hname : name ∉ slotNames vm) (d : Option (Datum α)) : Function.update store s.name d name = some .nil := by
  have hne : name ≠ s.name := by
    rintro rfl
    exact hname (mem_of_getElem? (slotNames_getElem? hs))
  rw [Function.update_of_ne hne]
  exact h.unset name hname

theorem Good.slot_unique {j : Nat} {t : GlobalSlot α}
    (hs : vm.globals[i]? = some s) (ht : vm.globals[j]? = some t) (hname : s.name = t.name) : i = j := by
  have hi := h.getEntry_iff.mpr (slotNames_getElem? hs)
  have hj := h.getEntry_iff.mpr (slotNames_getElem? ht)
  rw [hname, hj] at hi
  exact (Option.some_inj.mp hi).symm

theorem Good.entryValue (hs : vm.globals[i]? = some s) : entryValue vm i = s.value := by
  rw [Globals.entryValue, h.mirrored, hs]
  rfl

theorem Good.assigned_heap (hs : vm.globals[i]? = some s) : (assigned vm i v).heap = valueFree vm.heap s.value := by
  rw [← h.entryValue hs]
  rfl

theorem Good.inplace {o : BigintObject}
    (hs : vm.globals[i]? = some s) (hv : s.value = .bigint a) (ho : vm.heap[a]? = some o)
    (hone : o.refCount = 1) (big : ObjBigInt) : Good source (Function.update store s.name (some (.bigint big)))
      { vm with heap := vm.heap.modify a fun o => { o with big } } transit := by
  have hrefs : ∀ b, refs (vm.heap.modify a fun o => { o with big }) b = refs vm.heap b := by
    intro b
    rw [refs, refs, ← getElem?_map, ← getElem?_map, map_modify (by intro _; rfl)]
  have hra : refs vm.heap a = 1 := by rw [refs, ho, ← hone]; rfl
  have hpoints : points a s.value = true := points_iff.mpr hv
  refine ⟨h.mirrored, h.linked, fun b => ?_, fun t ht => ?_, fun name hname => ?_, h.functions⟩
  · rw [hrefs]
    exact h.counted b
  · obtain ⟨j, hj⟩ := mem_iff_getElem?.mp ht
    have hmem := mem_of_getElem? hj
    by_cases hji : j = i
    · subst hji
      rw [hs, Option.some_inj] at hj
      subst hj
      rw [Function.update_self, hv, readValue_bigint (by rw [hrefs]; omega), bigAt, getElem?_modify_eq, ho]
      rfl
    · rw [Function.update_of_ne fun heq => hji (h.slot_unique hj hs heq), h.stored t hmem]
      refine (readValue_congr fun b hb => ?_).symm
      have hpos := h.alive (mem_roots_of_global vm hmem _) hb
      refine ⟨hpos, by rw [hrefs]; exact hpos, ?_⟩
      -- another global with this object would be a second root of it
      have hba : b ≠ a := by
        rintro rfl
        have hc := h.counted b
        rw [roots_countP] at hc
        have heq := eq_of_countP_le_one (show (vm.globals.map GlobalSlot.value).countP (points b) ≤ 1 by omega)
          (i := i) (j := j) (by rw [getElem?_map, hs]; rfl) (by rw [getElem?_map, hj]; rfl)
          hpoints hb
        exact hji heq.symm
      rw [bigAt, bigAt, getElem?_modify]
      cases vm.heap[b]? <;> simp [Ne.symm hba]
  · exact h.unset_update hs hname _

end

variable (h : Good source store vm (v :: transit)) (hs : vm.globals[i]? = some s)

include h hs

theorem Good.assign_counted (a : Nat) :
    (roots (assigned vm i v) transit).countP (points a) ≤ refs (assigned vm i v).heap a := by
  have hc := h.counted a
  have hi : (vm.globals.map GlobalSlot.value)[i]? = some s.value := by
    rw [getElem?_map, hs]
    rfl
  obtain ⟨hlt, hget⟩ := List.getElem?_eq_some_iff.mp hi
  rw [h.assigned_heap hs, refs_valueFree, roots_countP, assigned_values hs, countP_set hlt, hget]
  rw [roots_countP, countP_cons] at hc
  change transit.countP _ + (vm.stack.countP _ + (vm.held.countP _ + _)) ≤ _
  by_cases hp : points a s.value = true
  · have hpos := countP_pos_iff.mpr ⟨s.value, mem_of_getElem? hi, hp⟩
    rw [if_pos hp]
    omega
  · rw [if_neg hp]
    omega

theorem Good.assign :
    Good source (Function.update store s.name (readValue (assigned vm i v).heap v)) (assigned vm i v) transit := by
  have hcounted := h.assign_counted hs
  refine ⟨fun j => ?_, fun j t ht => ?_, hcounted, fun t ht => ?_, fun name hname => ?_, ?_⟩
  · rw [assigned_globals, show (assigned vm i v).globalsHash.pool =
      vm.globalsHash.pool.modify i fun e => { e with value := v } from rfl,
      getElem?_modify, getElem?_modify, h.mirrored]
    cases vm.globals[j]? with
    | none => rfl
    | some t => by_cases hij : i = j <;> simp [hij, mirror]
  · by_cases hji : j = i
    · subst hji
      rw [assigned_slot_self hs] at ht
      rw [← Option.some_inj.mp ht]
      exact h.linked j s hs
    · exact h.linked j t (assigned_slot ht hji)
  · obtain ⟨j, hj⟩ := mem_iff_getElem?.mp ht
    by_cases hji : j = i
    · subst hji
      rw [assigned_slot_self hs] at hj
      rw [← Option.some_inj.mp hj]
      exact Function.update_self ..
    · have hold := assigned_slot hj hji
      have hmem := mem_of_getElem? hold
      rw [Function.update_of_ne fun heq => hji (h.slot_unique hold hs heq), h.stored t hmem]
      refine (readValue_congr fun a ha => ⟨h.alive (mem_roots_of_global vm hmem _) ha, ?_, ?_⟩).symm
      · exact lt_of_lt_of_le
          (countP_pos_iff.mpr ⟨t.value, mem_roots_of_global _ ht transit, ha⟩) (hcounted a)
      · rw [h.assigned_heap hs, bigAt_valueFree]
  · rw [slotNames_assigned] at hname
    exact h.unset_update hs hname _
  · rw [slotNames_assigned]
    exact h.functions

end Tablo.Globals
