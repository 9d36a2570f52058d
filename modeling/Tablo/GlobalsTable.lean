import Tablo.ObjMapTable
import Mathlib.Data.Fintype.Card

/-! The hash table of `vm.c` that maps names to entries. The slots hold
pointers; `pool` is what they point to, in the order of allocation. Entries are
never removed, so the count of the table is the length of the pool. -/

namespace Tablo.Globals

open LinearProbing Vm

structure HashEntry (V : Type) where
  hash : UInt32
  key : List UInt8
  value : V
  globalSlot : Option Nat

structure RawTable (V : Type) where
  entries : List (Option Nat)
  pool : List (HashEntry V)

variable {V : Type} (t : RawTable V) (key : List UInt8)

def RawTable.capacity : Nat := t.entries.length

def RawTable.count : Nat := t.pool.length

def hashTableHashKey : UInt32 :=
  let hash := key.foldl (fun hash c => (hash ^^^ c.toUInt64) * 1099511628211) 1469598103934665603
  hashFold64To32 (hash ^^^ UInt64.ofNat key.length)

def entryAt (entries : List (Option Nat)) (i : Nat) : Option Nat := entries.getD i none

/-- The loop stops at an empty slot or at a hit; more probes than slots means
that it would go round for ever. -/
def probe (entries : List (Option Nat)) (mask : Nat) (hit : Nat → Bool) : Nat → Nat → Except Fault Nat
  | 0, _ => .error .endless
  | fuel + 1, idx =>
    match entryAt entries idx with
    | none => .ok idx
    | some p => if hit p then .ok idx else probe entries mask hit fuel ((idx + 1) &&& mask)

def rehash (pool : List (HashEntry V)) (capacity : Nat) :
    List (Option Nat) → List (Option Nat) → Except Fault (List (Option Nat))
  | [], entries => .ok entries
  | none :: old, entries => rehash pool capacity old entries
  | some p :: old, entries => do
    let idx ← probe entries (capacity - 1) (fun _ => false) capacity
      (home capacity ((pool.map HashEntry.hash).getD p 0))
    rehash pool capacity old (entries.set idx (some p))

def hashTableAdjustCapacity (newCapacity : Nat) : Except Fault (RawTable V) :=
  if newCapacity < 16 then .ok t
  else if newCapacity &&& (newCapacity - 1) ≠ 0 then .ok t
  else do
    let entries ← rehash t.pool newCapacity t.entries (List.replicate newCapacity none)
    .ok { t with entries }

def growCapacity (needed : Nat) : Nat → Nat → Nat
  | 0, capacity => capacity
  | fuel + 1, capacity =>
    if capacity * 7 / 10 < needed then growCapacity needed fuel (capacity * 2) else capacity

def hashTableEnsureCapacity (additional : Nat) : Except Fault (RawTable V) :=
  if additional = 0 then .ok t
  else if t.count + additional ≤ max (t.capacity * 7 / 10) 1 then .ok t
  else hashTableAdjustCapacity t (growCapacity (t.count + additional) 32 t.capacity)

def hashTableFindSlot (hash : UInt32) :
    Except Fault (Nat × Option Nat) := do
  let idx ← probe t.entries (t.capacity - 1)
    (fun p => t.pool[p]?.any fun e => e.hash == hash && e.key == key) t.capacity (home t.capacity hash)
  .ok (idx, entryAt t.entries idx)

def setValue (pool : List (HashEntry V)) (p : Nat) (value : V) : List (HashEntry V) :=
  pool.modify p fun e => { e with value }

def hashTableInit : RawTable V := ⟨List.replicate 16 none, []⟩

def hashTableSet (value : V) : Except Fault (RawTable V) := do
  let hash := hashTableHashKey key
  match ← hashTableFindSlot t key hash with
  | (_, some p) => .ok { t with pool := setValue t.pool p value }
  | (idx, none) =>
    if max (t.capacity * 7 / 10) 1 < t.count + 1 then
      let t ← hashTableEnsureCapacity t 1
      match ← hashTableFindSlot t key hash with
      | (_, some p) => .ok { t with pool := setValue t.pool p value }
      | (idx, none) => .ok ⟨t.entries.set idx (some t.count), t.pool ++ [⟨hash, key, value, none⟩]⟩
    else .ok ⟨t.entries.set idx (some t.count), t.pool ++ [⟨hash, key, value, none⟩]⟩

def hashTableGetEntry : Except Fault (Option Nat) := do
  let (_, entry) ← hashTableFindSlot t key (hashTableHashKey key)
  .ok entry

/-! A table that the operations build never sends a probe round for ever, and
it is a map from keys to pool positions. `HashTable` carries that as a field. -/

open List Option

variable {t key}

theorem map_modify {α β : Type} {g : α → β} {f : α → α} (h : ∀ x, g (f x) = g x) (l : List α) (i : Nat) :
    (l.modify i f).map g = l.map g := by
  refine ext_getElem? fun j => ?_
  rw [getElem?_map, getElem?_map, getElem?_modify]
  cases l[j]? with
  | none => rfl
  | some x =>
    by_cases hij : i = j <;> simp [hij, h]

section Raw

variable {entries : List (Option Nat)} {c k n p : Nat} {pool : List (HashEntry V)}
  {held : Nat → Prop}

theorem entryAt_set {i : Nat} (hi : i < entries.length) (x : Option Nat) :
    entryAt (entries.set i x) = Function.update (entryAt entries) i x := slotOf_set hi x

theorem entryAt_replicate (c : Nat) : entryAt (List.replicate c none) = fun _ => none := slotOf_replicate c

def stops (entries : List (Option Nat)) (hit : Nat → Bool) (i : Nat) : Bool :=
  match entryAt entries i with
  | none => true
  | some p => hit p

theorem probe_eq_scan (hc : c = 2 ^ k) {hit : Nat → Bool} {fuel i : Nat} (hi : i < c) :
    probe entries (c - 1) hit fuel i =
      match scan c (stops entries hit) fuel i with
      | none => .error .endless
      | some j => .ok j := by
  induction fuel generalizing i with
  | zero => rfl
  | succ fuel ih =>
    cases hs : entryAt entries i with
    | none => simp [probe, scan, stops, hs]
    | some p =>
      cases hh : hit p with
      | true => simp [probe, scan, stops, hs, hh]
      | false => simp [probe, scan, stops, hs, hh, mask_succ hc hi, ih (next_lt hi)]

def hashAt (pool : List (HashEntry V)) (p : Nat) : UInt32 := (pool.map HashEntry.hash).getD p 0

/-- The pool positions in `held` sit in the slots, each once and reachable from
its home slot. -/
structure Placed (pool : List (HashEntry V)) (c : Nat) (entries : List (Option Nat)) (held : Nat → Prop) :
    Prop where
  length_eq : entries.length = c
  holds : ∀ p, Holds c (entryAt entries) p ↔ held p
  once : Distinct c id (entryAt entries)
  reach : Reachable c (fun p => home c (hashAt pool p)) (entryAt entries)

theorem Placed.exists_none (h : Placed pool c entries held) (hheld : ∀ p, held p → p < n) (hlt : n < c) :
    ∃ z < c, entryAt entries z = none := by
  by_contra hall
  push Not at hall
  have hsome : ∀ i : Fin c, ∃ p : Fin n, entryAt entries i = some p.val := by
    intro i
    obtain ⟨p, hp⟩ := ne_none_iff_exists'.mp (hall i i.isLt)
    exact ⟨⟨p, hheld p ((h.holds p).mp ⟨i, i.isLt, hp⟩)⟩, hp⟩
  choose f hf using hsome
  have hinj : Function.Injective f := by
    intro i j hij
    refine Fin.ext (h.once i i.isLt j j.isLt _ _ (hf i) (hf j) ?_)
    rw [hij]
  have hcard := Fintype.card_le_of_injective f hinj
  rw [Fintype.card_fin, Fintype.card_fin] at hcard
  omega

theorem Placed.insert {j : Nat} (h : Placed pool c entries held) (hj : j < c) (hnone : entryAt entries j = none)
    (hnew : ¬ held p) (hpath : Taken c (entryAt entries) (home c (hashAt pool p)) j) :
    Placed pool c (entries.set j (some p)) fun q => q = p ∨ held q := by
  have hset := entryAt_set (h.length_eq.symm ▸ hj) (some p)
  refine ⟨by rw [length_set, h.length_eq], fun q => ?_, ?_, ?_⟩
  · rw [hset, holds_insert hj hnone, h.holds]
  · rw [hset]
    refine h.once.insert fun q hq hqp => hnew ?_
    rw [← show q = p from hqp]
    exact (h.holds q).mp hq
  · rw [hset]
    exact h.reach.insert hpath

theorem placed_empty (pool : List (HashEntry V)) (c : Nat) :
    Placed pool c (List.replicate c none) fun _ => False := by
  refine ⟨length_replicate, fun p => ?_, ?_, ?_⟩ <;> rw [entryAt_replicate]
  · simp [Holds]
  · intro i _ j _ e e' he
    exact absurd he (by simp)
  · intro i _ e he
    exact absurd he (by simp)

theorem Placed.congr {pool' : List (HashEntry V)}
    {held' : Nat → Prop} (h : Placed pool c entries held) (hheld : ∀ p, held' p ↔ held p)
    (hpool : ∀ p, held p → hashAt pool' p = hashAt pool p) : Placed pool' c entries held' := by
  refine ⟨h.length_eq, fun p => by rw [h.holds, hheld], h.once, ?_⟩
  intro i hi p hp
  have heq := hpool p ((h.holds p).mp ⟨i, hi, hp⟩)
  simp only [heq]
  exact h.reach i hi p hp

theorem Placed.probe_new (hc : c = 2 ^ k) (h : Placed pool c entries held)
    (hheld : ∀ p, held p → p < n) (hlt : n < c) {start : Nat} (hstart : start < c) :
    ∃ j < c, probe entries (c - 1) (fun _ => false) c start = .ok j ∧ entryAt entries j = none ∧
      Taken c (entryAt entries) start j := by
  obtain ⟨z, hz, hzn⟩ := h.exists_none hheld hlt
  have hstop : ∀ i, stops entries (fun _ => false) i = true ↔ entryAt entries i = none := by
    intro i
    unfold stops
    cases entryAt entries i <;> simp
  obtain ⟨j, hj, hjc, hjs, hbefore⟩ := scan_spec hstart hz ((hstop z).mpr hzn) (gap_lt hstart hz)
  refine ⟨j, hjc, by rw [probe_eq_scan hc hstart, hj], (hstop j).mp hjs, fun i hi hlt hi' => ?_⟩
  have hs := hbefore i hi hlt
  rw [(hstop i).mpr hi'] at hs
  exact absurd hs (by simp)

theorem rehash_spec (hc : c = 2 ^ k) (hlt : n < c) {old : List (Option Nat)} (h : Placed pool c entries held)
    (hheld : ∀ p, held p → p < n) (hold : ∀ p, some p ∈ old → p < n ∧ ¬ held p) (honce : (old.filterMap id).Nodup) :
    ∃ entries', rehash pool c old entries = .ok entries' ∧ Placed pool c entries' fun p => held p ∨ some p ∈ old := by
  induction old generalizing entries held with
  | nil => exact ⟨entries, rfl, by simpa using h⟩
  | cons x old ih =>
    cases x with
    | none =>
      obtain ⟨entries', hrun, hplaced⟩ := ih h hheld (fun p hp => hold p (mem_cons_of_mem _ hp))
        (by simpa using honce)
      exact ⟨entries', hrun, by simpa using hplaced⟩
    | some p =>
      obtain ⟨hpn, hpnew⟩ := hold p mem_cons_self
      have hnodup : some p ∉ old ∧ (old.filterMap id).Nodup := by simpa using honce
      obtain ⟨j, hj, hprobe, hnone, hpath⟩ := h.probe_new hc hheld hlt (home_lt hc (hashAt pool p))
      have hins := h.insert hj hnone hpnew hpath
      obtain ⟨entries', hrun, hplaced⟩ := ih hins (by rintro q (rfl | hq); exacts [hpn, hheld q hq]) (by
          intro q hq
          obtain ⟨hqn, hqnew⟩ := hold q (mem_cons_of_mem _ hq)
          refine ⟨hqn, ?_⟩
          rintro (rfl | hq')
          exacts [hnodup.1 hq, hqnew hq'])
        hnodup.2
      refine ⟨entries', ?_, hplaced.congr (fun q => ?_) fun _ _ => rfl⟩
      · rw [rehash, show (pool.map HashEntry.hash).getD p 0 = hashAt pool p from rfl, hprobe]
        exact hrun
      · simp only [mem_cons, some.injEq]
        tauto

structure RawTable.Valid (t : RawTable V) : Prop where
  capacity_eq : ∃ k, 4 ≤ k ∧ t.capacity = 2 ^ k
  load : t.count ≤ t.capacity * 7 / 10
  placed : Placed t.pool t.capacity t.entries (· < t.count)
  hashed : ∀ e ∈ t.pool, e.hash = hashTableHashKey e.key
  keys : (t.pool.map HashEntry.key).Nodup

def RawTable.KeyAt (t : RawTable V) (key : List UInt8) (p : Nat) : Prop :=
  (t.pool.map HashEntry.key)[p]? = some key

theorem RawTable.KeyAt.lt (h : t.KeyAt key p) : p < t.count := by
  obtain ⟨hlt, -⟩ := List.getElem?_eq_some_iff.mp h
  rwa [length_map] at hlt

theorem RawTable.Valid.keyAt_inj (h : t.Valid) {q : Nat} (hp : t.KeyAt key p) (hq : t.KeyAt key q) : p = q :=
  (getElem?_inj (by rw [length_map]; exact hp.lt) h.keys).mp (hp.trans hq.symm)

theorem RawTable.Valid.hashAt_eq (h : t.Valid) (hp : t.KeyAt key p) : hashAt t.pool p = hashTableHashKey key := by
  unfold KeyAt at hp
  rw [getElem?_map, map_eq_some_iff] at hp
  obtain ⟨e, he, rfl⟩ := hp
  rw [hashAt, getD_eq_getElem?_getD, getElem?_map, he]
  exact h.hashed e (mem_of_getElem? he)

theorem RawTable.Valid.hit_iff (h : t.Valid) (key : List UInt8) (p : Nat) :
    (t.pool[p]?.any fun e => e.hash == hashTableHashKey key && e.key == key) = true ↔ t.KeyAt key p := by
  unfold KeyAt
  rw [getElem?_map]
  cases he : t.pool[p]? with
  | none => simp
  | some e =>
    have hhash := h.hashed e (mem_of_getElem? he)
    simp only [any_some, Bool.and_eq_true, beq_iff_eq, map_some, some.injEq]
    constructor
    · exact fun hh => hh.2
    · exact fun hk => ⟨hk ▸ hhash, hk⟩

/-- A search ends at the entry of the key, or at the empty slot where the key
belongs. -/
theorem RawTable.Valid.findSlot (h : t.Valid) (key : List UInt8) :
    ∃ j < t.capacity, hashTableFindSlot t key (hashTableHashKey key) = .ok (j, entryAt t.entries j) ∧
      ((∃ p, entryAt t.entries j = some p ∧ t.KeyAt key p) ∨ entryAt t.entries j = none ∧ (∀ p, ¬ t.KeyAt key p) ∧
          Taken t.capacity (entryAt t.entries) (home t.capacity (hashTableHashKey key)) j) := by
  obtain ⟨k, h4, hc⟩ := h.capacity_eq
  have hload := h.load
  have hstart := home_lt hc (hashTableHashKey key)
  have hempty := h.placed.exists_none (fun p hp => hp) (show t.count < t.capacity by omega)
  have hstop : ∀ i < t.capacity,
      stops t.entries (fun p => t.pool[p]?.any fun e => e.hash == hashTableHashKey key && e.key == key) i
        = true ↔ entryAt t.entries i = none ∨
          ∃ p, entryAt t.entries i = some p ∧ (t.pool.map HashEntry.key)[p]? = some key := by
    intro i _
    unfold stops
    cases entryAt t.entries i with
    | none => simp
    | some p =>
      rw [h.hit_iff key p]
      simp [KeyAt]
  obtain ⟨j, hj, hjc, hres⟩ := scan_key h.placed.reach (fun p _ hp => by rw [h.hashAt_eq hp]) hstart hempty hstop
  refine ⟨j, hjc, ?_, ?_⟩
  · rw [hashTableFindSlot, probe_eq_scan hc hstart, hj]
    rfl
  · rcases hres with hfound | ⟨hnone, hmissing, hpath⟩
    · exact .inl hfound
    · exact .inr ⟨hnone, fun p hp => hmissing p ((h.placed.holds p).mpr hp.lt) hp, hpath⟩

theorem RawTable.Valid.modify (h : t.Valid) (p : Nat) {f : HashEntry V → HashEntry V}
    (hkey : ∀ e, (f e).key = e.key) (hhash : ∀ e, (f e).hash = e.hash) :
    (⟨t.entries, t.pool.modify p f⟩ : RawTable V).Valid := by
  have hcount : (t.pool.modify p f).length = t.pool.length := length_modify ..
  refine ⟨h.capacity_eq, ?_, ?_, ?_, ?_⟩
  · change (t.pool.modify p f).length ≤ _
    rw [hcount]
    exact h.load
  · refine h.placed.congr (fun q => ?_) fun q _ => ?_
    · change q < (t.pool.modify p f).length ↔ _
      rw [hcount]
      exact Iff.rfl
    · rw [hashAt, hashAt, map_modify hhash]
  · intro e he
    obtain ⟨q, hq⟩ := mem_iff_getElem?.mp he
    rw [getElem?_modify] at hq
    obtain ⟨e', he', rfl⟩ := map_eq_some_iff.mp hq
    have hold := h.hashed e' (mem_of_getElem? he')
    split
    · rw [hkey, hhash, hold]
    · exact hold
  · rw [map_modify hkey]
    exact h.keys

theorem RawTable.Valid.add (h : t.Valid) {value : V} {j : Nat}
    (hj : j < t.capacity) (hnone : entryAt t.entries j = none) (hnew : ∀ p, ¬ t.KeyAt key p)
    (hpath : Taken t.capacity (entryAt t.entries) (home t.capacity (hashTableHashKey key)) j)
    (hroom : t.count + 1 ≤ t.capacity * 7 / 10) :
    (⟨t.entries.set j (some t.count), t.pool ++ [⟨hashTableHashKey key, key, value, none⟩]⟩ : RawTable V).Valid := by
  have hhash : hashAt (t.pool ++ [⟨hashTableHashKey key, key, value, none⟩]) t.count = hashTableHashKey key := by
    simp [hashAt, count]
  have hcap : (t.entries.set j (some t.count)).length = t.capacity := length_set ..
  refine ⟨?_, ?_, ?_, ?_, ?_⟩
  · rw [capacity, hcap]
    exact h.capacity_eq
  · rw [capacity, hcap, count, length_append]
    exact hroom
  · rw [capacity, hcap]
    have hplaced : Placed (t.pool ++ [⟨hashTableHashKey key, key, value, none⟩]) t.capacity t.entries
        (· < t.count) := by
      refine h.placed.congr (fun _ => Iff.rfl) fun p hp => ?_
      have hlt : p < (t.pool.map HashEntry.hash).length := by rwa [length_map]
      rw [hashAt, hashAt, map_append, getD_append _ _ _ _ hlt]
    refine (hplaced.insert hj hnone (Nat.lt_irrefl _) ?_).congr (fun p => ?_) fun _ _ => rfl
    · rw [hhash]
      exact hpath
    · rw [count, length_append]
      change p < t.count + 1 ↔ _
      omega
  · intro e he
    rcases mem_append.mp he with he | he
    · exact h.hashed e he
    · rw [mem_singleton.mp he]
  · rw [map_append, nodup_append]
    refine ⟨h.keys, by simp, fun a ha b hb hab => ?_⟩
    obtain ⟨p, hp⟩ := mem_iff_getElem?.mp ha
    refine hnew p (hp.trans ?_)
    rw [hab]
    simpa using hb

theorem growCapacity_double {count : Nat} (h4 : 4 ≤ k) (hload : count ≤ 2 ^ k * 7 / 10)
    (hfull : 2 ^ k * 7 / 10 < count + 1) : growCapacity (count + 1) 32 (2 ^ k) = 2 ^ (k + 1) := by
  have h16 := Nat.pow_le_pow_right (show 0 < 2 by decide) h4
  rw [growCapacity, if_pos hfull, growCapacity, if_neg (by omega), Nat.pow_succ]

theorem RawTable.Valid.ensureCapacity (h : t.Valid) (hfull : max (t.capacity * 7 / 10) 1 < t.count + 1) :
    ∃ entries, hashTableEnsureCapacity t 1 = .ok ⟨entries, t.pool⟩ ∧
      (⟨entries, t.pool⟩ : RawTable V).Valid ∧ t.count + 1 ≤ entries.length * 7 / 10 := by
  obtain ⟨k, h4, hc⟩ := h.capacity_eq
  have h16' := Nat.pow_le_pow_right (show 0 < 2 by decide) h4
  have hload := h.load
  rw [hc] at hload hfull
  have hmem : ∀ p, some p ∈ t.entries ↔ p < t.count := fun p =>
    (holds_iff_mem rfl p).symm.trans (h.placed.holds p)
  obtain ⟨entries, hrun, hplaced⟩ := rehash_spec rfl (show t.count < 2 ^ (k + 1) by omega)
    (placed_empty t.pool _) (fun _ hp => hp.elim)
    (fun p hp => ⟨(hmem p).mp hp, id⟩) (by simpa using h.placed.once.nodup rfl)
  have hlen : entries.length = 2 ^ (k + 1) := hplaced.length_eq
  have hplaced' : Placed t.pool entries.length entries (· < t.count) := by
    rw [hlen]
    exact hplaced.congr (fun p => by rw [hmem, false_or]) fun _ _ => rfl
  refine ⟨entries, ?_, ⟨⟨k + 1, by omega, hlen⟩, ?_, hplaced', h.hashed, h.keys⟩, by omega⟩
  · rw [hashTableEnsureCapacity, if_neg (by decide), hc, if_neg (by omega),
      growCapacity_double h4 hload (by omega), hashTableAdjustCapacity, if_neg (by omega),
      if_neg (by simp), hrun]
    rfl
  · change t.count ≤ entries.length * 7 / 10
    omega

theorem RawTable.Valid.set (h : t.Valid) (key : List UInt8) (value : V) :
    ∃ t', hashTableSet t key value = .ok t' ∧ t'.Valid ∧
      ((∃ p, t.KeyAt key p ∧ t'.pool = Globals.setValue t.pool p value) ∨
        (∀ p, ¬ t.KeyAt key p) ∧ t'.pool = t.pool ++ [⟨hashTableHashKey key, key, value, none⟩]) := by
  obtain ⟨j, hj, hfind, ⟨p, hp, hkey⟩ | ⟨hnone, hnew, hpath⟩⟩ := h.findSlot key
  · rw [hp] at hfind
    refine ⟨⟨t.entries, Globals.setValue t.pool p value⟩, ?_, h.modify p (fun _ => rfl) fun _ => rfl,
      .inl ⟨p, hkey, rfl⟩⟩
    simp only [hashTableSet, hfind]
    rfl
  rw [hnone] at hfind
  by_cases hfull : max (t.capacity * 7 / 10) 1 < t.count + 1
  · obtain ⟨entries, hgrow, hvalid, hroom⟩ := h.ensureCapacity hfull
    obtain ⟨i, hi, hfind', ⟨p, -, hkey⟩ | ⟨hnone', hnew', hpath'⟩⟩ := hvalid.findSlot key
    · exact absurd hkey (hnew p)
    rw [hnone'] at hfind'
    refine ⟨_, ?_, hvalid.add hi hnone' hnew' hpath' hroom, .inr ⟨hnew, rfl⟩⟩
    simp only [hashTableSet, hfind, hgrow, hfind', if_pos hfull, bind, Except.bind]
  · refine ⟨_, ?_, h.add hj hnone hnew hpath ?_, .inr ⟨hnew, rfl⟩⟩
    · simp only [hashTableSet, hfind, if_neg hfull, bind, Except.bind]
    · obtain ⟨k, h4, hc⟩ := h.capacity_eq
      have h16 := Nat.pow_le_pow_right (show 0 < 2 by decide) h4
      omega

theorem hashTableInit_valid : (hashTableInit : RawTable V).Valid := by
  refine ⟨⟨4, Nat.le_refl 4, rfl⟩, Nat.zero_le _, ?_, ?_, nodup_nil⟩
  · refine (placed_empty [] 16).congr (fun p => ?_) fun _ _ => rfl
    exact iff_of_false (Nat.not_lt_zero p) id
  · intro e he
    exact absurd he not_mem_nil

end Raw

structure HashTable (V : Type) where
  raw : RawTable V
  valid : raw.Valid

namespace HashTable

variable (t : HashTable V)

def pool : List (HashEntry V) := t.raw.pool

def init : HashTable V := ⟨hashTableInit, hashTableInit_valid⟩

def getEntry (key : List UInt8) : Option Nat :=
  match hashTableGetEntry t.raw key with
  | .ok entry => entry
  | .error _ => none

def set (key : List UInt8) (value : V) : HashTable V :=
  match h : hashTableSet t.raw key value with
  | .ok raw => ⟨raw, by
      obtain ⟨t', hrun, hvalid, -⟩ := t.valid.set key value
      rw [h] at hrun
      exact Except.ok.inj hrun ▸ hvalid⟩
  | .error _ => t

def setValue (p : Nat) (value : V) : HashTable V :=
  ⟨⟨t.raw.entries, Globals.setValue t.raw.pool p value⟩, t.valid.modify p (fun _ => rfl) fun _ => rfl⟩

def setGlobalSlot (p slot : Nat) : HashTable V :=
  ⟨⟨t.raw.entries, t.raw.pool.modify p fun e => { e with globalSlot := some slot }⟩,
    t.valid.modify p (fun _ => rfl) fun _ => rfl⟩

@[simp] theorem pool_init : (init : HashTable V).pool = [] := rfl

@[simp] theorem pool_setValue (p : Nat) (value : V) :
    (t.setValue p value).pool = t.pool.modify p fun e => { e with value } := rfl

@[simp] theorem pool_setGlobalSlot (p slot : Nat) :
    (t.setGlobalSlot p slot).pool = t.pool.modify p fun e => { e with globalSlot := some slot } := rfl

theorem getEntry_spec (key : List UInt8) : hashTableGetEntry t.raw key = .ok (t.getEntry key) ∧
      ∀ p, t.getEntry key = some p ↔ (t.pool.map HashEntry.key)[p]? = some key := by
  obtain ⟨j, -, hfind, hres⟩ := t.valid.findSlot key
  have hget : hashTableGetEntry t.raw key = .ok (entryAt t.raw.entries j) := by
    simp only [hashTableGetEntry, hfind, bind, Except.bind]
  have heq : t.getEntry key = entryAt t.raw.entries j := by rw [getEntry, hget]
  refine ⟨by rw [hget, heq], fun p => ?_⟩
  rw [heq]
  rcases hres with ⟨q, hq, hkey⟩ | ⟨hnone, hnew, -⟩
  · rw [hq, some_inj]
    constructor
    · rintro rfl
      exact hkey
    · exact fun hp => t.valid.keyAt_inj hkey hp
  · rw [hnone]
    exact iff_of_false (by simp) (hnew p)

theorem getEntry_eq_some {t : HashTable V} : t.getEntry key = some p ↔ (t.pool.map HashEntry.key)[p]? = some key :=
  (t.getEntry_spec key).2 p

theorem set_spec (key : List UInt8) (value : V) :
    hashTableSet t.raw key value = .ok (t.set key value).raw ∧ (t.set key value).pool = match t.getEntry key with
        | some p => Globals.setValue t.pool p value
        | none => t.pool ++ [⟨hashTableHashKey key, key, value, none⟩] := by
  obtain ⟨t', hrun, -, hpool⟩ := t.valid.set key value
  have hset : (t.set key value).raw = t' := by
    unfold set
    split
    next raw h =>
      rw [h] at hrun
      exact Except.ok.inj hrun
    next h =>
      rw [h] at hrun
      exact absurd hrun (by simp)
  refine ⟨by rw [hset, hrun], ?_⟩
  rw [pool, hset]
  rcases hpool with ⟨p, hp, hpool⟩ | ⟨hnew, hpool⟩
  · rw [getEntry_eq_some.mpr hp, hpool]
    rfl
  · have hnone : t.getEntry key = none := by
      rw [eq_none_iff_forall_not_mem]
      exact fun p hp => hnew p (getEntry_eq_some.mp hp)
    rw [hnone, hpool]
    rfl

end HashTable

end Tablo.Globals
