import Tablo.ObjMapTable

/-! Growing, shrinking and rehashing keep the entries and the invariant. -/

namespace Tablo.Vm

open LinearProbing List Option

variable {V : Type} {slots : List (Option (MapEntry V))} {m : ObjMap V} {c k : Nat}

theorem IsTable.holds_iff (h : IsTable c slots) (e : MapEntry V) : Holds c (slot slots) e ↔ some e ∈ slots :=
  holds_iff_mem h.length_eq e

def slotKeys (slots : List (Option (MapEntry V))) : List MapKey := slots.filterMap (·.map (·.key))

theorem mem_slotKeys {key : MapKey} : key ∈ slotKeys slots ↔ ∃ e, some e ∈ slots ∧ e.key = key := by
  unfold slotKeys
  rw [mem_filterMap]
  constructor
  · rintro ⟨x, hx, hk⟩
    obtain ⟨e, rfl, he⟩ := map_eq_some_iff.mp hk
    exact ⟨e, hx, he⟩
  · rintro ⟨e, he, hk⟩
    exact ⟨some e, he, by simp [hk]⟩

theorem IsTable.slotKeys_nodup (h : IsTable c slots) : (slotKeys slots).Nodup :=
  h.distinct.nodup h.length_eq

theorem rehashLoop_spec (hc : c = 2 ^ k) {rest : List (Option (MapEntry V))}
    (hcap : m.capacity = c) (h : IsTable c m.slots)
    (hcount : m.count = m.slots.countP isSome) (hused : m.used = m.count)
    (hroom : m.count + rest.countP isSome < c) (hnodup : (slotKeys rest).Nodup)
    (hfresh : ∀ e, some e ∈ rest → e.hash = keyHash e.key ∧ ∀ e', Holds c (slot m.slots) e' → e'.key ≠ e.key) :
    ∃ map', rehashLoop c rest m = .ok map' ∧ map'.capacity = c ∧ IsTable c map'.slots ∧
      map'.count = map'.slots.countP isSome ∧ map'.used = map'.count ∧
      map'.count = m.count + rest.countP isSome ∧
      ∀ e, Holds c (slot map'.slots) e ↔ Holds c (slot m.slots) e ∨ some e ∈ rest := by
  induction rest generalizing m with
  | nil => exact ⟨m, rfl, hcap, h, hcount, hused, by simp, by simp⟩
  | cons x rest ih =>
    cases x with
    | none =>
      obtain ⟨map', hrun, hrest⟩ := ih hcap h hcount hused (by simpa using hroom)
        (by simpa [slotKeys] using hnodup) fun e he => hfresh e (mem_cons_of_mem _ he)
      exact ⟨map', hrun, by simpa using hrest⟩
    | some e =>
      obtain ⟨hhash, hnew⟩ := hfresh e mem_cons_self
      rw [countP_cons_of_pos (by simp)] at hroom
      have hkeys : e.key ∉ slotKeys rest ∧ (slotKeys rest).Nodup := by
        simpa [slotKeys] using hnodup
      obtain ⟨j, hj, hprobe, hfound⟩ := findSlot_spec hc h (by omega) e.key
        (fun _ => false) (fun e' he' => by simpa using hnew e' he')
      rw [← hhash] at hprobe hfound
      rcases hfound with ⟨e', he', hk'⟩ | ⟨hnone, -, hpath⟩
      · exact absurd hk' (hnew e' ⟨j, hj, he'⟩)
      obtain ⟨htable, hholds⟩ := h.insert hj hhash hnone hnew hpath
      have hlen : j < m.slots.length := h.length_eq.symm ▸ hj
      have hset : (m.slots.set j (some e)).countP isSome = m.count + 1 := by
        rw [countP_set_some hlen, if_pos hnone, hcount]
      have hfresh' : ∀ e₁, some e₁ ∈ rest → e₁.hash = keyHash e₁.key ∧
          ∀ e', Holds c (slot (m.slots.set j (some e))) e' → e'.key ≠ e₁.key := by
        intro e₁ he₁
        obtain ⟨hh, hn⟩ := hfresh e₁ (mem_cons_of_mem _ he₁)
        refine ⟨hh, fun e' he' => ?_⟩
        rcases (hholds e').mp he' with rfl | he'
        · intro hk
          exact hkeys.1 (mem_slotKeys.mpr ⟨e₁, he₁, hk.symm⟩)
        · exact hn e' he'
      obtain ⟨map', hrun, hcap', ht', hc', hu', hn', hh'⟩ :=
        ih (m := ⟨m.slots.set j (some e), m.capacity, m.count + 1, m.used + 1⟩) hcap htable hset.symm
          (by simp [hused]) (by dsimp only; omega) hkeys.2 hfresh'
      refine ⟨map', ?_, hcap', ht', hc', hu', ?_, fun e' => ?_⟩
      · rw [rehashLoop, hprobe]
        exact hrun
      · rw [hn', countP_cons_of_pos (by simp)]
        dsimp only
        omega
      · rw [hh', hholds]
        simp only [mem_cons, some.injEq]
        tauto

abbrev ObjMap.Holds (m : ObjMap V) (e : MapEntry V) : Prop := LinearProbing.Holds m.capacity (slot m.slots) e

def SameEntries (m m' : ObjMap V) : Prop :=
  ∀ e, Holds m'.capacity (slot m'.slots) e ↔ Holds m.capacity (slot m.slots) e

theorem not_holds_replicate (c : Nat) (e : MapEntry V) :
    ¬ Holds c (slot (List.replicate c (none : Option (MapEntry V)))) e := by
  rintro ⟨i, -, he⟩
  rw [slot_replicate] at he
  exact absurd he (by simp)

theorem Inv.not_holds (h : Inv m) (h0 : m.count = 0) (e : MapEntry V) : ¬ m.Holds e := by
  rw [ObjMap.Holds, h.table.holds_iff]
  intro he
  have hpos := countP_pos_iff.mpr ⟨some e, he, isSome_some⟩
  rw [← h.count_eq] at hpos
  omega

theorem sixteen_le_two_pow (hk : 4 ≤ k) : 16 ≤ 2 ^ k :=
  Nat.pow_le_pow_right (show 0 < 2 by decide) hk

theorem objMapAdjustCapacity_spec (h : Inv m) (h4 : 4 ≤ k) (h29 : k ≤ 29)
    (hload : m.count ≤ 2 ^ k * 3 / 4) : ∃ m', objMapAdjustCapacity m (2 ^ k) = .ok m' ∧ Inv m' ∧ m'.count = m.count ∧
      m'.capacity = 2 ^ k ∧ SameEntries m m' := by
  have h16 := sixteen_le_two_pow h4
  have hzero : (List.replicate (2 ^ k) (none : Option (MapEntry V))).countP isSome = 0 := by
    rw [countP_replicate]
    rfl
  have hroom : 0 + m.slots.countP isSome < 2 ^ k := by
    rw [← h.count_eq]
    omega
  have hmem := h.table.holds_iff
  have hempty := not_holds_replicate (V := V) (2 ^ k)
  obtain ⟨m', hrun, hcap, htable, hcount, hused, hn, hholds⟩ :=
    rehashLoop_spec rfl (m := ⟨List.replicate (2 ^ k) none, 2 ^ k, 0, 0⟩) rfl (isTable_replicate _)
      hzero.symm rfl hroom h.table.slotKeys_nodup fun e he =>
        ⟨h.table.hashed e ((hmem e).mpr he), fun e' he' => absurd he' (hempty e')⟩
  have hcnt : m'.count = m.count := by
    rw [hn, h.count_eq]
    exact Nat.zero_add _
  refine ⟨m', ?_, ⟨hcap.symm ▸ htable, ⟨k, h4, h29, hcap⟩, hcount, hused, ?_⟩, hcnt, hcap, fun e => ?_⟩
  · rw [objMapAdjustCapacity, if_neg (by omega), if_neg (by simp), hrun]
  · rw [hcnt, hcap]
    exact hload
  · rw [hcap, hholds, hmem]
    exact or_iff_right (hempty e)

theorem int_ok {x : Nat} (h : x ≤ 2147483647) : int x = .ok x := if_pos h

theorem growCapacity_spec {needed : Nat} (hk : k ≤ 29) (hle : needed ≤ 2 ^ k * 3 / 4 + 1) :
    growCapacity needed 32 (2 ^ k) = if k < 29 then .ok (2 ^ (k + 1)) else .error .overflow := by
  have hpow : 2 ^ k ≤ 2 ^ 29 := Nat.pow_le_pow_right (by decide) hk
  have hpos := Nat.two_pow_pos k
  rw [growCapacity, int_ok (by omega)]
  by_cases hlt : k < 29
  · have hpow' : 2 ^ k ≤ 2 ^ 28 := Nat.pow_le_pow_right (by decide) (by omega)
    change (do let load ← int (2 ^ k * 2 * 3); _) = _
    rw [int_ok (by omega), if_pos hlt]
    change (if 2 ^ k * 2 * 3 / 4 < needed then _ else _) = _
    rw [if_neg (by omega), Nat.pow_succ]
  · have heq : k = 29 := by omega
    subst heq
    rfl

/-- Three quarters of the largest capacity an `int` can triple. -/
def maxCount : Nat := 402653184

theorem objMapEnsureCapacity_spec (h : Inv m) : if m.count < maxCount then
      ∃ m', objMapEnsureCapacity m 1 = .ok m' ∧ Inv m' ∧ m'.count = m.count ∧
        m.count + 1 ≤ m'.capacity * 3 / 4 ∧ SameEntries m m'
    else objMapEnsureCapacity m 1 = .error .overflow := by
  obtain ⟨k, h4, h29, hcap⟩ := h.capacity_eq
  have hpow : 2 ^ k ≤ 2 ^ 29 := Nat.pow_le_pow_right (by decide) h29
  have h16 := sixteen_le_two_pow h4
  have hload := h.load
  have hused := h.used_eq
  have hdef : objMapEnsureCapacity m 1 =
      if m.count + 1 ≤ 2 ^ k * 3 / 4 ∧ m.used ≤ 2 ^ k * 3 / 4 then .ok m
      else if 2 ^ k * 3 / 4 < m.count + 1 then
        growCapacity (m.count + 1) 32 (2 ^ k) >>= objMapAdjustCapacity m
      else objMapAdjustCapacity m (2 ^ k) := by
    rw [objMapEnsureCapacity, hcap, int_ok (by omega), int_ok (by omega)]
    rfl
  rw [hdef]
  by_cases hfit : m.count + 1 ≤ 2 ^ k * 3 / 4
  · rw [if_pos (show m.count < maxCount by unfold maxCount; omega), if_pos ⟨hfit, by omega⟩]
    exact ⟨m, rfl, h, rfl, hcap.symm ▸ hfit, fun e => Iff.rfl⟩
  · have hfull : ¬ (m.count + 1 ≤ 2 ^ k * 3 / 4 ∧ m.used ≤ 2 ^ k * 3 / 4) := fun hh => hfit hh.1
    rw [if_neg hfull, if_pos (show 2 ^ k * 3 / 4 < m.count + 1 by omega), growCapacity_spec h29 (by omega)]
    by_cases hlt : k < 29
    · have hpow' : 2 ^ k ≤ 2 ^ 28 := Nat.pow_le_pow_right (by decide) (by omega)
      rw [if_pos (show m.count < maxCount by unfold maxCount; omega), if_pos hlt]
      obtain ⟨m', hrun, hinv, hcount, hcap', hsame⟩ :=
        objMapAdjustCapacity_spec h (show 4 ≤ k + 1 by omega) (by omega) (by omega)
      exact ⟨m', hrun, hinv, hcount, by omega, hsame⟩
    · have heq : k = 29 := by omega
      subst heq
      rw [if_neg (show ¬ m.count < maxCount by unfold maxCount; omega)]
      rfl

theorem shrinkCapacity_spec {count : Nat} (h4 : 4 ≤ k) (hload : count ≤ 2 ^ k * 3 / 4) :
    ∃ k', 4 ≤ k' ∧ k' ≤ k ∧ shrinkCapacity count (2 ^ k) = 2 ^ k' ∧ count ≤ 2 ^ k' * 3 / 4 := by
  induction k with
  | zero => omega
  | succ k ih =>
    rw [shrinkCapacity]
    split
    next hshrink =>
      have hsucc : 2 ^ (k + 1) = 2 ^ k * 2 := Nat.pow_succ 2 k
      have hk : 4 ≤ k := by
        by_contra hlt
        have : 2 ^ k ≤ 2 ^ 3 := Nat.pow_le_pow_right (by decide) (by omega)
        omega
      obtain ⟨k', hk4, hle, heq, hcount⟩ := ih hk (by omega)
      refine ⟨k', hk4, by omega, ?_, hcount⟩
      rw [← heq, hsucc, Nat.mul_div_cancel _ (by decide)]
    next => exact ⟨k + 1, h4, Nat.le_refl _, rfl, hload⟩

theorem objMapMaybeCompactAfterDelete_spec (h : Inv m) :
    ∃ m', objMapMaybeCompactAfterDelete m = .ok m' ∧ Inv m' ∧ m'.count = m.count ∧ SameEntries m m' := by
  obtain ⟨k, h4, h29, hcap⟩ := h.capacity_eq
  have h16 := sixteen_le_two_pow h4
  have hload := h.load
  rw [hcap] at hload
  rw [objMapMaybeCompactAfterDelete, hcap, if_neg (by omega)]
  split
  next h0 =>
    split
    next =>
      obtain ⟨m', hrun, hinv, hcount, -, hsame⟩ :=
        objMapAdjustCapacity_spec h (Nat.le_refl 4) (by decide) (by omega)
      exact ⟨m', hrun, hinv, hcount, hsame⟩
    next =>
      refine ⟨_, rfl, ⟨isTable_replicate _, ⟨k, h4, h29, rfl⟩, ?_, h0.symm, hload⟩, rfl, fun e => ?_⟩
      · simp [h0, countP_replicate]
      · exact iff_of_false (not_holds_replicate _ e) (h.not_holds h0 e)
  next h0 =>
    obtain ⟨k', hk4, hle, heq, hcount⟩ := shrinkCapacity_spec h4 hload
    simp only [heq]
    split
    next =>
      split
      next =>
        obtain ⟨m', hrun, hinv, hcnt, -, hsame⟩ := objMapAdjustCapacity_spec h hk4 (by omega) hcount
        exact ⟨m', hrun, hinv, hcnt, hsame⟩
      next => exact ⟨m, rfl, h, rfl, fun e => Iff.rfl⟩
    next => exact ⟨m, rfl, h, rfl, fun e => Iff.rfl⟩

end Tablo.Vm
