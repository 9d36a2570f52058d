import Tablo.ObjMapCapacity

/-! Set, lookup and delete: each keeps the invariant and changes the stored
entries as a partial function would. -/

namespace Tablo.Vm

open LinearProbing Function Option

variable {V : Type} {m m' : ObjMap V} {f : MapKey → Option V} {key : MapKey} {e : MapEntry V}
  {slots : List (Option (MapEntry V))} {j : Nat}

def Represents (m : ObjMap V) (f : MapKey → Option V) : Prop :=
  ∀ key v, f key = some v ↔ ∃ e, Holds m.capacity (slot m.slots) e ∧ e.key = key ∧ e.value = v

theorem Represents.same (h : Represents m f) (hs : SameEntries m m') : Represents m' f := by
  intro key v
  rw [h key v]
  simp only [hs _]

theorem Represents.eq_none (h : Represents m f) (hnew : ∀ e, m.Holds e → e.key ≠ key) : f key = none := by
  cases hf : f key with
  | none => rfl
  | some v =>
    obtain ⟨e, he, hk, -⟩ := (h key v).mp hf
    exact absurd hk (hnew e he)

/-- The entry of one key is written or removed. -/
theorem Represents.alter (h : Represents m f) (new : Option (MapEntry V)) (hkey : ∀ e, new = some e → e.key = key)
    (hh : ∀ e, m'.Holds e ↔ new = some e ∨ m.Holds e ∧ e.key ≠ key) :
    Represents m' (update f key (new.map (·.value))) := by
  intro key' v
  by_cases hk : key' = key
  · subst hk
    rw [update_self, map_eq_some_iff]
    constructor
    · rintro ⟨e, he, hv⟩
      exact ⟨e, (hh e).mpr (.inl he), hkey e he, hv⟩
    · rintro ⟨e, he, hk, hv⟩
      exact ⟨e, ((hh e).mp he).resolve_right fun hold => hold.2 hk, hv⟩
  · rw [update_of_ne hk, h key' v]
    refine exists_congr fun e => and_congr_left fun ⟨hke, _⟩ => ?_
    have hne : e.key ≠ key := hke ▸ hk
    refine Iff.trans ?_ (hh e).symm
    exact ⟨fun he => .inr ⟨he, hne⟩, fun he => (he.resolve_left fun hn => hne (hkey e hn)).1⟩

theorem Inv.count_lt (h : Inv m) : m.slots.countP isSome < m.capacity := by
  obtain ⟨k, h4, -, hcap⟩ := h.capacity_eq
  have h16 := sixteen_le_two_pow h4
  have hload := h.load
  rw [← h.count_eq]
  omega

/-- A search ends at the slot of its key, or at an empty slot with the key
stored nowhere. -/
theorem objMapFindSlot_spec (h : Inv m) (path : KeyPath) : ∃ j < m.capacity,
      (∃ e, objMapFindSlot m path.hash path.equals = .ok (j, true) ∧ slot m.slots j = some e ∧ e.key = path.stored) ∨
      (objMapFindSlot m path.hash path.equals = .ok (j, false) ∧ slot m.slots j = none ∧
        (∀ e, m.Holds e → e.key ≠ path.stored) ∧
        Taken m.capacity (slot m.slots) (home m.capacity path.hash) j) := by
  obtain ⟨k, -, -, hcap⟩ := h.capacity_eq
  have hhit : ∀ e, m.Holds e →
      ((e.hash == path.hash && path.equals e.key) = true ↔ e.key = path.stored) := by
    intro e he
    rw [Bool.and_eq_true, beq_iff_eq, path.equals_iff, h.table.hashed e he, path.hash_eq]
    exact and_iff_right_of_imp fun hk => by rw [hk]
  obtain ⟨j, hj, hrun, hfound⟩ := findSlot_spec hcap h.table h.count_lt path.stored _ hhit
  rw [← path.hash_eq] at hrun hfound
  refine ⟨j, hj, ?_⟩
  rcases hfound with ⟨e, he, hk⟩ | ⟨hnone, hnew, hpath⟩
  · rw [he] at hrun
    exact .inl ⟨e, hrun, he, hk⟩
  · rw [hnone] at hrun
    exact .inr ⟨hrun, hnone, hnew, hpath⟩

theorem lookupAt_spec (h : Inv m) (hf : Represents m f) (path : KeyPath) : lookupAt m path = .ok (f path.stored) := by
  obtain ⟨j, hj, ⟨e, hrun, he, hk⟩ | ⟨hrun, -, hnew, -⟩⟩ := objMapFindSlot_spec h path
  · have hv : f path.stored = some e.value := (hf _ _).mpr ⟨e, ⟨j, hj, he⟩, hk, rfl⟩
    rw [lookupAt, hrun, hv]
    change Except.ok (if true = true then (slot m.slots j).map (·.value) else none) = _
    rw [he]
    rfl
  · rw [lookupAt, hrun, hf.eq_none hnew]
    rfl

theorem modify_eq_set (he : slot slots j = some e) (v : V) :
    slots.modify j (Option.map fun e => { e with value := v }) = slots.set j (some { e with value := v }) := by
  have hj : j < slots.length := by
    by_contra hge
    rw [slot, List.getD_eq_default slots none (by omega)] at he
    exact absurd he (by simp)
  rw [slot, List.getD_eq_getElem slots none hj] at he
  rw [List.modify_eq_set_getElem? , List.getElem?_eq_getElem hj, he]
  rfl

/-- Setting a key adds or replaces its value, unless an `int` has no room to
grow the table. -/
theorem setAt_spec (h : Inv m) (hf : Represents m f) (path : KeyPath) (v : V) : if m.count < maxCount then
      ∃ m', setAt m path v = .ok m' ∧ Inv m' ∧ Represents m' (update f path.stored (some v))
    else setAt m path v = .error .overflow := by
  have hens := objMapEnsureCapacity_spec h
  split at hens
  next hlt =>
    rw [if_pos hlt]
    obtain ⟨m₁, hrun₁, hinv, hcount, hroom, hsame⟩ := hens
    have hf₁ := hf.same hsame
    obtain ⟨j, hj, ⟨e, hrun, he, hk⟩ | ⟨hrun, hnone, hnew, hpath⟩⟩ := objMapFindSlot_spec hinv path
    · obtain ⟨htable, hholds⟩ := hinv.table.replace hj he v
      have hlen : j < m₁.slots.length := hinv.table.length_eq.symm ▸ hj
      refine ⟨⟨m₁.slots.set j (some { e with value := v }), m₁.capacity, m₁.count, m₁.used⟩, ?_,
        ⟨htable, hinv.capacity_eq, ?_, hinv.used_eq, hinv.load⟩, ?_⟩
      · rw [setAt, hrun₁]
        change Except.bind (objMapFindSlot m₁ path.hash path.equals) _ = _
        rw [hrun, ← modify_eq_set he v]
        rfl
      · rw [countP_set_some hlen, if_neg (by simp [he]), hinv.count_eq]
      · rw [← hk]
        exact hf₁.alter (some { e with value := v }) (fun e' he' => by rw [← Option.some.inj he']) fun e' => by
          rw [some_inj, eq_comm]
          exact hholds e'
    · obtain ⟨htable, hholds⟩ := hinv.table.insert (e := ⟨path.hash, path.stored, v⟩) hj path.hash_eq hnone hnew hpath
      have hlen : j < m₁.slots.length := hinv.table.length_eq.symm ▸ hj
      refine ⟨⟨m₁.slots.set j (some ⟨path.hash, path.stored, v⟩), m₁.capacity, m₁.count + 1,
        m₁.used + 1⟩, ?_, ⟨htable, hinv.capacity_eq, ?_, ?_, ?_⟩, ?_⟩
      · rw [setAt, hrun₁]
        change Except.bind (objMapFindSlot m₁ path.hash path.equals) _ = _
        rw [hrun]
        rfl
      · rw [countP_set_some hlen, if_pos hnone, hinv.count_eq]
      · exact congrArg (· + 1) hinv.used_eq
      · dsimp only
        omega
      · refine hf₁.alter (some ⟨path.hash, path.stored, v⟩) (fun e' he' => by rw [← Option.some.inj he']) fun e' => ?_
        rw [some_inj, eq_comm]
        exact (hholds e').trans (or_congr_right ⟨fun he' => ⟨he', hnew e' he'⟩, fun he' => he'.1⟩)
  next hge =>
    rw [if_neg hge, setAt, hens]
    rfl

/-- The shifting loop ends with a hole that can be emptied, having moved
entries but lost none. -/
theorem backshiftLoop_spec {c k : Nat} (hc : c = 2 ^ k) (hk : k ≤ 32) (h1 : 1 < c) {fuel : Nat} {hole pos z : Nat}
    (hlen : slots.length = c)
    (hs : Shifting c (fun e => home c e.hash) (slot slots) hole pos)
    (hd : Distinct c MapEntry.key (update (slot slots) hole none))
    (hstale : slot slots hole ≠ none) (hz : z < c) (hzn : slot slots z = none)
    (hzp : gap c hole pos ≤ gap c hole z) (hfuel : gap c pos z < fuel) :
    ∃ slots' hole', backshiftLoop (c - 1) fuel slots hole pos = .ok (slots', hole') ∧
      slots'.length = c ∧ hole' < c ∧ slot slots' hole' ≠ none ∧
      slots'.countP isSome = slots.countP isSome ∧
      Reachable c (fun e => home c e.hash) (update (slot slots') hole' none) ∧
      Distinct c MapEntry.key (update (slot slots') hole' none) ∧
      ∀ e, Holds c (update (slot slots') hole' none) e ↔
        Holds c (update (slot slots) hole none) e := by
  induction fuel generalizing slots hole pos with
  | zero => omega
  | succ fuel ih =>
    cases he : slot slots pos with
    | none =>
      refine ⟨slots, hole, by simp [backshiftLoop, he], hlen, hs.hole_lt, hstale, rfl, ?_, hd, fun e => Iff.rfl⟩
      exact hs.finish (fun i _ e _ => home_lt hc _) he
    | some e =>
      have hpz : pos ≠ z := by
        rintro rfl
        rw [hzn] at he
        exact absurd he (by simp)
      have hgap := gap_next hs.pos_lt hz hpz
      have hsub₁ := maskedSub_eq hc hk hs.hole_lt (home_lt hc e.hash)
      have hsub₂ := maskedSub_eq hc hk hs.pos_lt (home_lt hc e.hash)
      rw [backshiftLoop, he]
      dsimp only
      rw [show e.hash.toNat &&& (c - 1) = home c e.hash from rfl, hsub₁, hsub₂, mask_succ hc hs.pos_lt]
      by_cases hcut : gap c (home c e.hash) hole < gap c (home c e.hash) pos
      · have hset := slot_set (hlen.symm ▸ hs.hole_lt) (some e)
        have hzh : z ≠ hole := by
          rintro rfl
          exact hstale hzn
        obtain ⟨slots', hole', hrun, hlen', hlt', hst', hcnt', hr', hd', hh'⟩ :=
          ih (show (slots.set hole (some e)).length = c by rw [List.length_set, hlen])
            (hset ▸ hs.move h1 he hcut) (hset ▸ hd.move hs.pos_lt hs.pos_ne he)
            (by rw [hset, update_of_ne hs.pos_ne, he]; simp)
            (by rw [hset, update_of_ne hzh, hzn])
            (by rw [gap_self_next h1]; omega) (by omega)
        refine ⟨slots', hole', by rw [if_pos hcut, hrun], hlen', hlt', hst', ?_, hr', hd', fun e' => ?_⟩
        · rw [hcnt', countP_set_some (hlen.symm ▸ hs.hole_lt), if_neg hstale]
        · rw [hh', hset]
          exact holds_move hs.pos_lt hs.hole_lt hs.pos_ne he hd
      · have hne : gap c hole pos ≠ gap c hole z := fun heq => hpz (gap_inj hs.hole_lt hs.pos_lt hz heq)
        have hzlt := gap_lt hs.hole_lt hz
        rcases gap_succ (p := pos) hs.hole_lt with ⟨-, hlast⟩ | ⟨hnext, hsucc⟩
        · omega
        obtain ⟨slots', hole', hrun, hrest⟩ :=
          ih hlen (hs.skip he hcut hnext) hd hstale hzn (by omega) (by omega)
        exact ⟨slots', hole', by rw [if_neg hcut, hrun], hrest⟩

theorem objMapBackshiftDeleteAt_spec (h : Inv m) (hj : j < m.capacity) (he : slot m.slots j = some e) :
    ∃ m', objMapBackshiftDeleteAt m j = .ok m' ∧ Inv m' ∧
      ∀ e', m'.Holds e' ↔ m.Holds e' ∧ e'.key ≠ e.key := by
  obtain ⟨k, h4, h29, hcap⟩ := h.capacity_eq
  obtain ⟨z, hz, hzn⟩ := h.table.exists_none h.count_lt
  have hjz : j ≠ z := by
    rintro rfl
    rw [hzn] at he
    exact absurd he (by simp)
  have hpos : gap m.capacity j z ≠ 0 := fun h0 => hjz (gap_eq_zero hj h0)
  obtain ⟨slots', hole', hrun, hlen, hlt, hst, hcnt, hr, hd, hh⟩ :=
    backshiftLoop_spec hcap (by omega) (by omega) h.table.length_eq
      (Shifting.start h.table.reach hj (by omega)) (h.table.distinct.erase j) (by simp [he]) hz hzn
      (by rw [gap_self_next (by omega)]; omega) (gap_lt (next_lt hj) hz)
  have hset := slot_set (hlen.symm ▸ hlt) (none : Option (MapEntry V))
  have hholds : ∀ e', Holds m.capacity (slot (slots'.set hole' none)) e' ↔ m.Holds e' ∧ e'.key ≠ e.key := by
    intro e'
    rw [hset, hh]
    exact holds_erase h.table.distinct hj he
  refine ⟨⟨slots'.set hole' none, m.capacity, m.count - 1, m.used - 1⟩, ?_,
    ⟨⟨by rw [List.length_set, hlen], hset ▸ hr, hset ▸ hd, fun e' he' => ?_⟩, h.capacity_eq, ?_, ?_, ?_⟩,
    hholds⟩
  · rw [objMapBackshiftDeleteAt]
    rw [mask_succ hcap hj, hrun]
    rfl
  · exact h.table.hashed e' ((hholds e').mp he').1
  · rw [countP_set_none (hlen.symm ▸ hlt) hst, hcnt, h.count_eq]
  · exact congrArg (· - 1) h.used_eq
  · have hload := h.load
    dsimp only
    omega

theorem deleteAt_spec (h : Inv m) (hf : Represents m f) (path : KeyPath) :
    ∃ m', deleteAt m path = .ok m' ∧ Inv m' ∧ Represents m' (update f path.stored none) := by
  obtain ⟨j, hj, ⟨e, hrun, he, hk⟩ | ⟨hrun, -, hnew, -⟩⟩ := objMapFindSlot_spec h path
  · obtain ⟨m₁, hrun₁, hinv₁, hholds⟩ := objMapBackshiftDeleteAt_spec h hj he
    obtain ⟨m₂, hrun₂, hinv₂, -, hsame⟩ := objMapMaybeCompactAfterDelete_spec hinv₁
    refine ⟨m₂, ?_, hinv₂, (hf.alter none (by simp) (by simpa [hk] using hholds)).same hsame⟩
    rw [deleteAt, hrun]
    change (do let m' ← objMapBackshiftDeleteAt m j; objMapMaybeCompactAfterDelete m') = _
    rw [hrun₁]
    exact hrun₂
  · refine ⟨m, ?_, h, ?_⟩
    · rw [deleteAt, hrun]
      rfl
    · rw [← hf.eq_none hnew, update_eq_self]
      exact hf

end Tablo.Vm
