import Mathlib.Logic.Function.Iterate
import Tablo.BitsetCorrect

/-! The bloom filters of `bloom.tblo`. A value is what `bloomNormalizePayload` makes of it, the
bytes of its JSON text or an error; an error is its context. -/

namespace Tablo.Bloom

open Bitset

abbrev Payload := List (BitVec 8)

def bloomHashMod : Int := 1073741789

def bloomNormalizeMod (value mod : Int) : Int :=
  if value.tmod mod < 0 then value.tmod mod + mod else value.tmod mod

def hashALoop (h i : Int) : Payload → Int
  | [] => h
  | byte :: rest =>
    let mix := bloomNormalizeMod (byte.toNat + i + 11) bloomHashMod
    let h := bloomNormalizeMod (h + mix) bloomHashMod
    let h := bloomNormalizeMod (h + h + 3) bloomHashMod
    hashALoop (bloomNormalizeMod (h.xor mix + 17) bloomHashMod) (i + 1) rest

def bloomHashA (payload : Payload) (seed : Int) : Int :=
  bloomNormalizeMod (hashALoop (bloomNormalizeMod (seed + 97) bloomHashMod) 0 payload + payload.length + 1)
    bloomHashMod

def hashBLoop (h i : Int) : Payload → Int
  | [] => h
  | byte :: rest =>
    let mix := bloomNormalizeMod (byte.toNat + i * 3 + 29) bloomHashMod
    let h := h.xor mix
    let h := bloomNormalizeMod (h + h + h + 5) bloomHashMod
    hashBLoop (bloomNormalizeMod (h + mix + 13) bloomHashMod) (i + 1) rest

def bloomHashB (payload : Payload) (seed : Int) : Int :=
  bloomNormalizeMod (hashBLoop (bloomNormalizeMod (seed + 131) bloomHashMod) 0 payload + payload.length * 7 + 19)
    bloomHashMod

structure BloomStore where
  bits : BitsetStore
  bitLength : Int
  hashCount : Int
  itemCount : Int

structure Probe where
  index : Int
  step : Int
  delta : Int

/-- Steps and deltas are brought below the length again, and are not zero. -/
def wrap (step bitLength : Int) : Int :=
  let step := if step ≥ bitLength then step - bitLength else step
  if step = 0 then 1 else step

def bloomHashLoopInit (bitLength : Int) (payload : Payload) : Probe :=
  let h1 := bloomHashA payload 135791113
  let h2 := bloomHashB payload 975318642
  ⟨bloomNormalizeMod h1 bitLength, wrap (bloomNormalizeMod h2 bitLength + 1) bitLength,
    wrap (bloomNormalizeMod (h1.xor h2) bitLength + 1) bitLength⟩

/-- Both loops have a copy of this at the end of their bodies. -/
def bloomHashLoopAdvance (bitLength : Int) (p : Probe) : Probe :=
  ⟨if p.index + p.step ≥ bitLength then p.index + p.step - bitLength else p.index + p.step,
    wrap (p.step + p.delta) bitLength, p.delta⟩

section Filters

def bloomDefaultStore : BloomStore := ⟨bitsetDefaultStore, 0, 0, 0⟩

def bloomNew (maxArraySize bitLength hashCount : Int) : BloomStore × Option String :=
  if bitLength < 8 ∨ bitLength > 100000000 then (bloomDefaultStore, some "bloom.config.bitLength")
  else if hashCount < 1 ∨ hashCount > 64 then (bloomDefaultStore, some "bloom.config.hashCount")
  else match bitsetNew maxArraySize bitLength with
    | (_, some _) => (bloomDefaultStore, some "bloom.new.bitsetNew")
    | (bits, none) => (⟨bits, bitLength, hashCount, 0⟩, none)

def bloomBitsetHasFast (bits : BitsetStore) (index : Int) : Result (Bool × Option BitsetError) :=
  if index < 0 ∨ bits.bitLength ≤ index then bitsetHas bits index
  else if index.tdiv bitsetWordBits < 0 ∨ bits.words.length ≤ index.tdiv bitsetWordBits then bitsetHas bits index
  else do
    let p ← bitPlace bits index
    return (p.word.land p.mask ≠ 0, none)

def bloomBitsetSetFast (bits : BitsetStore) (index : Int) : Result (BitsetStore × Bool × Option BitsetError) :=
  if index < 0 ∨ bits.bitLength ≤ index then bitsetSet bits index
  else if index.tdiv bitsetWordBits < 0 ∨ bits.words.length ≤ index.tdiv bitsetWordBits then bitsetSet bits index
  else do
    let p ← bitPlace bits index
    if p.word.land p.mask ≠ 0 then return (bits, false, none)
    else
      let words ← arraySet bits.words p.wordI (p.word.lor p.mask)
      return ({ bits with words, setCount := bits.setCount + 1 }, true, none)

def hasLoop (store : BloomStore) : Nat → Probe → Result (Bool × Option String)
  | 0, _ => .ok (true, none)
  | left + 1, p => do
    let r ← bloomBitsetHasFast store.bits p.index
    if r.2.isSome then return (false, some "bloom.maybeHas.bitsetHasFast")
    else if r.1 then hasLoop store left (bloomHashLoopAdvance store.bitLength p)
    else return (false, none)

variable (store : BloomStore)

def bloomMaybeHas : Except String Payload → Result (Bool × Option String)
  | .error e => .ok (false, some e)
  | .ok payload => hasLoop store store.hashCount.toNat (bloomHashLoopInit store.bitLength payload)

def addLoop : Nat → Probe → BloomStore → Int → Result (BloomStore × Int × Option String)
  | 0, _, next, changed => .ok (next, changed, none)
  | left + 1, p, next, changed => do
    let r ← bloomBitsetSetFast next.bits p.index
    if r.2.2.isSome then return (next, changed, some "bloom.add.bitsetSetFast")
    else
      let changed := if r.2.1 then changed + 1 else changed
      addLoop left (bloomHashLoopAdvance next.bitLength p) { next with bits := r.1 } changed

def bloomAdd : Except String Payload → Result (BloomStore × Bool × Option String)
  | .error e => .ok (store, false, some e)
  | .ok payload => do
    let r ← addLoop store.hashCount.toNat (bloomHashLoopInit store.bitLength payload) store 0
    if r.2.2.isSome then return (r.1, false, r.2.2)
    else if r.2.1 > 0 then return ({ r.1 with itemCount := r.1.itemCount + 1 }, true, none)
    else return (r.1, false, none)

def bloomUnion (maxArraySize : Int) (left right : BloomStore) : Result (BloomStore × Option String) :=
  if left.bitLength ≠ right.bitLength ∨ left.hashCount ≠ right.hashCount then
    .ok (bloomDefaultStore, some "bloom.union.config")
  else do
    let r ← bitsetUnion maxArraySize left.bits right.bits
    if r.2.isSome then return (bloomDefaultStore, some "bloom.union.bitsetUnion")
    else
      let count := left.itemCount + right.itemCount
      return (⟨r.1, left.bitLength, left.hashCount,
        if count < left.itemCount ∨ count < right.itemCount then 2147483647 else count⟩, none)

def bloomSetBitCount : Int := bitsetCount store.bits

end Filters

/-- The filters that programs make from the lengths they ask for, and what was
added to them or to the filters they are unions of. -/
inductive Built (maxArraySize : Int) (lengths : Set Int) : BloomStore → List Payload → Prop
  | new {n hashCount : Int} {store : BloomStore} (hn : n ∈ lengths)
      (h : bloomNew maxArraySize n hashCount = (store, none)) : Built maxArraySize lengths store []
  | add {store next : BloomStore} {added : List Payload} {p : Payload} {new : Bool}
      (h : Built maxArraySize lengths store added) (ha : bloomAdd store (.ok p) = .ok (next, new, none)) :
      Built maxArraySize lengths next (p :: added)
  | union {left right out : BloomStore} {added more : List Payload} (hl : Built maxArraySize lengths left added)
      (hr : Built maxArraySize lengths right more) (hu : bloomUnion maxArraySize left right = .ok (out, none)) :
      Built maxArraySize lengths out (added ++ more)

def indexAt (bitLength : Int) (payload : Payload) (k : Nat) : Int :=
  ((bloomHashLoopAdvance bitLength)^[k] (bloomHashLoopInit bitLength payload)).index

structure Sound (store : BloomStore) (added : List Payload) : Prop where
  member : ∀ p ∈ added, bloomMaybeHas store (.ok p) = .ok (true, none)
  query : ∀ p, ∃ found, bloomMaybeHas store (.ok p) = .ok (found, none)
  add : ∀ p, ∃ next new, bloomAdd store (.ok p) = .ok (next, new, none)
  range : ∀ p k, 0 ≤ indexAt store.bitLength p k ∧ indexAt store.bitLength p k < store.bitLength
  count : ∃ s, Represents store.bits s ∧ bloomSetBitCount store = s.members.card

structure InRange (bitLength : Int) (p : Probe) : Prop where
  index : 0 ≤ p.index ∧ p.index < bitLength
  step : 1 ≤ p.step ∧ p.step < bitLength
  delta : 1 ≤ p.delta ∧ p.delta < bitLength

variable {n : Int} {p : Probe}

theorem normalizeMod_range (hn : 0 < n) (value : Int) :
    0 ≤ bloomNormalizeMod value n ∧ bloomNormalizeMod value n < n := by
  have hlt := Int.tmod_lt_of_pos value hn
  have hgt := Int.lt_tmod_of_pos value hn
  rw [bloomNormalizeMod]
  split <;> omega

theorem wrap_range (hn : 8 ≤ n) {step : Int} (h : 1 ≤ step ∧ step < 2 * n) : 1 ≤ wrap step n ∧ wrap step n < n := by
  simp only [wrap]
  split_ifs <;> omega

theorem inRange_init (hn : 8 ≤ n) (payload : Payload) : InRange n (bloomHashLoopInit n payload) := by
  have hrange := @normalizeMod_range n (by omega)
  refine ⟨hrange _, wrap_range hn ?_, wrap_range hn ?_⟩
  · have := hrange (bloomHashB payload 975318642)
    omega
  · have := hrange ((bloomHashA payload 135791113).xor (bloomHashB payload 975318642))
    omega

theorem InRange.advance (hn : 8 ≤ n) (h : InRange n p) : InRange n (bloomHashLoopAdvance n p) := by
  obtain ⟨hi, hs, hd⟩ := h
  refine ⟨?_, wrap_range hn ?_, hd⟩
  · dsimp only [bloomHashLoopAdvance]
    split <;> omega
  · omega

theorem InRange.iterate (hn : 8 ≤ n) (h : InRange n p) (k : Nat) : InRange n ((bloomHashLoopAdvance n)^[k] p) := by
  induction k with
  | zero => exact h
  | succ k ih =>
    rw [Function.iterate_succ_apply']
    exact ih.advance hn

theorem bloomBitsetHasFast_eq (bits : BitsetStore) (index : Int) :
    bloomBitsetHasFast bits index = bitsetHas bits index := by
  rw [bloomBitsetHasFast, bitsetHas]
  split_ifs <;> rfl

theorem bloomBitsetSetFast_eq (bits : BitsetStore) (index : Int) :
    bloomBitsetSetFast bits index = bitsetSet bits index := by
  rw [bloomBitsetSetFast, bitsetSet]
  split_ifs <;> rfl

variable {maxArraySize : Int} {store : BloomStore} {added : List Payload} {s : IndexSet}

/-- The places of all that was added are taken. -/
structure Covers (maxArraySize : Int) (store : BloomStore) (added : List Payload) (s : IndexSet) : Prop where
  stands : Stands maxArraySize store.bits s
  length : store.bitLength = s.length
  large : 8 ≤ store.bitLength
  taken : ∀ p ∈ added, ∀ k < store.hashCount.toNat, (indexAt store.bitLength p k).toNat ∈ s.members

theorem Covers.hasLoop (h : Covers maxArraySize store added s) (hp : InRange store.bitLength p) (n : Nat) :
    ∃ found, hasLoop store n p = .ok (found, none) ∧
      ((∀ k < n, ((bloomHashLoopAdvance store.bitLength)^[k] p).index.toNat ∈ s.members) → found = true) := by
  induction n generalizing p with
  | zero => exact ⟨true, rfl, fun _ => rfl⟩
  | succ n ih =>
    obtain ⟨ws, hpacks⟩ := h.stands.1
    have hin : 0 ≤ p.index ∧ p.index < s.length := h.length ▸ hp.index
    have hhas := bitsetHas_eq hpacks (show p.index.toNat < s.length by omega)
    rw [Int.toNat_of_nonneg hin.1] at hhas
    obtain ⟨found, hrest, hall⟩ := ih (hp.advance h.large)
    rw [Bloom.hasLoop, bloomBitsetHasFast_eq, hhas]
    by_cases hmem : p.index.toNat ∈ s.members
    · refine ⟨found, ?_, fun h => hall fun k hk => h (k + 1) (by omega)⟩
      simpa [hmem, bind, Except.bind] using hrest
    · refine ⟨false, ?_, fun h => absurd (h 0 (by omega)) hmem⟩
      simp [hmem, bind, Except.bind, pure, Except.pure]

theorem Covers.addLoop (h : Covers maxArraySize store added s) (hp : InRange store.bitLength p) (n : Nat)
    (changed : Int) : ∃ bits t changed', addLoop n p store changed = .ok ({ store with bits }, changed', none) ∧
      Covers maxArraySize { store with bits } added t ∧ s.members ⊆ t.members ∧
      ∀ k < n, ((bloomHashLoopAdvance store.bitLength)^[k] p).index.toNat ∈ t.members := by
  induction n generalizing p store s changed with
  | zero => exact ⟨store.bits, s, changed, rfl, h, subset_rfl, by simp⟩
  | succ n ih =>
    have hin : 0 ≤ p.index ∧ p.index < s.length := h.length ▸ hp.index
    have hlt : p.index.toNat < s.length := by omega
    obtain ⟨bits, hset, hstands⟩ := bitsetSet_agrees _ _ p.index h.stands
    rw [IndexSet.setBit, IndexSet.change, dif_pos hin] at hset hstands
    have hmem := @IndexSet.mem_assign s p.index.toNat true hlt
    have hgrow : s.members ⊆ (s.assign p.index.toNat true hlt).members := by
      intro i hi
      rw [hmem]
      split
      · rfl
      · exact hi
    have hnext : Covers maxArraySize { store with bits } added (s.assign p.index.toNat true hlt) :=
      ⟨hstands, h.length, h.large, fun q hq k hk => hgrow (h.taken q hq k hk)⟩
    obtain ⟨bits', t, changed', hrest, hcovers, hsub, hall⟩ := ih hnext (hp.advance h.large)
      (if !decide (p.index.toNat ∈ s.members) then changed + 1 else changed)
    refine ⟨bits', t, changed', ?_, hcovers, hgrow.trans hsub, ?_⟩
    · rw [Bloom.addLoop, bloomBitsetSetFast_eq, hset]
      exact hrest
    · rintro (_ | k) hk
      · exact hsub ((hmem _).mpr (by simp))
      · exact hall k (by omega)

variable {left right : BloomStore} {more : List Payload} {t : IndexSet}

theorem Covers.bloomAdd (h : Covers maxArraySize store added s) (p : Payload) : ∃ next new t,
    bloomAdd store (.ok p) = .ok (next, new, none) ∧ Covers maxArraySize next (p :: added) t := by
  obtain ⟨bits, t, changed, hloop, hcovers, hsub, hall⟩ :=
    h.addLoop (inRange_init h.large p) store.hashCount.toNat 0
  have htaken : ∀ q ∈ p :: added, ∀ k < store.hashCount.toNat, (indexAt store.bitLength q k).toNat ∈ t.members :=
    List.forall_mem_cons.mpr ⟨hall, hcovers.taken⟩
  rw [Bloom.bloomAdd, hloop]
  dsimp only [bind, Except.bind]
  rw [if_neg (by simp)]
  split <;> exact ⟨_, _, t, rfl, hcovers.stands, hcovers.length, hcovers.large, htaken⟩

theorem Covers.bloomUnion (hl : Covers maxArraySize left added s) (hr : Covers maxArraySize right more t)
    (hlen : left.bitLength = right.bitLength) (hcount : left.hashCount = right.hashCount) : ∃ out u,
    bloomUnion maxArraySize left right = .ok (out, none) ∧ Covers maxArraySize out (added ++ more) u := by
  have heq : s.length = t.length := by
    have := hl.length
    have := hr.length
    omega
  obtain ⟨⟨ws, hls⟩, hfits⟩ := hl.stands
  obtain ⟨⟨vs, hrs⟩, _⟩ := hr.stands
  obtain ⟨bits, us, hunion, hpacks⟩ := bitsetUnion_eq hls hrs heq hfits
  rw [Bloom.bloomUnion, if_neg (by simp [hlen, hcount]), hunion]
  refine ⟨_, _, rfl, ⟨⟨us, hpacks⟩, hfits⟩, hl.length, hl.large, fun p hp k hk => ?_⟩
  have hin := ((inRange_init hl.large p).iterate hl.large k).index
  refine Finset.mem_filter.mpr ⟨Finset.mem_union.mpr ?_, ?_⟩
  · refine (List.mem_append.mp hp).imp (fun hp => hl.taken p hp k hk) fun hp => ?_
    dsimp only at hk ⊢
    rw [hlen]
    exact hr.taken p hp k (hcount ▸ hk)
  · have := hl.length
    dsimp only [indexAt]
    omega

theorem bloomNew_covers {hashCount : Int} (h : 8 ≤ n → LengthFits maxArraySize n)
    (hnew : bloomNew maxArraySize n hashCount = (store, none)) : ∃ s, Covers maxArraySize store [] s := by
  rw [bloomNew] at hnew
  split_ifs at hnew with hlen
  · cases hnew
  · cases hnew
  · have hn : 1 ≤ n ∧ n ≤ 100000000 := by omega
    obtain ⟨bits, hbits, hstands, -⟩ := bitsetNew_agrees (h (by omega))
    rw [IndexSet.make, if_pos hn] at hbits hstands
    rw [hbits] at hnew
    cases hnew
    exact ⟨_, hstands, (Int.toNat_of_nonneg (show 0 ≤ n by omega)).symm, show 8 ≤ n by omega, by simp⟩

theorem Built.covers {lengths : Set Int} (hfit : ∀ n ∈ lengths, 8 ≤ n → LengthFits maxArraySize n)
    (h : Built maxArraySize lengths store added) : ∃ s, Covers maxArraySize store added s := by
  induction h with
  | new hn h => exact bloomNew_covers (hfit _ hn) h
  | @add store next added p new _ ha ih =>
    obtain ⟨s, hs⟩ := ih
    obtain ⟨next', new', t, ha', ht⟩ := hs.bloomAdd p
    rw [ha] at ha'
    cases ha'
    exact ⟨t, ht⟩
  | @union left right out added more _ _ hu ihl ihr =>
    obtain ⟨s, hs⟩ := ihl
    obtain ⟨t, ht⟩ := ihr
    by_cases hpair : left.bitLength ≠ right.bitLength ∨ left.hashCount ≠ right.hashCount
    · rw [bloomUnion, if_pos hpair] at hu
      cases hu
    · rw [not_or, not_not, not_not] at hpair
      obtain ⟨out', u, hu', hcovers⟩ := hs.bloomUnion ht hpair.1 hpair.2
      rw [hu] at hu'
      cases hu'
      exact ⟨u, hcovers⟩

theorem Covers.sound (h : Covers maxArraySize store added s) : Sound store added := by
  have hrange := inRange_init h.large
  have hquery (p : Payload) := h.hasLoop (hrange p) store.hashCount.toNat
  obtain ⟨ws, hpacks⟩ := h.stands.1
  refine ⟨fun p hp => ?_, fun p => ?_, fun p => ?_, fun p k => ((hrange p).iterate h.large k).index, s,
    ⟨ws, hpacks⟩, hpacks.count⟩
  · obtain ⟨found, hfound, htrue⟩ := hquery p
    exact htrue (h.taken p hp) ▸ hfound
  · obtain ⟨found, hfound, _⟩ := hquery p
    exact ⟨found, hfound⟩
  · obtain ⟨next, new, _, hadd, _⟩ := h.bloomAdd p
    exact ⟨next, new, hadd⟩

theorem bloomAdd_empty (hn : 8 ≤ n) :
    bloomAdd ⟨⟨[], n, 0⟩, n, 1, 0⟩ (.ok []) = .error "Array index out of bounds" := by
  rw [bloomAdd, show (1 : Int).toNat = 0 + 1 from rfl, addLoop, bloomBitsetSetFast_eq,
    bitsetSet_empty (inRange_init hn []).index]
  rfl

/-- Filters of certain lengths have no false negative and can be used without
error, exactly if there can be arrays for those lengths that are accepted. -/
theorem bloom_law (maxArraySize : Int) (lengths : Set Int) :
    ((∀ store added, Built maxArraySize lengths store added → Sound store added) ∧
      ∀ left right added more, Built maxArraySize lengths left added → Built maxArraySize lengths right more →
        left.bitLength = right.bitLength → left.hashCount = right.hashCount →
        ∃ out, bloomUnion maxArraySize left right = .ok (out, none)) ↔
      ∀ n ∈ lengths, 8 ≤ n → LengthFits maxArraySize n := by
  constructor
  · rintro ⟨hsound, _⟩ n hn hlarge
    by_contra hfit
    have hrange : ¬ (n < 8 ∨ n > 100000000) := by
      intro hout
      exact hfit fun _ _ => by omega
    have hnew : bloomNew maxArraySize n 1 = (⟨⟨[], n, 0⟩, n, 1, 0⟩, none) := by
      rw [bloomNew, if_neg hrange, if_neg (by omega), bitsetNew_empty hfit]
    obtain ⟨next, new, hadd⟩ := (hsound _ _ (.new hn hnew)).add []
    rw [bloomAdd_empty hlarge] at hadd
    cases hadd
  · intro hfit
    refine ⟨fun store added h => ?_, fun left right added more hl hr hlen hcount => ?_⟩
    · obtain ⟨s, hs⟩ := h.covers hfit
      exact hs.sound
    · obtain ⟨s, hs⟩ := hl.covers hfit
      obtain ⟨t, ht⟩ := hr.covers hfit
      obtain ⟨out, _, hunion, _⟩ := hs.bloomUnion ht hlen hcount
      exact ⟨out, hunion⟩

/-- One bit more than the default limit has words for. -/
theorem bloomAdd_stops : (bloomNew 1048576 31457281 1).2 = none ∧
    bloomAdd (bloomNew 1048576 31457281 1).1 (.ok []) = .error "Array index out of bounds" :=
  ⟨rfl, rfl⟩

end Tablo.Bloom
