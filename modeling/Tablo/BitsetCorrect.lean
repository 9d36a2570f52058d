import Tablo.BitsetRun

/-! Stores refine sets of numbers, call by call and so in every program. -/

namespace Tablo.Bitset

open IndexSet List Int

def Reply.error? : Reply → Option BitsetError
  | .flag _ e => e
  | .number _ e => e
  | .found _ _ e => e
  | .listed _ _ e => e
  | .made e => e
  | _ => Option.none

def CallerError (e : Option BitsetError) : Prop := ∀ x ∈ e, x.code = .invalidArgument

theorem callerError_none : CallerError none := by
  intro x hx
  cases hx

theorem callerError_some {e : BitsetError} (h : e.code = .invalidArgument) : CallerError (some e) := by
  intro x hx
  cases hx
  exact h

section Refinement

variable {α β : Type} {R : α → β → Prop} {allowed : Creation → Prop} {lib : Interface α} {spec : Interface β}
  {pool : List α} {sets : List β}

def Agrees (R : α → β → Prop) (x : Result (α × Reply)) (y : Result (β × Reply)) : Prop :=
  ∃ a b r, x = .ok (a, r) ∧ y = .ok (b, r) ∧ R a b ∧ CallerError r.error?

def Replies (x y : Result Reply) : Prop := ∃ r, x = .ok r ∧ y = .ok r ∧ CallerError r.error?

structure Refines (R : α → β → Prop) (allowed : Creation → Prop) (lib : Interface α) (spec : Interface β) : Prop where
  create : ∀ c, allowed c → Agrees R (lib.create c) (spec.create c)
  update : ∀ u a b, R a b → Agrees R (lib.update u a) (spec.update u b)
  query : ∀ q a b, R a b → Replies (lib.query q a) (spec.query q b)
  derive : ∀ d a b, R a b → Agrees R (lib.derive d a) (spec.derive d b)
  combine : ∀ c a b a' b', R a b → R a' b' → Agrees R (lib.combine c a a') (spec.combine c b b')
  equals : ∀ a b a' b', R a b → R a' b' → Replies (lib.equals a a') (spec.equals b b')

def Op.Allowed (allowed : Creation → Prop) : Op → Prop
  | .create c => allowed c
  | _ => True

section

variable (h : List.Forall₂ R pool sets)

include h

theorem forall₂_getElem? (r : Nat) :
    pool[r]? = none ∧ sets[r]? = none ∨ ∃ a b, pool[r]? = some a ∧ sets[r]? = some b ∧ R a b := by
  induction h generalizing r with
  | nil => exact .inl ⟨rfl, rfl⟩
  | cons hab _ ih =>
    cases r with
    | zero => exact .inr ⟨_, _, rfl, rfl, hab⟩
    | succ r => exact ih r

theorem forall₂_set (r : Nat) {a : α} {b : β} (hab : R a b) :
    Forall₂ R (pool.set r a) (sets.set r b) := by
  induction h generalizing r with
  | nil => exact .nil
  | cons hd tl ih =>
    cases r with
    | zero => exact .cons hab tl
    | succ r => exact .cons hd (ih r)

theorem forall₂_snoc {a : α} {b : β} (hab : R a b) :
    Forall₂ R (pool ++ [a]) (sets ++ [b]) :=
  rel_append h (.cons hab .nil)

end

def Steps (R : α → β → Prop) (x : Result (Reply × List α)) (y : Result (Reply × List β)) : Prop :=
  ∃ r pool sets, x = .ok (r, pool) ∧ y = .ok (r, sets) ∧ List.Forall₂ R pool sets ∧ CallerError r.error?

theorem Agrees.steps {x : Result (α × Reply)} {y : Result (β × Reply)} (h : Agrees R x y) {f : α → List α}
    {g : β → List β} (hfg : ∀ {a b}, R a b → Forall₂ R (f a) (g b)) :
    Steps R (x.map fun z => (z.2, f z.1)) (y.map fun z => (z.2, g z.1)) := by
  obtain ⟨a, b, r, rfl, rfl, hab, hr⟩ := h
  exact ⟨r, _, _, rfl, rfl, hfg hab, hr⟩

theorem Replies.steps {x y : Result Reply} (h : Replies x y) (hp : Forall₂ R pool sets) :
    Steps R (x.map fun z => (z, pool)) (y.map fun z => (z, sets)) := by
  obtain ⟨r, rfl, rfl, hr⟩ := h
  exact ⟨r, _, _, rfl, rfl, hp, hr⟩

theorem Refines.exec (hlib : Refines R allowed lib spec) (h : Forall₂ R pool sets) (op : Op)
    (ho : op.Allowed allowed) : Steps R (op.exec lib pool) (op.exec spec sets) := by
  have hskip : Steps R (.ok (.none, pool)) (.ok (.none, sets)) := ⟨_, _, _, rfl, rfl, h, callerError_none⟩
  cases op with
  | create c => exact (hlib.create c ho).steps (forall₂_snoc h)
  | update u r =>
    rw [Op.exec, Op.exec]
    rcases forall₂_getElem? h r with ⟨hp, hs⟩ | ⟨a, b, hp, hs, hab⟩ <;> rw [hp, hs]
    · exact hskip
    · exact (hlib.update u a b hab).steps (forall₂_set h r)
  | query q r =>
    rw [Op.exec, Op.exec]
    rcases forall₂_getElem? h r with ⟨hp, hs⟩ | ⟨a, b, hp, hs, hab⟩ <;> rw [hp, hs]
    · exact hskip
    · exact (hlib.query q a b hab).steps h
  | derive d r =>
    rw [Op.exec, Op.exec]
    rcases forall₂_getElem? h r with ⟨hp, hs⟩ | ⟨a, b, hp, hs, hab⟩ <;> rw [hp, hs]
    · exact hskip
    · exact (hlib.derive d a b hab).steps (forall₂_snoc h)
  | combine c left right =>
    rw [Op.exec, Op.exec]
    rcases forall₂_getElem? h left with ⟨hp, hs⟩ | ⟨a, b, hp, hs, hab⟩ <;> rw [hp, hs]
    · exact hskip
    · rcases forall₂_getElem? h right with ⟨hp, hs⟩ | ⟨a', b', hp, hs, hab'⟩ <;> rw [hp, hs]
      · exact hskip
      · exact (hlib.combine c a b a' b' hab hab').steps (forall₂_snoc h)
  | equals left right =>
    rw [Op.exec, Op.exec]
    rcases forall₂_getElem? h left with ⟨hp, hs⟩ | ⟨a, b, hp, hs, hab⟩ <;> rw [hp, hs]
    · exact hskip
    · rcases forall₂_getElem? h right with ⟨hp, hs⟩ | ⟨a', b', hp, hs, hab'⟩ <;> rw [hp, hs]
      · exact hskip
      · exact (hlib.equals a b a' b' hab hab').steps h

theorem Refines.run (hlib : Refines R allowed lib spec) {ops : List Op} (h : Forall₂ R pool sets)
    (ho : ∀ op ∈ ops, op.Allowed allowed) : ∃ replies pool' sets', run lib ops pool = .ok (replies, pool') ∧
      run spec ops sets = .ok (replies, sets') ∧ Forall₂ R pool' sets' ∧
      ∀ r ∈ replies, CallerError r.error? := by
  induction ops generalizing pool sets with
  | nil => exact ⟨[], pool, sets, rfl, rfl, h, by simp⟩
  | cons op ops ih =>
    obtain ⟨r, pool₁, sets₁, hp, hs, h₁, hr⟩ := hlib.exec h op (ho op (by simp))
    obtain ⟨rs, pool₂, sets₂, hps, hss, h₂, hrs⟩ := ih h₁ fun op' hop => ho op' (by simp [hop])
    refine ⟨r :: rs, pool₂, sets₂, ?_, ?_, h₂, forall_mem_cons.mpr ⟨hr, hrs⟩⟩
    · rw [Bitset.run, hp]
      dsimp only [bind, Except.bind]
      rw [hps]
      rfl
    · rw [Bitset.run, hs]
      dsimp only [bind, Except.bind]
      rw [hss]
      rfl

end Refinement

variable {maxArraySize : Int} {store left right : BitsetStore} {s t : IndexSet} {change : Change}
  {spec : IndexSet → Int → IndexSet × Bool × Option BitsetError} {i n : Int} {reply target : Bool → Bool}
  {context : String}

def Stands (maxArraySize : Int) (store : BitsetStore) (s : IndexSet) : Prop :=
  Represents store s ∧ Fits maxArraySize s.length

theorem Represents.bitLength (h : Represents store s) : store.bitLength = s.length := by
  obtain ⟨ws, h⟩ := h
  exact h.bitLength

theorem bitsetValidateIndex_out (h : Represents store s) (hi : ¬ (0 ≤ i ∧ i < s.length)) (context : String) :
    (i < 0 ∨ store.bitLength ≤ i) ∧ bitsetValidateIndex store i context = some (indexError s i context) := by
  have hout : i < 0 ∨ store.bitLength ≤ i := by
    rw [h.bitLength]
    omega
  refine ⟨hout, ?_⟩
  rw [bitsetValidateIndex, if_pos hout, h.bitLength]
  rfl

def ChangeAgrees (maxArraySize : Int) (change : Change)
    (spec : IndexSet → Int → IndexSet × Bool × Option BitsetError) : Prop :=
  ∀ store s i, Stands maxArraySize store s →
    ∃ store', change store i = .ok (store', (spec s i).2) ∧ Stands maxArraySize store' (spec s i).1

/-- A change is right if it is right at the numbers that can be members and an
error elsewhere. -/
theorem changeAgrees_of (hin : ∀ store s ws (n : Nat) (hn : n < s.length), Packs store s ws → ∃ store' ws',
      change store n = .ok (store', reply (decide (n ∈ s.members)), none) ∧
        Packs store' (s.assign n (target (decide (n ∈ s.members))) hn) ws')
    (hout : ∀ store s (i : Int), Represents store s → ¬ (0 ≤ i ∧ i < s.length) →
      change store i = .ok (store, false, some (indexError s i context))) :
    ChangeAgrees maxArraySize change (IndexSet.change target reply context) := by
  rintro store s i ⟨hrep, hfits⟩
  by_cases hi : 0 ≤ i ∧ i < s.length
  · obtain ⟨n, rfl⟩ := eq_ofNat_of_zero_le hi.1
    obtain ⟨ws, hpacks⟩ := hrep
    obtain ⟨store', ws', hchange, hpacks'⟩ := hin store s ws n (by omega) hpacks
    rw [IndexSet.change, dif_pos hi]
    exact ⟨store', hchange, ⟨ws', hpacks'⟩, hfits⟩
  · rw [IndexSet.change, dif_neg hi]
    exact ⟨store, hout store s i hrep hi, hrep, hfits⟩

theorem bitsetSet_agrees : ChangeAgrees maxArraySize bitsetSet setBit := by
  refine changeAgrees_of ?_ ?_
  · intro store s ws n hn h
    obtain ⟨store', ws', hset, hpacks⟩ := bitsetSet_eq h hn
    exact ⟨store', ws', by rw [hset, decide_not], hpacks⟩
  · intro store s i h hi
    obtain ⟨hout, herr⟩ := bitsetValidateIndex_out h hi "bitset.set.index"
    rw [bitsetSet, if_pos hout, herr]

theorem bitsetClear_agrees : ChangeAgrees maxArraySize bitsetClear clearBit := by
  refine changeAgrees_of ?_ ?_
  · intro store s ws n hn h
    exact bitsetClear_eq h hn
  · intro store s i h hi
    obtain ⟨hout, herr⟩ := bitsetValidateIndex_out h hi "bitset.clear.index"
    rw [bitsetClear, if_pos hout, herr]

theorem bitsetToggle_agrees : ChangeAgrees maxArraySize bitsetToggle toggleBit := by
  refine changeAgrees_of ?_ ?_
  · intro store s ws n hn h
    obtain ⟨store', ws', htoggle, hpacks⟩ := bitsetToggle_eq h hn
    rw [decide_not] at htoggle hpacks
    exact ⟨store', ws', htoggle, hpacks⟩
  · intro store s i h hi
    obtain ⟨_, herr⟩ := bitsetValidateIndex_out h hi "bitset.toggle.index"
    rw [bitsetToggle, herr]

/-- The answer of a call that changes a store: that of the set, with no other error than the caller's. -/
def Yields {γ : Type} (maxArraySize : Int) (x : Result (BitsetStore × γ × Option BitsetError))
    (y : IndexSet × γ × Option BitsetError) : Prop :=
  ∃ store', x = .ok (store', y.2) ∧ Stands maxArraySize store' y.1 ∧ CallerError y.2.2

theorem ChangeAgrees.yields (h : ChangeAgrees maxArraySize change (IndexSet.change target reply context)) (i : Int)
    (hs : Stands maxArraySize store s) :
    Yields maxArraySize (change store i) (IndexSet.change target reply context s i) := by
  obtain ⟨store', hrun, hs'⟩ := h store s i hs
  refine ⟨store', hrun, hs', ?_⟩
  rw [IndexSet.change]
  split
  · exact callerError_none
  · exact callerError_some rfl

theorem changeMany_agrees
    (h : ∀ {store s} i, Stands maxArraySize store s → Yields maxArraySize (change store i) (spec s i))
    (is : List Int) (changed : Int) (hs : Stands maxArraySize store s) :
    Yields maxArraySize (changeMany change changed is store) (IndexSet.changeMany spec changed is s) := by
  induction is generalizing changed store s with
  | nil => exact ⟨store, rfl, hs, callerError_none⟩
  | cons i is ih =>
    obtain ⟨store₁, hone, hs₁, he₁⟩ := h i hs
    rw [changeMany, IndexSet.changeMany, hone]
    dsimp only [bind, Except.bind]
    cases he : (spec s i).2.2 with
    | some e =>
      rw [he] at he₁
      exact ⟨store₁, rfl, hs₁, he₁⟩
    | none => exact ih _ hs₁

theorem changeRange_agrees
    (h : ∀ {store s} i, Stands maxArraySize store s → Yields maxArraySize (change store i) (spec s i))
    (context : String) (a b : Int) (hs : Stands maxArraySize store s) :
    Yields maxArraySize (changeRange change context store a b) (IndexSet.changeRange spec context s a b) := by
  have hlen := hs.1.bitLength
  rw [changeRange, IndexSet.changeRange, bitsetValidateRange]
  by_cases hr : 0 ≤ a ∧ a ≤ b ∧ b ≤ s.length
  · rw [if_pos hr, if_neg (by rw [hlen]; omega)]
    exact changeMany_agrees h _ 0 hs
  · rw [if_neg hr, if_pos (by rw [hlen]; omega), hlen]
    exact ⟨store, rfl, hs, callerError_some rfl⟩

theorem fromIndicesLoop_eq (is : List Int) (changed : Int) (store : BitsetStore) :
    fromIndicesLoop is store = (changeMany bitsetSet changed is store).map fun r => (r.1, r.2.2) := by
  induction is generalizing changed store with
  | nil => rfl
  | cons i is ih =>
    rw [fromIndicesLoop, changeMany]
    cases hone : bitsetSet store i with
    | error e => rfl
    | ok r =>
      dsimp only [bind, Except.bind]
      cases he : r.2.2 with
      | some e => rfl
      | none => exact ih _ r.1

theorem Yields.agrees {γ : Type} {x : Result (BitsetStore × γ × Option BitsetError)}
    {y : IndexSet × γ × Option BitsetError} (h : Yields maxArraySize x y) (f : γ → Option BitsetError → Reply)
    (hf : ∀ c e, (f c e).error? = e) :
    Agrees (Stands maxArraySize) (x.map fun r => (r.1, f r.2.1 r.2.2)) (.ok (y.1, f y.2.1 y.2.2)) := by
  obtain ⟨store', hx, hs, he⟩ := h
  exact ⟨store', y.1, _, by rw [hx]; rfl, rfl, hs, by rwa [hf]⟩

theorem bitsets_update (u : Update) (hs : Stands maxArraySize store s) :
    Agrees (Stands maxArraySize) ((bitsets maxArraySize).update u store) (indexSets.update u s) := by
  cases u with
  | set i => exact (bitsetSet_agrees.yields i hs).agrees .flag fun _ _ => rfl
  | clear i => exact (bitsetClear_agrees.yields i hs).agrees .flag fun _ _ => rfl
  | toggle i => exact (bitsetToggle_agrees.yields i hs).agrees .flag fun _ _ => rfl
  | setMany is => exact (changeMany_agrees bitsetSet_agrees.yields is 0 hs).agrees .number fun _ _ => rfl
  | clearMany is => exact (changeMany_agrees bitsetClear_agrees.yields is 0 hs).agrees .number fun _ _ => rfl
  | setRange a b => exact (changeRange_agrees bitsetSet_agrees.yields _ a b hs).agrees .number fun _ _ => rfl
  | clearRange a b => exact (changeRange_agrees bitsetClear_agrees.yields _ a b hs).agrees .number fun _ _ => rfl
  | clearAll =>
    obtain ⟨⟨ws, h⟩, hfits⟩ := hs
    obtain ⟨out, us, hclear, hpacks⟩ := bitsetClearAll_eq h hfits
    exact ⟨out, .empty s.length, .number s.members.card none, by simp [bitsets, hclear], rfl,
      ⟨⟨us, hpacks⟩, hfits⟩, callerError_none⟩
  | recount =>
    obtain ⟨ws, h⟩ := hs.1
    exact ⟨store, s, .none, by simp [bitsets, bitsetRecount_eq h], rfl, hs, callerError_none⟩
  | trimLastWord =>
    obtain ⟨ws, h⟩ := hs.1
    exact ⟨store, s, .none, by simp [bitsets, bitsetTrimLastWord_eq h, Except.map], rfl, hs, callerError_none⟩

abbrev Answers (maxArraySize : Int) (q : Query) (store : BitsetStore) (s : IndexSet) : Prop :=
  Replies ((bitsets maxArraySize).query q store) (indexSets.query q s)

section

variable (h : Represents store s)

include h

theorem has_agrees (i : Int) : Answers maxArraySize (.has i) store s := by
  by_cases hi : 0 ≤ i ∧ i < s.length
  · obtain ⟨n, rfl⟩ := eq_ofNat_of_zero_le hi.1
    obtain ⟨ws, hpacks⟩ := h
    have hhas := bitsetHas_eq hpacks (show n < s.length by omega)
    exact ⟨.flag (decide (n ∈ s.members)) none, by simp [bitsets, hhas, Except.map], if_pos hi,
      callerError_none⟩
  · obtain ⟨hout, herr⟩ := bitsetValidateIndex_out h hi "bitset.has.index"
    have hhas : bitsetHas store i = .ok (false, some (indexError s i "bitset.has.index")) := by
      rw [bitsetHas, if_pos hout, herr]
    exact ⟨.flag false (some (indexError s i "bitset.has.index")), by simp [bitsets, hhas, Except.map], if_neg hi,
      callerError_some rfl⟩

theorem rank_agrees (i : Int) : Answers maxArraySize (.rank i) store s := by
  have hlen := h.bitLength
  change Replies _ (.ok (s.rankReply i))
  rw [rankReply]
  by_cases hi : 0 ≤ i ∧ i ≤ s.length
  · obtain ⟨n, rfl⟩ := eq_ofNat_of_zero_le hi.1
    obtain ⟨ws, hpacks⟩ := h
    have hrank := bitsetRank_eq hpacks (show n ≤ s.length by omega)
    rw [if_pos hi]
    exact ⟨_, by simp [bitsets, hrank, Except.map], rfl, callerError_none⟩
  · have hout : i < 0 ∨ store.bitLength < i := by
      omega
    have hrank : bitsetRank store i = .ok (0, some ⟨.invalidArgument, "rank index must be between 0 and bitLength",
        "bitset.rank.indexExclusive", .fields [("indexExclusive", i), ("bitLength", store.bitLength)]⟩) := if_pos hout
    rw [if_neg hi]
    exact ⟨_, by simp [bitsets, hrank, Except.map, hlen], rfl, callerError_some rfl⟩

theorem select_agrees (k : Int) : Answers maxArraySize (.select k) store s := by
  obtain ⟨ws, hpacks⟩ := h
  change Replies _ (.ok (s.selectReply k))
  rw [selectReply]
  by_cases hk : 0 ≤ k
  · obtain ⟨n, rfl⟩ := eq_ofNat_of_zero_le hk
    have hselect := bitsetSelect_eq hpacks n
    simp only [bitsets, toNat_natCast, hselect]
    cases s.select n <;> exact ⟨_, rfl, rfl, callerError_none⟩
  · rw [if_neg hk]
    exact ⟨_, by simp [bitsets, bitsetSelect, show k < 0 by omega], rfl, callerError_some rfl⟩

theorem toIndices_agrees (m : Int) : Answers maxArraySize (.toIndices m) store s := by
  obtain ⟨ws, hpacks⟩ := h
  change Replies _ (.ok (s.listReply m))
  rw [listReply]
  by_cases hm : 1 ≤ m ∧ m ≤ 100000000
  · obtain ⟨n, rfl⟩ := eq_ofNat_of_zero_le (show 0 ≤ m by omega)
    have hlist := bitsetToIndices_eq hpacks (show 1 ≤ n ∧ n ≤ 100000000 by omega)
    rw [if_pos hm]
    exact ⟨_, by simp [bitsets, hlist], rfl, callerError_none⟩
  · have hout : m < 1 ∨ 100000000 < m := by omega
    rw [if_neg hm]
    exact ⟨_, by simp [bitsets, bitsetToIndices, hout], rfl, callerError_some rfl⟩

theorem stats_agrees : Answers maxArraySize .stats store s := by
  obtain ⟨ws, hpacks⟩ := h
  refine ⟨_, ?_, rfl, callerError_none⟩
  have hdensity : (if 0 < store.bitLength then (store.setCount * 1000).tdiv store.bitLength else 0) =
      ((s.members.card * 1000 / s.length : Nat) : Int) := by
    rw [hpacks.bitLength, hpacks.count]
    by_cases hz : s.length = 0
    · simp [hz]
    · rw [if_pos (by omega)]
      exact ofNat_tdiv (s.members.card * 1000) s.length
  simp only [bitsets, bitsetStats, hdensity, hpacks.length_words]
  rw [hpacks.bitLength, hpacks.count]

end

theorem bitsets_query (q : Query) (h : Represents store s) : Answers maxArraySize q store s := by
  cases q with
  | has i => exact has_agrees h i
  | rank i => exact rank_agrees h i
  | select k => exact select_agrees h k
  | toIndices m => exact toIndices_agrees h m
  | len => exact ⟨.number s.length none, by simp [bitsets, bitsetLen, h.bitLength], rfl, callerError_none⟩
  | wordCount =>
    obtain ⟨ws, hpacks⟩ := h
    exact ⟨.number (wordsFor s.length) none, by simp [bitsets, bitsetWordCount, hpacks.length_words], rfl,
      callerError_none⟩
  | count =>
    obtain ⟨ws, hpacks⟩ := h
    exact ⟨.number s.members.card none, by simp [bitsets, bitsetCount, hpacks.count], rfl, callerError_none⟩
  | isEmpty =>
    obtain ⟨ws, hpacks⟩ := h
    exact ⟨.flag (decide (s.members = ∅)) none, by simp [bitsets, bitsetIsEmpty, hpacks.count], rfl,
      callerError_none⟩
  | stats => exact stats_agrees h

theorem bitsetValidatePair_out (hl : Represents left s) (hr : Represents right t) (hne : s.length ≠ t.length)
    (context : String) : bitsetValidatePair left right context = some (pairError s t context) := by
  rw [bitsetValidatePair, hl.bitLength, hr.bitLength, if_pos (by exact_mod_cast hne)]
  rfl

theorem combine_agrees {op : Int → Int → Int} {setOp : Finset Nat → Finset Nat → Finset Nat}
    (hl : Stands maxArraySize left s) (hr : Stands maxArraySize right t)
    (hop : ∀ ws vs, Packs left s ws → Packs right t vs → s.length = t.length → ∃ out us,
      combine maxArraySize left right op context = .ok (out, none) ∧
        Packs out (.below s.length (setOp s.members t.members)) us) :
    Agrees (Stands maxArraySize) ((combine maxArraySize left right op context).map fun x => (x.1, Reply.made x.2))
      (.ok (s.combined t setOp context)) := by
  rw [combined]
  by_cases heq : s.length = t.length
  · obtain ⟨⟨ws, hpl⟩, hfits⟩ := hl
    obtain ⟨⟨vs, hpr⟩, _⟩ := hr
    obtain ⟨out, us, hcombine, hpacks⟩ := hop ws vs hpl hpr heq
    rw [if_pos heq]
    exact ⟨out, _, _, by rw [hcombine]; rfl, rfl, ⟨⟨us, hpacks⟩, hfits⟩, callerError_none⟩
  · have hpair := bitsetValidatePair_out hl.1 hr.1 heq context
    rw [if_neg heq]
    refine ⟨bitsetDefaultStore, _, _, ?_, rfl, ⟨⟨[], packs_default⟩, ?_⟩, callerError_some rfl⟩
    · rw [combine, hpair]
      rfl
    · simp [Fits, empty, wordsFor]
      omega

theorem bitsets_combine (c : Combination) (hl : Stands maxArraySize left s) (hr : Stands maxArraySize right t) :
    Agrees (Stands maxArraySize) ((bitsets maxArraySize).combine c left right) (indexSets.combine c s t) := by
  cases c with
  | union => exact combine_agrees hl hr fun ws vs hpl hpr heq => bitsetUnion_eq hpl hpr heq hl.2
  | intersect => exact combine_agrees hl hr fun ws vs hpl hpr heq => bitsetIntersect_eq hpl hpr heq hl.2
  | difference => exact combine_agrees hl hr fun ws vs hpl hpr heq => bitsetDifference_eq hpl hpr heq hl.2
  | xor => exact combine_agrees hl hr fun ws vs hpl hpr heq => bitsetXor_eq hpl hpr heq hl.2

theorem bitsets_equals (hl : Represents left s) (hr : Represents right t) :
    Replies ((bitsets maxArraySize).equals left right) (indexSets.equals s t) := by
  by_cases heq : s.length = t.length
  · obtain ⟨ws, hpl⟩ := hl
    obtain ⟨vs, hpr⟩ := hr
    exact ⟨.flag (decide (s.members = t.members)) none,
      by simp [bitsets, bitsetEquals_eq hpl hpr heq, Except.map], if_pos heq, callerError_none⟩
  · have hpair := bitsetValidatePair_out hl hr heq "bitset.equals.size"
    exact ⟨.flag false (some (pairError s t "bitset.equals.size")),
      by simp [bitsets, bitsetEquals, hpair, Except.map], if_neg heq, callerError_some rfl⟩

theorem bitsets_derive (d : Derivation) (hs : Stands maxArraySize store s) :
    Agrees (Stands maxArraySize) ((bitsets maxArraySize).derive d store) (indexSets.derive d s) := by
  cases d with
  | clone => exact ⟨store, s, .made none, rfl, rfl, hs, callerError_none⟩
  | complement =>
    obtain ⟨⟨ws, h⟩, hfits⟩ := hs
    obtain ⟨out, us, hcompl, hpacks⟩ := bitsetComplement_eq h hfits
    exact ⟨out, _, .made none, by simp [bitsets, hcompl, Except.map], rfl, ⟨⟨us, hpacks⟩, hfits⟩,
      callerError_none⟩

def Creation.bitLength : Creation → Int
  | .new n => n
  | .fromIndices n _ => n

def LengthFits (maxArraySize n : Int) : Prop := 1 ≤ n → n ≤ 100000000 → maxArraySize ≤ 0 ∨ n ≤ 30 * maxArraySize

theorem fits_of_lengthFits {n : Nat} (h : LengthFits maxArraySize n) (hn : 1 ≤ n ∧ n ≤ 100000000) :
    Fits maxArraySize n := by
  have hmax := h (by omega) (by omega)
  rw [Fits, wordsFor]
  omega

theorem bitsetNew_agrees (h : LengthFits maxArraySize n) :
    ∃ out, bitsetNew maxArraySize n = (out, (make n).2) ∧ Stands maxArraySize out (make n).1 ∧
      CallerError (make n).2 := by
  rw [make]
  by_cases hn : 1 ≤ n ∧ n ≤ 100000000
  · obtain ⟨m, rfl⟩ := eq_ofNat_of_zero_le (show 0 ≤ n by omega)
    have hfits := fits_of_lengthFits h (by omega)
    obtain ⟨out, us, hnew, hpacks⟩ := bitsetNew_eq (if_neg (by omega)) hfits
    rw [if_pos hn]
    exact ⟨out, hnew, ⟨⟨us, hpacks⟩, hfits⟩, callerError_none⟩
  · have hout : n < 1 ∨ 100000000 < n := by omega
    rw [if_neg hn]
    refine ⟨bitsetDefaultStore, by rw [bitsetNew, bitsetValidateBitLength, if_pos hout], ⟨⟨[], packs_default⟩, ?_⟩,
      callerError_some rfl⟩
    simp [Fits, empty, wordsFor]
    omega

theorem bitsets_create (c : Creation) (h : LengthFits maxArraySize c.bitLength) :
    Agrees (Stands maxArraySize) ((bitsets maxArraySize).create c) (indexSets.create c) := by
  cases c with
  | new n =>
    have hlength : LengthFits maxArraySize n := h
    obtain ⟨out, hnew, hs, hcaller⟩ := bitsetNew_agrees hlength
    exact ⟨out, (make n).1, .made (make n).2, by simp [bitsets, hnew], rfl, hs, hcaller⟩
  | fromIndices n is =>
    have hlength : LengthFits maxArraySize n := h
    obtain ⟨out, hnew, hs, hcaller⟩ := bitsetNew_agrees hlength
    change Agrees _ _ (.ok ((makeFrom n is).1, .made (makeFrom n is).2))
    rw [makeFrom]
    cases hmake : make n with
    | mk s e =>
      rw [hmake] at hs hcaller hnew
      cases e with
      | some e =>
        exact ⟨out, s, .made (some e), by simp [bitsets, bitsetFromIndices, hnew, Except.map], rfl, hs, hcaller⟩
      | none =>
        obtain ⟨store, hmany, hs', hcaller'⟩ := changeMany_agrees bitsetSet_agrees.yields is 0 hs
        refine ⟨store, _, _, ?_, rfl, hs', hcaller'⟩
        simp [bitsets, bitsetFromIndices, hnew, fromIndicesLoop_eq is 0, hmany, Except.map]
        rfl

theorem bitsets_refines : Refines (Stands maxArraySize) (fun c => LengthFits maxArraySize c.bitLength)
    (bitsets maxArraySize) indexSets where
  create := bitsets_create
  update := fun u _ _ hs => bitsets_update u hs
  query := fun q _ _ hs => bitsets_query q hs.1
  derive := fun d _ _ hs => bitsets_derive d hs
  combine := fun c _ _ _ _ hl hr => bitsets_combine c hl hr
  equals := fun _ _ _ _ hl hr => bitsets_equals hl.1 hr.1

variable {ops : List Op}

def Op.bitLengths : Op → List Int
  | .create c => [c.bitLength]
  | _ => []

structure RanksSelect (store : BitsetStore) (s : IndexSet) : Prop where
  rank_select : ∀ k i : Nat, bitsetSelect store k = (↑i, true, none) →
    i ∈ s.members ∧ bitsetRank store i = .ok (↑k, none)
  select_rank : ∀ i ∈ s.members, ∃ k : Nat, bitsetRank store i = .ok (↑k, none) ∧
    bitsetSelect store k = (↑i, true, none)

theorem Represents.ranksSelect (h : Represents store s) : RanksSelect store s := by
  obtain ⟨ws, h⟩ := h
  constructor
  · intro k i hk
    rw [bitsetSelect_eq h] at hk
    cases hsel : s.select k with
    | none => simp [hsel] at hk
    | some j =>
      simp only [hsel, Prod.mk.injEq, Nat.cast_inj, and_true] at hk
      subst hk
      obtain ⟨hmem, hrank⟩ := rank_of_select hsel
      exact ⟨hmem, by rw [bitsetRank_eq h (s.bound j hmem).le, hrank]⟩
  · intro i hi
    refine ⟨s.rank i, bitsetRank_eq h (s.bound i hi).le, ?_⟩
    rw [bitsetSelect_eq h, select_of_rank hi]

/-- The program runs, its replies are those of sets, none of them is an internal
error, and its stores are the sets. -/
def BehavesAsSets (maxArraySize : Int) (ops : List Op) : Prop :=
  ∃ replies pool sets, run (bitsets maxArraySize) ops [] = .ok (replies, pool) ∧
    run indexSets ops [] = .ok (replies, sets) ∧ List.Forall₂ Represents pool sets ∧
    List.Forall₂ RanksSelect pool sets ∧ ∀ r ∈ replies, ∀ e ∈ r.error?, e.code ≠ .internal

theorem behavesAsSets_of_fits (h : ∀ op ∈ ops, ∀ n ∈ op.bitLengths, LengthFits maxArraySize n) :
    BehavesAsSets maxArraySize ops := by
  have hallowed : ∀ op ∈ ops, op.Allowed fun c => LengthFits maxArraySize c.bitLength := by
    intro op hop
    cases op with
    | create c => exact h _ hop _ (by simp [Op.bitLengths])
    | _ => trivial
  obtain ⟨replies, pool, sets, hp, hs, hrel, hcaller⟩ := bitsets_refines.run .nil hallowed
  refine ⟨replies, pool, sets, hp, hs, hrel.imp fun _ _ h => h.1, hrel.imp fun _ _ h => h.1.ranksSelect, ?_⟩
  intro r hr e he hinternal
  have hcode := hcaller r hr e he
  rw [hinternal] at hcode
  cases hcode

theorem bitsetNew_empty (h : ¬ LengthFits maxArraySize n) :
    bitsetNew maxArraySize n = (⟨[], n, 0⟩, none) := by
  simp only [LengthFits, not_forall, not_or] at h
  obtain ⟨h1, h2, h3, h4⟩ := h
  obtain ⟨m, rfl⟩ := eq_ofNat_of_zero_le (show 0 ≤ n by omega)
  have hbig : (0 < maxArraySize ∧ maxArraySize < wordsFor m) ∨ 2147483647 < wordsFor m := by
    rw [wordsFor]
    omega
  rw [bitsetNew, bitsetValidateBitLength, if_neg (by omega)]
  rw [bitsetWordCountForBits_eq (by omega), arrayWithSize, if_pos hbig]

theorem bitsetSet_empty (h : 0 ≤ i ∧ i < n) :
    bitsetSet ⟨[], n, 0⟩ i = .error "Array index out of bounds" := by
  obtain ⟨k, rfl⟩ := eq_ofNat_of_zero_le h.1
  have hmask := arrayGet_bitsetBitMasks (Nat.mod_lt k (by omega : 30 > 0))
  rw [bitsetSet, if_neg (by dsimp only; omega), bitPlace]
  rw [show (k : Int).tmod bitsetWordBits = (k % 30 : Nat) from rfl, hmask]
  simp [arrayGet, bind, Except.bind]

theorem run_new_set (h : ¬ LengthFits maxArraySize n) :
    run (bitsets maxArraySize) [.create (.new n), .update (.set 0) 0] [] = .error "Array index out of bounds" := by
  have hpos : 0 < n := by
    simp only [LengthFits, not_forall] at h
    omega
  have hset := bitsetSet_empty ⟨le_rfl, hpos⟩
  simp [run, Op.exec, bitsets, bitsetNew_empty h, hset, Except.map, bind, Except.bind]

/-- Programs that make bitsets of certain lengths use them as sets of numbers
below these lengths, exactly if there can be arrays for those lengths that are
accepted. -/
theorem bitset_law (maxArraySize : Int) (lengths : Set Int) :
    (∀ ops : List Op, (∀ op ∈ ops, ∀ n ∈ op.bitLengths, n ∈ lengths) → BehavesAsSets maxArraySize ops) ↔
      ∀ n ∈ lengths, LengthFits maxArraySize n := by
  constructor
  · intro h n hn
    by_contra hfit
    have hops : ∀ op ∈ [Op.create (.new n), .update (.set 0) 0], ∀ k ∈ op.bitLengths, k ∈ lengths := by
      simp [Op.bitLengths, Creation.bitLength, hn]
    obtain ⟨replies, pool, sets, hp, _⟩ := h _ hops
    rw [run_new_set hfit] at hp
    cases hp
  · intro h ops hops
    exact behavesAsSets_of_fits fun op hop n hn => h n (hops op hop n hn)

/-- One bit more than a million words, which is the default limit. -/
theorem bitset_law_fails : ¬ BehavesAsSets 1048576 [.create (.new 31457281), .update (.set 0) 0] := by
  rintro ⟨replies, pool, sets, hp, _⟩
  cases hp

end Tablo.Bitset
