import Mathlib.Data.Char
import Tablo.Regexp

/-! What the atoms of a pattern stand for, and that the matcher decides it. -/

namespace Tablo.Regexp

open List

def between (lo hi c : Char) : Bool := lo ≤ c && c ≤ hi

variable {hi lo : Char}

theorem between_iff {c : Char} : between lo hi c = true ↔ lo.toNat ≤ c.toNat ∧ c.toNat ≤ hi.toNat := by
  rw [between, Bool.and_eq_true, decide_eq_true_eq, decide_eq_true_eq]
  exact Iff.rfl

/-! The alphabets are runs of consecutive characters. -/

def run (lo : Char) (n : Nat) : List Char := (List.range n).map fun i => Char.ofNat (lo.toNat + i)

variable {n : Nat} {c : Char} {k : ItemKind} {units : List ClassUnit} (body : List Char)

theorem toNat_ofNat_of_lt (h : n < 128) : (Char.ofNat n).toNat = n := by
  have hvalid : n.isValidChar := .inl (by omega)
  rw [Char.ofNat, dif_pos hvalid]
  rfl

theorem mem_run (h : lo.toNat + n ≤ 128) :
    c ∈ run lo n ↔ lo.toNat ≤ c.toNat ∧ c.toNat < lo.toNat + n := by
  simp only [run, mem_map, mem_range]
  constructor
  · rintro ⟨i, hi, rfl⟩
    rw [toNat_ofNat_of_lt (by omega)]
    omega
  · rintro ⟨hlo, hhi⟩
    refine ⟨c.toNat - lo.toNat, by omega, ?_⟩
    rw [Nat.add_sub_cancel' hlo, Char.ofNat_toNat]

theorem find_nonneg_iff {s : List Char} : 0 ≤ find s c ↔ c ∈ s := by
  rw [find]
  cases h : s.idxOf? c with
  | none => simpa using idxOf?_eq_none_iff.mp h
  | some i =>
    obtain ⟨hi, hc, -⟩ := idxOf?_eq_some_iff.mp h
    simpa using hc ▸ getElem_mem hi

theorem find_run (h : lo.toNat + n ≤ 128) (hc : c ∈ run lo n) :
    find (run lo n) c = c.toNat - lo.toNat := by
  obtain ⟨hlo, hhi⟩ := (mem_run h).mp hc
  have hget : (run lo n).idxOf? c = some (c.toNat - lo.toNat) := by
    refine idxOf?_eq_some_iff.mpr ⟨by simp only [run, length_map, length_range]; omega, ?_, ?_⟩
    · simp only [run, getElem_map, getElem_range]
      rw [Nat.add_sub_cancel' hlo, Char.ofNat_toNat]
    · intro j hj hcj
      simp only [run, getElem_map, getElem_range] at hcj
      have hval := congrArg Char.toNat hcj
      rw [toNat_ofNat_of_lt (by omega)] at hval
      omega
  rw [find, hget]
  dsimp only
  omega

theorem digits_eq : digits = run '0' 10 := by decide +kernel
theorem upper_eq : upper = run 'A' 26 := by decide +kernel
theorem lower_eq : lower = run 'a' 26 := by decide +kernel

theorem mem_digits : c ∈ digits ↔ between '0' '9' c = true := by
  rw [digits_eq, mem_run (by decide), between_iff]
  exact and_congr_right fun _ => Nat.lt_succ_iff

theorem mem_upper : c ∈ upper ↔ between 'A' 'Z' c = true := by
  rw [upper_eq, mem_run (by decide), between_iff]
  exact and_congr_right fun _ => Nat.lt_succ_iff

theorem mem_lower : c ∈ lower ↔ between 'a' 'z' c = true := by
  rw [lower_eq, mem_run (by decide), between_iff]
  exact and_congr_right fun _ => Nat.lt_succ_iff

/-! The documented meaning of escapes and items. -/

def metacharacters : List Char := "\\.*+?^$[]()\x7b\x7d|-".toList

def escapeMeaning (c : Char) : Option ItemKind :=
  if c ∈ metacharacters then some (.literal c)
  else if c = 'd' then some .digit
  else if c = 'w' then some .word
  else if c = 's' then some .space
  else if c = 'n' then some (.literal '\n')
  else if c = 't' then some (.literal '\t')
  else if c = 'r' then some (.literal '\r')
  else none

def ItemKind.holds : ItemKind → Char → Bool
  | .literal value, c => c == value
  | .digit, c => between '0' '9' c
  | .word, c => between 'a' 'z' c || between 'A' 'Z' c || between '0' '9' c || c == '_'
  | .space, c => c ∈ [' ', '\t', '\n', '\r']

def escapable : List Char := metacharacters ++ ['d', 'w', 's', 'n', 't', 'r']

theorem mem_escapable_of_decode (h : regexpDecodeEscape c = .ok k) : c ∈ escapable := by
  rw [regexpDecodeEscape.eq_def] at h
  split at h <;> first | decide | cases h

theorem mem_escapable_of_meaning (h : escapeMeaning c = some k) : c ∈ escapable := by
  by_contra hc
  simp only [escapable, mem_append, mem_cons, not_or] at hc
  simp [escapeMeaning, hc] at h

theorem regexpDecodeEscape_ok : regexpDecodeEscape c = .ok k ↔ escapeMeaning c = some k := by
  have hall : ∀ c ∈ escapable, (regexpDecodeEscape c).toOption = escapeMeaning c := by
    have h : (escapable.all fun c => decide ((regexpDecodeEscape c).toOption = escapeMeaning c)) = true := by
      decide +kernel
    simpa using h
  have hok : regexpDecodeEscape c = .ok k ↔ (regexpDecodeEscape c).toOption = some k := by
    cases regexpDecodeEscape c <;> simp [Except.toOption]
  constructor
  · intro h
    rw [← hall c (mem_escapable_of_decode h)]
    exact hok.mp h
  · intro h
    rw [hok, hall c (mem_escapable_of_meaning h)]
    exact h

theorem regexpClassItemMatches_eq (c : Char) (k : ItemKind) : regexpClassItemMatches c k = k.holds c := by
  have hdigit : regexpIsDigit c = between '0' '9' c := by
    rw [Bool.eq_iff_iff, ← mem_digits, ← find_nonneg_iff]
    exact decide_eq_true_iff
  have hletter : regexpIsLetter c = (between 'a' 'z' c || between 'A' 'Z' c) := by
    rw [Bool.eq_iff_iff, Bool.or_eq_true, ← mem_lower, ← mem_upper, ← mem_append, ← find_nonneg_iff]
    exact decide_eq_true_iff
  cases k with
  | literal value => rfl
  | digit => exact hdigit
  | word => simp only [regexpClassItemMatches, regexpIsWordChar, hletter, hdigit, ItemKind.holds]
  | space => simp [regexpClassItemMatches, regexpIsSpaceChar, ItemKind.holds, Bool.or_assoc, Bool.beq_eq_decide_eq]

/-! Character classes. The documented ranges are those inside one alphabet; any other `-` stands
for itself. -/

def sameAlphabet (lo hi : Char) : Bool :=
  between '0' '9' lo && between '0' '9' hi || between 'A' 'Z' lo && between 'A' 'Z' hi ||
    between 'a' 'z' lo && between 'a' 'z' hi

inductive ClassItem where
  | one (kind : ItemKind)
  | range (lo hi : Char)

def ClassItem.holds : ClassItem → Char → Bool
  | .one kind, c => kind.holds c
  | .range lo hi, c => between lo hi c || between hi lo c

/-- An item of a class body; `dash` is a `-` that is not escaped. -/
inductive ClassUnit where
  | item (kind : ItemKind)
  | dash

def ClassUnit.kind : ClassUnit → ItemKind
  | .item kind => kind
  | .dash => .literal '-'

def classUnits : List Char → Option (List ClassUnit)
  | [] => some []
  | ['\\'] => none
  | '\\' :: c :: rest => do
    let kind ← escapeMeaning c
    let units ← classUnits rest
    return .item kind :: units
  | '-' :: rest => (classUnits rest).map (.dash :: ·)
  | c :: rest => (classUnits rest).map (.item (.literal c) :: ·)

def classItems : List ClassUnit → List ClassItem
  | [] => []
  | .item (.literal lo) :: .dash :: .item (.literal hi) :: units =>
    if sameAlphabet lo hi then .range lo hi :: classItems units
    else .one (.literal lo) :: classItems (.dash :: .item (.literal hi) :: units)
  | unit :: units => .one unit.kind :: classItems units

def classHolds (units : List ClassUnit) (c : Char) : Bool := (classItems units).any (·.holds c)

theorem classItems_range (h : sameAlphabet lo hi = true) (units : List ClassUnit) :
    classItems (.item (.literal lo) :: .dash :: .item (.literal hi) :: units) = .range lo hi :: classItems units := by
  rw [classItems, if_pos h]

theorem classItems_one {unit : ClassUnit}
    (h : ∀ lo hi more, unit.kind = .literal lo → units = .dash :: .item (.literal hi) :: more →
      sameAlphabet lo hi = false) : classItems (unit :: units) = .one unit.kind :: classItems units := by
  rw [classItems.eq_def]
  split
  · contradiction
  · rename_i lo hi more heq
    obtain ⟨rfl, rfl⟩ := List.cons.inj heq
    rw [h lo hi more rfl rfl]
    rfl
  · rename_i heq
    obtain ⟨rfl, rfl⟩ := List.cons.inj heq
    rfl

theorem rangeWithin_run {alphabet : List Char} {base ch : Char} (ha : alphabet = run base n)
    (h : base.toNat + n ≤ 128) : rangeWithin alphabet ch lo hi =
      if lo ∈ alphabet ∧ hi ∈ alphabet then some ((ClassItem.range lo hi).holds ch) else none := by
  subst ha
  simp only [rangeWithin, find_nonneg_iff]
  by_cases hb : lo ∈ run base n ∧ hi ∈ run base n
  · rw [if_pos hb, if_pos hb, find_run h hb.1, find_run h hb.2]
    have hlo := (mem_run h).mp hb.1
    have hhi := (mem_run h).mp hb.2
    by_cases hc : ch ∈ run base n
    · have hcn := find_nonneg_iff.mpr hc
      rw [if_neg (by omega), find_run h hc]
      split_ifs with hlt
      all_goals
        refine congrArg some (Bool.eq_iff_iff.mpr ?_)
        simp only [ClassItem.holds, Bool.and_eq_true, Bool.or_eq_true, decide_eq_true_eq, between_iff]
        omega
    · have hcn := mt find_nonneg_iff.mp hc
      rw [if_pos (by omega)]
      refine congrArg some (Bool.eq_iff_iff.mpr ?_)
      rw [mem_run h] at hc
      simp only [ClassItem.holds, Bool.or_eq_true, between_iff, Bool.false_eq_true, false_iff]
      omega
  · rw [if_neg hb, if_neg hb]

theorem regexpClassRangeMatch_eq (ch lo hi : Char) : regexpClassRangeMatch ch lo hi =
      if sameAlphabet lo hi then ((ClassItem.range lo hi).holds ch, true) else (false, false) := by
  have hsame : sameAlphabet lo hi = true ↔ lo ∈ digits ∧ hi ∈ digits ∨ lo ∈ upper ∧ hi ∈ upper ∨
      lo ∈ lower ∧ hi ∈ lower := by
    simp [sameAlphabet, mem_digits, mem_upper, mem_lower, or_assoc]
  simp only [regexpClassRangeMatch, rangeWithin_run digits_eq (by decide), rangeWithin_run upper_eq (by decide),
    rangeWithin_run lower_eq (by decide), hsame]
  by_cases h1 : lo ∈ digits ∧ hi ∈ digits
  · simp only [if_pos h1, if_pos (Or.inl h1)]
  · by_cases h2 : lo ∈ upper ∧ hi ∈ upper
    · simp only [if_neg h1, if_pos h2, if_pos (Or.inr (Or.inl h2))]
    · by_cases h3 : lo ∈ lower ∧ hi ∈ lower
      · simp only [if_neg h1, if_neg h2, if_pos h3, if_pos (Or.inr (Or.inr h3))]
      · simp only [if_neg h1, if_neg h2, if_neg h3, if_neg (not_or.mpr ⟨h1, not_or.mpr ⟨h2, h3⟩⟩)]

theorem ClassUnit.eq_item {unit : ClassUnit} (h : unit.kind = .literal c) (hc : c ≠ '-') :
    unit = .item (.literal c) := by
  cases unit with
  | item kind => exact congrArg _ h
  | dash =>
    cases h
    exact absurd rfl hc

theorem ne_dash_of_sameAlphabet (h : sameAlphabet lo hi = true) : lo ≠ '-' ∧ hi ≠ '-' := by
  constructor
  all_goals
    rintro rfl
    simp [sameAlphabet, between] at h

theorem regexpParseClassItem_eq {rest : List Char} (h : classUnits (c :: rest) = some units) :
    ∃ unit more next, units = unit :: more ∧ classUnits next = some more ∧ next.length < (c :: rest).length ∧
      regexpParseClassItem body (c :: rest) = .ok (unit.kind, next) ∧
      (unit = .dash ↔ c = '-') := by
  rw [classUnits.eq_def] at h
  split at h
  · contradiction
  · contradiction
  · rename_i e tail heq
    obtain ⟨rfl, rfl⟩ := List.cons.inj heq
    obtain ⟨kind, hkind, h⟩ := Option.bind_eq_some_iff.mp h
    obtain ⟨more, hmore, h⟩ := Option.bind_eq_some_iff.mp h
    refine ⟨.item kind, more, tail, (Option.some.inj h).symm, hmore, by grind, ?_, by simp⟩
    rw [regexpParseClassItem, regexpDecodeEscape_ok.mpr hkind]
    rfl
  · rename_i tail heq
    obtain ⟨rfl, rfl⟩ := List.cons.inj heq
    obtain ⟨more, hmore, rfl⟩ := Option.map_eq_some_iff.mp h
    exact ⟨.dash, more, rest, rfl, hmore, by simp, rfl, by simp⟩
  · rename_i c' tail hslash hslash' hdash heq
    obtain ⟨rfl, rfl⟩ := List.cons.inj heq
    obtain ⟨more, hmore, rfl⟩ := Option.map_eq_some_iff.mp h
    refine ⟨.item (.literal c), more, rest, rfl, hmore, by simp, ?_, ?_⟩
    · rw [regexpParseClassItem]
      · rfl
      · exact hslash
      · exact hslash'
    · simpa using hdash

theorem rangeAfter_eq (ch lo : Char) {next : List Char} (h : classUnits next = some units) :
    (∃ hi more after, units = .dash :: .item (.literal hi) :: more ∧ sameAlphabet lo hi = true ∧
      rangeAfter body ch lo next = some ((ClassItem.range lo hi).holds ch, after) ∧
      classUnits after = some more ∧ after.length < next.length) ∨
    (rangeAfter body ch lo next = none ∧ ∀ hi more, units = .dash :: .item (.literal hi) :: more →
      sameAlphabet lo hi = false) := by
  cases next with
  | nil =>
    cases h
    exact .inr ⟨rfl, by simp⟩
  | cons c rest =>
    obtain ⟨unit, more, next, rfl, hmore, hlt, -, hdash⟩ := regexpParseClassItem_eq body h
    by_cases hc : c = '-'
    · subst hc
      rw [hdash.mpr rfl] at h ⊢
      have hrest : classUnits rest = some more := by
        obtain ⟨more', hmore', heq⟩ := Option.map_eq_some_iff.mp h
        rw [hmore', (List.cons.inj heq).2]
      cases rest with
      | nil =>
        cases hrest
        exact .inr ⟨rfl, by simp⟩
      | cons e tail =>
        obtain ⟨unit', more', after, rfl, hmore', hlt', hparse, hdash'⟩ :=
          regexpParseClassItem_eq body hrest
        simp only [rangeAfter, hparse, regexpClassRangeMatch_eq]
        cases hkind : unit'.kind with
        | literal hi =>
          by_cases hsame : sameAlphabet lo hi = true
          · obtain rfl := ClassUnit.eq_item hkind (ne_dash_of_sameAlphabet hsame).2
            refine .inl ⟨hi, more', after, rfl, hsame, ?_, hmore', by simp at hlt' ⊢; omega⟩
            simp [hsame]
          · refine .inr ⟨by simp [hsame], fun hi' more'' heq => ?_⟩
            obtain ⟨rfl, -⟩ := List.cons.inj (List.cons.inj heq).2
            cases hkind
            simpa using hsame
        | _ =>
          refine .inr ⟨rfl, fun hi' more'' heq => ?_⟩
          obtain ⟨rfl, -⟩ := List.cons.inj (List.cons.inj heq).2
          cases hkind
    · have hunit : unit ≠ .dash := fun hu => hc (hdash.mp hu)
      refine .inr ⟨?_, fun hi more' heq => absurd (List.cons.inj heq).1 hunit⟩
      rw [rangeAfter.eq_def]
      split
      · rename_i heq
        exact absurd (List.cons.inj heq).1 hc
      · rfl

theorem classLoop_eq (ch : Char) {fuel : Nat} {rest : List Char} (hfuel : rest.length ≤ fuel)
    (h : classUnits rest = some units) : classLoop body ch fuel rest = .ok (classHolds units ch) := by
  induction fuel generalizing rest units with
  | zero =>
    obtain rfl := length_eq_zero_iff.mp (Nat.le_zero.mp hfuel)
    cases h
    rfl
  | succ fuel ih =>
    cases rest with
    | nil =>
      cases h
      rfl
    | cons c tail =>
      obtain ⟨unit, more, next, rfl, hmore, hlt, hparse, -⟩ := regexpParseClassItem_eq body h
      have hone (hno : ∀ lo hi more', unit.kind = .literal lo →
          more = .dash :: .item (.literal hi) :: more' → sameAlphabet lo hi = false) :
          (if regexpClassItemMatches ch unit.kind then Except.ok true else classLoop body ch fuel next) =
            .ok (classHolds (unit :: more) ch) := by
        rw [classHolds, classItems_one hno, regexpClassItemMatches_eq, ih (by simp at hfuel hlt; omega) hmore]
        cases hk : unit.kind.holds ch <;> simp [ClassItem.holds, hk, classHolds]
      rw [classLoop.eq_def]
      simp only [hparse, bind, Except.bind, pure]
      cases hkind : unit.kind with
      | literal lo =>
        rw [hkind] at hone
        rcases rangeAfter_eq body ch lo hmore with
          ⟨hi, more', after, rfl, hsame, hrange, hafter, hless⟩ | ⟨hrange, hno⟩
        · obtain rfl := ClassUnit.eq_item hkind (ne_dash_of_sameAlphabet hsame).1
          have hrec := ih (by simp at hfuel hlt; omega) hafter
          simp only [hrange, classHolds, classItems_range hsame, any_cons]
          cases (ClassItem.range lo hi).holds ch with
          | true => rfl
          | false => exact hrec
        · simp only [hrange]
          refine hone fun lo' hi more' hlo => ?_
          cases hlo
          exact hno hi more'
      | _ =>
        rw [hkind] at hone
        refine hone fun lo hi more' hlo => by cases hlo

/-! Tokens. -/

def TokenKind.decodes : TokenKind → Bool
  | .class value _ => (classUnits value).isSome
  | _ => true

def TokenKind.holds : TokenKind → Char → Bool
  | .item kind, c => kind.holds c
  | .any, _ => true
  | .class value negate, c =>
    match classUnits value with
    | some units => classHolds units c != negate
    | none => false

theorem regexpTokenMatches_eq {token : RegexpToken} (h : token.kind.decodes = true) (ch : Char) :
    regexpTokenMatches token ch = .ok (token.kind.holds ch) := by
  obtain ⟨kind, quant⟩ := token
  cases kind with
  | item kind => exact congrArg _ (regexpClassItemMatches_eq ch kind)
  | any => rfl
  | «class» value negate =>
    obtain ⟨units, hunits⟩ := Option.isSome_iff_exists.mp h
    simp only [regexpTokenMatches, regexpClassMatches, classLoop_eq value ch le_rfl hunits,
      TokenKind.holds, hunits, pure]
    cases negate <;> cases classHolds units ch <;> rfl

end Tablo.Regexp
