import Tablo.RegexpClass
import Tablo.Repetition

/-! What the matcher finds, against the language of a pattern. -/

namespace Tablo.Regexp

open Repetition List RegexpToken Quant

def Quant.language : Quant → Language Char → Language Char
  | .once, l => l
  | .star, l => KStar.kstar l
  | .plus, l => l * KStar.kstar l
  | .optional, l => 1 + l

def language (tokens : List RegexpToken) : Language Char :=
  (tokens.map fun token => token.quant.language (atom token.kind.holds)).prod

def Quant.allows : Quant → Nat → Prop
  | .once, n => n = 1
  | .star, _ => True
  | .plus, n => 1 ≤ n
  | .optional, n => n ≤ 1

variable {p : Char → Bool} {w : List Char} {q : Quant} {token : RegexpToken} {tokens : List RegexpToken}
  {next : Nat → Except ParseError (Option Nat)}

theorem Quant.mem_language : w ∈ q.language (atom p) ↔ (∀ c ∈ w, p c = true) ∧ q.allows w.length := by
  cases q with
  | once => exact mem_atom
  | star => exact mem_atom_kstar.trans (and_iff_left trivial).symm
  | plus => exact mem_atom_mul_kstar
  | optional => exact mem_one_add_atom

theorem mem_language_nil : w ∈ language [] ↔ w = [] := Language.mem_one w

theorem mem_language_cons :
    w ∈ language (token :: tokens) ↔ ∃ u v, w = u ++ v ∧ (∀ c ∈ u, token.kind.holds c = true) ∧
      token.quant.allows u.length ∧ v ∈ language tokens := by
  constructor
  · rintro ⟨u, hu, v, hv, rfl⟩
    exact ⟨u, v, rfl, (mem_language.mp hu).1, (mem_language.mp hu).2, hv⟩
  · rintro ⟨u, v, rfl, hu, hcount, hv⟩
    exact ⟨u, mem_language.mpr ⟨hu, hcount⟩, v, hv, rfl⟩

/-! The matcher reads `?` as `*` once the attempt without the token has failed. -/

def RegexpToken.loosen (token : RegexpToken) : RegexpToken :=
  { token with quant := if token.quant = .optional then .star else token.quant }

def Quant.nullable : Quant → Bool
  | .optional | .star => true
  | _ => false

/-- Every `?` is followed by tokens that can all be left out, up to an end that is not anchored. -/
def tame (anchoredEnd : Bool) : List Quant → Bool
  | [] => true
  | .optional :: quants => !anchoredEnd && quants.all Quant.nullable && tame anchoredEnd quants
  | _ :: quants => tame anchoredEnd quants

theorem tame_tail {anchoredEnd : Bool} {quants : List Quant}
    (h : tame anchoredEnd (q :: quants) = true) : tame anchoredEnd quants = true := by
  cases q with
  | optional =>
    rw [tame, Bool.and_eq_true] at h
    exact h.2
  | _ => exact h

theorem nil_mem_language
    (h : (tokens.map (·.quant)).all nullable = true) : [] ∈ language (tokens.map loosen) := by
  induction tokens with
  | nil => exact mem_language_nil.mpr rfl
  | cons token tokens ih =>
    rw [map_cons, all_cons, Bool.and_eq_true] at h
    refine mem_language_cons.mpr ⟨[], [], rfl, by simp, ?_, ih h.2⟩
    cases hq : token.quant <;> simp_all [loosen, allows, nullable]

theorem language_subset_loose (h : w ∈ language tokens) : w ∈ language (tokens.map loosen) := by
  induction tokens generalizing w with
  | nil => exact h
  | cons token tokens ih =>
    obtain ⟨u, v, rfl, hu, hcount, hv⟩ := mem_language_cons.mp h
    refine mem_language_cons.mpr ⟨u, v, rfl, hu, ?_, ih hv⟩
    cases hq : token.quant <;> simp_all [loosen, allows]

/-! One token. -/

theorem countRun_eq (h : token.kind.decodes = true) (rest : List Char) :
    countRun token rest = .ok (rest.takeWhile token.kind.holds).length := by
  induction rest with
  | nil => rfl
  | cons ch rest ih =>
    rw [countRun, regexpTokenMatches_eq h, ih, takeWhile_cons]
    cases token.kind.holds ch <;> rfl

theorem tryDown_cases (hnext : ∀ n, ∃ r, next n = .ok r) (least count : Nat) :
    (∃ n stop, least ≤ n ∧ n ≤ count ∧ next n = .ok (some stop) ∧ tryDown next least count = .ok (some stop)) ∨
    (tryDown next least count = .ok none ∧ ∀ n, least ≤ n → n ≤ count → next n = .ok none) := by
  induction count with
  | zero =>
    rw [tryDown]
    by_cases hl : least = 0
    · obtain ⟨r, hr⟩ := hnext 0
      rw [if_pos hl, hr]
      cases r with
      | some stop => exact .inl ⟨0, stop, by omega, le_rfl, hr, rfl⟩
      | none => exact .inr ⟨rfl, fun n _ hn => Nat.le_zero.mp hn ▸ hr⟩
    · rw [if_neg hl]
      exact .inr ⟨rfl, fun n hn hn' => by omega⟩
  | succ count ih =>
    rw [tryDown]
    by_cases hl : least ≤ count + 1
    · obtain ⟨r, hr⟩ := hnext (count + 1)
      rw [if_pos hl, hr]
      cases r with
      | some stop => exact .inl ⟨count + 1, stop, hl, le_rfl, hr, rfl⟩
      | none =>
        rcases ih with ⟨n, stop, hn, hn', hstop, htry⟩ | ⟨htry, hall⟩
        · exact .inl ⟨n, stop, hn, by omega, hstop, htry⟩
        · refine .inr ⟨htry, fun n hn hn' => ?_⟩
          rcases Nat.le_succ_iff.mp hn' with h | rfl
          · exact hall n hn h
          · exact hr
    · rw [if_neg hl]
      exact .inr ⟨rfl, fun n hn hn' => by omega⟩

theorem length_le_takeWhile {u v : List Char} (h : ∀ c ∈ u, p c = true) :
    u.length ≤ ((u ++ v).takeWhile p).length := by
  rw [takeWhile_append_of_pos h, length_append]
  omega

theorem matchRepeated_cases (h : token.kind.decodes = true) (hnext : ∀ n, ∃ r, next n = .ok r)
    (least : Nat) (rest : List Char) :
    (∃ u v stop, rest = u ++ v ∧ (∀ c ∈ u, token.kind.holds c = true) ∧ least ≤ u.length ∧
      next u.length = .ok (some stop) ∧ matchRepeated token next least rest = .ok (some stop)) ∨
    (matchRepeated token next least rest = .ok none ∧
      ∀ u v, rest = u ++ v → (∀ c ∈ u, token.kind.holds c = true) → least ≤ u.length → next u.length = .ok none) := by
  rw [matchRepeated, countRun_eq h]
  simp only [bind, Except.bind, pure]
  by_cases hless : (rest.takeWhile token.kind.holds).length < least
  · rw [if_pos hless]
    refine .inr ⟨rfl, ?_⟩
    rintro u v rfl hu hlen
    have := length_le_takeWhile (p := token.kind.holds) (v := v) hu
    omega
  · rw [if_neg hless]
    rcases tryDown_cases hnext least (rest.takeWhile token.kind.holds).length with
      ⟨n, stop, hn, hn', hstop, htry⟩ | ⟨htry, hall⟩
    · obtain ⟨tail, htail⟩ := takeWhile_prefix token.kind.holds (l := rest)
      have hlen : ((rest.takeWhile token.kind.holds).take n).length = n := by
        rw [length_take, Nat.min_eq_left hn']
      refine .inl ⟨(rest.takeWhile token.kind.holds).take n,
        (rest.takeWhile token.kind.holds).drop n ++ tail, stop, ?_, fun c hc => ?_, ?_, ?_, htry⟩
      · rw [← append_assoc, take_append_drop, htail]
      · exact all_eq_true.mp all_takeWhile _ (mem_of_mem_take hc)
      · rw [hlen]
        exact hn
      · rw [hlen]
        exact hstop
    · refine .inr ⟨htry, ?_⟩
      rintro u v rfl hu hlen
      exact hall u.length hlen (length_le_takeWhile hu)

/-! All tokens. -/

variable (anchoredEnd : Bool)

def Found (tokens : List RegexpToken) (rest : List Char) (i stop : Nat) : Prop :=
  ∃ w post, rest = w ++ post ∧ w ∈ language tokens ∧ (anchoredEnd = true → post = []) ∧ stop = i + w.length

/-- No word starts `rest`, not even when `?` is read as `*`. -/
def Hopeless (tokens : List RegexpToken) (rest : List Char) : Prop :=
  ∀ w post, rest = w ++ post → (anchoredEnd = true → post = []) → w ∉ language (tokens.map RegexpToken.loosen)

variable {anchoredEnd} {i stop : Nat}

theorem Found.cons {u v : List Char} (hu : ∀ c ∈ u, token.kind.holds c = true)
    (hcount : token.quant.allows u.length) (h : Found anchoredEnd tokens v (i + u.length) stop) :
    Found anchoredEnd (token :: tokens) (u ++ v) i stop := by
  obtain ⟨w, post, rfl, hw, hpost, rfl⟩ := h
  refine ⟨u ++ w, post, (append_assoc u w post).symm, mem_language_cons.mpr ⟨u, w, rfl, hu, hcount, hw⟩, hpost, ?_⟩
  rw [length_append, Nat.add_assoc]

theorem hopeless_cons {rest : List Char} (h : ∀ u v, rest = u ++ v → (∀ c ∈ u, token.kind.holds c = true) →
      token.loosen.quant.allows u.length → Hopeless anchoredEnd tokens v) :
    Hopeless anchoredEnd (token :: tokens) rest := by
  intro w post hrest hpost hw
  obtain ⟨u, v, rfl, hu, hcount, hv⟩ := mem_language_cons.mp hw
  rw [append_assoc] at hrest
  exact h u (v ++ post) hrest hu hcount v post rfl hpost hv

def matchNext (anchoredEnd : Bool) (tokens : List RegexpToken) (rest : List Char) (i n : Nat) :
    Except ParseError (Option Nat) :=
  regexpMatchRecursive anchoredEnd tokens (rest.drop n) (i + n)

theorem regexpMatchRecursive_cons (token : RegexpToken) (tokens : List RegexpToken) (rest : List Char)
    (i : Nat) : regexpMatchRecursive anchoredEnd (token :: tokens) rest i = (match token.quant with
      | .once =>
        match rest with
        | [] => .ok none
        | ch :: _ => do
          if ← regexpTokenMatches token ch then matchNext anchoredEnd tokens rest i 1 else return none
      | .star => matchRepeated token (matchNext anchoredEnd tokens rest i) 0 rest
      | .plus => matchRepeated token (matchNext anchoredEnd tokens rest i) 1 rest
      | .optional => do
        match ← matchNext anchoredEnd tokens rest i 0 with
        | some stop => return some stop
        | none => matchRepeated token (matchNext anchoredEnd tokens rest i) 1 rest) := by
  rfl

/-- What the matcher finds: with tame tokens a word of their language, and nothing only if it is
hopeless. -/
theorem regexpMatchRecursive_cases (anchoredEnd : Bool) (hdec : ∀ token ∈ tokens, token.kind.decodes = true)
    (rest : List Char) (i : Nat) : (∃ stop, regexpMatchRecursive anchoredEnd tokens rest i = .ok (some stop) ∧
      (tame anchoredEnd (tokens.map (·.quant)) = true → Found anchoredEnd tokens rest i stop)) ∨
    (regexpMatchRecursive anchoredEnd tokens rest i = .ok none ∧ Hopeless anchoredEnd tokens rest) := by
  induction tokens generalizing rest i with
  | nil =>
    rw [regexpMatchRecursive]
    by_cases hend : (anchoredEnd && rest ≠ []) = true
    · rw [if_pos hend]
      refine .inr ⟨rfl, fun w post hrest hpost hw => ?_⟩
      obtain rfl := mem_language_nil.mp hw
      simp_all
    · rw [if_neg hend]
      refine .inl ⟨i, rfl, fun _ => ⟨[], rest, rfl, mem_language_nil.mpr rfl, ?_, rfl⟩⟩
      simpa using hend
  | cons token tokens ih =>
    have htoken := hdec token mem_cons_self
    replace ih := ih fun t ht => hdec t (mem_cons_of_mem token ht)
    have hok (n : Nat) : ∃ r, matchNext anchoredEnd tokens rest i n = .ok r := by
      rcases ih (rest.drop n) (i + n) with ⟨stop, h, -⟩ | ⟨h, -⟩ <;> exact ⟨_, h⟩
    -- the two outcomes of the remaining tokens, seen from all of them
    have hfound {u v : List Char} {stop : Nat} (hrest : rest = u ++ v)
        (hu : ∀ c ∈ u, token.kind.holds c = true) (hcount : token.quant.allows u.length)
        (hstop : matchNext anchoredEnd tokens rest i u.length = .ok (some stop))
        (htame : tame anchoredEnd (tokens.map (·.quant)) = true) :
        Found anchoredEnd (token :: tokens) rest i stop := by
      subst hrest
      rw [matchNext, drop_left] at hstop
      rcases ih v (i + u.length) with ⟨stop', h, hsound⟩ | ⟨h, -⟩
      · rw [h] at hstop
        cases hstop
        exact (hsound htame).cons hu hcount
      · rw [h] at hstop
        cases hstop
    have hnone {u v : List Char} (hrest : rest = u ++ v)
        (hstop : matchNext anchoredEnd tokens rest i u.length = .ok none) :
        Hopeless anchoredEnd tokens v := by
      subst hrest
      rw [matchNext, drop_left] at hstop
      rcases ih v (i + u.length) with ⟨stop', h, -⟩ | ⟨-, hless⟩
      · rw [h] at hstop
        cases hstop
      · exact hless
    rw [regexpMatchRecursive_cons]
    cases hq : token.quant with
    | once =>
      rw [hq] at hfound
      have hone {u v : List Char} (hrest : rest = u ++ v) (hcount : token.loosen.quant.allows u.length) :
          ∃ c, u = [c] := length_eq_one_iff.mp (by simpa [loosen, hq, allows] using hcount)
      cases rest with
      | nil =>
        refine .inr ⟨rfl, hopeless_cons fun u v hrest hu hcount => ?_⟩
        obtain ⟨c, rfl⟩ := hone hrest hcount
        cases hrest
      | cons ch rest =>
        dsimp only
        rw [regexpTokenMatches_eq htoken]
        cases hch : token.kind.holds ch with
        | true =>
          obtain ⟨r, hr⟩ := hok 1
          simp only [hr]
          cases r with
          | some stop =>
            exact .inl ⟨stop, rfl, fun ht => hfound (u := [ch]) rfl (by simpa using hch) rfl hr (tame_tail ht)⟩
          | none =>
            refine .inr ⟨rfl, hopeless_cons fun u v hrest hu hcount => ?_⟩
            obtain ⟨c, rfl⟩ := hone hrest hcount
            exact hnone hrest hr
        | false =>
          refine .inr ⟨rfl, hopeless_cons fun u v hrest hu hcount => ?_⟩
          obtain ⟨c, rfl⟩ := hone hrest hcount
          cases hrest
          exact absurd (hu ch (by simp)) (by simp [hch])
    | star =>
      rw [hq] at hfound
      rcases matchRepeated_cases htoken hok 0 rest with ⟨u, v, stop, hrest, hu, -, hstop, h⟩ | ⟨h, hall⟩
      · exact .inl ⟨stop, h, fun ht => hfound hrest hu trivial hstop (tame_tail ht)⟩
      · exact .inr ⟨h, hopeless_cons fun u v hrest hu _ => hnone hrest (hall u v hrest hu (Nat.zero_le _))⟩
    | plus =>
      rw [hq] at hfound
      rcases matchRepeated_cases htoken hok 1 rest with
        ⟨u, v, stop, hrest, hu, hlen, hstop, h⟩ | ⟨h, hall⟩
      · exact .inl ⟨stop, h, fun ht => hfound hrest hu hlen hstop (tame_tail ht)⟩
      · refine .inr ⟨h, hopeless_cons fun u v hrest hu hcount => hnone hrest (hall u v hrest hu ?_)⟩
        simpa [loosen, hq, allows] using hcount
    | optional =>
      rw [hq] at hfound
      obtain ⟨r, hr⟩ := hok 0
      simp only [hr, pure]
      cases r with
      | some stop =>
        refine .inl ⟨stop, rfl, fun htame => ?_⟩
        exact hfound (u := []) rfl (by simp) (Nat.zero_le 1) hr (tame_tail htame)
      | none =>
        have hempty : Hopeless anchoredEnd tokens rest := hnone (u := []) rfl hr
        rcases matchRepeated_cases htoken hok 1 rest with ⟨u, v, stop, -, -, -, -, h⟩ | ⟨h, hall⟩
        · -- tame tokens after the `?` match without it
          refine .inl ⟨stop, h, fun htame => ?_⟩
          rw [map_cons, hq, tame, Bool.and_eq_true, Bool.and_eq_true] at htame
          refine absurd (nil_mem_language htame.1.2) (hempty [] rest rfl fun hend => ?_)
          rw [hend] at htame
          exact absurd htame.1.1 (by decide)
        · refine .inr ⟨h, hopeless_cons fun u v hrest hu _ => ?_⟩
          rcases Nat.eq_zero_or_pos u.length with hlen | hlen
          · obtain rfl := length_eq_zero_iff.mp hlen
            exact hnone hrest hr
          · exact hnone hrest (hall u v hrest hu hlen)

end Tablo.Regexp
