import Tablo.Fallible
import Tablo.RegexpClass

/-! The syntax of patterns, as a grammar, and that `regexpCompile` reads it. -/

namespace Tablo.Regexp

open Fallible List RegexpPattern

inductive ClassBody : List Char → Prop
  | nil : ClassBody []
  | plain {c : Char} {rest : List Char} (hclose : c ≠ ']') (hescape : c ≠ '\\') (h : ClassBody rest) :
    ClassBody (c :: rest)
  | escaped {c : Char} {rest : List Char} (h : ClassBody rest) : ClassBody ('\\' :: c :: rest)

inductive AtomSpelling : List Char → TokenKind → Prop
  | any : AtomSpelling ['.'] .any
  | escape {c : Char} {kind : ItemKind} (h : escapeMeaning c = some kind) :
    AtomSpelling ['\\', c] (.item kind)
  | positive {body : List Char} (h : ClassBody body) (hne : body ≠ []) (hhead : body.head? ≠ some '^') :
    AtomSpelling ('[' :: (body ++ [']'])) (.class body false)
  | negated {body : List Char} (h : ClassBody body) (hne : body ≠ []) :
    AtomSpelling ('[' :: '^' :: (body ++ [']'])) (.class body true)
  | literal {c : Char} (h : c ∉ ['.', '\\', '[', '*', '+', '?']) :
    AtomSpelling [c] (.item (.literal c))

def Quant.spelling : Quant → List Char
  | .once => []
  | .star => ['*']
  | .plus => ['+']
  | .optional => ['?']

/-- Tokens one after the other, then a `$` if the end is anchored. Only a `$` that is not the last
character can be a token. -/
inductive Spelling : List Char → List RegexpToken → Bool → Prop
  | nil : Spelling [] [] false
  | dollar : Spelling ['$'] [] true
  | cons {s rest : List Char} {kind : TokenKind} {quant : Quant} {tokens : List RegexpToken}
    {anchored : Bool} (hatom : AtomSpelling s kind) (hrest : Spelling rest tokens anchored)
    (hlast : s ++ (quant.spelling ++ rest) ≠ ['$']) :
    Spelling (s ++ (quant.spelling ++ rest)) (⟨kind, quant⟩ :: tokens) anchored

inductive Spells : List Char → RegexpPattern → Prop
  | anchored {rest : List Char} {tokens : List RegexpToken} {anchoredEnd : Bool}
    (h : Spelling rest tokens anchoredEnd) :
    Spells ('^' :: rest) ⟨'^' :: rest, true, anchoredEnd, tokens⟩
  | free {raw : List Char} {tokens : List RegexpToken} {anchoredEnd : Bool}
    (hhead : raw.head? ≠ some '^') (h : Spelling raw tokens anchoredEnd) :
    Spells raw ⟨raw, false, anchoredEnd, tokens⟩

/-! Classes. -/

theorem parseClassLoop_of_body (pattern : List Char) {more : List Char} (h : ClassBody more)
    (body after : List Char) (hne : body ++ more ≠ []) :
    parseClassLoop pattern body (more ++ ']' :: after) = .ok (body ++ more, after) := by
  induction h generalizing body with
  | nil =>
    rw [List.nil_append, parseClassLoop, List.append_nil, if_neg (by simpa using hne)]
  | @plain c rest hclose hescape h ih =>
    rw [List.cons_append, parseClassLoop.eq_def]
    split
    · contradiction
    · rename_i heq
      exact absurd (List.cons.inj heq).1 hclose
    · rename_i heq
      exact absurd (List.cons.inj heq).1 hescape
    · rename_i heq
      exact absurd (List.cons.inj heq).1 hescape
    · rename_i heq
      obtain ⟨rfl, rfl⟩ := List.cons.inj heq
      rw [ih (body ++ [c]) (by simp)]
      simp
  | @escaped c rest h ih =>
    rw [List.cons_append, List.cons_append, parseClassLoop, ih (body ++ ['\\', c]) (by simp)]
    simp

variable {body rest : List Char} {c : Char} {kind : TokenKind} {raw next : List Char} {quant : Quant}
  (out : RegexpPattern) {after pattern s : List Char} {tokens : List RegexpToken}

theorem body_of_parseClassLoop {found : List Char}
    (h : parseClassLoop pattern body rest = .ok (found, after)) :
    ∃ more, ClassBody more ∧ rest = more ++ ']' :: after ∧ found = body ++ more ∧ found ≠ [] := by
  induction body, rest using parseClassLoop.induct with
  | case1 body => cases h
  | case2 rest => simp [parseClassLoop] at h
  | case3 body rest hne =>
    rw [parseClassLoop, if_neg hne] at h
    obtain ⟨rfl, rfl⟩ := Prod.mk.inj (Except.ok.inj h)
    exact ⟨[], .nil, rfl, by simp, hne⟩
  | case4 body => simp [parseClassLoop] at h
  | case5 body ch rest ih =>
    obtain ⟨more, hmore, rfl, rfl, hne⟩ := ih h
    exact ⟨'\\' :: ch :: more, .escaped hmore, rfl, by simp, hne⟩
  | case6 body ch rest hclose hlast hescape ih =>
    rw [parseClassLoop] at h
    · obtain ⟨more, hmore, rfl, rfl, hne⟩ := ih h
      refine ⟨ch :: more, .plain hclose ?_ hmore, rfl, by simp, hne⟩
      rintro rfl
      cases more with
      | nil | cons c more => exact hescape _ _ rfl rfl
    · exact hclose
    · exact hlast
    · exact hescape

theorem regexpParseClass_of_body (pattern : List Char) (h : ClassBody body) (hne : body ≠ []) (after : List Char) :
    regexpParseClass pattern ('^' :: (body ++ ']' :: after)) = .ok (body, true, after) ∧
    (body.head? ≠ some '^' → regexpParseClass pattern (body ++ ']' :: after) = .ok (body, false, after)) := by
  have hloop := parseClassLoop_of_body pattern h [] after hne
  constructor
  · rw [regexpParseClass, hloop]
    rfl
  · intro hhead
    obtain ⟨c, tail, rfl⟩ := List.exists_cons_of_ne_nil hne
    rw [regexpParseClass, hloop]
    · rfl
    · simp
    · rintro rest' heq
      exact hhead (congrArg some (List.cons.inj heq).1)

theorem body_of_regexpParseClass {negate : Bool}
    (h : regexpParseClass pattern rest = .ok (body, negate, after)) :
    AtomSpelling ('[' :: (if negate then ['^'] else []) ++ (body ++ [']'])) (.class body negate) ∧
      rest = (if negate then ['^'] else []) ++ (body ++ ']' :: after) := by
  rw [regexpParseClass.eq_def] at h
  split at h
  · cases h
  · obtain ⟨⟨found, after'⟩, hloop, h⟩ := ok_of_bind h
    cases h
    obtain ⟨more, hmore, rfl, rfl, hne⟩ := body_of_parseClassLoop hloop
    exact ⟨.negated hmore hne, rfl⟩
  · rename_i hhead
    obtain ⟨⟨found, after'⟩, hloop, h⟩ := ok_of_bind h
    cases h
    obtain ⟨more, hmore, rfl, rfl, hne⟩ := body_of_parseClassLoop hloop
    refine ⟨.positive hmore hne fun hc => ?_, rfl⟩
    obtain ⟨c, tail, rfl⟩ := List.exists_cons_of_ne_nil hne
    cases hc
    exact hhead _ rfl

/-! Tokens. -/

theorem quantOf_eq_none : quantOf c = none ↔ c ∉ ['*', '+', '?'] := by
  rw [quantOf.eq_def]
  split <;> simp_all

theorem AtomSpelling.head (h : AtomSpelling s kind) :
    ∃ c tail, s = c :: tail ∧ quantOf c = none := by
  cases h with
  | any | escape | positive | negated => exact ⟨_, _, rfl, rfl⟩
  | literal h =>
    refine ⟨_, _, rfl, quantOf_eq_none.mpr fun hc => h ?_⟩
    tauto

theorem Spelling.head {anchored : Bool}
    (h : Spelling s tokens anchored) (hne : s ≠ []) : ∃ c tail, s = c :: tail ∧ quantOf c = none := by
  cases h with
  | nil => exact absurd rfl hne
  | dollar => exact ⟨_, _, rfl, rfl⟩
  | cons hatom =>
    obtain ⟨c, tail, rfl, hc⟩ := hatom.head
    exact ⟨c, _, rfl, hc⟩

theorem compileKind_of_spelling (raw : List Char) {tail : List Char}
    (h : AtomSpelling (c :: tail) kind) (next : List Char) : compileKind raw c (tail ++ next) = .ok (kind, next) := by
  cases h with
  | any => rfl
  | escape h =>
    rw [compileKind.eq_def]
    dsimp only [cons_append]
    rw [regexpDecodeEscape_ok.mpr h]
    rfl
  | @positive body h hne hhead =>
    rw [compileKind.eq_def, append_assoc, singleton_append, (regexpParseClass_of_body raw h hne next).2 hhead]
    rfl
  | @negated body h hne =>
    rw [compileKind.eq_def, cons_append, append_assoc, singleton_append, (regexpParseClass_of_body raw h hne next).1]
    rfl
  | literal h =>
    rw [compileKind.eq_def]
    split <;> simp_all

theorem spelling_of_compileKind (hc : quantOf c = none) (h : compileKind raw c rest = .ok (kind, next)) :
    ∃ tail, rest = tail ++ next ∧ AtomSpelling (c :: tail) kind := by
  rw [compileKind.eq_def] at h
  split at h
  · cases h
    exact ⟨[], rfl, .any⟩
  · cases rest with
    | nil => cases h
    | cons e rest =>
      obtain ⟨k, hk, h⟩ := ok_of_bind h
      cases h
      exact ⟨[e], rfl, .escape (regexpDecodeEscape_ok.mp hk)⟩
  · obtain ⟨⟨body, negate, after⟩, hclass, h⟩ := ok_of_bind h
    cases h
    obtain ⟨hatom, rfl⟩ := body_of_regexpParseClass hclass
    exact ⟨_, by simp, hatom⟩
  · cases h
    refine ⟨[], rfl, .literal ?_⟩
    rw [quantOf_eq_none] at hc
    simp_all

theorem compileQuant_of_spelling (h : rest ≠ [] → ∃ c tail, rest = c :: tail ∧ quantOf c = none) :
    compileQuant (quant.spelling ++ rest) = (quant, rest) := by
  cases quant with
  | once =>
    cases rest with
    | nil => rfl
    | cons c tail =>
      obtain ⟨c', tail', heq, hc⟩ := h (by simp)
      cases heq
      simp [Quant.spelling, compileQuant, hc]
  | _ => rfl

theorem spelling_of_compileQuant (h : compileQuant next = (quant, rest)) : next = quant.spelling ++ rest := by
  cases next with
  | nil =>
    cases h
    rfl
  | cons q tail =>
    rw [compileQuant] at h
    cases hq : quantOf q with
    | none =>
      rw [hq] at h
      cases h
      rfl
    | some quant' =>
      rw [hq] at h
      cases h
      rw [quantOf.eq_def] at hq
      split at hq <;> cases hq <;> rfl

/-! Patterns. -/

def RegexpPattern.extend (tokens : List RegexpToken) (anchored : Bool) :
    RegexpPattern :=
  { out with tokens := out.tokens ++ tokens, anchoredEnd := out.anchoredEnd || anchored }

theorem extend_nil : out.extend [] false = out := by
  simp [extend]

theorem extend_cons (token : RegexpToken) (tokens : List RegexpToken) (anchored : Bool) :
    extend { out with tokens := out.tokens ++ [token] } tokens anchored =
      out.extend (token :: tokens) anchored := by
  simp [extend]

theorem compileLoop_of_spelling (raw : List Char) {anchored : Bool} (h : Spelling rest tokens anchored) (fuel : Nat)
    (hfuel : rest.length ≤ fuel)
    (out : RegexpPattern) : compileLoop raw fuel out rest = .ok (out.extend tokens anchored) := by
  induction h generalizing fuel out with
  | nil => rw [compileLoop, extend_nil]
  | dollar =>
    obtain ⟨fuel, rfl⟩ := Nat.exists_eq_succ_of_ne_zero (Nat.one_le_iff_ne_zero.mp hfuel)
    rw [compileLoop, compileLoop]
    simp [extend]
  | @cons s rest kind quant tokens anchored hatom hrest hlast ih =>
    obtain ⟨c, tail, rfl, hc⟩ := hatom.head
    rw [cons_append] at hlast hfuel ⊢
    obtain ⟨fuel, rfl⟩ : ∃ n, fuel = n + 1 := ⟨fuel - 1, by simp at hfuel; omega⟩
    rw [compileLoop, if_neg (fun hd => hlast (by rw [hd.1, hd.2])), if_neg (by simp [hc]),
      compileKind_of_spelling raw hatom]
    simp only [bind, Except.bind, compileQuant_of_spelling hrest.head]
    rw [ih fuel (by simp at hfuel; omega), extend_cons]

theorem spelling_of_compileLoop {fuel : Nat} {out p : RegexpPattern}
    (h : compileLoop raw fuel out rest = .ok p) (hfuel : rest.length ≤ fuel) :
    ∃ tokens anchored, Spelling rest tokens anchored ∧ p = out.extend tokens anchored := by
  induction fuel generalizing rest out with
  | zero =>
    obtain rfl := length_eq_zero_iff.mp (Nat.le_zero.mp hfuel)
    cases h
    exact ⟨[], false, .nil, (extend_nil _).symm⟩
  | succ fuel ih =>
    cases rest with
    | nil =>
      cases h
      exact ⟨[], false, .nil, (extend_nil _).symm⟩
    | cons c rest =>
      rw [compileLoop] at h
      by_cases hd : c = '$' ∧ rest = []
      · obtain ⟨rfl, rfl⟩ := hd
        rw [compileLoop] at h
        cases h
        exact ⟨[], true, .dollar, by simp [extend]⟩
      · rw [if_neg hd] at h
        by_cases hq : (quantOf c).isSome = true
        · rw [if_pos hq] at h
          cases h
        · rw [if_neg hq] at h
          have hc : quantOf c = none := by simpa using hq
          obtain ⟨⟨kind, next⟩, hkind, hloop⟩ := ok_of_bind h
          obtain ⟨tail, rfl, hatom⟩ := spelling_of_compileKind hc hkind
          rcases hquant : compileQuant next with ⟨quant, after⟩
          simp only [hquant] at hloop
          obtain rfl := spelling_of_compileQuant hquant
          obtain ⟨tokens, anchored, hrest, rfl⟩ := ih hloop (by simp at hfuel; omega)
          refine ⟨⟨kind, quant⟩ :: tokens, anchored, .cons hatom hrest fun hlast => ?_, extend_cons ..⟩
          exact hd ⟨(List.cons.inj hlast).1, (List.cons.inj hlast).2⟩

theorem regexpCompile_iff {p : RegexpPattern} : regexpCompile raw = .ok p ↔ Spells raw p := by
  constructor
  · intro h
    rw [regexpCompile.eq_def] at h
    split at h
    · obtain ⟨tokens, anchored, hrest, rfl⟩ := spelling_of_compileLoop h le_rfl
      exact .anchored hrest
    · rename_i hhead
      obtain ⟨tokens, anchored, hrest, rfl⟩ := spelling_of_compileLoop h le_rfl
      refine .free (fun hc => ?_) hrest
      cases raw with
      | nil => cases hc
      | cons c tail =>
        cases hc
        exact hhead tail rfl
  · intro h
    cases h with
    | anchored h =>
      rw [regexpCompile, compileLoop_of_spelling _ h _ le_rfl]
      rfl
    | free hhead h =>
      rw [regexpCompile, compileLoop_of_spelling _ h _ le_rfl]
      · rfl
      · rintro rest rfl
        exact hhead rfl

end Tablo.Regexp
