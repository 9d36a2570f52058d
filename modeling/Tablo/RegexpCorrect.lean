import Tablo.RegexpMatch
import Tablo.RegexpSyntax

/-! The shapes of patterns for which a search finds the leftmost match. -/

namespace Tablo.Regexp

open List

variable (p : RegexpPattern)

/-- The text at `m` is a word of the pattern's language, with the anchors respected. -/
def RegexpPattern.Occurs (text : List Char) (m : RegexpMatch) : Prop :=
  ∃ pre post, text = pre ++ (m.text ++ post) ∧ m.start = pre.length ∧
    m.stop = pre.length + m.text.length ∧ m.text ∈ language p.tokens ∧
    (p.anchoredStart = true → pre = []) ∧ (p.anchoredEnd = true → post = [])

def RegexpPattern.Leftmost (text : List Char) (m : RegexpMatch) : Prop :=
  p.Occurs text m ∧ ∀ m', p.Occurs text m' → m.start ≤ m'.start

structure Correct (raw : List Char) (p : RegexpPattern) (text : List Char) : Prop where
  isMatch : ∃ found, regexpIsMatch text raw = .ok found ∧ (found = true ↔ ∃ m, p.Occurs text m)
  findFirst : ∃ result, regexpFindFirst text raw = .ok result ∧
    (∀ m, result = some m → p.Leftmost text m) ∧ (result = none → ∀ m, ¬ p.Occurs text m)

def RegexpPattern.Decodes : Prop := ∀ token ∈ p.tokens, token.kind.decodes = true

structure Shape where
  anchoredStart : Bool
  anchoredEnd : Bool
  quants : List Quant

def RegexpPattern.shape : Shape :=
  ⟨p.anchoredStart, p.anchoredEnd, p.tokens.map (·.quant)⟩

def Shape.tame (s : Shape) : Bool := Regexp.tame s.anchoredEnd s.quants

/-! Searching with a tame pattern. -/

section Search

variable {p : RegexpPattern} {text raw : List Char}

theorem not_occurs_of_hopeless {pre rest : List Char} (htext : text = pre ++ rest)
    (h : Hopeless p.anchoredEnd p.tokens rest) (m : RegexpMatch) (hm : p.Occurs text m) : m.start ≠ pre.length := by
  obtain ⟨pre', post, htext', hstart, -, hword, -, hend⟩ := hm
  intro heq
  rw [htext] at htext'
  obtain ⟨-, rfl⟩ := append_inj htext' (by omega)
  exact h m.text post rfl hend (language_subset_loose hword)

def searchOn (p : RegexpPattern) (i : Nat) : List Char → Except ParseError (Option RegexpMatch)
  | [] => .ok none
  | _ :: rest => findLoop p (i + 1) rest

def Settles (p : RegexpPattern) (text : List Char) (result : Except ParseError (Option RegexpMatch)) : Prop :=
  (∃ m, result = .ok (some m) ∧ p.Leftmost text m) ∨ (result = .ok none ∧ ∀ m, ¬ p.Occurs text m)

theorem findLoop_round (hdec : p.Decodes) (htame : p.shape.tame = true) {rest pre : List Char}
    (htext : text = pre ++ rest) (hbefore : ∀ m, p.Occurs text m → pre.length ≤ m.start) :
    Settles p text (findLoop p pre.length rest) ∨
    (findLoop p pre.length rest = searchOn p pre.length rest ∧ ∀ m, p.Occurs text m → pre.length + 1 ≤ m.start) := by
  rw [findLoop.eq_def]
  by_cases hanchor : (p.anchoredStart && pre.length != 0) = true
  · rw [if_pos hanchor]
    refine .inl (.inr ⟨rfl, fun m hm => ?_⟩)
    have hle := hbefore m hm
    obtain ⟨pre', post, -, hstart, -, -, hfirst, -⟩ := hm
    rw [Bool.and_eq_true, bne_iff_ne] at hanchor
    rw [hstart, hfirst hanchor.1] at hle
    exact hanchor.2 (Nat.le_zero.mp hle)
  · rw [if_neg hanchor]
    have hmatch := regexpMatchRecursive_cases p.anchoredEnd hdec rest pre.length
    rcases hmatch with ⟨stop, h, hfound⟩ | ⟨h, hless⟩
    · obtain ⟨w, post, hrest, hw, hpost, rfl⟩ := hfound htame
      have htake : (if pre.length < pre.length + w.length
          then rest.take (pre.length + w.length - pre.length) else []) = w := by
        rw [Nat.add_sub_cancel_left, hrest]
        cases w <;> simp
      simp only [h, bind, Except.bind, htake]
      refine .inl (.inl ⟨⟨pre.length, pre.length + w.length, w⟩, rfl, ?_, hbefore⟩)
      refine ⟨pre, post, by rw [htext, hrest], rfl, rfl, hw, fun hstart => ?_, hpost⟩
      simpa [hstart] using hanchor
    · simp only [h, pure]
      refine .inr ⟨by cases rest <;> rfl, fun m hm => ?_⟩
      have hle := hbefore m hm
      have hne := not_occurs_of_hopeless htext hless m hm
      omega

theorem findLoop_cases (hdec : p.Decodes) (htame : p.shape.tame = true)
    (rest : List Char) (pre : List Char) (htext : text = pre ++ rest)
    (hbefore : ∀ m, p.Occurs text m → pre.length ≤ m.start) : Settles p text (findLoop p pre.length rest) := by
  induction rest generalizing pre with
  | nil =>
    rcases findLoop_round hdec htame htext hbefore with hdone | ⟨h, hafter⟩
    · exact hdone
    · refine .inr ⟨h, fun m hm => ?_⟩
      have hlt := hafter m hm
      obtain ⟨pre', post, htext', hstart, -⟩ := hm
      have hlen := congrArg List.length (htext.symm.trans htext')
      simp at hlen
      omega
  | cons c rest ih =>
    rcases findLoop_round hdec htame htext hbefore with hdone | ⟨h, hafter⟩
    · exact hdone
    · have hlen : (pre ++ [c]).length = pre.length + 1 := by simp
      rw [h, searchOn, ← hlen]
      exact ih (pre ++ [c]) (by simp [htext]) (by rwa [hlen])

theorem regexpFindFirst_eq (hraw : Spells raw p) (text : List Char) :
    regexpFindFirst text raw = findLoop p 0 text := by
  simp only [regexpFindFirst, regexpCompile_iff.mpr hraw, bind, Except.bind, regexpFindFirstCompiled]
  simp

theorem regexpIsMatch_eq (hraw : Spells raw p) (text : List Char) :
    regexpIsMatch text raw = (findLoop p 0 text).map Option.isSome := by
  simp only [regexpIsMatch, regexpCompile_iff.mpr hraw, bind, Except.bind, regexpFindFirstCompiled]
  simp only [Int.toNat_zero, drop_zero]
  cases findLoop p 0 text <;> simp [Except.map, pure, Except.pure]

theorem correct_of_tame (hraw : Spells raw p) (hdec : p.Decodes)
    (htame : p.shape.tame = true) (text : List Char) : Correct raw p text := by
  have hfind := regexpFindFirst_eq hraw text
  have his := regexpIsMatch_eq hraw text
  rcases findLoop_cases hdec htame text [] rfl (fun _ _ => Nat.zero_le _) with ⟨m, h, hm⟩ | ⟨h, hnone⟩
  · rw [length_nil] at h
    refine ⟨⟨true, by rw [his, h]; rfl, by simpa using ⟨m, hm.1⟩⟩, some m, by rw [hfind, h], ?_, by simp⟩
    rintro m' ⟨⟩
    exact hm
  · rw [length_nil] at h
    refine ⟨⟨false, by rw [his, h]; rfl, by simpa using hnone⟩, none, by rw [hfind, h], by simp, ?_⟩
    exact fun _ => hnone

end Search

/-! Any other shape has a pattern and a text where the search goes wrong: the atom of the `?` is
`a`, all others are `b`, and the text has two `a` where the pattern allows one. -/

section Wild

def letters (quants : List Quant) (c : Char) : List RegexpToken :=
  quants.map fun quant => ⟨.item (.literal c), quant⟩

def required (quants : List Quant) : Nat := quants.countP fun quant => !quant.nullable

variable {quants : List Quant} {w : List Char} {l : List (Char × Quant)} (before after : List Quant)

theorem exists_of_not_tame {anchoredEnd : Bool} (h : tame anchoredEnd quants = false) :
    ∃ before after, quants = before ++ .optional :: after ∧ (anchoredEnd = true ∨ 0 < required after) := by
  induction quants with
  | nil => cases h
  | cons q quants ih =>
    by_cases htail : tame anchoredEnd quants = false
    · obtain ⟨before, after, rfl, hafter⟩ := ih htail
      exact ⟨q :: before, after, rfl, hafter⟩
    · cases q with
      | optional =>
        refine ⟨[], quants, rfl, ?_⟩
        simp only [tame, Bool.and_eq_false_iff, Bool.not_eq_false', htail, Bool.true_eq_false, or_false] at h
        refine h.imp_right fun hall => countP_pos_iff.mpr ?_
        obtain ⟨q, hq, hnull⟩ := all_eq_false.mp hall
        exact ⟨q, hq, by simpa using hnull⟩
      | _ => exact absurd h htail

theorem mem_language_append {xs ys : List RegexpToken} {u v : List Char} (hu : u ∈ language xs)
    (hv : v ∈ language ys) : u ++ v ∈ language (xs ++ ys) := by
  rw [language, map_append, prod_append]
  exact Language.append_mem_mul hu hv

theorem exists_of_mem_language_append {xs ys : List RegexpToken}
    (h : w ∈ language (xs ++ ys)) : ∃ u v, w = u ++ v ∧ u ∈ language xs ∧ v ∈ language ys := by
  rw [language, map_append, prod_append] at h
  obtain ⟨u, hu, v, hv, rfl⟩ := h
  exact ⟨u, v, rfl, hu, hv⟩

theorem replicate_mem_loose (quants : List Quant) (c : Char) :
    List.replicate (required quants) c ∈ language ((letters quants c).map RegexpToken.loosen) := by
  induction quants with
  | nil => exact mem_language_nil.mpr rfl
  | cons q quants ih =>
    refine mem_language_cons.mpr ⟨List.replicate (if q.nullable then 0 else 1) c,
      List.replicate (required quants) c, ?_, ?_, ?_, ih⟩
    · rw [replicate_append_replicate, required, countP_cons, Nat.add_comm]
      cases q <;> rfl
    · intro d hd
      exact beq_iff_eq.mpr (eq_of_mem_replicate hd)
    · cases q <;> simp [RegexpToken.loosen, Quant.allows, Quant.nullable]

theorem word_of_letters {c : Char}
    (h : w ∈ language (letters quants c)) : (∀ d ∈ w, d = c) ∧ required quants ≤ w.length := by
  induction quants generalizing w with
  | nil =>
    obtain rfl := mem_language_nil.mp h
    simp [required]
  | cons q quants ih =>
    obtain ⟨u, v, rfl, hu, hcount, hv⟩ := mem_language_cons.mp h
    obtain ⟨hv, hlen⟩ := ih hv
    constructor
    · intro d hd
      rcases mem_append.mp hd with hd | hd
      · exact beq_iff_eq.mp (hu d hd)
      · exact hv d hd
    · cases q <;> simp_all [Quant.allows, Quant.nullable, required] <;> omega

def spellLetters (anchoredEnd : Bool) : List (Char × Quant) → List Char
  | [] => if anchoredEnd then ['$'] else []
  | (c, q) :: rest => [c] ++ (q.spelling ++ spellLetters anchoredEnd rest)

theorem spelling_letters (h : ∀ x ∈ l, x.1 = 'a' ∨ x.1 = 'b')
    (anchoredEnd : Bool) : Spelling (spellLetters anchoredEnd l)
      (l.map fun x => ⟨.item (.literal x.1), x.2⟩) anchoredEnd := by
  induction l with
  | nil => cases anchoredEnd <;> constructor
  | cons x l ih =>
    obtain ⟨c, q⟩ := x
    have hc : c = 'a' ∨ c = 'b' := h (c, q) mem_cons_self
    refine .cons (.literal ?_) (ih fun x hx => h x (mem_cons_of_mem _ hx)) fun hlast => ?_
    · rcases hc with rfl | rfl <;> decide
    · rcases hc with rfl | rfl <;> cases hlast

theorem head_spellLetters (h : ∀ x ∈ l, x.1 = 'a' ∨ x.1 = 'b')
    (anchoredEnd : Bool) : (spellLetters anchoredEnd l).head? ≠ some '^' := by
  cases l with
  | nil => cases anchoredEnd <;> simp [spellLetters]
  | cons x l =>
    rcases h x mem_cons_self with hc | hc <;> simp [spellLetters, hc]

def wildTokens : List RegexpToken :=
  letters before 'b' ++ ⟨.item (.literal 'a'), .optional⟩ :: letters after 'b'

def wildText : List Char :=
  List.replicate (required before) 'b' ++ (['a', 'a'] ++ List.replicate (required after) 'b')

theorem wildTokens_quants : (wildTokens before after).map (·.quant) = before ++ .optional :: after := by
  simp [wildTokens, letters, Function.comp_def]

theorem wildTokens_decode {before after : List Quant} :
    ∀ token ∈ wildTokens before after, token.kind.decodes = true := by
  intro token htoken
  simp only [wildTokens, letters, mem_append, mem_cons, mem_map] at htoken
  rcases htoken with ⟨q, -, rfl⟩ | rfl | ⟨q, -, rfl⟩ <;> rfl

theorem exists_wild_pattern (anchoredStart anchoredEnd : Bool) (before after : List Quant) :
    ∃ raw p, Spells raw p ∧ p.anchoredStart = anchoredStart ∧ p.anchoredEnd = anchoredEnd ∧
      p.tokens = wildTokens before after := by
  let l := before.map (('b', ·)) ++ ('a', Quant.optional) :: after.map (('b', ·))
  have hl : ∀ x ∈ l, x.1 = 'a' ∨ x.1 = 'b' := by
    intro x hx
    simp only [l, mem_append, mem_cons, mem_map] at hx
    rcases hx with ⟨q, -, rfl⟩ | rfl | ⟨q, -, rfl⟩ <;> simp
  have htokens : (l.map fun x => (⟨.item (.literal x.1), x.2⟩ : RegexpToken)) = wildTokens before after := by
    simp [l, wildTokens, letters, Function.comp_def]
  have hspell := spelling_letters hl anchoredEnd
  rw [htokens] at hspell
  cases anchoredStart with
  | true => exact ⟨_, _, .anchored hspell, rfl, rfl, rfl⟩
  | false => exact ⟨_, _, .free (head_spellLetters hl anchoredEnd) hspell, rfl, rfl, rfl⟩

theorem wildText_mem_loose : wildText before after ∈ language ((wildTokens before after).map RegexpToken.loosen) := by
  rw [wildTokens, map_append]
  refine mem_language_append (replicate_mem_loose before 'b') ?_
  have hboth : ∀ c ∈ ['a', 'a'], (ItemKind.literal 'a').holds c = true := by simp [ItemKind.holds]
  exact mem_language_cons.mpr ⟨['a', 'a'], _, rfl, hboth, trivial, replicate_mem_loose after 'b'⟩

theorem not_occurs_wild {p : RegexpPattern} {before after : List Quant} (htokens : p.tokens = wildTokens before after)
    (hafter : p.anchoredEnd = true ∨ 0 < required after) {m : RegexpMatch} (hstart : m.start = 0) :
    ¬ p.Occurs (wildText before after) m := by
  rintro ⟨pre, post, htext, hpre, -, hword, -, hend⟩
  obtain rfl := length_eq_zero_iff.mp (hpre.symm.trans hstart)
  rw [nil_append] at htext
  rw [htokens] at hword
  obtain ⟨u, v, hm, hu, hv⟩ := exists_of_mem_language_append hword
  obtain ⟨x, y, rfl, hx, hcount, hy⟩ := mem_language_cons.mp hv
  obtain ⟨hub, hulen⟩ := word_of_letters hu
  obtain ⟨hyb, hylen⟩ := word_of_letters hy
  have hub' := eq_replicate_of_mem hub
  have hyb' := eq_replicate_of_mem hyb
  have hxa : x.count 'a' ≤ 1 := (count_le_length).trans hcount
  have hcounts (c : Char) : (wildText before after).count c = u.count c + (x.count c + y.count c) + post.count c := by
    rw [htext, hm, count_append, count_append, count_append]
  have ha := hcounts 'a'
  have hb := hcounts 'b'
  rw [hub', hyb'] at ha hb
  simp only [wildText, count_replicate] at ha hb
  simp at ha hb
  have hpost : post ≠ [] := by
    rintro rfl
    simp at ha
    omega
  rcases hafter with hanchor | hpos
  · exact hpost (hend hanchor)
  · have hlast : (wildText before after).getLast? = some 'b' := by
      obtain ⟨k, hk⟩ := Nat.exists_eq_add_of_lt hpos
      rw [wildText, hk, replicate_succ', ← append_assoc, ← append_assoc, getLast?_concat]
    rw [htext, getLast?_append_of_ne_nil _ hpost] at hlast
    have hmem : 0 < post.count 'b' := count_pos_iff.mpr (mem_of_getLast? hlast)
    omega

end Wild

end Tablo.Regexp
