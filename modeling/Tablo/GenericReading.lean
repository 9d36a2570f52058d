import Tablo.GenericKeys

/-! The text of a clean type can be read back: in front of a comma or a closing
bracket it belongs to one type only. -/

namespace Tablo.GenericTypes

open List

open Encoding (Byte ascii)

/-! ### Where a type ends -/

def isStop (b : Byte) : Bool := b = 44 || b = 62 || b = 41 || b = 93

def Stops (u : Text) : Prop := ∀ b, u.head? = some b → isStop b = true

theorem stops_cons {b : Byte} (h : isStop b = true) (u : Text) : Stops (b :: u) := by
  intro c hc
  cases hc
  exact h

def Breaks (u : Text) : Prop := ∀ b, u.head? = some b → isWord b = false

theorem breaks_cons {b : Byte} (h : isWord b = false) (u : Text) : Breaks (b :: u) := by
  intro c hc
  cases hc
  exact h

theorem not_isWord_of_isStop (b : Byte) (h : isStop b = true) : isWord b = false := by
  simp only [isStop, Bool.or_eq_true, decide_eq_true_eq] at h
  rcases h with ((rfl | rfl) | rfl) | rfl <;> rfl

variable {u : Text} {g : Ground} {r r' v w : Text}

theorem Stops.breaks (h : Stops u) : Breaks u := fun b hb => not_isWord_of_isStop b (h b hb)

theorem breaks_mark (n : Bool) (h : Stops u) : Breaks (mark n ++ u) := by
  cases n with
  | false => exact h.breaks
  | true => exact breaks_cons rfl u

theorem Stops.head_ne (h : Stops u) {b : Byte} (hb : isStop b = false) (v : Text) : u ≠ b :: v := by
  intro hu
  have := h b (by rw [hu]; rfl)
  rw [hb] at this
  cases this

theorem mark_inj {n m : Bool} (hu : Stops u) (hv : Stops v) (h : mark n ++ u = mark m ++ v) :
    n = m ∧ u = v := by
  cases n with
  | false =>
    cases m with
    | false => exact ⟨rfl, h⟩
    | true => exact absurd h (hu.head_ne rfl v)
  | true =>
    cases m with
    | false => exact absurd h.symm (hv.head_ne rfl u)
    | true => exact ⟨rfl, (List.cons.inj h).2⟩

theorem mark_ne_bracket {n : Bool} (hu : Stops u) (v : Text) : mark n ++ u ≠ 91 :: v := by
  cases n with
  | false => exact hu.head_ne rfl v
  | true => exact fun h => absurd (List.cons.inj h).1 (by decide)

theorem takeWhile_word (hw : ∀ b ∈ w, isWord b = true) (hr : Breaks r) :
    (w ++ r).takeWhile isWord = w := by
  rw [takeWhile_append_of_pos hw]
  cases r with
  | nil => exact append_nil w
  | cons b r => rw [takeWhile_cons_of_neg (by rw [hr b rfl]; decide), append_nil]

theorem word_inj {w' : Text} (hw : ∀ b ∈ w, isWord b = true) (hw' : ∀ b ∈ w', isWord b = true)
    (hr : Breaks r) (hr' : Breaks r') (h : w ++ r = w' ++ r') : w = w' ∧ r = r' := by
  have hword : w = w' := by
    rw [← takeWhile_word hw hr, h, takeWhile_word hw' hr']
  rw [hword] at h
  exact ⟨hword, append_cancel_left h⟩

theorem ident_inj {a b : Ident} (hr : Breaks r) (hr' : Breaks r')
    (h : a.text ++ r = b.text ++ r') : a = b ∧ r = r' := by
  obtain ⟨ht, hrest⟩ := word_inj a.word b.word hr hr' h
  obtain ⟨text', word'⟩ := b
  cases ht
  exact ⟨rfl, hrest⟩

/-! ### The first word -/

inductive Tag where
  | int
  | prim (kind : Prim)
  | blank (kind : Blank)
  | cell (kind : CellKind)
  | map | tuple | function | record | interface
  deriving DecidableEq

namespace Tag

def text : Tag → Text
  | int => ascii "int"
  | prim k => k.text
  | blank k => k.text
  | cell k => k.text
  | map => ascii "map"
  | tuple => []
  | function => ascii "func"
  | record => ascii "record"
  | interface => ascii "interface"

def bytes : Tag → Text
  | int => [105, 110, 116]
  | prim .bool => [98, 111, 111, 108]
  | prim .double => [100, 111, 117, 98, 108, 101]
  | prim .bigint => [98, 105, 103, 105, 110, 116]
  | prim .string => [115, 116, 114, 105, 110, 103]
  | prim .bytes => [98, 121, 116, 101, 115]
  | blank .nil => [110, 105, 108]
  | blank .void => [118, 111, 105, 100]
  | blank .any => [97, 110, 121]
  | cell .array => [97, 114, 114, 97, 121]
  | cell .future => [70, 117, 116, 117, 114, 101]
  | cell .set => [115, 101, 116]
  | map => [109, 97, 112]
  | tuple => []
  | function => [102, 117, 110, 99]
  | record => [114, 101, 99, 111, 114, 100]
  | interface => [105, 110, 116, 101, 114, 102, 97, 99, 101]

theorem text_eq_bytes (a : Tag) : a.text = a.bytes := by
  cases a with
  | prim k | blank k | cell k => cases k <;> rfl
  | _ => rfl

def all : List Tag :=
  [int, prim .bool, prim .double, prim .bigint, prim .string, prim .bytes, blank .nil, blank .void, blank .any,
    cell .array, cell .future, cell .set, map, tuple, function, record, interface]

theorem find_bytes (a : Tag) : all.find? (·.bytes = a.bytes) = some a := by
  cases a with
  | prim k | blank k | cell k => cases k <;> rfl
  | _ => rfl

theorem text_inj {a b : Tag} (h : a.text = b.text) : a = b := by
  rw [text_eq_bytes, text_eq_bytes] at h
  have ha := find_bytes a
  rw [h, find_bytes b] at ha
  exact (Option.some.inj ha).symm

theorem isWord_text (a : Tag) : ∀ b ∈ a.text, isWord b = true := by
  have h : a.bytes.all isWord = true := by
    cases a with
    | prim k | blank k | cell k => cases k <;> rfl
    | _ => rfl
  rw [text_eq_bytes]
  exact all_eq_true.mp h

end Tag

def Ground.tag : Ground → Tag
  | .int _ _ => .int
  | .prim k _ => .prim k
  | .blank k _ => .blank k
  | .cell k _ _ => .cell k
  | .map _ _ _ => .map
  | .tuple _ _ => .tuple
  | .function _ _ _ _ => .function
  | .record _ _ _ => .record
  | .interface _ _ => .interface

/-! ### The texts of clean types -/

theorem Ground.Clean.fits (h : g.Clean) : g.text.length ≤ 255 := by
  have hmark (n : Bool) : (mark n).length ≤ 1 := by cases n <;> decide
  cases g with
  | int e n =>
    have := hmark n
    rw [text, toTy, compose, length_append, show (ascii "int").length = 3 from rfl]
    omega
  | prim k n =>
    have := hmark n
    have hk : k.text.length ≤ 6 := by cases k <;> decide
    rw [text, toTy, compose, length_append]
    omega
  | blank k n =>
    have hk : k.text.length ≤ 4 := by cases k <;> decide
    rw [text, toTy, compose]
    omega
  | cell k e n => exact h.2
  | map k v n => exact h.2.2
  | tuple es n => exact h.2
  | function tps ps r n => exact h.2.2.2.2
  | record base args n => exact h.2
  | interface name n => exact h

theorem Ground.Clean.take (h : g.Clean) : (compose g.toTy).take 255 = g.text :=
  take_of_length_le h.fits

theorem take_of_length_take {t : Text} (m : Nat) {k : Nat} (h : (t.take k).length ≤ m) (hm : m < k) :
    t.take k = t := by
  rw [length_take] at h
  exact take_of_length_le (by omega)

theorem bracket_not_mem (base : Ident) : (91 : Byte) ∉ base.text := by
  intro h
  exact absurd (base.word 91 h) (by decide)

def Grounds.bracketed : Grounds → Text
  | .nil => []
  | .cons t ts => 91 :: (composeAll (ascii ",") (Grounds.cons t ts).toTys ++ [93])

/-- What the text of a clean type has after its first word. -/
def Ground.body : Ground → Text
  | .int _ n | .prim _ n => mark n
  | .blank _ _ => []
  | .cell _ e n => 60 :: (e.text ++ 62 :: mark n)
  | .map key v n => 60 :: (key.text ++ 44 :: 32 :: (v.text ++ 62 :: mark n))
  | .tuple es n => 40 :: (composeAll (ascii ", ") es.toTys ++ 41 :: mark n)
  | .function tps ps r _ => composeParams tps.toTypeParams ++
      40 :: (composeAll (ascii ", ") ps.toTys ++ 41 :: 58 :: 32 :: r.text)
  | .record base args n => 32 :: (base.text ++ (args.bracketed ++ mark n))
  | .interface name n => 32 :: (name.text ++ mark n)

theorem Ground.Clean.text_eq (h : g.Clean) : g.text = g.tag.text ++ g.body := by
  cases g with
  | int o n | prim k n => rfl
  | blank k n =>
    rw [body, append_nil]
    rfl
  | cell k e n =>
    rw [text, toTy, compose, h.1.take]
    simp only [append_assoc]
    rfl
  | map key v n =>
    rw [text, toTy, compose, h.1.take, h.2.1.take]
    simp only [append_assoc]
    rfl
  | tuple es n =>
    have hlen := h.fits
    rw [text, toTy, compose] at hlen ⊢
    have hall : (composeAll (ascii ", ") es.toTys).take 511 = composeAll (ascii ", ") es.toTys := by
      apply take_of_length_take 255 (le_trans _ hlen) (by decide)
      simp only [length_append]
      omega
    rw [hall]
    simp only [append_assoc]
    rfl
  | function tps ps r n =>
    have hlen := h.fits
    rw [text, toTy, compose] at hlen ⊢
    have hps : (composeAll (ascii ", ") ps.toTys).take 511 = composeAll (ascii ", ") ps.toTys := by
      apply take_of_length_take 255 (le_trans _ hlen) (by decide)
      simp only [length_append]
      omega
    have htps : (composeParams tps.toTypeParams).take 255 = composeParams tps.toTypeParams := by
      have hshort : ((composeParams tps.toTypeParams).take 255).length ≤ 251 := by
        have h4 : (ascii "func").length = 4 := rfl
        simp only [length_append] at hlen
        omega
      exact take_of_length_take 251 hshort (by decide)
    rw [hps, htps, h.2.2.2.1.take]
    simp only [append_assoc]
    rfl
  | record base args n =>
    cases args with
    | nil =>
      rw [text, toTy, Grounds.toTys, instanceName, compose, if_neg (bracket_not_mem base)]
      simp only [append_assoc]
      rfl
    | cons t ts =>
      have hmem : (91 : Byte) ∈ instanceName base.text (Grounds.cons t ts).toTys := by
        have hbracket : (91 : Byte) ∈ ascii "[" := by decide
        exact mem_append_left _ (mem_append_left _ (mem_append_right _ hbracket))
      rw [text, toTy, compose, if_pos hmem, body, Grounds.bracketed]
      simp only [Grounds.toTys, instanceName, buildGenericKey, append_assoc, cons_append]
      rfl
  | interface name n =>
    rw [text, toTy]
    rfl

theorem breaks_bracketed (args : Grounds) (n : Bool) (hu : Stops u) : Breaks (args.bracketed ++ (mark n ++ u)) := by
  cases args with
  | nil => exact breaks_mark n hu
  | cons t ts => exact breaks_cons rfl _

theorem breaks_body (hu : Stops u) : Breaks (g.body ++ u) := by
  cases g with
  | int o n | prim kind n => exact breaks_mark n hu
  | blank kind n => exact hu.breaks
  | function tps ps r n => cases tps <;> exact breaks_cons rfl _
  | _ => exact breaks_cons rfl _

theorem text_takeWhile (hg : g.Clean) (hu : Stops u) : (g.text ++ u).takeWhile isWord = g.tag.text := by
  rw [hg.text_eq, append_assoc]
  exact takeWhile_word (Tag.isWord_text _) (breaks_body hu)

theorem body_eq {x y : Ground} (hx : x.Clean) (hy : y.Clean) (hu : Stops u) (hv : Stops v)
    (h : x.text ++ u = y.text ++ v) : x.tag = y.tag ∧ x.body ++ u = y.body ++ v := by
  rw [hx.text_eq, hy.text_eq, append_assoc, append_assoc] at h
  obtain ⟨htag, hbody⟩ := word_inj x.tag.isWord_text y.tag.isWord_text (breaks_body hu) (breaks_body hv) h
  exact ⟨Tag.text_inj htag, hbody⟩

def Closes (u : Text) : Prop := ∃ v, u = 41 :: v ∨ u = 93 :: v

theorem Closes.stops (h : Closes u) : Stops u := by
  rcases h with ⟨v, rfl | rfl⟩ <;> exact stops_cons rfl v

theorem Closes.ne_comma (h : Closes u) (v : Text) : u ≠ 44 :: v := by
  rcases h with ⟨w, rfl | rfl⟩ <;> exact fun he => absurd (List.cons.inj he).1 (by decide)

theorem Closes.ne_text (h : Closes u) (hg : g.Clean) (hv : Stops v) : u ≠ g.text ++ v := by
  intro he
  have hempty : (g.text ++ v).takeWhile isWord = [] := by
    rw [← he]
    rcases h with ⟨w, rfl | rfl⟩ <;> exact takeWhile_cons_of_neg (by decide)
  rw [text_takeWhile hg hv] at hempty
  have htag : g.tag = .tuple := Tag.text_inj hempty
  -- only a tuple begins without a word, and it begins with an opening bracket
  cases g with
  | tuple es n =>
    rcases h with ⟨w, rfl | rfl⟩ <;> exact absurd (List.cons.inj he).1 (by decide)
  | _ => cases htag

/-! ### Reading back -/

theorem stops_rest (s : Text) (ts : Tys) (hu : Closes u) : Stops (composeRest (44 :: s) ts ++ u) := by
  cases ts with
  | nil => exact hu.stops
  | cons t ts => exact stops_cons rfl _

theorem stops_more (ps : TypeParams) (hu : Closes u) : Stops (composeMore ps ++ u) := by
  cases ps with
  | nil => exact hu.stops
  | plain name ps | bounded name c ps => exact stops_cons rfl _

theorem composeRest_cons (s : Text) {t : Ground} (ht : t.Clean) (ts : Grounds) (u : Text) :
    composeRest (44 :: s) (Grounds.cons t ts).toTys ++ u =
      44 :: (s ++ (t.text ++ (composeRest (44 :: s) ts.toTys ++ u))) := by
  rw [Grounds.toTys, composeRest, ht.take]
  simp

theorem composeAll_cons (separator : Text) {t : Ground} (ht : t.Clean) (ts : Grounds) (u : Text) :
    composeAll separator (Grounds.cons t ts).toTys ++ u = t.text ++ (composeRest separator ts.toTys ++ u) := by
  rw [Grounds.toTys, composeAll, ht.take, append_assoc]

theorem composeMore_plain (name : Ident) (ps : GroundParams) (u : Text) :
    composeMore (GroundParams.plain name ps).toTypeParams ++ u =
      44 :: 32 :: (name.text ++ (composeMore ps.toTypeParams ++ u)) := by
  rw [GroundParams.toTypeParams, composeMore]
  simp only [append_assoc]
  rfl

theorem composeMore_bounded (name : Ident) {c : Ground} (hc : c.text.length ≤ 127) (ps : GroundParams) (u : Text) :
    composeMore (GroundParams.bounded name c ps).toTypeParams ++ u =
      44 :: 32 :: (name.text ++ 58 :: 32 :: (c.text ++ (composeMore ps.toTypeParams ++ u))) := by
  rw [GroundParams.toTypeParams, composeMore, show (compose c.toTy).take 127 = c.text from take_of_length_le hc]
  simp only [append_assoc]
  rfl

theorem composeParams_cases (ps : TypeParams) : composeParams ps = [] ∧ composeMore ps = [] ∨
      ∃ inner, composeParams ps = 91 :: (inner ++ [93]) ∧ composeMore ps = 44 :: 32 :: inner := by
  cases ps with
  | nil => exact .inl ⟨rfl, rfl⟩
  | plain name ps =>
    refine .inr ⟨name ++ composeMore ps, ?_, rfl⟩
    rfl
  | bounded name c ps =>
    refine .inr ⟨name ++ ascii ": " ++ (compose c).take 127 ++ composeMore ps, ?_, ?_⟩
    · rw [composeParams]
      rfl
    · rw [composeMore]
      rfl

theorem more_of_params {ps qs : TypeParams} (h : composeParams ps ++ 40 :: u = composeParams qs ++ 40 :: v) :
    composeMore ps ++ 93 :: 40 :: u = composeMore qs ++ 93 :: 40 :: v := by
  rcases composeParams_cases ps with ⟨hp, hm⟩ | ⟨inner, hp, hm⟩ <;>
    rcases composeParams_cases qs with ⟨hq, hm'⟩ | ⟨inner', hq, hm'⟩ <;> rw [hp, hq] at h <;> rw [hm, hm']
  · exact congrArg (93 :: ·) h
  · exact absurd (List.cons.inj h).1 (by decide)
  · exact absurd (List.cons.inj h).1 (by decide)
  · have hinner := (List.cons.inj h).2
    simp only [append_assoc, append_eq, cons_append, nil_append] at hinner ⊢
    rw [hinner]

mutual

theorem Ground.text_inj (x y : Ground) (hx : x.Clean) (hy : y.Clean) {u v : Text} (hu : Stops u) (hv : Stops v)
    (h : x.text ++ u = y.text ++ v) : x = y ∧ u = v := by
  obtain ⟨htag, hb⟩ := body_eq hx hy hu hv h
  cases x with
  | int o n =>
    cases y with
    | int o' n' =>
      obtain ⟨rfl, rfl⟩ := mark_inj hu hv hb
      cases hx
      cases hy
      exact ⟨rfl, rfl⟩
    | _ => cases htag
  | prim k n =>
    cases y with
    | prim k' n' =>
      cases htag
      obtain ⟨rfl, rfl⟩ := mark_inj hu hv hb
      exact ⟨rfl, rfl⟩
    | _ => cases htag
  | blank k n =>
    cases y with
    | blank k' n' =>
      cases htag
      cases hx
      cases hy
      exact ⟨rfl, hb⟩
    | _ => cases htag
  | cell k e n =>
    cases y with
    | cell k' e' n' =>
      cases htag
      simp only [Ground.body, cons_append, append_assoc, cons.injEq, true_and] at hb
      obtain ⟨rfl, hm⟩ := e.text_inj e' hx.1 hy.1 (stops_cons rfl _) (stops_cons rfl _) hb
      obtain ⟨rfl, rfl⟩ := mark_inj hu hv (List.cons.inj hm).2
      exact ⟨rfl, rfl⟩
    | _ => cases htag
  | map key x n =>
    cases y with
    | map key' x' n' =>
      simp only [Ground.body, cons_append, append_assoc, cons.injEq, true_and] at hb
      obtain ⟨rfl, hr⟩ := key.text_inj key' hx.1 hy.1 (stops_cons rfl _) (stops_cons rfl _) hb
      have hv' := (List.cons.inj (List.cons.inj hr).2).2
      obtain ⟨rfl, hm⟩ := x.text_inj x' hx.2.1 hy.2.1 (stops_cons rfl _) (stops_cons rfl _) hv'
      obtain ⟨rfl, rfl⟩ := mark_inj hu hv (List.cons.inj hm).2
      exact ⟨rfl, rfl⟩
    | _ => cases htag
  | tuple es n =>
    cases y with
    | tuple es' n' =>
      simp only [Ground.body, cons_append, append_assoc, cons.injEq, true_and] at hb
      obtain ⟨rfl, hm⟩ := es.all_inj [32] es' hx.1 hy.1 ⟨_, .inl rfl⟩ ⟨_, .inl rfl⟩ hb
      obtain ⟨rfl, rfl⟩ := mark_inj hu hv (List.cons.inj hm).2
      exact ⟨rfl, rfl⟩
    | _ => cases htag
  | function tps ps r n =>
    cases y with
    | function tps' ps' r' n' =>
      obtain ⟨rfl, htps, hps, hr, -⟩ := hx
      obtain ⟨rfl, htps', hps', hr', -⟩ := hy
      simp only [Ground.body, cons_append, append_assoc] at hb
      obtain ⟨rfl, hp⟩ := tps.more_inj tps' htps htps' ⟨_, .inr rfl⟩ ⟨_, .inr rfl⟩ (more_of_params hb)
      obtain ⟨rfl, hq⟩ := ps.all_inj [32] ps' hps hps' ⟨_, .inl rfl⟩ ⟨_, .inl rfl⟩
        (List.cons.inj (List.cons.inj hp).2).2
      have hres := (List.cons.inj (List.cons.inj (List.cons.inj hq).2).2).2
      obtain ⟨rfl, rfl⟩ := r.text_inj r' hr hr' hu hv hres
      exact ⟨rfl, rfl⟩
    | _ => cases htag
  | record base args n =>
    cases y with
    | record base' args' n' =>
      simp only [Ground.body, cons_append, append_assoc, cons.injEq, true_and] at hb
      obtain ⟨rfl, hm⟩ := ident_inj (breaks_bracketed args n hu) (breaks_bracketed args' n' hv) hb
      cases args with
      | nil =>
        cases args' with
        | nil =>
          obtain ⟨rfl, rfl⟩ := mark_inj hu hv hm
          exact ⟨rfl, rfl⟩
        | cons t' ts' => exact absurd hm (mark_ne_bracket hu _)
      | cons t ts =>
        cases args' with
        | nil => exact absurd hm.symm (mark_ne_bracket hv _)
        | cons t' ts' =>
          simp only [Grounds.bracketed, cons_append, append_assoc, cons.injEq, true_and] at hm
          obtain ⟨hargs, hc⟩ := (Grounds.cons t ts).all_inj [] (.cons t' ts') hx.1 hy.1 ⟨_, .inr rfl⟩ ⟨_, .inr rfl⟩ hm
          obtain ⟨rfl, rfl⟩ := mark_inj hu hv (List.cons.inj hc).2
          cases hargs
          exact ⟨rfl, rfl⟩
    | _ => cases htag
  | interface name n =>
    cases y with
    | interface name' n' =>
      simp only [Ground.body, cons_append, append_assoc, cons.injEq, true_and] at hb
      obtain ⟨rfl, hm⟩ := ident_inj (breaks_mark n hu) (breaks_mark n' hv) hb
      obtain ⟨rfl, rfl⟩ := mark_inj hu hv hm
      exact ⟨rfl, rfl⟩
    | _ => cases htag
termination_by structural x

theorem Grounds.rest_inj (s : Text) : (xs ys : Grounds) → xs.Clean → ys.Clean → ∀ {u v : Text},
    Closes u → Closes v → composeRest (44 :: s) xs.toTys ++ u = composeRest (44 :: s) ys.toTys ++ v → xs = ys ∧ u = v
  | .nil, .nil, _, _, _, _, _, _, h => ⟨rfl, h⟩
  | .nil, .cons t ts, _, hy, _, _, hu, _, h => by
    rw [composeRest_cons s hy.1] at h
    exact absurd h (hu.ne_comma _)
  | .cons t ts, .nil, hx, _, _, _, _, hv, h => by
    rw [composeRest_cons s hx.1] at h
    exact absurd h.symm (hv.ne_comma _)
  | .cons t ts, .cons t' ts', hx, hy, u, v, hu, hv, h => by
    rw [composeRest_cons s hx.1, composeRest_cons s hy.1] at h
    have ht := append_cancel_left (List.cons.inj h).2
    obtain ⟨rfl, hr⟩ := t.text_inj t' hx.1 hy.1 (stops_rest s _ hu) (stops_rest s _ hv) ht
    obtain ⟨rfl, rfl⟩ := ts.rest_inj s ts' hx.2 hy.2 hu hv hr
    exact ⟨rfl, rfl⟩
termination_by structural x => x

theorem Grounds.all_inj (s : Text) : (xs ys : Grounds) → xs.Clean → ys.Clean → ∀ {u v : Text},
    Closes u → Closes v → composeAll (44 :: s) xs.toTys ++ u = composeAll (44 :: s) ys.toTys ++ v → xs = ys ∧ u = v
  | .nil, .nil, _, _, _, _, _, _, h => ⟨rfl, h⟩
  | .nil, .cons t ts, _, hy, _, _, hu, hv, h => by
    rw [composeAll_cons _ hy.1] at h
    exact absurd h (hu.ne_text hy.1 (stops_rest s _ hv))
  | .cons t ts, .nil, hx, _, _, _, hu, hv, h => by
    rw [composeAll_cons _ hx.1] at h
    exact absurd h.symm (hv.ne_text hx.1 (stops_rest s _ hu))
  | .cons t ts, .cons t' ts', hx, hy, u, v, hu, hv, h => by
    rw [composeAll_cons _ hx.1, composeAll_cons _ hy.1] at h
    obtain ⟨rfl, hr⟩ := t.text_inj t' hx.1 hy.1 (stops_rest s _ hu) (stops_rest s _ hv) h
    obtain ⟨rfl, rfl⟩ := ts.rest_inj s ts' hx.2 hy.2 hu hv hr
    exact ⟨rfl, rfl⟩
termination_by structural x => x

theorem GroundParams.more_inj : (ps qs : GroundParams) → ps.Clean → qs.Clean → ∀ {u v : Text},
    Closes u → Closes v → composeMore ps.toTypeParams ++ u = composeMore qs.toTypeParams ++ v → ps = qs ∧ u = v
  | .nil, .nil, _, _, _, _, _, _, h => ⟨rfl, h⟩
  | .nil, .plain name qs, _, _, _, _, hu, _, h => by
    rw [composeMore_plain] at h
    exact absurd h (hu.ne_comma _)
  | .nil, .bounded name c qs, _, hq, _, _, hu, _, h => by
    rw [composeMore_bounded name hq.2.1] at h
    exact absurd h (hu.ne_comma _)
  | .plain name ps, .nil, _, _, _, _, _, hv, h => by
    rw [composeMore_plain] at h
    exact absurd h.symm (hv.ne_comma _)
  | .bounded name c ps, .nil, hp, _, _, _, _, hv, h => by
    rw [composeMore_bounded name hp.2.1] at h
    exact absurd h.symm (hv.ne_comma _)
  | .plain name ps, .plain name' qs, hp, hq, u, v, hu, hv, h => by
    rw [composeMore_plain, composeMore_plain] at h
    have hn := (List.cons.inj (List.cons.inj h).2).2
    obtain ⟨rfl, hr⟩ := ident_inj (stops_more _ hu).breaks (stops_more _ hv).breaks hn
    obtain ⟨rfl, rfl⟩ := ps.more_inj qs hp hq hu hv hr
    exact ⟨rfl, rfl⟩
  | .plain name ps, .bounded name' c qs, _, hq, u, v, hu, _, h => by
    rw [composeMore_plain, composeMore_bounded name' hq.2.1] at h
    have hn := (List.cons.inj (List.cons.inj h).2).2
    obtain ⟨-, hr⟩ := ident_inj (stops_more _ hu).breaks (breaks_cons rfl _) hn
    exact absurd hr ((stops_more _ hu).head_ne rfl _)
  | .bounded name c ps, .plain name' qs, hp, _, u, v, _, hv, h => by
    rw [composeMore_bounded name hp.2.1, composeMore_plain] at h
    have hn := (List.cons.inj (List.cons.inj h).2).2
    obtain ⟨-, hr⟩ := ident_inj (breaks_cons rfl _) (stops_more _ hv).breaks hn
    exact absurd hr.symm ((stops_more _ hv).head_ne rfl _)
  | .bounded name c ps, .bounded name' c' qs, hp, hq, u, v, hu, hv, h => by
    rw [composeMore_bounded name hp.2.1, composeMore_bounded name' hq.2.1] at h
    have hn := (List.cons.inj (List.cons.inj h).2).2
    obtain ⟨rfl, hr⟩ := ident_inj (breaks_cons rfl _) (breaks_cons rfl _) hn
    have hc := (List.cons.inj (List.cons.inj hr).2).2
    obtain ⟨rfl, hm⟩ := c.text_inj c' hp.1 hq.1 (stops_more _ hu) (stops_more _ hv) hc
    obtain ⟨rfl, rfl⟩ := ps.more_inj qs hp.2.2 hq.2.2 hu hv hm
    exact ⟨rfl, rfl⟩
termination_by structural x => x

end

end Tablo.GenericTypes
