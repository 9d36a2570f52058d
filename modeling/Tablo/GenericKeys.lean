import Tablo.GenericTypes

/-! The keys of generic record instances. A key is readable, so that it belongs
to one list of type arguments only, as long as every nested text fits its buffer
and no part is printed like another type. -/

namespace Tablo.GenericTypes

open Encoding (ascii)

/-! ### Resolved type arguments -/

mutual

/-- A resolved type without type parameters. An instance of a generic record is its base
record and its arguments; its name is the key made of them. -/
inductive Ground where
  | int (enumName : Option Text) (nullable : Bool)
  | prim (kind : Prim) (nullable : Bool)
  | blank (kind : Blank) (nullable : Bool)
  | cell (kind : CellKind) (element : Ground) (nullable : Bool)
  | map (key value : Ground) (nullable : Bool)
  | tuple (elements : Grounds) (nullable : Bool)
  | function (typeParams : GroundParams) (params : Grounds) (result : Ground) (nullable : Bool)
  | record (base : Ident) (args : Grounds) (nullable : Bool)
  | interface (name : Ident) (nullable : Bool)

inductive Grounds where
  | nil
  | cons (head : Ground) (tail : Grounds)

inductive GroundParams where
  | nil
  | plain (name : Ident) (tail : GroundParams)
  | bounded (name : Ident) (constraint : Ground) (tail : GroundParams)

end

def instanceName (base : Text) : Tys → Text
  | .nil => base
  | .cons t ts => buildGenericKey base (.cons t ts)

mutual

def Ground.toTy : Ground → Ty
  | .int e n => .int e n
  | .prim k n => .prim k n
  | .blank k n => .blank k n
  | .cell k e n => .cell k e.toTy n
  | .map k v n => .map k.toTy v.toTy n
  | .tuple es n => .tuple es.toTys n
  | .function tps ps r n => .function tps.toTypeParams ps.toTys r.toTy n
  | .record base args n => .record (instanceName base.text args.toTys) args.toTys n
  | .interface name n => .interface name.text n

def Grounds.toTys : Grounds → Tys
  | .nil => .nil
  | .cons t ts => .cons t.toTy ts.toTys

def GroundParams.toTypeParams : GroundParams → TypeParams
  | .nil => .nil
  | .plain name ps => .plain name.text ps.toTypeParams
  | .bounded name c ps => .bounded name.text c.toTy ps.toTypeParams

end

namespace Ground

def text (g : Ground) : Text := compose g.toTy

def nullable : Ground → Bool
  | .int _ n | .prim _ n | .blank _ n | .cell _ _ n | .map _ _ n | .tuple _ n
  | .function _ _ _ n | .record _ _ n | .interface _ n => n

def flip : Ground → Ground
  | .int e n => .int e !n
  | .prim k n => .prim k !n
  | .blank k n => .blank k !n
  | .cell k e n => .cell k e !n
  | .map k v n => .map k v !n
  | .tuple es n => .tuple es !n
  | .function tps ps r n => .function tps ps r !n
  | .record base args n => .record base args !n
  | .interface name n => .interface name !n

theorem flip_ne (g : Ground) : g.flip ≠ g := by
  have h : g.flip.nullable ≠ g.nullable := by
    cases g <;> simp [flip, nullable]
  exact fun he => h (congrArg nullable he)

end Ground

mutual

/-- Nothing is printed like another type: no enum, no nullability that is not shown, and every
nested text fits the buffer it is printed to. -/
def Ground.Clean : Ground → Prop
  | .int e _ => e = none
  | .prim _ _ => True
  | .blank _ n => n = false
  | .cell k e n => e.Clean ∧ (Ground.cell k e n).text.length ≤ 255
  | .map k v n => k.Clean ∧ v.Clean ∧ (Ground.map k v n).text.length ≤ 255
  | .tuple es n => es.Clean ∧ (Ground.tuple es n).text.length ≤ 255
  | .function tps ps r n =>
    n = false ∧ tps.Clean ∧ ps.Clean ∧ r.Clean ∧ (Ground.function tps ps r n).text.length ≤ 255
  | .record base args n => args.Clean ∧ (Ground.record base args n).text.length ≤ 255
  | .interface name n => (Ground.interface name n).text.length ≤ 255

def Grounds.Clean : Grounds → Prop
  | .nil => True
  | .cons t ts => t.Clean ∧ ts.Clean

def GroundParams.Clean : GroundParams → Prop
  | .nil => True
  | .plain _ ps => ps.Clean
  | .bounded _ c ps => c.Clean ∧ c.text.length ≤ 127 ∧ ps.Clean

end

/-! ### What is not clean is confused with something else -/

theorem take_append_mark {stem : Text} {k : Nat} (n m : Bool) (h : k < (stem ++ mark n).length) :
    (stem ++ mark m).take k = (stem ++ mark n).take k := by
  have hk : k ≤ stem.length := by
    cases n with
    | false => simpa [mark] using h.le
    | true =>
      have h1 : (mark true).length = 1 := rfl
      rw [List.length_append, h1] at h
      omega
  rw [List.take_append_of_le_length hk, List.take_append_of_le_length hk]

theorem Ground.flip_take {g : Ground} {k : Nat} (h : k < g.text.length) : g.flip.text.take k = g.text.take k := by
  cases g with
  | blank | function => rfl
  | int e n | prim kind n | cell kind e n | map key v n | tuple es n | record base args n | interface name n =>
    exact take_append_mark n _ h

structure SamePrint (ts ts' : Tys) : Prop where
  all : ∀ separator, composeAll separator ts = composeAll separator ts'
  rest : ∀ separator, composeRest separator ts = composeRest separator ts'
  args : composeArgs ts = composeArgs ts'
  name : ∀ base, instanceName base ts = instanceName base ts'

theorem SamePrint.head {t t' : Ty} (h : (compose t).take 255 = (compose t').take 255) (ts : Tys) :
    SamePrint (.cons t ts) (.cons t' ts) where
  all separator := by rw [composeAll, composeAll, h]
  rest separator := by rw [composeRest, composeRest, h]
  args := by rw [composeArgs, composeArgs, h]
  name base := by rw [instanceName, instanceName, buildGenericKey, buildGenericKey, composeAll, composeAll, h]

theorem SamePrint.tail (t : Ty) {ts ts' : Tys} (h : SamePrint ts ts') : SamePrint (.cons t ts) (.cons t ts') where
  all separator := by rw [composeAll, composeAll, h.rest]
  rest separator := by rw [composeRest, composeRest, h.rest]
  args := by rw [composeArgs, composeArgs, h.rest]
  name base := by rw [instanceName, instanceName, buildGenericKey, buildGenericKey, composeAll, composeAll, h.rest]

structure SameParams (ps ps' : TypeParams) : Prop where
  first : composeParams ps = composeParams ps'
  more : composeMore ps = composeMore ps'

theorem Ground.confused_of_long {g : Ground} (h : ¬ g.text.length ≤ 255) :
    ∃ g' : Ground, g' ≠ g ∧ g'.text.take 255 = g.text.take 255 :=
  ⟨g.flip, g.flip_ne, flip_take (by omega)⟩

mutual

theorem Ground.confused : (g : Ground) → ¬ g.Clean → ∃ g' : Ground, g' ≠ g ∧ g'.text.take 255 = g.text.take 255
  | .int none n, h => absurd rfl h
  | .int (some e) n, _ => ⟨.int none n, (fun he => by cases he), rfl⟩
  | .prim k n, h => absurd trivial h
  | .blank k n, _ => ⟨.blank k !n, Ground.flip_ne (.blank k n), rfl⟩
  | .cell k e n, h => by
    by_cases he : e.Clean
    · exact Ground.confused_of_long fun hlen => h ⟨he, hlen⟩
    · obtain ⟨e', hne, hsame⟩ := e.confused he
      refine ⟨.cell k e' n, fun hc => hne (Ground.cell.inj hc).2.1, ?_⟩
      simp only [Ground.text, Ground.toTy, compose] at hsame ⊢
      rw [hsame]
  | .map key v n, h => by
    by_cases hk : key.Clean
    · by_cases hv : v.Clean
      · exact Ground.confused_of_long fun hlen => h ⟨hk, hv, hlen⟩
      · obtain ⟨v', hne, hsame⟩ := v.confused hv
        refine ⟨.map key v' n, fun hc => hne (Ground.map.inj hc).2.1, ?_⟩
        simp only [Ground.text, Ground.toTy, compose] at hsame ⊢
        rw [hsame]
    · obtain ⟨key', hne, hsame⟩ := key.confused hk
      refine ⟨.map key' v n, fun hc => hne (Ground.map.inj hc).1, ?_⟩
      simp only [Ground.text, Ground.toTy, compose] at hsame ⊢
      rw [hsame]
  | .tuple es n, h => by
    by_cases he : es.Clean
    · exact Ground.confused_of_long fun hlen => h ⟨he, hlen⟩
    · obtain ⟨es', hne, hsame⟩ := es.confused he
      refine ⟨.tuple es' n, fun hc => hne (Ground.tuple.inj hc).1, ?_⟩
      simp only [Ground.text, Ground.toTy, compose]
      rw [hsame.all]
  | .function tps ps r n, h => by
    by_cases ht : tps.Clean
    · by_cases hp : ps.Clean
      · by_cases hr : r.Clean
        · -- nullability of a function is never shown
          exact ⟨.function tps ps r !n, Ground.flip_ne (.function tps ps r n), rfl⟩
        · obtain ⟨r', hne, hsame⟩ := r.confused hr
          refine ⟨.function tps ps r' n, fun hc => hne (Ground.function.inj hc).2.2.1, ?_⟩
          simp only [Ground.text, Ground.toTy, compose] at hsame ⊢
          rw [hsame]
      · obtain ⟨ps', hne, hsame⟩ := ps.confused hp
        refine ⟨.function tps ps' r n, fun hc => hne (Ground.function.inj hc).2.1, ?_⟩
        simp only [Ground.text, Ground.toTy, compose]
        rw [hsame.all]
    · obtain ⟨tps', hne, hsame⟩ := tps.confused ht
      refine ⟨.function tps' ps r n, fun hc => hne (Ground.function.inj hc).1, ?_⟩
      simp only [Ground.text, Ground.toTy, compose]
      rw [hsame.first]
  | .record base args n, h => by
    by_cases ha : args.Clean
    · exact Ground.confused_of_long fun hlen => h ⟨ha, hlen⟩
    · obtain ⟨args', hne, hsame⟩ := args.confused ha
      refine ⟨.record base args' n, fun hc => hne (Ground.record.inj hc).2.1, ?_⟩
      simp only [Ground.text, Ground.toTy, compose]
      rw [hsame.name, hsame.args]
  | .interface name n, h => Ground.confused_of_long h

theorem Grounds.confused : (gs : Grounds) → ¬ gs.Clean → ∃ gs' : Grounds, gs' ≠ gs ∧ SamePrint gs'.toTys gs.toTys
  | .nil, h => absurd trivial h
  | .cons t ts, h => by
    by_cases ht : t.Clean
    · obtain ⟨ts', hne, hsame⟩ := ts.confused fun hts => h ⟨ht, hts⟩
      exact ⟨.cons t ts', fun hc => hne (Grounds.cons.inj hc).2, hsame.tail t.toTy⟩
    · obtain ⟨t', hne, hsame⟩ := t.confused ht
      exact ⟨.cons t' ts, fun hc => hne (Grounds.cons.inj hc).1, .head hsame ts.toTys⟩

theorem GroundParams.confused : (ps : GroundParams) → ¬ ps.Clean →
    ∃ ps' : GroundParams, ps' ≠ ps ∧ SameParams ps'.toTypeParams ps.toTypeParams
  | .nil, h => absurd trivial h
  | .plain name ps, h => by
    obtain ⟨ps', hne, hsame⟩ := ps.confused h
    refine ⟨.plain name ps', fun hc => hne (GroundParams.plain.inj hc).2, ?_, ?_⟩
    · simp only [GroundParams.toTypeParams, composeParams, hsame.more]
    · simp only [GroundParams.toTypeParams, composeMore, hsame.more]
  | .bounded name c ps, h => by
    by_cases hps : ps.Clean
    · have hc : ∃ c' : Ground, c' ≠ c ∧ c'.text.take 127 = c.text.take 127 := by
        by_cases hc : c.Clean
        · exact ⟨c.flip, c.flip_ne, Ground.flip_take (by
            by_contra hlen
            exact h ⟨hc, by omega, hps⟩)⟩
        · obtain ⟨c', hne, hsame⟩ := c.confused hc
          refine ⟨c', hne, ?_⟩
          simpa [List.take_take] using congrArg (List.take 127) hsame
      obtain ⟨c', hne, hsame⟩ := hc
      rw [Ground.text, Ground.text] at hsame
      refine ⟨.bounded name c' ps, fun hc => hne (GroundParams.bounded.inj hc).2.1, ?_, ?_⟩
      · simp only [GroundParams.toTypeParams, composeParams, hsame]
      · simp only [GroundParams.toTypeParams, composeMore, hsame]
    · obtain ⟨ps', hne, hsame⟩ := ps.confused hps
      refine ⟨.bounded name c ps', fun hc => hne (GroundParams.bounded.inj hc).2.2, ?_, ?_⟩
      · simp only [GroundParams.toTypeParams, composeParams, hsame.more]
      · simp only [GroundParams.toTypeParams, composeMore, hsame.more]

end

end Tablo.GenericTypes
