import Tablo.FoldingLayers

/-! Where folding keeps the meaning of an expression. -/

namespace Tablo.Folding

open Outcome

variable {B O K S : Type} (host : Host B O) (run : K → S → Outcome B O S) {e f : Expr K} {s : S}

def Differs (x y : Outcome B O S) : Prop :=
  (∃ e s, x = (.error e, s) ∧ x ≠ y) ∨ ∃ r s v s', x = (r, s) ∧ y = (.ok v, s') ∧ Cut v r

/-- `f` stands for `e` in the state `s` if the identities used keep their operands, and differs
from it otherwise. -/
structure Agrees (e f : Expr K) (s : S) : Prop where
  same : Kept host run e s → eval host run f s = eval host run e s
  differs : ¬ Kept host run e s → Differs (eval host run e s) (eval host run f s)
  not_tooLong : ¬ Kept host run e s → eval host run f s ≠ (.error tooLong, s)
  constant_tooLong : ∀ c, constant e = some c → ¬ Kept host run e s → eval host run e s = (.error tooLong, s)

theorem Differs.ne {x y : Outcome B O S} (h : Differs x y) : x ≠ y := by
  rcases h with ⟨e, s, -, hne⟩ | ⟨r, s, v, s', rfl, rfl, t, u, rfl, rfl, ht, hu⟩
  · exact hne
  · intro heq
    have hstring := Value.string.inj (Except.ok.inj (congrArg Prod.fst heq))
    exact ht (hstring ▸ hu)

theorem Spoils.differs {v : Value B O} {r : Except Fault (Value B O)} (h : Spoils v r) (s s' : S) :
    Differs (r, s) (.ok v, s') := by
  rcases h with ⟨e, rfl⟩ | hcut
  · exact .inl ⟨e, s, rfl, fun h => by cases congrArg Prod.fst h⟩
  · exact .inr ⟨r, s, v, s', rfl, rfl, hcut⟩

theorem Spoils.outcome {v : Value B O} {r : Except Fault (Value B O)} (h : Spoils v r) {x : Outcome B O S}
    (hx : x = (r, s)) : (∃ u, x = (.error u, s)) ∨ ∃ result, x = (result, s) ∧ Cut v result := by
  rcases h with ⟨u, rfl⟩ | hcut
  · exact .inl ⟨u, hx⟩
  · exact .inr ⟨r, hx, hcut⟩

variable {host run} {a b c d : Literal}

theorem Agrees.of_kept (hk : Kept host run e s) (h : eval host run f s = eval host run e s) : Agrees host run e f s :=
  ⟨fun _ => h, fun hno => absurd hk hno, fun hno => absurd hk hno, fun _ _ hno => absurd hk hno⟩

theorem Agrees.of_not_kept (hno : ¬ Kept host run e s)
    (hd : Differs (eval host run e s) (eval host run f s)) (hn : eval host run f s ≠ (.error tooLong, s))
    (hc : ∀ c, constant e = some c → eval host run e s = (.error tooLong, s)) : Agrees host run e f s :=
  ⟨fun hk => absurd hk hno, fun _ => hd, fun _ => hn, fun c h _ => hc c h⟩

theorem Agrees.of_tooLong (heval : eval host run e s = (.error tooLong, s))
    (hno : ¬ Kept host run e s) (hn : eval host run f s ≠ (.error tooLong, s)) : Agrees host run e f s := by
  refine .of_not_kept hno ?_ hn fun _ _ => heval
  rw [heval]
  exact .inl ⟨_, s, rfl, hn.symm⟩

theorem Agrees.refl_of_kept (hk : Kept host run e s) : Agrees host run e e s := .of_kept hk rfl

structure Folds (host : Host B O) (run : K → S → Outcome B O S) (e : Expr K) (folded : Option (Expr K)) : Prop where
  foldsTo : FoldsTo e (folded.getD e)
  agrees : ∀ s, Agrees host run e (folded.getD e) s

theorem Folds.eval_constant {fe : Option (Expr K)} (h : Folds host run e fe) (hc : constant e = some c)
    (hk : Kept host run e s) : eval host run e s = (.ok (c.value host), s) := by
  rw [← (h.agrees s).same hk, (h.foldsTo.literal_iff c).mpr hc, eval]

theorem FoldsTo.not_literal (h : FoldsTo e f) (hc : constant e = none) (c : Literal) : f ≠ .literal c := by
  rw [Ne, h.literal_iff, hc]
  simp

theorem FoldsTo.of_constant {e' : Expr K} (h : FoldsTo e f) (hkind : e'.kind = e.kind)
    (hc : constant e' = constant e) : FoldsTo e' f :=
  ⟨h.kind_eq.trans hkind.symm, fun c => by rw [hc]; exact h.literal_iff c, fun c => by rw [hc]; exact h.plain c⟩

abbrev Sided (op : BinaryOp) (l r : Expr K) (x : Option Side) : Prop :=
  side op l.kind r.kind (constant l) (constant r) = x

section Layer

variable {op : BinaryOp} {l r : Expr K} {fl fr : Option (Expr K)} {c : Literal} {s s' : S} {v : Value B O}

variable (op) in
theorem eval_after (hr : Folds host run r fr) (hc : constant r = some c) (hl : eval host run l s = (.ok v, s')) :
    ((shortCircuit op v = none → Kept host run r s') →
        eval host run (.binary op l r) s = (after host op l.kind r.kind v (c.value host), s')) ∧
      (¬ (shortCircuit op v = none → Kept host run r s') →
        eval host run (.binary op l r) s = (.error tooLong, s')) := by
  rw [eval, hl, after]
  dsimp only [andThen]
  cases hshort : shortCircuit op v with
  | some result => exact ⟨fun _ => rfl, fun hno => absurd (fun h => by cases h) hno⟩
  | none =>
    constructor
    · intro hk
      rw [hr.eval_constant hc (hk rfl)]
      rfl
    · intro hno
      rw [(hr.agrees s').constant_tooLong c hc fun hk => hno fun _ => hk]

theorem eval_error {e : Fault} (hl : eval host run l s = (.error e, s')) :
    eval host run (.binary op l r) s = (.error e, s') := by
  rw [eval, hl]
  rfl

/-- The operand `x` stands for `e` as long as its value passes. -/
structure Stands (host : Host B O) (run : K → S → Outcome B O S) (e x : Expr K) (Passes : Value B O → S → Prop)
    (s : S) : Prop where
  kept : Kept host run e s ↔ Kept host run x s ∧ ∀ v s', eval host run x s = (.ok v, s') → Passes v s'
  error : ∀ {u s'}, eval host run x s = (.error u, s') → eval host run e s = (.error u, s')
  passes : ∀ {v s'}, eval host run x s = (.ok v, s') → Passes v s' → eval host run e s = (.ok v, s')
  fails : ∀ {v s'}, eval host run x s = (.ok v, s') → ¬ Passes v s' →
    (∃ u, eval host run e s = (.error u, s')) ∨ ∃ result, eval host run e s = (result, s') ∧ Cut v result
  constant_eq : constant e = constant x
  literal : ∀ d, constant x = some d → eval host run x s = (.ok (d.value host), s) → ¬ Passes (d.value host) s →
    eval host run e s = (.error tooLong, s)

theorem Stands.agrees {x : Expr K} {fx : Option (Expr K)} {Passes : Value B O → S → Prop}
    (h : Stands host run e x Passes s) (hf : Folds host run x fx) : Agrees host run e (fx.getD x) s := by
  have hx := hf.agrees s
  by_cases hk : Kept host run x s
  · have hsame := hx.same hk
    rcases hev : eval host run x s with ⟨u | v, s'⟩
    · refine .of_kept (h.kept.mpr ⟨hk, fun v s' hv => ?_⟩) ?_
      · rw [hev] at hv
        cases hv
      · rw [hsame, hev, h.error hev]
    · by_cases hp : Passes v s'
      · refine .of_kept (h.kept.mpr ⟨hk, fun w s'' hw => ?_⟩) ?_
        · rw [hev] at hw
          cases hw
          exact hp
        · rw [hsame, hev, h.passes hev hp]
      · refine .of_not_kept (fun hh => hp ((h.kept.mp hh).2 v s' hev)) ?_ ?_ fun d hd => ?_
        · rw [hsame, hev]
          rcases h.fails hev hp with ⟨u, he⟩ | ⟨result, he, hcut⟩
          · rw [he]
            exact Spoils.differs (.inl ⟨u, rfl⟩) s' s'
          · rw [he]
            exact Spoils.differs (.inr hcut) s' s'
        · rw [hsame, hev]
          intro hh
          cases hh
        · rw [h.constant_eq] at hd
          have hvalue := hf.eval_constant hd hk
          rw [hev] at hvalue
          cases hvalue
          exact h.literal d hd hev hp
  · refine .of_not_kept (fun hh => hk (h.kept.mp hh).1) ?_ (hx.not_tooLong hk) fun d hd => ?_
    · rcases hx.differs hk with ⟨u, s', hev, hne⟩ | ⟨_, s', _, s'', hev, hef, t, w, rfl, rfl, ht, hw⟩
      · rw [hev] at hne
        rw [h.error hev]
        exact .inl ⟨u, s', rfl, hne⟩
      · rw [hef]
        by_cases hp : Passes (.string t) s'
        · exact .inr ⟨_, s', _, s'', h.passes hev hp, rfl, t, w, rfl, rfl, ht, hw⟩
        · rcases h.fails hev hp with ⟨u, he⟩ | ⟨result, -, t', w', -, hstring, -, hzero⟩
          · rw [he]
            exact Spoils.differs (.inl ⟨u, rfl⟩) s' s''
          · cases hstring
            exact absurd hzero ht
    · rw [h.constant_eq] at hd
      exact h.error (hx.constant_tooLong d hd hk)

theorem stands_left (hl : Folds host run l fl) (hr : Folds host run r fr)
    (hc : constant r = some c) (hrule : LeftRule op l.kind r.kind c) (hside : Sided op l r (some .left)) (s : S) :
    Stands host run (.binary op l r) l
      (fun v s' => PassesLeft host op l.kind v ∧ (shortCircuit op v = none → Kept host run r s')) s where
  kept := by rw [Kept, hside]
  error := eval_error
  passes hel hp := by rw [(eval_after op hr hc hel).1 hp.2, (hrule.result host _).1 hp.1]
  fails {v s'} hel hno := by
    obtain ⟨hafter, hlong⟩ := eval_after op hr hc hel
    by_cases hreach : shortCircuit op v = none → Kept host run r s'
    · exact ((hrule.result host v).2 fun hp => hno ⟨hp, hreach⟩).outcome (hafter hreach)
    · exact .inl ⟨_, hlong hreach⟩
  constant_eq := by rw [constant, hside]
  literal d hd hel hno := by
    obtain ⟨hafter, hlong⟩ := eval_after op hr hc hel
    by_cases hreach : shortCircuit op (d.value host) = none → Kept host run r s
    · rw [hafter hreach]
      have hkind := hl.foldsTo.kind_literal hd
      rw [hkind] at hrule hno ⊢
      rw [hrule.constant host (hl.foldsTo.plain d hd) fun hp => hno ⟨hp, hreach⟩]
    · exact hlong hreach

theorem eval_constant_left (hl : eval host run l s = (.ok (c.value host), s)) (hrule : RightRule op l.kind r.kind c) :
    eval host run (.binary op l r) s =
      (eval host run r s).andThen fun b s => (binaryOp host op l.kind r.kind (c.value host) b, s) := by
  rw [eval, hl]
  dsimp only [andThen]
  rw [(hrule.result host).1]

theorem stands_right (hel : eval host run l s = (.ok (c.value host), s)) (hkl : Kept host run l s)
    (hr : Folds host run r fr) (hrule : RightRule op l.kind r.kind c) (hside : Sided op l r (some .right)) :
    Stands host run (.binary op l r) r (fun v _ => PassesRight host op r.kind v) s where
  kept := by
    rw [Kept, hside]
    exact and_iff_right (.inl hkl)
  error her := by
    rw [eval_constant_left hel hrule, her]
    rfl
  passes her hp := by
    rw [eval_constant_left hel hrule, her, andThen, ((hrule.result host).2 _).1 hp]
  fails {v s'} her hno := by
    rw [eval_constant_left hel hrule, her, andThen]
    exact (((hrule.result host).2 v).2 hno).outcome rfl
  constant_eq := by rw [constant, hside]
  literal d hd her hno := by
    rw [eval_constant_left hel hrule, her, andThen]
    have hkind := hr.foldsTo.kind_literal hd
    rw [hkind] at hrule hno ⊢
    rw [hrule.constant host (hr.foldsTo.plain d hd) hno]

theorem agrees_right (hl : Folds host run l fl) (hr : Folds host run r fr) (hc : constant l = some c)
    (hrule : RightRule op l.kind r.kind c)
    (hside : Sided op l r (some .right)) (s : S) : Agrees host run (.binary op l r) (fr.getD r) s := by
  by_cases hkl : Kept host run l s
  · exact (stands_right (hl.eval_constant hc hkl) hkl hr hrule hside).agrees hr
  · have hiff : Kept host run (.binary op l r) s ↔
        (Kept host run l s ∨ eval host run r s = (.error tooLong, s)) ∧ Kept host run r s ∧
          ∀ v s', eval host run r s = (.ok v, s') → PassesRight host op r.kind v := by
      rw [Kept, hside]
    have heval : eval host run (.binary op l r) s = (.error tooLong, s) :=
      eval_error ((hl.agrees s).constant_tooLong c hc hkl)
    by_cases hkr : Kept host run r s
    · have hsame := (hr.agrees s).same hkr
      by_cases hfail : eval host run r s = (.error tooLong, s)
      · refine .of_kept (hiff.mpr ⟨.inr hfail, hkr, fun v s' hv => ?_⟩) ?_
        · rw [hfail] at hv
          cases hv
        · rw [hsame, hfail, heval]
      · refine .of_tooLong heval (fun hk => (hiff.mp hk).1.elim hkl hfail) ?_
        rwa [hsame]
    · exact .of_tooLong heval (fun hk => hkr (hiff.mp hk).2.1) ((hr.agrees s).not_tooLong hkr)

theorem agrees_value (hl : Folds host run l fl)
    (hc : constant l = some d) (hop : (op = .and ∧ d = .bool false) ∨ (op = .or ∧ d = .bool true))
    (hside : Sided op l r (some (.value d))) (s : S) : Agrees host run (.binary op l r) (.literal d) s := by
  have hiff : Kept host run (.binary op l r) s ↔ Kept host run l s := by rw [Kept, hside]
  by_cases hkl : Kept host run l s
  · refine .of_kept (hiff.mpr hkl) ?_
    rw [eval, eval, hl.eval_constant hc hkl]
    rcases hop with ⟨rfl, rfl⟩ | ⟨rfl, rfl⟩ <;> rfl
  · exact .of_tooLong (eval_error ((hl.agrees s).constant_tooLong d hc hkl)) (fun hk => hkl (hiff.mp hk)) fun h => by cases h

theorem shortCircuit_strict (hand : op ≠ .and) (hor : op ≠ .or) (v : Value B O) : shortCircuit op v = none := by
  cases op <;> first | rfl | contradiction

theorem constantOf_strict (h : constantOf op a b = some d) : op ≠ .and ∧ op ≠ .or := by
  constructor
  · rintro rfl
    cases a <;> cases b <;> cases h
  · rintro rfl
    cases a <;> cases b <;> cases h

theorem agrees_constants (hl : Folds host run l fl) (hr : Folds host run r fr)
    (hside : Sided op l r none) (ha : constant l = some a) (hb : constant r = some b)
    (hdef : DefinedOn op a b) (hd : constantOf op a b = some d) (s : S) :
    Agrees host run (.binary op l r) (.literal d) s := by
  have hiff : Kept host run (.binary op l r) s ↔
      Kept host run l s ∧ Kept host run r s ∧ (op = .plus → Short host a b) := by
    rw [Kept, hside]
    constructor
    · intro h
      exact h a b ha hb (by simp [hd])
    · intro h a' b' ha' hb' _
      rw [ha] at ha'
      rw [hb] at hb'
      cases ha'
      cases hb'
      exact h
  obtain ⟨hand, hor⟩ := constantOf_strict hd
  obtain ⟨-, hshort, hlong⟩ := binaryOp_constant host (hl.foldsTo.plain a ha) (hr.foldsTo.plain b hb) hdef hd
  rw [← hl.foldsTo.kind_literal ha, ← hr.foldsTo.kind_literal hb] at hshort hlong
  have hfail : ∀ {s : S}, eval host run (.binary op l r) s = (.error tooLong, s) →
      ¬ Kept host run (.binary op l r) s → Agrees host run (.binary op l r) (.literal d) s :=
    fun heval hno => .of_tooLong heval hno fun h => by cases h
  by_cases hkl : Kept host run l s
  · have heval : eval host run (.binary op l r) s =
        (eval host run r s).andThen fun y s => (binaryOp host op l.kind r.kind (a.value host) y, s) := by
      rw [eval, hl.eval_constant ha hkl]
      dsimp only [andThen]
      rw [shortCircuit_strict hand hor]
    by_cases hkr : Kept host run r s
    · rw [hr.eval_constant hb hkr] at heval
      by_cases hsh : op = .plus → Short host a b
      · refine .of_kept (hiff.mpr ⟨hkl, hkr, hsh⟩) ?_
        rw [heval, eval]
        dsimp only [andThen]
        rw [hshort hsh]
      · refine hfail ?_ fun hk => hsh (hiff.mp hk).2.2
        rw [heval]
        dsimp only [andThen]
        rw [hlong hsh]
    · refine hfail ?_ fun hk => hkr (hiff.mp hk).2.1
      rw [heval, (hr.agrees s).constant_tooLong b hb hkr]
      rfl
  · exact hfail (eval_error ((hl.agrees s).constant_tooLong a ha hkl)) fun hk => hkl (hiff.mp hk).1

end Layer

/-! ### The whole expression -/

theorem foldsTo_self (hc : constant e = none) (hl : ∀ c, e ≠ .literal c) : FoldsTo e e := by
  refine ⟨rfl, fun c => iff_of_false (hl c) ?_, fun c h => ?_⟩
  · rw [hc]
    simp
  · rw [hc] at h
    cases h

theorem side_logical {op : BinaryOp} (hop : op = .and ∨ op = .or) (ha : a.Plain) (hb : b.Plain)
    (haccepted : binaryAccepted op a.kind b.kind) : side op a.kind b.kind (some a) (some b) ≠ none := by
  cases a with
  | bool x =>
    cases b with
    | bool y => rcases hop with rfl | rfl <;> cases x <;> cases y <;> simp [side, Literal.kind]
    | int | string => rcases hop with rfl | rfl <;> simp [binaryAccepted, Literal.kind] at haccepted
    | double | bigint | nil => cases hb
  | int | string => rcases hop with rfl | rfl <;> simp [binaryAccepted, Literal.kind] at haccepted
  | double | bigint | nil => cases ha

section Binary

variable {op : BinaryOp} {l r : Expr K} {fl fr : Option (Expr K)} (ds : Doubles)

theorem foldsTo_literal (hc : constant e = some d) (hplain : d.Plain)
    (hkind : d.kind = e.kind) : FoldsTo e (.literal d) := by
  refine ⟨hkind, fun c => ?_, fun c h => ?_⟩
  · rw [hc, Option.some.injEq]
    exact ⟨fun h => Expr.literal.inj h, fun h => congrArg Expr.literal h⟩
  · rw [hc] at h
    cases h
    exact hplain

theorem folds_side (hl : Folds host run l fl) (hr : Folds host run r fr) {x : Side} (hside : Sided op l r (some x)) :
    Folds host run (.binary op l r) (some (x.pick (fl.getD l) (fr.getD r))) := by
  have hfl := hl.foldsTo
  have hfr := hr.foldsTo
  have hfollows := side_follows (fun c hc => hfl.kind_literal hc) (fun c hc => hfr.kind_literal hc) hside
  cases x with
  | left =>
    obtain ⟨c, hc, hrule⟩ := hfollows
    exact ⟨hfl.of_constant hrule.kind_eq (by rw [constant, hside]),
      fun s => (stands_left hl hr hc hrule hside s).agrees hl⟩
  | right =>
    obtain ⟨c, hc, hrule⟩ := hfollows
    exact ⟨hfr.of_constant hrule.kind_eq (by rw [constant, hside]), agrees_right hl hr hc hrule hside⟩
  | value d =>
    have hconstant : constant (.binary op l r) = some d := by rw [constant, hside]
    obtain ⟨-, hc, hop⟩ := hfollows
    refine ⟨foldsTo_literal hconstant (hfl.plain d hc) ?_, agrees_value hl hc hop hside⟩
    rcases hop with ⟨rfl, rfl⟩ | ⟨rfl, rfl⟩ <;> rfl

theorem foldBinary_identity {g : Expr K} (hid : foldIdentity ds op f g = some e) :
    foldBinary ds op f g = .ok (some e) := by
  unfold foldBinary
  rw [hid]

theorem foldBinary_not_literal {g : Expr K} (hid : foldIdentity ds op f g = none)
    (h : (∀ a, f ≠ .literal a) ∨ ∀ b, g ≠ .literal b) : foldBinary ds op f g = .ok none := by
  unfold foldBinary
  rw [hid]
  dsimp only
  split
  · rename_i a b
    rcases h with hf | hg
    · exact absurd rfl (hf a)
    · exact absurd rfl (hg b)
  · rfl

theorem foldBinary_literal (hid : foldIdentity ds op (.literal a : Expr K) (.literal b) = none) :
    foldBinary ds op (.literal a : Expr K) (.literal b) =
      (foldLiterals ds op a b >>= fun c => .ok (c.map .literal)) := by
  rw [foldBinary, hid]

theorem folds_none (hside : Sided op l r none)
    (h : ∀ a b, constant l = some a → constant r = some b → constantOf op a b = none) :
    Folds host run (.binary op l r) none := by
  have hconstant : constant (.binary op l r) = none := by
    rw [constant, hside]
    dsimp only
    split
    · exact h _ _ ‹_› ‹_›
    · rfl
  refine ⟨foldsTo_self hconstant fun c => by simp, fun s => .refl_of_kept ?_⟩
  rw [Kept, hside]
  intro a b ha hb hne
  exact absurd (h a b ha hb) hne

theorem folds_constants (hl : Folds host run l fl) (hr : Folds host run r fr)
    (hside : Sided op l r none) (ha : constant l = some a) (hb : constant r = some b) (hdef : DefinedOn op a b) :
    Folds host run (.binary op l r) ((constantOf op a b).map .literal) := by
  have hpa := hl.foldsTo.plain a ha
  have hpb := hr.foldsTo.plain b hb
  cases hd : constantOf op a b with
  | none =>
    refine folds_none hside fun a' b' ha' hb' => ?_
    rw [ha] at ha'
    rw [hb] at hb'
    cases ha'
    cases hb'
    exact hd
  | some d =>
    have hconstant : constant (.binary op l r) = some d := by rw [constant, hside, ha, hb, ← hd]
    have hkind : d.kind = (Expr.binary op l r).kind := by
      rw [Expr.kind, hl.foldsTo.kind_literal ha, hr.foldsTo.kind_literal hb]
      exact constantOf_kind hd
    refine ⟨foldsTo_literal hconstant (binaryOp_constant host hpa hpb hdef hd).1 hkind, ?_⟩
    exact agrees_constants hl hr hside ha hb hdef hd

def DefinedAt (op : BinaryOp) (l r : Expr K) : Prop :=
  side op l.kind r.kind (constant l) (constant r) = none →
    ∀ a b, constant l = some (.int a) → constant r = some (.int b) → Defined op a.toInt b.toInt

theorem folds_binary (hl : Folds host run l fl) (hr : Folds host run r fr)
    (haccepted : binaryAccepted op l.kind r.kind) :
    (DefinedAt op l r → ∃ folded, foldBinary host.doubles op (fl.getD l) (fr.getD r) = .ok folded ∧
        Folds host run (.binary op l r) folded) ∧
      (¬ DefinedAt op l r → foldBinary host.doubles op (fl.getD l) (fr.getD r) = .error .intOverflow) := by
  have hid := foldIdentity_eq host.doubles op hl.foldsTo hr.foldsTo
  cases hside : side op l.kind r.kind (constant l) (constant r) with
  | some x =>
    rw [hside] at hid
    refine ⟨fun _ => ⟨_, foldBinary_identity _ hid, folds_side hl hr hside⟩, fun hno => absurd ?_ hno⟩
    intro hnone
    cases hside.symm.trans hnone
  | none =>
    rw [hside] at hid
    by_cases hnot : constant l = none ∨ constant r = none
    · have hfalse : ∀ {a b}, constant l = some a → constant r = some b → False := by
        intro a b ha hb
        rw [ha, hb] at hnot
        simp at hnot
      refine ⟨fun _ => ⟨none, foldBinary_not_literal _ hid ?_, folds_none hside fun _ _ ha hb => (hfalse ha hb).elim⟩,
        fun hno => absurd (fun _ _ _ ha hb => (hfalse ha hb).elim) hno⟩
      exact hnot.imp hl.foldsTo.not_literal hr.foldsTo.not_literal
    · rw [not_or, ← ne_eq, ← ne_eq, Option.ne_none_iff_exists', Option.ne_none_iff_exists'] at hnot
      obtain ⟨⟨a, ha⟩, b, hb⟩ := hnot
      have hfl := (hl.foldsTo.literal_iff a).mpr ha
      have hfr := (hr.foldsTo.literal_iff b).mpr hb
      rw [hfl, hfr] at hid ⊢
      rw [foldBinary_literal _ hid]
      have hpa := hl.foldsTo.plain a ha
      have hpb := hr.foldsTo.plain b hb
      rw [hl.foldsTo.kind_literal ha, hr.foldsTo.kind_literal hb] at haccepted
      have hstrict : op ≠ .and ∧ op ≠ .or := by
        have hlogical := fun hop => side_logical hop hpa hpb haccepted
        rw [← hl.foldsTo.kind_literal ha, ← hr.foldsTo.kind_literal hb, ← ha, ← hb] at hlogical
        exact ⟨fun hop => hlogical (.inl hop) hside, fun hop => hlogical (.inr hop) hside⟩
      constructor
      · intro hdef
        have hdef' : DefinedOn op a b :=
          fun x y hx hy => hdef hside x y (by rw [ha, hx]) (by rw [hb, hy])
        refine ⟨(constantOf op a b).map .literal, ?_, ?_⟩
        · rw [foldLiterals_defined _ hpa hpb haccepted hstrict.1 hstrict.2 hdef']
          rfl
        · exact folds_constants hl hr hside ha hb hdef'
      · intro hno
        simp only [DefinedAt, ha, hb, Option.some.injEq, not_forall] at hno
        obtain ⟨-, x, y, rfl, rfl, hundef⟩ := hno
        rw [foldLiterals_undefined _ hundef]
        rfl

end Binary

section Unary

variable {op : UnaryOp} {e : Expr K} {fe : Option (Expr K)} (ds : Doubles)

theorem unaryOp_constant (host : Host B O) (hd : constantUnary op c = some d) :
    d.Plain ∧ d.kind = unaryKind op c.kind ∧ unaryOp host op c.kind (c.value host) = .ok (d.value host) := by
  cases c with
  | int n =>
    cases op with
    | minus =>
      obtain ⟨hn, rfl⟩ := constantInt_eq_some hd
      refine ⟨trivial, rfl, ?_⟩
      change ofInt (cNeg n) = _
      rw [cNeg, int64Of_pos hn]
      rfl
    | not => cases hd
    | bitNot =>
      cases hd
      exact ⟨trivial, rfl, rfl⟩
  | bool b =>
    cases op with
    | not =>
      cases hd
      exact ⟨trivial, rfl, rfl⟩
    | minus | bitNot => cases hd
  | string | double | bigint | nil => cases hd

theorem foldUnary_literal (hplain : c.Plain)
    (hdef : op = .minus → ∀ a, c = .int a → InInt64 (-a.toInt)) :
    foldUnary ds op (.literal c : Expr K) = .ok ((constantUnary op c).map .literal) := by
  cases c with
  | int n =>
    cases op with
    | minus =>
      have hn := hdef rfl n rfl
      simp only [foldUnary, cNeg, int64Of_pos hn, constantUnary, constantInt_pos hn]
      rfl
    | not | bitNot => rfl
  | bool b | string s => cases op <;> rfl
  | double | bigint | nil => cases hplain

theorem foldUnary_undefined {a : Int64} (h : ¬ InInt64 (-a.toInt)) :
    foldUnary ds .minus (.literal (.int a) : Expr K) = .error .intOverflow := by
  simp only [foldUnary, cNeg, int64Of_neg h]
  rfl

theorem foldUnary_not_literal (h : ∀ c, f ≠ .literal c) : foldUnary ds op f = .ok none := by
  cases f with
  | literal c => exact absurd rfl (h c)
  | leaf | binary | unary | cast => cases op <;> rfl

theorem folds_unary (he : Folds host run e fe) :
    ((op = .minus → ∀ a, constant e = some (.int a) → InInt64 (-a.toInt)) →
        ∃ folded, foldUnary host.doubles op (fe.getD e) = .ok folded ∧ Folds host run (.unary op e) folded) ∧
      (¬ (op = .minus → ∀ a, constant e = some (.int a) → InInt64 (-a.toInt)) →
        foldUnary host.doubles op (fe.getD e) = .error .intOverflow) := by
  have hf := he.foldsTo
  cases hc : constant e with
  | none =>
    have hnot := hf.not_literal hc
    refine ⟨fun _ => ⟨none, foldUnary_not_literal _ hnot, ?_⟩, fun hno => absurd (fun _ a h => by cases h) hno⟩
    refine ⟨foldsTo_self (by rw [constant, hc]; rfl) fun c => by simp, fun s => .refl_of_kept ?_⟩
    rw [Kept, hc]
    exact fun h => absurd rfl h
  | some c =>
    have hlit := (hf.literal_iff c).mpr hc
    have hplain := hf.plain c hc
    have hkind := hf.kind_literal hc
    rw [hlit]
    constructor
    · intro hdef
      refine ⟨_, foldUnary_literal _ hplain fun hop a ha => hdef hop a (by rw [ha]), ?_⟩
      have hconstant : constant (.unary op e) = constantUnary op c := by
        rw [constant, hc]
        rfl
      cases hd : constantUnary op c with
      | none =>
        rw [hd] at hconstant
        refine ⟨foldsTo_self hconstant fun c => by simp, fun s => .refl_of_kept ?_⟩
        rw [Kept, hc]
        exact fun h => absurd hd h
      | some d =>
        rw [hd] at hconstant
        obtain ⟨hpd, hkd, hrun⟩ := unaryOp_constant host hd
        rw [← hkind] at hkd hrun
        refine ⟨foldsTo_literal hconstant hpd hkd, fun s => ?_⟩
        have hiff : Kept host run (.unary op e) s ↔ Kept host run e s := by
          rw [Kept, hc]
          exact ⟨fun h => h (by simp [hd]), fun h _ => h⟩
        by_cases hk : Kept host run e s
        · refine .of_kept (hiff.mpr hk) ?_
          rw [eval, he.eval_constant hc hk]
          dsimp only [andThen]
          rw [hrun]
          rfl
        · refine .of_tooLong ?_ (fun h => hk (hiff.mp h)) fun h => by cases h
          rw [eval, (he.agrees s).constant_tooLong c hc hk]
          rfl
    · intro hno
      simp only [Option.some.injEq, not_forall] at hno
      obtain ⟨rfl, a, rfl, hundef⟩ := hno
      exact foldUnary_undefined _ hundef

end Unary

theorem folds_cast {target : Kind} {fe : Option (Expr K)} (he : Folds host run e fe)
    (hnoop : isNoopPrimitiveCast e.kind target = true) : Folds host run (.cast target e) (some (fe.getD e)) := by
  obtain ⟨hf, hagrees⟩ := he
  have hkind : e.kind = target := by
    rw [isNoopPrimitiveCast, Bool.and_eq_true, beq_iff_eq] at hnoop
    exact hnoop.1
  have heval : ∀ s, eval host run (.cast target e) s = eval host run e s := fun s => by rw [eval, if_pos hnoop]
  refine ⟨⟨hf.kind_eq.trans hkind, hf.literal_iff, hf.plain⟩, fun s => ?_⟩
  have ha := hagrees s
  refine ⟨fun hk => ?_, fun hk => ?_, ha.not_tooLong, fun c hc hk => ?_⟩
  · rw [heval]
    exact ha.same hk
  · rw [heval]
    exact ha.differs hk
  · rw [heval]
    exact ha.constant_tooLong c hc hk

/-- Folding overflows exactly where a constant operation does, and its result stands for the
expression otherwise. -/
theorem folds_of_covered (host : Host B O) (run : K → S → Outcome B O S) (e : Expr K) (hcovered : Covered e) :
    (InRange e → ∃ folded, foldExpressionRecursive host.doubles e = .ok folded ∧ Folds host run e folded) ∧
      (¬ InRange e → ∃ u, foldExpressionRecursive host.doubles e = .error u) := by
  induction e with
  | literal c =>
    exact ⟨fun _ => ⟨none, rfl, foldsTo_literal rfl hcovered rfl, fun s => .refl_of_kept trivial⟩,
      fun hno => absurd trivial hno⟩
  | leaf k kind =>
    exact ⟨fun _ => ⟨none, rfl, foldsTo_self rfl fun c => by simp, fun s => .refl_of_kept trivial⟩,
      fun hno => absurd trivial hno⟩
  | binary op l r ihl ihr =>
    obtain ⟨hcl, hcr, haccepted⟩ := hcovered
    obtain ⟨hokl, hfaill⟩ := ihl hcl
    obtain ⟨hokr, hfailr⟩ := ihr hcr
    by_cases hl : InRange l
    · obtain ⟨fl, hfl, hfoldsl⟩ := hokl hl
      by_cases hr : InRange r
      · obtain ⟨fr, hfr, hfoldsr⟩ := hokr hr
        obtain ⟨hok, hfail⟩ := folds_binary hfoldsl hfoldsr haccepted
        have hfold : foldExpressionRecursive host.doubles (.binary op l r) =
            foldBinary host.doubles op (fl.getD l) (fr.getD r) := by
          rw [foldExpressionRecursive, hfl, hfr]
          rfl
        rw [hfold]
        exact ⟨fun h => hok h.2.2, fun h => ⟨_, hfail fun hdef => h ⟨hl, hr, hdef⟩⟩⟩
      · obtain ⟨u, hu⟩ := hfailr hr
        simp only [foldExpressionRecursive, hfl, hu]
        exact ⟨fun h => absurd h.2.1 hr, fun _ => ⟨u, rfl⟩⟩
    · obtain ⟨u, hu⟩ := hfaill hl
      simp only [foldExpressionRecursive, hu]
      exact ⟨fun h => absurd h.1 hl, fun _ => ⟨u, rfl⟩⟩
  | unary op e ih =>
    obtain ⟨hok, hfail⟩ := ih hcovered.1
    by_cases he : InRange e
    · obtain ⟨fe, hfe, hfolds⟩ := hok he
      obtain ⟨hunary, hundef⟩ := folds_unary hfolds
      have hfold : foldExpressionRecursive host.doubles (.unary op e) = foldUnary host.doubles op (fe.getD e) := by
        rw [foldExpressionRecursive, hfe]
        rfl
      rw [hfold]
      exact ⟨fun h => hunary h.2, fun h => ⟨_, hundef fun hdef => h ⟨he, hdef⟩⟩⟩
    · obtain ⟨u, hu⟩ := hfail he
      simp only [foldExpressionRecursive, hu]
      exact ⟨fun h => absurd h.1 he, fun _ => ⟨u, rfl⟩⟩
  | cast target e ih =>
    obtain ⟨hc, hnoop⟩ := hcovered
    obtain ⟨hok, hfail⟩ := ih hc
    constructor
    · intro h
      obtain ⟨fe, hfe, hfolds⟩ := hok h
      refine ⟨some (fe.getD e), ?_, folds_cast hfolds hnoop⟩
      rw [foldExpressionRecursive, hfe]
      rw [← hfolds.foldsTo.kind_eq] at hnoop
      exact if_pos hnoop
    · intro h
      obtain ⟨u, hu⟩ := hfail h
      exact ⟨u, by simp only [foldExpressionRecursive, hu]; rfl⟩

def readVariable (_ : Unit) (s : Value Unit Unit) : Outcome Unit Unit (Value Unit Unit) := (.ok s, s)

def plainHost : Host Unit Unit where
  doubles := ⟨fun _ => false, fun _ => false, fun _ _ => false, fun _ _ => false, fun _ _ => false,
    fun x _ => x, fun x _ => x, fun x _ => x, fun x _ => x, id⟩
  maxStringLength := 16777216
  bigintOfInt _ := ()
  bigintOfText _ := ()
  bigintArithmetic _ _ _ := some ()
  bigintBitwise _ _ _ := ()
  bigintCompare _ _ := 0
  bigintNegate _ := ()
  bigintNot _ := ()
  objectEqual _ _ := true
  cast _ v := .ok v

end Tablo.Folding
