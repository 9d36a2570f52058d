import Tablo.Fallible
import Tablo.MatchSpec

/-! What compiling a pattern adds to the code. -/

namespace Tablo.Match

open Fallible List

variable {W E S R : Type} {P : Program W E S R}

theorem codeSize_append (a b : List (Instr E S)) : codeSize P (a ++ b) = codeSize P a + codeSize P b := by
  simp [codeSize]

/-- The compiler has added code of `bytes` bytes, with or without tests, and
names in new slots; the failing jumps are still to be patched. -/
structure Emitted (P : Program W E S R) (c c' : Emitter E S) (bytes : Nat) (tests : Bool) : Prop where
  code : c.code <+: c'.code
  size : codeSize P c'.code = codeSize P c.code + bytes
  targets : ∀ k < c.code.length, c'.targets k = c.targets k
  localCount : c.localCount ≤ c'.localCount
  names : ∃ new, c'.names = c.names ++ new ∧ ∀ n ∈ new, c.localCount ≤ n.2 ∧ n.2 < c'.localCount
  failJumps : ∃ new, c'.failJumps = c.failJumps ++ new ∧ (new ≠ [] ↔ tests = true) ∧
    ∀ k ∈ new, c.code.length ≤ k ∧ k < c'.code.length ∧ c'.targets k = none
  endJumps : c'.endJumps = c.endJumps

variable {c c₁ c₂ : Emitter E S} {n m : Nat} {a b : Bool} {c' : Emitter E S} {name : String}

theorem Emitted.length_le (h : Emitted P c c₁ n a) : c.code.length ≤ c₁.code.length := h.code.length_le

theorem Emitted.trans (h₁ : Emitted P c c₁ n a) (h₂ : Emitted P c₁ c₂ m b) : Emitted P c c₂ (n + m) (a || b) := by
  have hlen := h₁.length_le
  have hlen' := h₂.length_le
  have hloc := h₁.localCount
  have hloc' := h₂.localCount
  refine ⟨h₁.code.trans h₂.code, ?_, ?_, hloc.trans hloc', ?_, ?_, h₂.endJumps.trans h₁.endJumps⟩
  · rw [h₂.size, h₁.size, Nat.add_assoc]
  · intro k hk
    rw [h₂.targets k (by omega), h₁.targets k hk]
  · obtain ⟨new₁, heq₁, hnew₁⟩ := h₁.names
    obtain ⟨new₂, heq₂, hnew₂⟩ := h₂.names
    refine ⟨new₁ ++ new₂, by rw [heq₂, heq₁, append_assoc], fun x hx => ?_⟩
    rcases mem_append.mp hx with hx | hx
    · have hb := hnew₁ x hx
      omega
    · have hb := hnew₂ x hx
      omega
  · obtain ⟨new₁, heq₁, hne₁, hnew₁⟩ := h₁.failJumps
    obtain ⟨new₂, heq₂, hne₂, hnew₂⟩ := h₂.failJumps
    refine ⟨new₁ ++ new₂, by rw [heq₂, heq₁, append_assoc], ?_, fun k hk => ?_⟩
    · rw [Bool.or_eq_true, ← hne₁]
      simp only [ne_eq, append_eq_nil_iff]
      tauto
    · rcases mem_append.mp hk with hk | hk
      · obtain ⟨hlo, hhi, hnone⟩ := hnew₁ k hk
        exact ⟨hlo, by omega, by rw [h₂.targets k hhi, hnone]⟩
      · obtain ⟨hlo, hhi, hnone⟩ := hnew₂ k hk
        exact ⟨by omega, hhi, hnone⟩

def Named (c : Emitter E S) : Prop := ∀ k ∈ c.names, k.2 < c.localCount

theorem Emitted.named (h : Emitted P c c₁ n a) (hc : Named c) : Named c₁ := by
  obtain ⟨new, heq, hnew⟩ := h.names
  intro k hk
  rw [heq] at hk
  rcases mem_append.mp hk with hk | hk
  · exact (hc k hk).trans_le h.localCount
  · exact (hnew k hk).2

theorem Emitted.refl (c : Emitter E S) : Emitted P c c 0 false :=
  ⟨prefix_rfl, rfl, fun _ _ => rfl, le_rfl, ⟨[], by simp⟩, ⟨[], by simp⟩, rfl⟩

theorem emit_emitted (i : Instr E S) (c : Emitter E S) : Emitted P c (emit i c) (i.size P) false := by
  refine ⟨prefix_append _ _, ?_, fun _ _ => rfl, le_rfl, ⟨[], by simp [emit]⟩, ⟨[], by simp [emit]⟩, rfl⟩
  simp [emit, codeSize]

theorem emitFailJump_emitted (c : Emitter E S) : Emitted P c (emitFailJump c) 3 true := by
  refine ⟨prefix_append _ _, ?_, ?_, le_rfl, ⟨[], by simp [emitFailJump]⟩, ⟨[c.code.length], ?_⟩, rfl⟩
  · simp [emitFailJump, codeSize, Instr.size]
  · intro k hk
    exact Function.update_of_ne hk.ne _ _
  · simp [emitFailJump]

theorem takeLocals_eq (h : takeLocals n c = .ok c') : c' = { c with localCount := c.localCount + n } := by
  unfold takeLocals at h
  split_ifs at h
  exact (Except.ok.inj h).symm

theorem takeLocals_emitted (h : takeLocals n c = .ok c') : Emitted P c c' 0 false := by
  rw [takeLocals_eq h]
  exact ⟨prefix_rfl, rfl, fun _ _ => rfl, Nat.le_add_right _ _, ⟨[], by simp⟩, ⟨[], by simp⟩, rfl⟩

theorem addLocal_eq (h : addLocal name c = .ok c') :
    c' = { c with localCount := c.localCount + 1, names := c.names ++ [(name, c.localCount)] } := by
  unfold addLocal at h
  cases ht : takeLocals 1 c with
  | error r => simp [ht, bind, Except.bind] at h
  | ok d =>
    simp only [ht, bind, Except.bind, Except.ok.injEq] at h
    rw [← h, takeLocals_eq ht]

theorem addLocal_emitted (h : addLocal name c = .ok c') : Emitted P c c' 0 false := by
  rw [addLocal_eq h]
  exact ⟨prefix_rfl, rfl, fun _ _ => rfl, Nat.le_add_right _ _, ⟨[(name, c.localCount)], by simp⟩,
    ⟨[], by simp⟩, rfl⟩

variable {slot : Nat} {allow : Bool}

theorem compileMatchValueCompare_eq {e : E} (h : compileMatchValueCompare P slot e c = .ok c') :
    ∃ d, takeLocals (P.exprLocals e) (emit (.loadLocal slot) c) = .ok d ∧
      c' = emit .pop (emitFailJump (emit .eq (emit (.compared e c.names) d))) := by
  obtain ⟨d, hd, hc⟩ := ok_of_bind h
  refine ⟨d, hd, ?_⟩
  rw [← Except.ok.inj hc, takeLocals_eq hd]
  rfl

theorem compare_emitted {e : E} (h : compileMatchValueCompare P slot e c = .ok c') :
    Emitted P c c' (compareBytes P e + 1) true := by
  obtain ⟨d, hd, rfl⟩ := compileMatchValueCompare_eq h
  have hh := ((((emit_emitted (P := P) (.loadLocal slot) c).trans (takeLocals_emitted hd)).trans
    (emit_emitted (.compared e c.names) d)).trans (emit_emitted .eq _)).trans (emitFailJump_emitted _)
  exact hh.trans (emit_emitted .pop _)

def constantTest (slot : Nat) (get : Instr E S) (k : Value) (index : Nat) (c : Emitter E S) : Emitter E S :=
  emit .pop (emitFailJump (emit .eq (emit (.const k index) (emit get (emit (.loadLocal slot) c)))))

theorem constantTest_emitted (get : Instr E S) (k : Value) (index : Nat) (c : Emitter E S) :
    Emitted P c (constantTest slot get k index c) (2 + get.size P + constBytes index + 1 + 3 + 1) true :=
  (((((emit_emitted (.loadLocal slot) c).trans (emit_emitted get _)).trans
    (emit_emitted (.const k index) _)).trans (emit_emitted .eq _)).trans
    (emitFailJump_emitted _)).trans (emit_emitted .pop _)

theorem compileMemberTests_eq (slot : Nat) (m : Member) (c : Emitter E S) :
    compileMemberTests slot m c = constantTest slot (.tupleGet 0) (.int m.tag) m.tagConstant
      (constantTest slot .typeOf (.string "tuple") m.typeConstant c) := rfl

theorem memberTests_emitted (m : Member) (c : Emitter E S) :
    Emitted P c (compileMemberTests slot m c) (typeTestBytes m + 1 + (tagTestBytes m + 1)) true :=
  (constantTest_emitted .typeOf _ _ c).trans (constantTest_emitted (.tupleGet 0) _ _ _)

def fetched (slot : Nat) (get : Instr E S) (c : Emitter E S) : Emitter E S :=
  emit (.storeLocal c.localCount) (emit get (emit (.loadLocal slot) { c with localCount := c.localCount + 1 }))

theorem compileComponents_cons {fetch : Nat → Except String (Instr E S)} {i : Nat} {p : Pattern E}
    {ps : List (Pattern E)} (h : compileComponents P fetch slot i (p :: ps) c = .ok c') :
    ∃ get d, fetch i = .ok get ∧ compilePattern P p c.localCount true (fetched slot get c) = .ok d ∧
      compileComponents P fetch slot (i + 1) ps d = .ok c' := by
  obtain ⟨get, hget, h⟩ := ok_of_bind h
  obtain ⟨d, hd, h⟩ := ok_of_bind h
  obtain ⟨d', hd', h⟩ := ok_of_bind h
  rw [takeLocals_eq hd] at hd'
  exact ⟨get, d', hget, hd', h⟩

def TwoBytes (P : Program W E S R) (fetch : Nat → Except String (Instr E S)) : Prop :=
  ∀ i get, fetch i = .ok get → get.size P = 2

theorem fetched_emitted {get : Instr E S} (hget : get.size P = 2) (c : Emitter E S) :
    Emitted P c (fetched slot get c) 6 false := by
  have hlocal : Emitted P c { c with localCount := c.localCount + 1 } 0 false :=
    ⟨prefix_rfl, rfl, fun _ _ => rfl, Nat.le_add_right _ _, ⟨[], by simp⟩, ⟨[], by simp⟩, rfl⟩
  have hh := ((hlocal.trans (emit_emitted (.loadLocal slot) _)).trans (emit_emitted get _)).trans
    (emit_emitted (.storeLocal c.localCount) _)
  rw [hget] at hh
  exact hh

theorem tupleElement_twoBytes : TwoBytes P tupleElement := by
  intro i get h
  unfold tupleElement at h
  split_ifs at h
  cases h
  rfl

theorem recordField_twoBytes (type : RecordType) (fieldNames : List String) :
    TwoBytes P (recordField type fieldNames) := by
  intro i get h
  unfold recordField at h
  split at h
  · cases h
  · split_ifs at h
    cases h
    rfl

theorem payloadElement_twoBytes : TwoBytes P payloadElement := by
  intro i get h
  cases h
  rfl

mutual

theorem compilePattern_emitted (p : Pattern E) {slot : Nat} {allow : Bool} {c c' : Emitter E S}
    (h : compilePattern P p slot allow c = .ok c') : Emitted P c c' (p.bytes P allow) (p.tests allow) := by
  cases p with
  | identifier name e =>
    simp only [compilePattern, Pattern.bytes, Pattern.tests] at h ⊢
    by_cases hb : (allow && compilerMatchBindingNameLooksDestructure name) = true
    · rw [if_pos hb] at h ⊢
      rw [hb]
      split_ifs at h ⊢ with hname
      · cases h
        exact .refl c
      · obtain ⟨d, hd, hc⟩ := ok_of_bind h
        cases hc
        exact ((addLocal_emitted hd).trans (emit_emitted (.loadLocal slot) d)).trans (emit_emitted _ _)
    · rw [if_neg hb] at h ⊢
      rw [Bool.eq_false_iff.mpr hb]
      exact compare_emitted h
  | value e => exact compare_emitted h
  | tuple ps => exact compileComponents_emitted ps tupleElement_twoBytes h
  | record type fieldNames ps => exact compileComponents_emitted ps (recordField_twoBytes type fieldNames) h
  | member m ps =>
    obtain ⟨-, -, h⟩ := ok_of_bind h
    exact (memberTests_emitted m c).trans (compileComponents_emitted ps payloadElement_twoBytes h)

theorem compileComponents_emitted (ps : List (Pattern E)) {fetch : Nat → Except String (Instr E S)}
    (hfetch : TwoBytes P fetch) {slot i : Nat} {c c' : Emitter E S}
    (h : compileComponents P fetch slot i ps c = .ok c') : Emitted P c c' (bytesAll P ps) (testsAny ps) := by
  cases ps with
  | nil =>
    cases h
    exact .refl c
  | cons p ps =>
    obtain ⟨get, d, hget, hp, hps⟩ := compileComponents_cons h
    have hh := (fetched_emitted (hfetch i get hget) c).trans (compilePattern_emitted p hp)
    rw [bytesAll, testsAny]
    simpa using hh.trans (compileComponents_emitted ps hfetch hps)

end

end Tablo.Match
