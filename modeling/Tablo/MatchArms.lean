import Tablo.MatchExec

/-! The code of the arms: where failed tests land and where arms end. -/

namespace Tablo.Match

open Fallible Stepping List

variable {W E S R : Type} {P : Program W E S R}

section Patch

variable {c : Emitter E S} {js : List Nat}

theorem codeSize_drop (l : List (Instr E S)) (k : Nat) :
    codeSize P (l.take k) + codeSize P (l.drop k) = codeSize P l := by
  rw [← codeSize_append, take_append_drop]

variable (P)

def patched (c : Emitter E S) (k : Nat) : Option Nat :=
  if codeSize P (c.code.drop (k + 1)) ≤ 32767 then some c.code.length else none

theorem patchJump_eq (c : Emitter E S) (k : Nat) :
    ∃ targets, patchJump P c k = { c with targets := targets } ∧ (∀ j, j ≠ k → targets j = c.targets j) ∧
      (c.targets k = none ∨ c.targets k = patched P c k → targets k = patched P c k) := by
  unfold patchJump patched
  split_ifs with hsize
  · exact ⟨_, rfl, fun j hj => Function.update_of_ne hj _ _, fun _ => Function.update_self _ _ _⟩
  · exact ⟨_, rfl, fun _ _ => rfl, fun h => h.elim id id⟩

theorem patchJumps_eq (js : List Nat) (c : Emitter E S) :
    ∃ targets, js.foldl (patchJump P) c = { c with targets := targets } ∧ (∀ j, j ∉ js → targets j = c.targets j) ∧
      ∀ j ∈ js, c.targets j = none ∨ c.targets j = patched P c j → targets j = patched P c j := by
  induction js generalizing c with
  | nil => exact ⟨c.targets, rfl, fun _ _ => rfl, by simp⟩
  | cons k js ih =>
    obtain ⟨t₁, heq₁, hother₁, hk₁⟩ := patchJump_eq P c k
    obtain ⟨t₂, heq₂, hother₂, hjs₂⟩ := ih { c with targets := t₁ }
    refine ⟨t₂, by rw [foldl_cons, heq₁, heq₂], fun j hj => ?_, fun j hj hnone => ?_⟩
    · obtain ⟨hjk, hj⟩ := not_or.mp (fun hh => hj (mem_cons.mpr hh))
      rw [hother₂ j hj, ← hother₁ j hjk]
    · have hsome : t₁ j = none ∨ t₁ j = patched P c j := by
        by_cases hjk : j = k
        · subst hjk
          exact .inr (hk₁ hnone)
        · rw [hother₁ j hjk]
          exact hnone
      by_cases hjs : j ∈ js
      · exact hjs₂ j hjs hsome
      · obtain rfl : j = k := by simpa [hjs] using hj
        rw [hother₂ j hjs]
        exact hk₁ hnone

variable {P}

end Patch

variable {c c' : Emitter E S} {slot r arm : Nat} {b : Body E S} {a : Option Nat} {n : Nat}

theorem compileGuard_some {g : E} (h : compileGuard P arm (some g) c = .ok c') :
    ∃ d, takeLocals (P.exprLocals g) c = .ok d ∧ c' = emit .pop (emitFailJump (emit (.guard arm g c.names) d)) := by
  obtain ⟨d, hd, hc⟩ := ok_of_bind h
  refine ⟨d, hd, ?_⟩
  rw [← Except.ok.inj hc, takeLocals_eq hd]

theorem compileGuard_emitted {g : Option E} (h : compileGuard P arm g c = .ok c') :
    Emitted P c c' (guardBytes P g) g.isSome := by
  cases g with
  | none =>
    cases h
    exact .refl c
  | some g =>
    obtain ⟨d, hd, rfl⟩ := compileGuard_some h
    have hh := (((takeLocals_emitted (P := P) hd).trans (emit_emitted (.guard arm g c.names) d)).trans
      (emitFailJump_emitted _)).trans (emit_emitted .pop _)
    simpa [guardBytes, Instr.size] using hh

def storeResult (r : Nat) : Body E S → Emitter E S → Emitter E S
  | .statement _, c => c
  | .value _, c => emit (.storeLocal r) c

theorem compileBody_eq (h : compileBody P a r b c = .ok c') :
    ∃ d, takeLocals (b.locals P) c = .ok d ∧ c' = storeResult r b (emit (.body a b c.names) d) := by
  obtain ⟨d, hd, hc⟩ := ok_of_bind h
  refine ⟨d, hd, ?_⟩
  rw [takeLocals_eq hd] at hc ⊢
  cases b with
  | statement st | value e => exact (Except.ok.inj hc).symm

theorem compileBody_emitted (h : compileBody P a r b c = .ok c') : Emitted P c c' (b.bytes P) false := by
  obtain ⟨d, hd, rfl⟩ := compileBody_eq h
  have hh := (takeLocals_emitted (P := P) hd).trans (emit_emitted (.body a b c.names) d)
  rw [Nat.zero_add] at hh
  cases b with
  | statement st => exact hh
  | value e => exact hh.trans (emit_emitted (.storeLocal r) _)

def armEnd (P : Program W E S R) (b : Body E S) (scopeStart : Nat) (c : Emitter E S) : Emitter E S :=
  if armTerminates P b then endScope scopeStart c else emitEndJump (endScope scopeStart c)

theorem compileArm_parts {a : Arm E S} (h : compileArm P slot r arm a c = .ok c') :
    ∃ c₁ c₂ c₃, compilePattern P a.pattern slot false c = .ok c₁ ∧ compileGuard P arm a.guard c₁ = .ok c₂ ∧
      compileBody P (some arm) r a.body c₂ = .ok c₃ ∧
      c' = matchArmJumpListPatchAndPop P (armEnd P a.body c.localCount c₃) := by
  obtain ⟨c₁, h₁, h⟩ := ok_of_bind h
  obtain ⟨c₂, h₂, h⟩ := ok_of_bind h
  obtain ⟨c₃, h₃, h⟩ := ok_of_bind h
  exact ⟨c₁, c₂, c₃, h₁, h₂, h₃, (Except.ok.inj h).symm⟩

structure Fresh (c : Emitter E S) : Prop where
  names : c.names = []
  failJumps : c.failJumps = []

structure ArmsEmitted (P : Program W E S R) (c c' : Emitter E S) (bytes : Nat) : Prop where
  code : c.code <+: c'.code
  size : codeSize P c'.code = codeSize P c.code + bytes
  targets : ∀ k < c.code.length, c'.targets k = c.targets k
  localCount : c.localCount ≤ c'.localCount
  fresh : Fresh c'
  endJumps : ∃ new, c'.endJumps = c.endJumps ++ new ∧
    ∀ k ∈ new, c.code.length ≤ k ∧ k < c'.code.length ∧ c'.targets k = none

theorem ArmsEmitted.trans {c₁ c₂ : Emitter E S} {m : Nat} (h₁ : ArmsEmitted P c c₁ n)
    (h₂ : ArmsEmitted P c₁ c₂ m) : ArmsEmitted P c c₂ (n + m) := by
  have hlen := h₁.code.length_le
  have hlen' := h₂.code.length_le
  refine ⟨h₁.code.trans h₂.code, ?_, ?_, h₁.localCount.trans h₂.localCount, h₂.fresh, ?_⟩
  · rw [h₂.size, h₁.size, Nat.add_assoc]
  · intro k hk
    rw [h₂.targets k (by omega), h₁.targets k hk]
  · obtain ⟨new₁, heq₁, hnew₁⟩ := h₁.endJumps
    obtain ⟨new₂, heq₂, hnew₂⟩ := h₂.endJumps
    refine ⟨new₁ ++ new₂, by rw [heq₂, heq₁, append_assoc], fun k hk => ?_⟩
    rcases mem_append.mp hk with hk | hk
    · obtain ⟨hlo, hhi, hnone⟩ := hnew₁ k hk
      exact ⟨hlo, by omega, by rw [h₂.targets k hhi, hnone]⟩
    · obtain ⟨hlo, hhi, hnone⟩ := hnew₂ k hk
      exact ⟨by omega, hhi, hnone⟩

structure ArmEnd (P : Program W E S R) (b : Body E S) (c c' : Emitter E S) : Prop where
  code : c'.code = c.code ++ if armTerminates P b then [] else [.jump]
  targets : ∀ k < c.code.length, c'.targets k = c.targets k
  localCount : c'.localCount = c.localCount
  failJumps : c'.failJumps = c.failJumps
  endJumps : c'.endJumps = c.endJumps ++ if armTerminates P b then [] else [c.code.length]
  open_end : armTerminates P b = false → c'.targets c.code.length = none

theorem armEnd_spec (b : Body E S) (n : Nat) (c : Emitter E S) : ArmEnd P b c (armEnd P b n c) := by
  unfold armEnd
  cases hb : armTerminates P b with
  | true => exact ⟨by simp [hb, endScope], fun _ _ => rfl, rfl, rfl, by simp [hb, endScope], by simp [hb]⟩
  | false =>
    refine ⟨by simp [hb, endScope, emitEndJump], ?_, rfl, rfl, by simp [hb, endScope, emitEndJump], ?_⟩
    · intro k hk
      exact Function.update_of_ne hk.ne _ _
    · intro _
      exact Function.update_self _ _ _

structure Patched (P : Program W E S R) (c c' : Emitter E S) : Prop where
  code : c'.code = c.code ++ if c.failJumps = [] then [] else [.pop]
  targets : ∀ k, k ∉ c.failJumps → c'.targets k = c.targets k
  patches : ∀ k ∈ c.failJumps, c'.targets k = patched P c k
  localCount : c'.localCount = c.localCount
  names : c'.names = c.names
  failJumps : c'.failJumps = []
  endJumps : c'.endJumps = c.endJumps

/-- An arm with its parts: `c₃` after its body, `c₄` at its end. -/
structure ArmParts (P : Program W E S R) (slot r arm : Nat) (a : Arm E S) (c c₁ c₂ c₃ c₄ c' : Emitter E S) :
    Prop where
  pattern : compilePattern P a.pattern slot false c = .ok c₁
  guard : compileGuard P arm a.guard c₁ = .ok c₂
  body : compileBody P (some arm) r a.body c₂ = .ok c₃
  ending : ArmEnd P a.body c₃ c₄
  landing : Patched P c₄ c'
  endJumps : c'.endJumps = c.endJumps ++ if armTerminates P a.body then [] else [c₃.code.length]
  size : codeSize P c₄.code = codeSize P c.code + (a.pattern.bytes P false + guardBytes P a.guard + a.tailBytes P)
  pop : codeSize P c'.code = codeSize P c₄.code + a.popBytes
  emitted : ArmsEmitted P c c'
    (a.pattern.bytes P false + guardBytes P a.guard + a.tailBytes P + a.popBytes)

theorem patchAndPop_spec (hopen : ∀ k ∈ c.failJumps, c.targets k = none) :
    Patched P c (matchArmJumpListPatchAndPop P c) := by
  unfold matchArmJumpListPatchAndPop
  split_ifs with hnil
  · exact ⟨by simp [hnil], fun _ _ => rfl, by simp [hnil], rfl, rfl, hnil, rfl⟩
  · obtain ⟨targets, heq, hother, hjs⟩ := patchJumps_eq P c.failJumps c
    rw [heq]
    exact ⟨by simp [hnil, emit], hother, fun k hk => hjs k hk (.inl (hopen k hk)), rfl, rfl, rfl, rfl⟩

theorem endScope_names {a : Bool} (he : Emitted P c c' n a) (hnames : c.names = []) :
    (endScope c.localCount c').names = [] := by
  obtain ⟨new, heq, hnew⟩ := he.names
  rw [hnames] at heq
  simp only [endScope, heq]
  refine filter_eq_nil_iff.mpr fun x hx => ?_
  have hb := hnew x hx
  simp only [decide_eq_true_eq]
  omega

theorem armEnd_names (b : Body E S) (n : Nat) (c : Emitter E S) : (armEnd P b n c).names = (endScope n c).names := by
  unfold armEnd
  split_ifs <;> rfl

theorem ArmEnd.size (h : ArmEnd P b c c') :
    codeSize P c'.code = codeSize P c.code + if armTerminates P b then 0 else 3 := by
  rw [h.code]
  split_ifs <;> simp [codeSize, Instr.size]

theorem compileArm_spec {a : Arm E S} (h : compileArm P slot r arm a c = .ok c') (hc : Fresh c) :
    ∃ c₁ c₂ c₃ c₄, ArmParts P slot r arm a c c₁ c₂ c₃ c₄ c' := by
  obtain ⟨c₁, c₂, c₃, h₁, h₂, h₃, rfl⟩ := compileArm_parts h
  have he := ((compilePattern_emitted a.pattern h₁).trans (compileGuard_emitted h₂)).trans (compileBody_emitted h₃)
  have hend := armEnd_spec (P := P) a.body c.localCount c₃
  have hnames₄ := (armEnd_names (P := P) a.body c.localCount c₃).trans (endScope_names he hc.names)
  obtain ⟨c₄, hc₄⟩ : ∃ c₄, armEnd P a.body c.localCount c₃ = c₄ := ⟨_, rfl⟩
  rw [hc₄] at hend hnames₄ ⊢
  obtain ⟨new, hnew, htests, hjs⟩ := he.failJumps
  rw [hc.failJumps, nil_append, ← hend.failJumps] at hnew
  have hopen : ∀ k ∈ c₄.failJumps, c₄.targets k = none := by
    intro k hk
    rw [hnew] at hk
    obtain ⟨-, hhi, hnone⟩ := hjs k hk
    rw [hend.targets k hhi, hnone]
  have hp := patchAndPop_spec (P := P) hopen
  have hlen' : c₄.code.length ≤ (matchArmJumpListPatchAndPop P c₄).code.length := by simp [hp.code]
  have hpop : a.popBytes = if c₄.failJumps = [] then 0 else 1 := by
    rw [Bool.or_false] at htests
    rw [Arm.popBytes, hnew]
    by_cases hn : new = []
    · rw [if_pos hn, if_neg (fun hh => htests.mpr hh hn)]
    · rw [if_neg hn, if_pos (htests.mp hn)]
  have hends : (matchArmJumpListPatchAndPop P c₄).endJumps =
      c.endJumps ++ if armTerminates P a.body then [] else [c₃.code.length] := by
    rw [hp.endJumps, hend.endJumps, he.endJumps]
  have hsize : codeSize P c₄.code =
      codeSize P c.code + (a.pattern.bytes P false + guardBytes P a.guard + a.tailBytes P) := by
    rw [hend.size, he.size, Arm.tailBytes]
    omega
  have hsize' : codeSize P (matchArmJumpListPatchAndPop P c₄).code = codeSize P c₄.code + a.popBytes := by
    rw [hp.code, hpop]
    split_ifs <;> simp [codeSize, Instr.size]
  refine ⟨c₁, c₂, c₃, c₄, h₁, h₂, h₃, hend, hp, hends, hsize, hsize', ?_, ?_, ?_, ?_,
    ⟨by rw [hp.names, hnames₄], hp.failJumps⟩, ?_⟩
  · rw [hp.code, hend.code]
    exact he.code.trans ((prefix_append _ _).trans (prefix_append _ _))
  · rw [hsize', hsize, Nat.add_assoc]
  · intro k hk
    rw [hp.targets k (fun hmem => ?_), hend.targets k (hk.trans_le he.length_le), he.targets k hk]
    rw [hnew] at hmem
    have hb := hjs k hmem
    omega
  · rw [hp.localCount, hend.localCount]
    exact he.localCount
  · refine ⟨_, hends, fun k hk => ?_⟩
    split_ifs at hk with hterm
    · simp at hk
    · obtain rfl : k = c₃.code.length := by simpa using hk
      have hlt : c₃.code.length < c₄.code.length := by simp [hend.code, hterm]
      refine ⟨he.length_le, by omega, ?_⟩
      rw [hp.targets _ (fun hmem => ?_), hend.open_end (by simpa using hterm)]
      rw [hnew] at hmem
      have hb := hjs _ hmem
      omega

theorem compileArms_emitted {arms : List (Arm E S)} (h : compileArms P slot r n arms c = .ok c')
    (hc : Fresh c) : ArmsEmitted P c c' (armsBytes P arms) := by
  induction arms generalizing c n with
  | nil =>
    cases h
    exact ⟨prefix_rfl, rfl, fun _ _ => rfl, le_rfl, hc, ⟨[], by simp⟩⟩
  | cons a arms ih =>
    obtain ⟨d, hd, h⟩ := ok_of_bind h
    obtain ⟨c₁, c₂, c₃, c₄, hparts⟩ := compileArm_spec hd hc
    exact hparts.emitted.trans (ih h hparts.emitted.fresh)

end Tablo.Match
