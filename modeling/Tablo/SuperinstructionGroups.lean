import Tablo.Superinstruction

/-! Which instructions of the original code each instruction of the optimized code stands for. -/

namespace Tablo.Super

open List

variable {O : Type} {rest w : List (Instr O)}

def Instr.plain : Instr O → Bool
  | .jumpIfFalsePop _ | .globalToGlobal _ _ _ _ | .arrayGetToLocal _ _ _ _ | .mulToLocal _ _ _ _
  | .evalAMadd _ _ _ _ _ | .add2LocalConst _ _ _ _ | .locals _ _ _ | .localConst _ _ _
  | .sqrtLocal _ | .arrayLenLocal _ | .stackLocal _ _ | .stackConst _ _ => false
  | _ => true

inductive Group : List (Instr O) → Instr O → Prop where
  | single {i : Instr O} (h : i.plain = true) : Group [i] i
  | jump (off : Int) : Group [.jumpIfFalse off, .pop] (.jumpIfFalsePop off)
  | global (op : ArithOp) (dst a b : Nat) :
    Group [.loadGlobal a, .loadGlobal b, .arith op, .storeGlobal dst] (.globalToGlobal op dst a b)
  | get (kind : ElemKind) (array : Nat) (index : Index) (dst : Nat) :
    Group [.arrayGet kind array index, .storeLocal dst] (.arrayGetToLocal kind array index dst)
  | mul (kind : ElemKind) (dst a b : Nat) :
    Group [.loadLocal a, .loadLocal b, .num (mulOp kind), .storeLocal dst] (.mulToLocal kind dst a b)
  | evalA (acc array index a b : Nat) :
    Group [.evalARecip a b, .madd acc array index] (.evalAMadd acc array index a b)
  | add2 (a c1 b c2 : Nat) :
    Group [.addLocalConst a c1, .addLocalConst b c2] (.add2LocalConst a c1 b c2)
  | locals (op : NumOp) (a b : Nat) :
    Group [.loadLocal a, .loadLocal b, .num op] (.locals op a b)
  | localConst (op : NumOp) (a c : Nat) :
    Group [.loadLocal a, .const c, .num op] (.localConst op a c)
  | constLocal (op : NumOp) (b c : Nat) (h : op.commutes = true) :
    Group [.const c, .loadLocal b, .num op] (.localConst op b c)
  | sqrt (slot : Nat) : Group [.loadLocal slot, .sqrt] (.sqrtLocal slot)
  | arrayLen (slot : Nat) : Group [.loadLocal slot, .arrayLen] (.arrayLenLocal slot)
  | stackLocal (op : NumOp) (slot : Nat) : Group [.loadLocal slot, .num op] (.stackLocal op slot)
  | stackConst (op : NumOp) (c : Nat) : Group [.const c, .num op] (.stackConst op c)

variable {i : Instr O} {op : NumOp}

theorem Group.eq_single (h : Group w i) (hi : i.plain = true) : w = [i] := by
  cases h with
  | single => rfl
  | _ => cases hi

structure Segment (O : Type) where
  origin : List (Instr O)
  instr : Instr O

def Segment.Valid (g : Segment O) : Prop := Group g.origin g.instr

def origins (segs : List (Segment O)) : List (Instr O) := segs.flatMap (·.origin)

theorem mulOp_of_mulKind? {kind : ElemKind} (h : op.mulKind? = some kind) : op = mulOp kind := by
  cases op <;> cases h <;> rfl

variable {g : Segment O}

theorem Segment.Valid.origin_eq (h : g.Valid) (hi : g.instr = i) (hp : i.plain = true) : g.origin = [i] := by
  subst hi
  exact Group.eq_single h hp

theorem Segment.Valid.of_locals {a b : Nat} (h : g.Valid)
    (hi : g.instr = .locals op a b) : g.origin = [.loadLocal a, .loadLocal b, .num op] := by
  unfold Segment.Valid at h
  rw [hi] at h
  generalize g.origin = w at h
  cases h with
  | single h => cases h
  | locals => rfl

theorem Segment.Valid.of_stackLocal {slot : Nat} (h : g.Valid)
    (hi : g.instr = .stackLocal op slot) : g.origin = [.loadLocal slot, .num op] := by
  unfold Segment.Valid at h
  rw [hi] at h
  generalize g.origin = w at h
  cases h with
  | single h => cases h
  | stackLocal => rfl

variable {segs ss : List (Segment O)}

section

variable (hs : ∀ g ∈ segs, g.Valid) (heq : segs.map (·.instr) = w ++ rest) (hw : w.all Instr.plain = true)

include hs heq hw

theorem origins_take : origins (segs.take w.length) = w := by
  induction w generalizing segs with
  | nil => rfl
  | cons i w ih =>
    obtain ⟨g, segs, rfl, hi, heq⟩ := map_eq_cons_iff.mp heq
    rw [all_cons, Bool.and_eq_true] at hw
    have hrest := ih (fun g' hg => hs g' (mem_cons_of_mem g hg)) heq hw.2
    rw [length_cons, take_succ_cons, origins, flatMap_cons, (hs g mem_cons_self).origin_eq hi hw.1]
    exact congrArg (i :: ·) hrest

theorem Group.of_plain {j : Instr O} (h : Group w j) :
    Group (origins (segs.take w.length)) j := by
  rwa [origins_take hs heq hw]

end

/-- What a pattern swallows is one of the groups, if the instructions it looks at stand for
groups themselves. -/
theorem fuse_group {s : Segment O} {j : Instr O} {n : Nat}
    (h : fuse ((s :: ss).map (·.instr)) = some (j, n)) (hs : ∀ g ∈ s :: ss, g.Valid) :
    Group (s.origin ++ origins (ss.take n)) j := by
  have hhead := hs s mem_cons_self
  have htail : ∀ g ∈ ss, g.Valid := fun g hg => hs g (mem_cons_of_mem s hg)
  change Group (origins ((s :: ss).take (n + 1))) j
  unfold fuse at h
  split at h <;> rename_i heq
  · cases h
    exact (Group.jump _).of_plain hs heq rfl
  · cases h
    exact (Group.global _ _ _ _).of_plain hs heq rfl
  · cases h
    exact (Group.get _ _ _ _).of_plain hs heq rfl
  · obtain ⟨hi, t, _, rfl, ht, -⟩ := by simpa only [map_cons, List.cons.injEq, map_eq_cons_iff] using heq
    obtain ⟨kind, hkind, h⟩ := Option.map_eq_some_iff.mp h
    cases h
    have hto := (htail t (by simp)).origin_eq ht rfl
    have hso := hhead.of_locals hi
    rw [mulOp_of_mulKind? hkind] at hso
    simpa [origins, hso, hto] using Group.mul kind _ _ _
  · cases h
    exact (Group.evalA _ _ _ _ _).of_plain hs heq rfl
  · cases h
    exact (Group.add2 _ _ _ _).of_plain hs heq rfl
  · cases h
    exact (Group.locals _ _ _).of_plain hs heq rfl
  · cases h
    exact (Group.localConst _ _ _).of_plain hs heq rfl
  · cases h
    exact (Group.sqrt _).of_plain hs heq rfl
  · cases h
    exact (Group.arrayLen _).of_plain hs heq rfl
  · cases h
    exact (Group.stackLocal _ _).of_plain hs heq rfl
  · cases h
    exact (Group.stackConst _ _).of_plain hs heq rfl
  · obtain ⟨hi, t, _, rfl, ht, -⟩ := by simpa only [map_cons, List.cons.injEq, map_eq_cons_iff] using heq
    split at h
    · rename_i hcomm
      cases h
      have hto := (htail t (by simp)).of_stackLocal ht
      simpa [origins, hhead.origin_eq hi rfl, hto] using Group.constLocal _ _ _ hcomm
    · cases h
  · cases h

def segmentPass : Nat → List (Segment O) → List (Segment O)
  | _, [] => []
  | skip + 1, _ :: ss => segmentPass skip ss
  | 0, s :: ss =>
    match fuse ((s :: ss).map (·.instr)) with
    | some (j, n) => ⟨s.origin ++ origins (ss.take n), j⟩ :: segmentPass n ss
    | none => s :: segmentPass 0 ss

def segmentLoop : Nat → List (Segment O) → List (Segment O)
  | 0, segs => segs
  | n + 1, segs =>
    let segs' := segmentPass 0 segs
    if segs'.length = segs.length then segs' else segmentLoop n segs'

def segments (L : Layout O) (code : List (Instr O)) : List (Segment O) :=
  let segs := code.map fun i => ⟨[i], i⟩
  if Addressing.extent (peepholeInstructionLen L) code < 3 then segs else segmentLoop 3 segs

theorem segmentPass_instr (k : Nat) (ss : List (Segment O)) :
    (segmentPass k ss).map (·.instr) = fusePass k (ss.map (·.instr)) := by
  induction ss generalizing k with
  | nil => cases k <;> rfl
  | cons s ss ih =>
    cases k with
    | succ k => exact ih k
    | zero =>
      rw [segmentPass, map_cons, fusePass]
      cases fuse (s.instr :: ss.map (·.instr)) with
      | none | some r => simp [ih]

theorem segmentPass_origins (k : Nat) (ss : List (Segment O)) : origins (segmentPass k ss) = origins (ss.drop k) := by
  induction ss generalizing k with
  | nil => cases k <;> rfl
  | cons s ss ih =>
    cases k with
    | succ k => exact ih k
    | zero =>
      rw [segmentPass]
      cases fuse ((s :: ss).map (·.instr)) with
      | none => simpa [origins] using ih 0
      | some r =>
        have hrest := ih r.2
        simp only [origins, flatMap_cons, drop_zero] at hrest ⊢
        rw [hrest, append_assoc, ← flatMap_append, take_append_drop]

theorem segmentPass_valid (h : ∀ g ∈ ss, g.Valid) (k : Nat) :
    ∀ g ∈ segmentPass k ss, g.Valid := by
  induction ss generalizing k with
  | nil => cases k <;> simp [segmentPass]
  | cons s ss ih =>
    have htail := ih fun g hg => h g (mem_cons_of_mem s hg)
    cases k with
    | succ k => exact htail k
    | zero =>
      rw [segmentPass]
      cases hf : fuse ((s :: ss).map (·.instr)) with
      | none => simpa [h s mem_cons_self] using htail 0
      | some r =>
        have hgroup : Segment.Valid ⟨s.origin ++ origins (ss.take r.2), r.1⟩ := fuse_group hf h
        simpa [hgroup] using htail r.2

theorem segmentLoop_spec (n : Nat) (h : ∀ g ∈ segs, g.Valid) :
    (segmentLoop n segs).map (·.instr) = fuseLoop n (segs.map (·.instr)) ∧
      origins (segmentLoop n segs) = origins segs ∧ ∀ g ∈ segmentLoop n segs, g.Valid := by
  induction n generalizing segs with
  | zero => exact ⟨rfl, rfl, h⟩
  | succ n ih =>
    have hvalid := segmentPass_valid h 0
    have horigins := segmentPass_origins 0 segs
    have hinstr := segmentPass_instr 0 segs
    have hlen : (segmentPass 0 segs).length = (fusePass 0 (segs.map (·.instr))).length := by
      rw [← hinstr, length_map]
    rw [segmentLoop, fuseLoop]
    simp only [length_map, ← hlen]
    split
    · exact ⟨hinstr, horigins, hvalid⟩
    · obtain ⟨hi, ho, hv⟩ := ih hvalid
      exact ⟨by rw [hi, hinstr], ho.trans horigins, hv⟩

theorem segments_spec (L : Layout O) {code : List (Instr O)} (h : ∀ i ∈ code, i.plain = true) :
    (segments L code).map (·.instr) = superinstructionOptimize L code ∧
      origins (segments L code) = code ∧ ∀ g ∈ segments L code, g.Valid := by
  have hinstr : (code.map fun i => (⟨[i], i⟩ : Segment O)).map (·.instr) = code := by
    simp [Function.comp_def]
  have horigins : origins (code.map fun i => (⟨[i], i⟩ : Segment O)) = code := by
    simp [origins, flatMap_map]
  have hvalid : ∀ g ∈ code.map fun i => (⟨[i], i⟩ : Segment O), g.Valid := by
    intro g hg
    obtain ⟨i, hi, rfl⟩ := mem_map.mp hg
    exact Group.single (h i hi)
  rw [segments, superinstructionOptimize]
  split
  · exact ⟨hinstr, horigins, hvalid⟩
  · obtain ⟨hi, ho, hv⟩ := segmentLoop_spec 3 hvalid
    exact ⟨by rw [hi, hinstr], ho.trans horigins, hv⟩

end Tablo.Super
