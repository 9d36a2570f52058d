import Tablo.HttpFraming
import Tablo.ObjArrayCorrect
import Mathlib.Tactic.Linarith

/-! The builtins `split`, `replace` and `join` on strings without NUL. -/

namespace Tablo.StringPieces

open HttpRequest List

/-- `undefined` is an `int` that overflows or a write behind a buffer. -/
inductive Failure where
  | undefined
  | error (message : String)
  deriving DecidableEq, Repr

def intMax : Nat := 2147483647

structure ObjString where
  chars : Bytes
  nulFree : 0 ∉ chars
  -- the size with the NUL is an `int` too
  short : chars.length < intMax

def int (n : Nat) : Except Failure Nat := if n ≤ intMax then .ok n else .error .undefined

def objStringCreate (chars : Bytes) : Except Failure Bytes := do
  let _ ← int (chars.length + 1)
  return chars

/-- The capacity of an array made for four elements is doubled as an `int`. -/
def arrayLimit : Nat := ObjArray.limit 4

variable (arr : List Bytes) {d n p s t : Bytes} {ts : List Bytes}

def objArrayPush (val : Bytes) : Except Failure (List Bytes) :=
  if arr.length < arrayLimit then .ok (arr ++ [val]) else .error .undefined

def pushString (token : Bytes) : Except Failure (List Bytes) := do
  let val ← objStringCreate token
  objArrayPush arr val

/-- `while ((p = strstr(p, delim)) != NULL)`, where the body gets the text from the last `p` to the new
one and ends with `p += delim_len`. -/
def scan {σ : Type} (delim : Bytes) (body : σ → Bytes → Except Failure σ) :
    Nat → σ → Bytes → Except Failure (σ × Bytes)
  | 0, _, _ => .error .undefined
  | fuel + 1, acc, p =>
    match indexOf delim p with
    | none => .ok (acc, p)
    | some i => do
      let acc ← body acc (p.take i)
      scan delim body fuel acc (p.drop (i + delim.length))

def builtinSplit (str delim : Bytes) : Except Failure (List Bytes) :=
  if delim.length = 0 then str.foldlM (fun arr c => pushString arr [c]) []
  else do
    let (arr, start) ← scan delim pushString (str.length + 1) [] str
    pushString arr start

/-- The string in a buffer of `size` bytes. -/
def finish (size : Nat) (written : Bytes) : Except Failure Bytes :=
  if written.length + 1 ≤ size then objStringCreate written else .error .undefined

def resultTooLong : Failure := .error "replace result exceeds max string length"

def builtinReplace (str old new : Bytes) : Except Failure Bytes :=
  if old.length = 0 then .ok str
  else do
    let (count, _) ← scan old (fun count _ => .ok (count + 1)) (str.length + 1) 0 str
    if count = 0 then .ok str
    else
      let resultLen : Int := str.length + (count : Nat) * ((new.length : Int) - old.length)
      if resultLen < 0 ∨ intMax < resultLen then .error resultTooLong
      else do
        let (dst, src) ← scan old (fun dst segment => .ok (dst ++ segment ++ new)) (str.length + 1) [] str
        finish (resultLen.toNat + 1) (dst ++ src)

def totalLen (delim : Bytes) : Nat → List Bytes → Except Failure Nat
  | total, [] => .ok total
  | total, [t] => int (total + t.length)
  | total, t :: u :: ts => do
    let total ← int (total + t.length)
    let total ← int (total + delim.length)
    totalLen delim total (u :: ts)

def joinLoop (delim : Bytes) : Bytes → List Bytes → Bytes
  | dst, [] => dst
  | dst, [t] => dst ++ t
  | dst, t :: u :: ts => joinLoop delim (dst ++ t ++ delim) (u :: ts)

def builtinJoin (delim : Bytes) : Except Failure Bytes := do
  let total ← totalLen delim 0 arr
  let size ← int (total + 1)
  finish size (joinLoop delim [] arr)

/-- The occurrences from the left that do not overlap, after `skip` bytes that belong to the last one. -/
def occurrences (d : Bytes) : (skip : Nat) → Bytes → Nat
  | _, [] => 0
  | skip + 1, _ :: rest => occurrences d skip rest
  | 0, b :: rest =>
    if d.isPrefixOf (b :: rest) then occurrences d (d.length - 1) rest + 1 else occurrences d 0 rest

def PiecesLaw (s d n : Bytes) : Prop :=
  if d = [] then builtinSplit s d = .ok (s.map ([·])) ∧ builtinReplace s d n = .ok s
  else ∃ pieces r, builtinSplit s d = .ok pieces ∧ (∀ t ∈ pieces, ¬ d <:+: t) ∧ builtinJoin pieces d = .ok s ∧
    builtinReplace s d n = .ok r ∧ builtinJoin pieces n = .ok r

/-- The pieces fit into an array and the result into a string. -/
def Fits (s d n : Bytes) : Prop :=
  if d = [] then s.length ≤ arrayLimit
  else occurrences d 0 s < arrayLimit ∧
    s.length + occurrences d 0 s * n.length < intMax + occurrences d 0 s * d.length

/-! ### Cutting at the occurrences -/

inductive Cut (d : Bytes) : Bytes → List Bytes → Bytes → Prop
  | last {p : Bytes} : indexOf d p = none → Cut d p [] p
  | next {p : Bytes} {i : Nat} {ts : List Bytes} {t : Bytes} :
    indexOf d p = some i → Cut d (p.drop (i + d.length)) ts t → Cut d p (p.take i :: ts) t

def glue (δ : Bytes) (ts : List Bytes) (t : Bytes) : Bytes := ts.foldl (fun dst x => dst ++ x ++ δ) [] ++ t

section Occurrence

variable (hd : d ≠ []) {i : Nat} (hi : indexOf d p = some i)

include hd hi

theorem indexOf_some : StandsAt d p i ∧ ∀ j < i, ¬ StandsAt d p j := by
  have h := indexOf_spec hd p
  rwa [hi] at h

theorem eq_around : p = p.take i ++ d ++ p.drop (i + d.length) := by
  obtain ⟨rest, hrest⟩ := (indexOf_some hd hi).1
  have hdrop : p.drop (i + d.length) = rest := by rw [← drop_drop, ← hrest, drop_left]
  rw [hdrop, append_assoc, hrest, take_append_drop]

theorem length_drop_lt : (p.drop (i + d.length)).length < p.length := by
  have hlen := congrArg List.length (eq_around hd hi)
  have hpos := length_pos_iff.mpr hd
  simp only [length_append] at hlen
  omega

end Occurrence

theorem occurrences_skip (d : Bytes) (skip : Nat) (p : Bytes) : occurrences d skip p = occurrences d 0 (p.drop skip) := by
  induction skip generalizing p with
  | zero => rfl
  | succ skip ih =>
    cases p with
    | nil => rfl
    | cons b rest => rw [occurrences, ih, drop_succ_cons]

theorem occurrences_some (hd : d ≠ []) {i : Nat} (hi : indexOf d p = some i) :
    occurrences d 0 p = occurrences d 0 (p.drop (i + d.length)) + 1 := by
  induction p generalizing i with
  | nil => cases hi
  | cons b rest ih =>
    rw [indexOf] at hi
    split_ifs at hi with h
    · cases hi
      obtain ⟨c, tail, rfl⟩ := exists_cons_of_ne_nil hd
      rw [occurrences, if_pos h, occurrences_skip]
      simp
    · obtain ⟨j, hj, rfl⟩ := Option.map_eq_some_iff.mp hi
      rw [occurrences, if_neg h, ih hj, Nat.add_right_comm, drop_succ_cons]

theorem occurrences_none (hi : indexOf d p = none) : occurrences d 0 p = 0 := by
  induction p with
  | nil => rfl
  | cons b rest ih =>
    rw [indexOf] at hi
    split_ifs at hi with h
    rw [occurrences, if_neg h, ih (Option.map_eq_none_iff.mp hi)]

theorem cut_exists (hd : d ≠ []) (p : Bytes) : ∃ ts t, Cut d p ts t := by
  induction hlen : p.length using Nat.strong_induction_on generalizing p with
  | _ len ih =>
    cases hi : indexOf d p with
    | none => exact ⟨[], p, .last hi⟩
    | some i =>
      obtain ⟨ts, t, hcut⟩ := ih _ (hlen ▸ length_drop_lt hd hi) _ rfl
      exact ⟨p.take i :: ts, t, .next hi hcut⟩

theorem foldl_glue (dst δ : Bytes) (ts : List Bytes) (t : Bytes) :
    ts.foldl (fun dst x => dst ++ x ++ δ) dst ++ t = dst ++ glue δ ts t := by
  induction ts generalizing dst with
  | nil => rfl
  | cons x ts ih => rw [glue, foldl_cons, foldl_cons, ih, ih, nil_append, append_assoc,
      append_assoc, append_assoc]

theorem glue_cons (δ x : Bytes) (ts : List Bytes) (t : Bytes) : glue δ (x :: ts) t = x ++ δ ++ glue δ ts t := by
  rw [glue, foldl_cons, foldl_glue, nil_append]

theorem length_glue (d n : Bytes) (ts : List Bytes) (t : Bytes) :
    (glue n ts t).length + ts.length * d.length = (glue d ts t).length + ts.length * n.length := by
  induction ts with
  | nil => rw [length_nil, Nat.zero_mul, Nat.zero_mul]; rfl
  | cons x ts ih =>
    simp only [glue_cons, length_append, length_cons, Nat.succ_mul]
    omega

namespace Cut

theorem glue_eq (hd : d ≠ []) (h : Cut d p ts t) : glue d ts t = p := by
  induction h with
  | last => rfl
  | next hi _ ih => rw [glue_cons, ih, ← eq_around hd hi]

theorem length_eq (hd : d ≠ []) (h : Cut d p ts t) : ts.length = occurrences d 0 p := by
  induction h with
  | last hi => rw [occurrences_none hi, length_nil]
  | next hi _ ih => rw [occurrences_some hd hi, length_cons, ih]

theorem length_le (h : Cut d p ts t) : ∀ x ∈ ts ++ [t], x.length ≤ p.length := by
  induction h with
  | last => simp
  | @next p i ts t hi _ ih =>
    intro x hx
    rcases mem_cons.mp hx with rfl | hx
    · exact length_take_le' i p
    · exact (ih x hx).trans (by rw [length_drop]; omega)

theorem scan {σ : Type} (hd : d ≠ []) (h : Cut d p ts t) (body : σ → Bytes → Except Failure σ) {fuel : Nat}
    (hfuel : p.length < fuel) (acc : σ) :
    StringPieces.scan d body fuel acc p = (ts.foldlM body acc).map fun acc => (acc, t) := by
  induction h generalizing fuel acc with
  | last hi =>
    obtain ⟨fuel, rfl⟩ := Nat.exists_eq_succ_of_ne_zero (Nat.ne_zero_of_lt hfuel)
    rw [StringPieces.scan, hi]
    rfl
  | next hi _ ih =>
    obtain ⟨fuel, rfl⟩ := Nat.exists_eq_succ_of_ne_zero (Nat.ne_zero_of_lt hfuel)
    have hless := length_drop_lt hd hi
    rw [StringPieces.scan, hi, foldlM_cons]
    dsimp only
    cases body acc (List.take _ _) with
    | error e => rfl
    | ok acc => exact ih (hless.trans_le (Nat.le_of_lt_succ hfuel)) acc

theorem free (hd : d ≠ []) (h : Cut d p ts t) : ∀ x ∈ ts ++ [t], ¬ d <:+: x := by
  have hpos := length_pos_iff.mpr hd
  suffices hstands : ∀ x ∈ ts ++ [t], ∀ j, ¬ StandsAt d x j by
    rintro x hx ⟨a, b, rfl⟩
    apply hstands _ hx a.length
    rw [StandsAt, append_assoc, drop_left]
    exact prefix_append d b
  induction h with
  | @last p hi =>
    have hnone := indexOf_spec hd p
    rw [hi] at hnone
    simpa using hnone
  | next hi _ ih =>
    intro x hx j hj
    rcases mem_cons.mp hx with rfl | hx
    · -- an occurrence inside the piece would be one further to the left
      obtain ⟨hstands, hle⟩ := (standsAt_take hd _ _ _).mp hj
      exact (indexOf_some hd hi).2 j (by omega) hstands
    · exact ih x hx j hj

end Cut

/-! ### The three builtins -/

theorem int_ok {k : Nat} (h : k ≤ intMax) : int k = .ok k := if_pos h

theorem int_undefined {k : Nat} (h : ¬ k ≤ intMax) : int k = .error .undefined := if_neg h

theorem objStringCreate_short (h : t.length < intMax) : objStringCreate t = .ok t := by
  rw [objStringCreate, int_ok h]
  rfl

theorem objStringCreate_long (h : ¬ t.length < intMax) : objStringCreate t = .error .undefined := by
  rw [objStringCreate, int_undefined h]
  rfl

theorem foldlM_pushString (arr : List Bytes) (hts : ∀ x ∈ ts, x.length < intMax) (harr : arr.length ≤ arrayLimit) :
    ts.foldlM pushString arr =
      if arr.length + ts.length ≤ arrayLimit then .ok (arr ++ ts) else .error .undefined := by
  induction ts generalizing arr with
  | nil =>
    rw [append_nil]
    exact (if_pos harr).symm
  | cons x ts ih =>
    have hpush : pushString arr x = objArrayPush arr x := by
      rw [pushString, objStringCreate_short (hts x mem_cons_self)]
      rfl
    rw [foldlM_cons, hpush, objArrayPush, length_cons]
    by_cases hlt : arr.length < arrayLimit
    · have hlen : (arr ++ [x]).length = arr.length + 1 := length_append
      rw [if_pos hlt]
      refine (ih (arr ++ [x]) (fun y hy => hts y (mem_cons_of_mem x hy)) (hlen.trans_le hlt)).trans ?_
      rw [hlen, append_assoc, singleton_append, Nat.add_assoc, Nat.add_comm 1]
    · rw [if_neg hlt, if_neg (by omega)]
      rfl

theorem split_eq (hd : d ≠ []) (hs : s.length < intMax) (h : Cut d s ts t) :
    builtinSplit s d = if ts.length < arrayLimit then .ok (ts ++ [t]) else .error .undefined := by
  have hall := foldlM_pushString [] (fun x hx => (h.length_le x hx).trans_lt hs) (Nat.zero_le _)
  rw [length_nil, Nat.zero_add, length_append, foldlM_append] at hall
  rw [builtinSplit, if_neg (mt length_eq_zero_iff.mp hd), h.scan hd _ (Nat.lt_succ_self _)]
  refine Eq.trans ?_ hall
  cases List.foldlM pushString [] ts with
  | error e => rfl
  | ok arr => exact (bind_pure (pushString arr t)).symm

theorem split_nil (s : Bytes) :
    builtinSplit s [] = if s.length ≤ arrayLimit then .ok (s.map ([·])) else .error .undefined := by
  have hshort : ∀ x ∈ s.map ([·]), x.length < intMax := by
    intro x hx
    obtain ⟨c, -, rfl⟩ := mem_map.mp hx
    exact (show 1 < intMax by decide)
  have hall := foldlM_pushString [] hshort (Nat.zero_le _)
  rw [length_nil, Nat.zero_add, length_map, foldlM_map] at hall
  exact hall

theorem totalLen_concat (δ : Bytes) (total : Nat) (ts : List Bytes) (t : Bytes) :
    totalLen δ total (ts ++ [t]) = int (total + (glue δ ts t).length) := by
  induction ts generalizing total with
  | nil => rfl
  | cons x ts ih =>
    obtain ⟨u, us, hu⟩ := exists_cons_of_ne_nil (append_ne_nil_of_right_ne_nil ts (cons_ne_nil t []))
    have hlen : (glue δ (x :: ts) t).length = x.length + δ.length + (glue δ ts t).length := by
      rw [glue_cons, length_append, length_append]
    rw [cons_append, hu, totalLen, ← hu, hlen]
    by_cases hx : total + x.length ≤ intMax
    · rw [int_ok hx]
      by_cases hδ : total + x.length + δ.length ≤ intMax
      · refine Eq.trans ?_ ((ih (total + x.length + δ.length)).trans ?_)
        · exact congrArg (· >>= fun total => totalLen δ total (ts ++ [t])) (int_ok hδ)
        · rw [Nat.add_assoc total, Nat.add_assoc total]
      · rw [int_undefined (show ¬ total + (x.length + δ.length + (glue δ ts t).length) ≤ intMax by omega)]
        exact congrArg (· >>= fun total => totalLen δ total (ts ++ [t])) (int_undefined hδ)
    · rw [int_undefined hx, int_undefined (by omega)]
      rfl

theorem joinLoop_concat (δ dst : Bytes) (ts : List Bytes) (t : Bytes) :
    joinLoop δ dst (ts ++ [t]) = dst ++ glue δ ts t := by
  induction ts generalizing dst with
  | nil => rfl
  | cons x ts ih =>
    obtain ⟨u, us, hu⟩ := exists_cons_of_ne_nil (append_ne_nil_of_right_ne_nil ts (cons_ne_nil t []))
    rw [cons_append, hu, joinLoop, ← hu, ih, glue_cons, append_assoc, append_assoc, append_assoc]

theorem join_eq (δ : Bytes) (ts : List Bytes) (t : Bytes) :
    builtinJoin (ts ++ [t]) δ = objStringCreate (glue δ ts t) := by
  rw [builtinJoin, totalLen_concat, joinLoop_concat, Nat.zero_add]
  by_cases h : (glue δ ts t).length < intMax
  · have hfinish : finish ((glue δ ts t).length + 1) (glue δ ts t) = objStringCreate (glue δ ts t) := if_pos le_rfl
    rw [int_ok h.le, ← hfinish]
    exact congrArg (· >>= fun size => finish size (glue δ ts t)) (int_ok h)
  · rw [objStringCreate_long h]
    by_cases hle : (glue δ ts t).length ≤ intMax
    · rw [int_ok hle]
      exact congrArg (· >>= fun size => finish size (glue δ ts t)) (int_undefined h)
    · rw [int_undefined hle]
      rfl

theorem replace_eq (hd : d ≠ []) (h : Cut d s ts t) : builtinReplace s d n = if ts = [] then .ok s
    else if intMax < (glue n ts t).length then .error resultTooLong
    else objStringCreate (glue n ts t) := by
  have hcount : (ts.foldlM (fun count _ => .ok (count + 1)) 0 : Except Failure Nat) = .ok ts.length := by
    refine foldlM_pure.trans ?_
    rw [foldl_add_const, Nat.zero_add, Nat.one_mul]
    rfl
  have hbuild : (ts.foldlM (fun dst x => .ok (dst ++ x ++ n)) [] : Except Failure Bytes) =
      .ok (ts.foldl (fun dst x => dst ++ x ++ n) []) := foldlM_pure
  have hlen : (s.length : Int) + ts.length * ((n.length : Int) - d.length) = (glue n ts t).length := by
    have hglue := length_glue d n ts t
    rw [h.glue_eq hd] at hglue
    rw [Int.mul_sub]
    omega
  rw [builtinReplace, if_neg (mt length_eq_zero_iff.mp hd), h.scan hd _ (Nat.lt_succ_self _),
    h.scan hd _ (Nat.lt_succ_self _), hcount, hbuild]
  simp only [Except.map, Bind.bind, Except.bind, hlen, length_eq_zero_iff]
  by_cases hts : ts = []
  · rw [if_pos hts, if_pos hts]
  · rw [if_neg hts, if_neg hts]
    by_cases hlong : intMax < (glue n ts t).length
    · rw [if_pos hlong, if_pos (.inr (Int.ofNat_lt.mpr hlong))]
    · rw [if_neg hlong, if_neg (by omega)]
      exact if_pos le_rfl

variable (n) in
theorem piecesLaw_iff (hs : s.length < intMax) : PiecesLaw s d n ↔ Fits s d n := by
  rw [PiecesLaw, Fits]
  by_cases hd : d = []
  · subst hd
    rw [if_pos rfl, if_pos rfl, split_nil]
    split_ifs with hfit
    · exact iff_of_true ⟨rfl, rfl⟩ hfit
    · refine iff_of_false ?_ hfit
      rintro ⟨h, -⟩
      cases h
  rw [if_neg hd, if_neg hd]
  obtain ⟨ts, t, hcut⟩ := cut_exists hd s
  have hglue := length_glue d n ts t
  rw [hcut.glue_eq hd] at hglue
  rw [← hcut.length_eq hd, split_eq hd hs hcut, replace_eq hd hcut]
  constructor
  · rintro ⟨pieces, r, hsplit, -, -, -, hjoin⟩
    split_ifs at hsplit with hfit
    cases hsplit
    rw [join_eq] at hjoin
    by_cases hlong : (glue n ts t).length < intMax
    · exact ⟨hfit, by omega⟩
    · rw [objStringCreate_long hlong] at hjoin
      cases hjoin
  · rintro ⟨hfit, hlen⟩
    have hshort : (glue n ts t).length < intMax := by omega
    refine ⟨ts ++ [t], glue n ts t, if_pos hfit, hcut.free hd, ?_, ?_, ?_⟩
    · rw [join_eq, hcut.glue_eq hd, objStringCreate_short hs]
    · split_ifs with hts hlong
      · subst hts
        exact congrArg Except.ok (hcut.glue_eq hd).symm
      · omega
      · exact objStringCreate_short hshort
    · rw [join_eq, objStringCreate_short hshort]

/-- The laws hold exactly if the pieces are not too many for an array and the replacements do not make
the string too long. -/
theorem pieces_law_iff (s d n : ObjString) : PiecesLaw s.chars d.chars n.chars ↔ Fits s.chars d.chars n.chars :=
  piecesLaw_iff n.chars s.short

/-- Two commas become two times `2 ^ 30` letters. -/
theorem pieces_law_fails : ¬ PiecesLaw [44, 44] [44] (List.replicate (2 ^ 30) 97) := by
  have hcount : occurrences [44] 0 [44, 44] = 2 := by decide
  rw [piecesLaw_iff _ (by decide), Fits, length_replicate]
  decide

end Tablo.StringPieces
