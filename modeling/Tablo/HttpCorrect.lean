import Tablo.Fallible
import Tablo.HttpRead
import Mathlib.Data.List.TakeWhile

/-! Reading and parsing over all schedules of one stream. -/

namespace Tablo.HttpRequest

open List

/-! ### Runs that creep up to a point byte by byte -/

def creepThen (m l : Nat) : Nat → Nat := fun j => if j < m then 0 else l - m - 1

theorem creepThen_before {m l j : Nat} (h : j < m) : creepThen m l j = 0 := if_pos h

theorem creepThen_at (m l : Nat) : creepThen m l m = l - m - 1 := if_neg (lt_irrefl m)

section Creep

variable {limit : Nat} {schedule : Nat → Nat} {stream : Bytes} {p d m l : Nat} {t : Target} {cap : Nat}
  {target : Option Target} (hone : OneSpelling stream) (hfirst : firstBlank stream = some (p, d))

/-- The loop with `m` bytes, as a run that has not seen its target reached gets there. -/
structure Arrived (limit : Nat) (schedule : Nat → Nat) (stream : Bytes) (t : Target) (m : Nat)
    (cap : Nat) (target : Option Target) : Prop where
  capOk : CapOk limit cap
  run : httpReadRawRequest limit schedule stream = readFrom limit schedule stream cap m target
  stage : target = none ∧ m < blankEnd stream ∨ target = some t ∧ blankEnd stream ≤ m ∧ m < t.total

theorem Arrived.open_target
    (h : Arrived limit schedule stream t m cap target) : ∀ t', target = some t' → m < t'.total := by
  rintro t' rfl
  rcases h.stage with ⟨hn, -⟩ | ⟨hs, -, hlt⟩
  · cases hn
  · cases hs
    exact hlt

include hone hfirst

theorem Arrived.proceed_found (hasked : demand limit stream p d = .ok (some t))
    (h : Arrived limit schedule stream t m cap target) (hl : p + d ≤ l) (cap' : Nat) :
    proceed limit schedule stream cap' l target = readFrom limit schedule stream cap' l (some t) := by
  rcases h.stage with ⟨rfl, -⟩ | ⟨rfl, -⟩
  · rw [proceed, scan_take hone hfirst hl, hasked]
  · rfl

theorem creep (schedule : Nat → Nat) (t : Target) (m : Nat) (hlen : m ≤ stream.length) (hlimit : m < limit)
    (hasked : p + d ≤ m → demand limit stream p d = .ok (some t) ∧ m < t.total)
    (hs : ∀ j < m, schedule j = 0) : ∃ cap target, Arrived limit schedule stream t m cap target := by
  induction m with
  | zero =>
    exact ⟨startCap limit, none, startCap_ok hlimit, rfl, .inl ⟨rfl, blankEnd_pos stream⟩⟩
  | succ m ih =>
    obtain ⟨cap, target, h⟩ := ih (by omega) (by omega) (fun hm => by
      obtain ⟨ha, hlt⟩ := hasked (by omega)
      exact ⟨ha, by omega⟩) (fun j hj => hs j (by omega))
    have hamount : amount limit schedule stream m = 1 := amount_eq limit stream (hs m (by omega)) (by omega) hlen (by omega)
    obtain ⟨cap', hr, hcap'⟩ := reserve_ok h.capOk hlimit
    have hpass : httpReadRawRequest limit schedule stream = proceed limit schedule stream cap' (m + 1) target := by
      rw [h.run, readFrom_pass hlen (by omega) h.open_target, hamount, hr]
    by_cases hm : p + d ≤ m + 1
    · obtain ⟨ha, hlt⟩ := hasked hm
      rw [h.proceed_found hone hfirst ha hm] at hpass
      exact ⟨cap', some t, hcap', hpass, .inr ⟨rfl, by rwa [blankEnd_eq hfirst], hlt⟩⟩
    · have hblank : m + 1 < blankEnd stream := by
        rw [blankEnd_eq hfirst]
        omega
      rcases h.stage with ⟨rfl, -⟩ | ⟨-, hle, -⟩
      · rw [proceed, scan_take_before limit hblank] at hpass
        exact ⟨cap', none, hcap', hpass, .inl ⟨rfl, hblank⟩⟩
      · omega

/-- A read that fills the buffer to the limit, started just before the end of the header
block or of the request. -/
theorem read_creep_full (hasked : p + d ≤ m → demand limit stream p d = .ok (some t) ∧ m < t.total) (hm : m < limit)
    (hlong : limit ≤ stream.length) (hnear : limit ≤ m + 4096) :
    httpReadRawRequest limit (creepThen m limit) stream = .error tooLong := by
  obtain ⟨cap, target, h⟩ := creep hone hfirst (creepThen m limit) t m (by omega) hm hasked
    (fun j hj => creepThen_before hj)
  have hamount := amount_eq limit stream (creepThen_at m limit) (by omega) (by omega) (by omega)
  rw [h.run, readFrom_full h.capOk (by omega) hm h.open_target (by omega)]

theorem read_creep_done (hasked : demand limit stream p d = .ok (some t)) (htotal : p + d ≤ t.total) (hl : t.total ≤ l)
    (hlen : l ≤ stream.length) (hlimit : l < limit) (hnear : l ≤ t.total + 4095) :
    httpReadRawRequest limit (creepThen (t.total - 1) l) stream = .ok (stream.take l, some t) := by
  have hd := firstBlank_delim hfirst
  obtain ⟨cap, target, h⟩ := creep hone hfirst (creepThen (t.total - 1) l) t (t.total - 1) (by omega)
    (by omega) (fun _ => ⟨hasked, by omega⟩) (fun j hj => creepThen_before hj)
  have hamount := amount_eq limit stream (creepThen_at (t.total - 1) l) (by omega) (by omega) (by omega)
  obtain ⟨cap', hr, -⟩ := reserve_ok h.capOk hlimit
  have hend : t.total - 1 + (l - (t.total - 1) - 1 + 1) = l := by omega
  rw [h.run, readFrom_pass (by omega) (by omega) h.open_target, hamount, hend, hr]
  dsimp only
  rw [h.proceed_found hone hfirst hasked (by omega), readFrom_reached hlen hl]

theorem read_creep_refused {f : Failure} (hasked : demand limit stream p d = .error f)
    (hlimit : p + d < limit) : httpReadRawRequest limit (fun _ => 0) stream = .error f := by
  have hd := firstBlank_delim hfirst
  have hle := firstBlank_le hfirst
  have hbefore : p + d - 1 < limit := by omega
  obtain ⟨cap, target, h⟩ := creep hone hfirst (fun _ => 0) ⟨0, 0, 0⟩ (p + d - 1) (by omega) hbefore
    (fun h => by omega) (fun _ _ => rfl)
  have hamount : amount limit (fun _ => 0) stream (p + d - 1) = 0 + 1 :=
    amount_eq limit stream rfl (by omega) (by omega) (by omega)
  obtain ⟨cap', hr, -⟩ := reserve_ok h.capOk hlimit
  have hend : p + d - 1 + (0 + 1) = p + d := by omega
  rw [h.run, readFrom_pass (by omega) (by omega) h.open_target, hamount, hend, hr]
  dsimp only
  rcases h.stage with ⟨rfl, -⟩ | ⟨-, hb, -⟩
  · rw [proceed, scan_take hone hfirst le_rfl, hasked]
  · rw [blankEnd_eq hfirst] at hb
    omega

end Creep

/-! ### The parser on what was read -/

variable {stream head : Bytes} {f : Failure}

theorem parse_take {p d l : Nat} (maxString : Nat) (hone : OneSpelling stream)
    (hfirst : firstBlank stream = some (p, d)) (hl : p + d ≤ l) : httpParseRequestValue maxString (stream.take l) =
      match parseHead (stream.take p) with
      | .error f => .error f
      | .ok head =>
        if 0 < maxString ∧ maxString < ((stream.take l).drop (p + d)).length then .error bodyTooLong
        else .ok ⟨head, cstring ((stream.take l).drop (p + d))⟩ := by
  rw [httpParseRequestValue, headerEnd_take hone hfirst hl]
  dsimp only
  rw [take_take, Nat.min_eq_left (by omega)]
  cases parseHead (stream.take p) with
  | error f | ok head => rfl

theorem parse_take_ok {p d l maxString : Nat} {request : Request} (hone : OneSpelling stream)
    (hfirst : firstBlank stream = some (p, d)) (hl : p + d ≤ l)
    (h : httpParseRequestValue maxString (stream.take l) = .ok request) :
    parseHead (stream.take p) = .ok request.head ∧ request.body = cstring ((stream.take l).drop (p + d)) := by
  rw [parse_take maxString hone hfirst hl] at h
  cases hp : parseHead (stream.take p) with
  | error f =>
    rw [hp] at h
    cases h
  | ok head =>
    rw [hp] at h
    split_ifs at h
    cases h
    exact ⟨rfl, rfl⟩

theorem cstring_eq_self {text : Bytes} (h : 0 ∉ text) : cstring text = text := by
  apply takeWhile_eq_self_iff.mpr
  intro b hb
  have hne : b ≠ 0 := by
    intro h0
    rw [h0] at hb
    exact h hb
  exact decide_eq_true hne

theorem body_take {e c : Nat} : (stream.take (e + c)).drop e = (stream.drop e).take c := by
  rw [drop_take, Nat.add_sub_cancel_left]

/-! ### The errors -/

theorem parseHead_error (h : parseHead head = .error f) : f = malformedLine := by
  rw [parseHead] at h
  dsimp only at h
  repeat' split at h
  all_goals first | exact (Except.error.inj h).symm | cases h

theorem contentLengthLine_error {seen : Option Nat} {line : Bytes}
    (h : contentLengthLine seen line = .error f) : f.code = .parse := by
  rw [contentLengthLine] at h
  repeat' split at h
  all_goals first | (rw [← Except.error.inj h]; rfl) | cases h

theorem httpRequestContentLength_error (h : httpRequestContentLength head = .error f) : f.code = .parse := by
  have fold (lines : List Bytes) (seen : Option Nat) (hf : lines.foldlM contentLengthLine seen = .error f) :
      f.code = .parse := by
    induction lines generalizing seen with
    | nil => cases hf
    | cons line lines ih =>
      rw [foldlM_cons] at hf
      cases hl : contentLengthLine seen line with
      | error g =>
        rw [hl] at hf
        rw [← Except.error.inj hf]
        exact contentLengthLine_error hl
      | ok seen' =>
        rw [hl] at hf
        exact ih seen' hf
  rw [httpRequestContentLength] at h
  cases hl : (headerLines head).foldlM contentLengthLine none with
  | error g =>
    rw [hl] at h
    exact fold _ _ (hl.trans (congrArg _ (Except.error.inj h)))
  | ok seen =>
    rw [hl] at h
    cases h

variable {limit : Nat} {p d : Nat}

/-- The stream starts with a header block that ends at `p`, with a delimiter of `d` bytes, and asks
for `c` bytes more. -/
structure Asks (stream : Bytes) (p d c : Nat) : Prop where
  blank : firstBlank stream = some (p, d)
  length : httpRequestContentLength (stream.take p) = .ok c

theorem demand_eq (hmax : limit ≤ sizeMax) : demand limit stream p d =
      match httpRequestContentLength (stream.take p) with
      | .error f => .error f
      | .ok c => if limit < p + d + c then .error tooLong else .ok (some ⟨p, d, p + d + c⟩) := by
  rw [demand]
  cases httpRequestContentLength (stream.take p) with
  | error f => rfl
  | ok c =>
    dsimp only
    split_ifs <;> first | rfl | omega

theorem Asks.demand {c : Nat} (h : Asks stream p d c) (hmax : limit ≤ sizeMax) (hle : p + d + c ≤ limit) :
    demand limit stream p d = .ok (some ⟨p, d, p + d + c⟩) := by
  rw [demand_eq hmax, h.length]
  exact if_neg (by omega)

theorem asks_of_demand {t : Target} (hmax : limit ≤ sizeMax) (hfirst : firstBlank stream = some (p, d))
    (h : demand limit stream p d = .ok (some t)) : ∃ c, Asks stream p d c ∧ t = ⟨p, d, p + d + c⟩ ∧ p + d + c ≤ limit := by
  rw [demand_eq hmax] at h
  cases hc : httpRequestContentLength (stream.take p) with
  | error g =>
    rw [hc] at h
    cases h
  | ok c =>
    rw [hc] at h
    dsimp only at h
    split_ifs at h
    exact ⟨c, ⟨hfirst, hc⟩, (Option.some.inj (Except.ok.inj h)).symm, by omega⟩

/-! ### The property and its condition -/

structure Framed (limit maxString : Nat) (stream : Bytes) : Prop where
  same : ∀ schedule schedule' : Nat → Nat,
    httpReadRequest limit maxString schedule stream = httpReadRequest limit maxString schedule' stream
  exact : ∀ (schedule : Nat → Nat) (request : Request),
    httpReadRequest limit maxString schedule stream = .ok request →
      ∃ (p d c : Nat) (raw : Bytes), firstBlank stream = some (p, d) ∧
        httpRequestContentLength (stream.take p) = .ok c ∧ p + d + c ≤ stream.length ∧
        parseHead (stream.take p) = .ok request.head ∧ request.body = (stream.drop (p + d)).take c ∧
        httpReadRawRequest limit schedule stream = .ok (raw, some ⟨p, d, p + d + c⟩) ∧
        httpFindHeaderEnd raw = some (p, d)
  sized : ∀ (schedule : Nat → Nat) (f : Failure) (p d c : Nat), firstBlank stream = some (p, d) →
    httpRequestContentLength (stream.take p) = .ok c → p + d + c ≤ stream.length →
    httpReadRequest limit maxString schedule stream = .error f → f.code = .limit → limit < p + d + c

def TextBody (stream : Bytes) : Prop :=
  ∀ p d, firstBlank stream = some (p, d) → 0 ∉ stream.drop (p + d)

/-- The streams that no schedule can spoil: the client closes before a request is complete, or
asks for too much, or sends one request alone that stays below the limit, or the reader fails
for another reason and no single `recv` can fill the buffer. -/
def Undisturbed (limit maxString : Nat) (stream : Bytes) : Prop :=
  match firstBlank stream with
  | none => True
  | some (p, d) =>
    match httpRequestContentLength (stream.take p) with
    | .error _ => stream.length < limit ∨ p + d + 4095 < limit ∨ limit ≤ p + d
    | .ok c =>
      limit < p + d + c ∨ stream.length < p + d + c ∨ p + d + c < limit ∧
          match parseHead (stream.take p) with
          | .error _ => stream.length < limit ∨ p + d + c + 4095 < limit
          | .ok _ => stream.length = p + d + c ∧ (maxString = 0 ∨ c ≤ maxString)

def ideal (limit maxString : Nat) (stream : Bytes) : Except Failure Request :=
  match firstBlank stream with
  | none => if stream.length < limit then .error closedEarly else .error tooLong
  | some (p, d) =>
    match httpRequestContentLength (stream.take p) with
    | .error f => if limit ≤ p + d then .error tooLong else .error f
    | .ok c =>
      if limit < p + d + c then .error tooLong
      else if stream.length < p + d + c then .error closedEarly
      else httpParseRequestValue maxString (stream.take (p + d + c))

section Suffices

variable {limit maxString : Nat} {schedule : Nat → Nat} {stream : Bytes} {p d c : Nat}

theorem Asks.ideal (ha : Asks stream p d c) : ideal limit maxString stream =
      if limit < p + d + c then .error tooLong
      else if stream.length < p + d + c then .error closedEarly
      else httpParseRequestValue maxString (stream.take (p + d + c)) := by
  rw [HttpRequest.ideal, ha.blank]
  dsimp only
  rw [ha.length]

variable (h : Undisturbed limit maxString stream)

include h

theorem Undisturbed.ok (ha : Asks stream p d c) (hle : p + d + c ≤ limit) (hlen : p + d + c ≤ stream.length) :
    p + d + c < limit ∧
      match parseHead (stream.take p) with
      | .error _ => stream.length < limit ∨ p + d + c + 4095 < limit
      | .ok _ => stream.length = p + d + c ∧ (maxString = 0 ∨ c ≤ maxString) := by
  rw [Undisturbed, ha.blank] at h
  dsimp only at h
  rw [ha.length] at h
  rcases h with h | h | h
  · omega
  · omega
  · exact h

theorem ideal_of_full (hlong : limit ≤ stream.length)
    (hnear : ∀ p d, firstBlank stream = some (p, d) → limit ≤ p + d + 4095 ∨
      ∃ c, httpRequestContentLength (stream.take p) = .ok c ∧ limit ≤ p + d + c + 4095) :
    ideal limit maxString stream = .error tooLong := by
  cases hfirst : firstBlank stream with
  | none =>
    rw [ideal, hfirst]
    exact if_neg (by omega)
  | some found =>
    obtain ⟨p, d⟩ := found
    have hn := hnear p d hfirst
    cases hc : httpRequestContentLength (stream.take p) with
    | error f =>
      rw [Undisturbed, hfirst] at h
      dsimp only at h
      rw [hc] at h
      simp only [hc, reduceCtorEq, false_and, exists_false, or_false] at hn
      rw [ideal, hfirst]
      dsimp only
      rw [hc]
      exact if_pos (by omega)
    | ok c =>
      have hn' : limit ≤ p + d + c + 4095 := by
        rcases hn with hn | ⟨c', hc', hn⟩
        · omega
        · rw [hc] at hc'
          cases hc'
          exact hn
      have ha : Asks stream p d c := ⟨hfirst, hc⟩
      by_cases hle : limit < p + d + c
      · rw [ha.ideal, if_pos hle]
      obtain ⟨hlt, hrest⟩ := h.ok ha (by omega) (by omega)
      cases hp : parseHead (stream.take p) with
      | error g | ok head =>
        rw [hp] at hrest
        omega

theorem parse_ideal (hone : OneSpelling stream) (ha : Asks stream p d c) (hle : p + d + c ≤ limit) {l : Nat}
    (hl : p + d + c ≤ l) (hlen : l ≤ stream.length) :
    httpParseRequestValue maxString (stream.take l) = ideal limit maxString stream := by
  obtain ⟨-, hrest⟩ := h.ok ha hle (by omega)
  have hideal : ideal limit maxString stream = httpParseRequestValue maxString (stream.take (p + d + c)) := by
    rw [ha.ideal, if_neg (by omega), if_neg (by omega)]
  rw [hideal]
  cases hp : parseHead (stream.take p) with
  | error g =>
    rw [parse_take maxString hone ha.blank (by omega), parse_take maxString hone ha.blank (by omega), hp]
  | ok head =>
    rw [hp] at hrest
    have : l = p + d + c := by
      omega
    rw [this]

theorem httpReadRequest_eq_ideal (hmax : limit ≤ sizeMax) (hone : OneSpelling stream) (schedule : Nat → Nat) :
    httpReadRequest limit maxString schedule stream = ideal limit maxString stream := by
  have hends := ends_httpReadRawRequest limit schedule hone
  rw [httpReadRequest]
  generalize httpReadRawRequest limit schedule stream = r at hends
  cases hends with
  | closed short below =>
    cases hfirst : firstBlank stream with
    | none =>
      rw [ideal, hfirst]
      exact (if_pos below).symm
    | some found =>
      have := firstBlank_le hfirst
      rw [blankEnd_eq hfirst] at short
      omega
  | full long near =>
    refine (ideal_of_full h long fun p d hfirst => .inl ?_).symm
    rwa [blankEnd_eq hfirst] at near
  | @refused p d f blank below asked =>
    rw [demand_eq hmax] at asked
    rw [ideal, blank]
    dsimp only
    cases hc : httpRequestContentLength (stream.take p) with
    | error g =>
      rw [hc] at asked
      cases asked
      exact (if_neg (by omega)).symm
    | ok c =>
      rw [hc] at asked
      dsimp only at asked ⊢
      split_ifs at asked with hlong
      cases asked
      exact (if_pos hlong).symm
  | @found p d t r blank below asked finish =>
    obtain ⟨c, ha, rfl, hle⟩ := asks_of_demand hmax blank asked
    cases finish with
    | closed short =>
      rw [ha.ideal, if_neg (by omega), if_pos short]
      rfl
    | full long near =>
      refine (ideal_of_full h long fun p' d' hfirst => .inr ?_).symm
      rw [blank] at hfirst
      cases hfirst
      exact ⟨c, ha.length, near⟩
    | done l reached le below' => exact parse_ideal h hone ha hle reached le

theorem framed_of_undisturbed (hmax : limit ≤ sizeMax) (hone : OneSpelling stream) (htext : TextBody stream) :
    Framed limit maxString stream where
  same schedule schedule' := by
    rw [httpReadRequest_eq_ideal h hmax hone, httpReadRequest_eq_ideal h hmax hone]
  exact schedule request hok := by
    have hends := ends_httpReadRawRequest limit schedule hone
    obtain ⟨⟨raw, target⟩, hraw, hparse⟩ := Fallible.ok_of_bind hok
    rw [hraw] at hends
    generalize hr : Except.ok (raw, target) = r at hends
    cases hends with
    | closed | full | refused => cases hr
    | @found p d t r blank below asked finish =>
      obtain ⟨c, ha, rfl, hle⟩ := asks_of_demand hmax blank asked
      cases finish with
      | closed | full => cases hr
      | done l reached le below' =>
        cases hr
        have hl : p + d ≤ l := le_trans (Nat.le_add_right _ c) reached
        obtain ⟨-, hrest⟩ := h.ok ha hle (le_trans reached le)
        obtain ⟨hhead, hbody⟩ := parse_take_ok hone blank hl hparse
        refine ⟨p, d, c, stream.take l, blank, ha.length, le_trans reached le, hhead, ?_, hraw, headerEnd_take hone blank hl⟩
        rw [hhead] at hrest
        have hlast : l = p + d + c := by
          exact le_antisymm (by omega) reached
        rw [hbody, hlast, body_take]
        exact cstring_eq_self fun hz => htext p d blank (mem_of_mem_take hz)
  sized schedule f p d c hfirst hc hlen herror hcode := by
    by_contra hlong
    have hle : p + d + c ≤ limit := by omega
    obtain ⟨-, hrest⟩ := h.ok ⟨hfirst, hc⟩ hle hlen
    rw [httpReadRequest_eq_ideal h hmax hone, ← parse_ideal h hone ⟨hfirst, hc⟩ hle le_rfl hlen,
      parse_take maxString hone hfirst (Nat.le_add_right _ c)] at herror
    cases hp : parseHead (stream.take p) with
    | error g =>
      rw [hp] at herror
      rw [← Except.error.inj herror, parseHead_error hp] at hcode
      cases hcode
    | ok head =>
      rw [hp] at herror hrest
      have hbody : ((stream.take (p + d + c)).drop (p + d)).length = c := by
        rw [length_drop, length_take_of_le hlen, Nat.add_sub_cancel_left]
      dsimp only at herror hrest
      rw [if_neg (by omega)] at herror
      cases herror

end Suffices

section Necessary

variable {limit maxString : Nat} {stream : Bytes} {p d c : Nat} {schedule : Nat → Nat}

theorem httpReadRequest_error (h : httpReadRawRequest limit schedule stream = .error f) :
    httpReadRequest limit maxString schedule stream = .error f := by
  rw [httpReadRequest, h]
  rfl

theorem httpReadRequest_ok {raw : Bytes} {target : Option Target}
    (h : httpReadRawRequest limit schedule stream = .ok (raw, target)) :
    httpReadRequest limit maxString schedule stream = httpParseRequestValue maxString raw := by
  rw [httpReadRequest, h]
  rfl

variable (hmax : limit ≤ sizeMax) (hone : OneSpelling stream)

include hmax hone

theorem Framed.refused (h : Framed limit maxString stream) (hfirst : firstBlank stream = some (p, d))
    (hc : httpRequestContentLength (stream.take p) = .error f) :
    stream.length < limit ∨ p + d + 4095 < limit ∨ limit ≤ p + d := by
  by_contra hnot
  have hd := firstBlank_delim hfirst
  have hbyte : httpReadRequest limit maxString (fun _ => 0) stream = .error f :=
    httpReadRequest_error (read_creep_refused hone hfirst (by rw [demand_eq hmax, hc]) (by omega))
  have hfull : httpReadRequest limit maxString (creepThen (p + d - 1) limit) stream = .error tooLong :=
    httpReadRequest_error (@read_creep_full _ _ _ _ _ ⟨0, 0, 0⟩ hone hfirst (fun hm => by omega) (by omega)
      (by omega) (by omega))
  rw [h.same _ (creepThen (p + d - 1) limit), hfull] at hbyte
  have hcode := httpRequestContentLength_error hc
  rw [← Except.error.inj hbyte] at hcode
  cases hcode

theorem read_limit (ha : Asks stream p d c) (hle : p + d + c = limit) (hlen : limit ≤ stream.length) (schedule : Nat → Nat) :
    httpReadRawRequest limit schedule stream = .error tooLong := by
  have hends := ends_httpReadRawRequest limit schedule hone
  have hasked := ha.demand hmax hle.le
  generalize httpReadRawRequest limit schedule stream = r at hends
  cases hends with
  | closed short below => omega
  | full => rfl
  | refused blank below asked =>
    rw [ha.blank] at blank
    cases blank
    rw [hasked] at asked
    cases asked
  | found blank below asked finish =>
    rw [ha.blank] at blank
    cases blank
    rw [hasked] at asked
    cases asked
    cases finish with
    | closed short =>
      dsimp only at short
      omega
    | full => rfl
    | done l reached le below' =>
      dsimp only at reached
      omega

theorem Framed.complete (h : Framed limit maxString stream) (htext : TextBody stream) (ha : Asks stream p d c)
    (hlt : p + d + c < limit) (hlen : p + d + c ≤ stream.length) :
    match parseHead (stream.take p) with
    | .error _ => stream.length < limit ∨ p + d + c + 4095 < limit
    | .ok _ => stream.length = p + d + c ∧ (maxString = 0 ∨ c ≤ maxString) := by
  obtain ⟨hfirst, hc⟩ := ha
  have hd := firstBlank_delim hfirst
  have hasked := Asks.demand ⟨hfirst, hc⟩ hmax hlt.le
  have hdone (l : Nat) (hl : p + d + c ≤ l) (hll : l ≤ stream.length) (hbelow : l < limit)
      (hnear : l ≤ p + d + c + 4095) :
      httpReadRequest limit maxString (creepThen (p + d + c - 1) l) stream =
        httpParseRequestValue maxString (stream.take l) :=
    httpReadRequest_ok (read_creep_done hone hfirst hasked (Nat.le_add_right _ c) hl hll hbelow hnear)
  have hfull (hlong : limit ≤ stream.length) (hnear : limit ≤ p + d + c + 4095) :
      httpReadRequest limit maxString (creepThen (p + d + c - 1) limit) stream = .error tooLong :=
    httpReadRequest_error (read_creep_full hone hfirst (fun _ => ⟨hasked, by dsimp only; omega⟩) (by omega) hlong
      (by omega))
  have hlast := hdone (p + d + c) le_rfl hlen hlt (by omega)
  rw [parse_take maxString hone hfirst (Nat.le_add_right _ c)] at hlast
  cases hp : parseHead (stream.take p) with
  | error g =>
    rw [hp] at hlast
    by_contra hnot
    rw [h.same _ (creepThen (p + d + c - 1) limit), hfull (by omega) (by omega), parseHead_error hp] at hlast
    cases hlast
  | ok head =>
    rw [hp] at hlast
    have hsize (l : Nat) (hl : l ≤ stream.length) : ((stream.take l).drop (p + d)).length = l - (p + d) := by
      rw [length_drop, length_take_of_le hl]
    dsimp only at hlast ⊢
    rw [hsize _ hlen, Nat.add_sub_cancel_left] at hlast
    have hfit : ¬ (0 < maxString ∧ maxString < c) := by
      intro hbig
      rw [if_pos hbig] at hlast
      have := h.sized _ _ p d c hfirst hc hlen hlast rfl
      omega
    rw [if_neg hfit] at hlast
    refine ⟨?_, by omega⟩
    by_contra hmore
    by_cases hnext : p + d + c + 1 = limit
    · rw [h.same _ (creepThen (p + d + c - 1) limit), hfull (by omega) (by omega)] at hlast
      cases hlast
    -- one byte too many ends up in the body
    have hover := hdone (p + d + c + 1) (by omega) (by omega) (by omega) (by omega)
    rw [h.same _ (creepThen (p + d + c - 1) (p + d + c)), hlast] at hover
    have hbody := (parse_take_ok hone hfirst (by omega) hover.symm).2
    have hclean (l : Nat) : cstring ((stream.take l).drop (p + d)) = (stream.take l).drop (p + d) := by
      rw [drop_take]
      exact cstring_eq_self fun hz => htext p d hfirst (mem_of_mem_take hz)
    have hlength := congrArg List.length hbody
    rw [hclean, hclean, hsize _ hlen, hsize _ (by omega)] at hlength
    omega

theorem undisturbed_of_framed (htext : TextBody stream) (h : Framed limit maxString stream) :
    Undisturbed limit maxString stream := by
  rw [Undisturbed]
  cases hfirst : firstBlank stream with
  | none => trivial
  | some found =>
    obtain ⟨p, d⟩ := found
    dsimp only
    cases hc : httpRequestContentLength (stream.take p) with
    | error f => exact h.refused hmax hone hfirst hc
    | ok c =>
      by_cases hlong : limit < p + d + c
      · exact .inl hlong
      by_cases hshort : stream.length < p + d + c
      · exact .inr (.inl hshort)
      have hlt : p + d + c < limit := by
        by_contra hge
        have hread := read_limit hmax hone ⟨hfirst, hc⟩ (by omega) (by omega) (fun _ => 0)
        have := h.sized _ _ p d c hfirst hc (by omega) (httpReadRequest_error hread) rfl
        omega
      exact .inr (.inr ⟨hlt, h.complete hmax hone htext ⟨hfirst, hc⟩ hlt (by omega)⟩)

end Necessary

/-! ### The result -/

def sample : Bytes := Encoding.ascii "G / H\r\nA: b\r\n\r\n"

end Tablo.HttpRequest
