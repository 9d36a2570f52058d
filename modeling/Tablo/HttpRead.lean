import Tablo.HttpFraming

/-! The reading loop. Its buffer is always the first `k` bytes of the stream;
a read that fills it to the limit fails, so the buffer stays below the limit. -/

namespace Tablo.HttpRequest

/-! ### The capacity -/

structure CapOk (limit cap : Nat) : Prop where
  pos : 0 < cap
  le : cap ≤ limit

variable {limit : Nat}

theorem startCap_ok (h : 0 < limit) : CapOk limit (startCap limit) := by
  rw [startCap]
  constructor <;> split_ifs <;> omega

theorem le_doubleCap (need fuel cap : Nat) (h : need ≤ cap * 2 ^ fuel) : need ≤ doubleCap need fuel cap := by
  induction fuel generalizing cap with
  | zero => simpa [doubleCap] using h
  | succ fuel ih =>
    rw [doubleCap]
    split
    · apply ih
      rw [Nat.mul_assoc, ← Nat.pow_succ']
      exact h
    · omega

theorem reserve_full {cap : Nat} (h : CapOk limit cap) : reserve limit cap (limit + 1) = none := by
  have := h.le
  rw [reserve]
  dsimp only
  split_ifs <;> first | rfl | omega

theorem reserve_ok {cap len : Nat} (h : CapOk limit cap) (hlen : len < limit) :
    ∃ cap', reserve limit cap (len + 1) = some cap' ∧ CapOk limit cap' := by
  rw [reserve]
  split
  · have hd : len + 1 ≤ doubleCap (len + 1) (len + 1) cap := by
      apply le_doubleCap
      calc len + 1 ≤ 2 ^ (len + 1) := Nat.lt_two_pow_self.le
        _ ≤ cap * 2 ^ (len + 1) := Nat.le_mul_of_pos_left _ h.pos
    generalize doubleCap (len + 1) (len + 1) cap = grown at hd
    dsimp only
    by_cases hg : limit < grown
    · rw [if_pos hg, if_neg (by omega)]
      exact ⟨limit, rfl, by omega, le_rfl⟩
    · rw [if_neg hg, if_neg (by omega)]
      exact ⟨grown, rfl, by omega, by omega⟩
  · exact ⟨cap, rfl, h⟩

/-! ### One pass of the loop -/

variable {schedule : Nat → Nat} {stream : Bytes} {cap k : Nat} {t : Target} {target : Option Target}

def readFrom (limit : Nat) (schedule : Nat → Nat) (stream : Bytes) (cap k : Nat) (target : Option Target) :
    Except Failure (Bytes × Option Target) :=
  readLoop limit schedule cap (stream.take k) (stream.drop k) target

def amount (limit : Nat) (schedule : Nat → Nat) (stream : Bytes) (k : Nat) : Nat :=
  received limit schedule k (stream.drop k)

theorem amount_bounds (schedule : Nat → Nat) (hk : k < stream.length) (hlimit : k < limit) :
    0 < amount limit schedule stream k ∧ amount limit schedule stream k ≤ 4096 ∧
      k + amount limit schedule stream k ≤ stream.length ∧ k + amount limit schedule stream k ≤ limit := by
  rw [amount, received, List.length_drop]
  omega

theorem amount_eq (limit : Nat) (stream : Bytes) {n : Nat} (hn : schedule k = n) (hbig : n < 4096)
    (hlen : k + n < stream.length)
    (hlimit : k + n < limit) : amount limit schedule stream k = n + 1 := by
  rw [amount, received, List.length_drop]
  omega

theorem readFrom_reached (hk : k ≤ stream.length) (h : t.total ≤ k) :
    readFrom limit schedule stream cap k (some t) = .ok (stream.take k, some t) := by
  rw [readFrom, readLoop, if_pos]
  simpa [Nat.min_eq_left hk] using h

theorem readFrom_closed (hlimit : stream.length < limit) (ht : ∀ t, target = some t → stream.length < t.total) :
    readFrom limit schedule stream cap stream.length target = .error closedEarly := by
  have hopen : ¬ target.any (·.total ≤ (stream.take stream.length).length) := by
    cases target with
    | none => simp
    | some t => simpa using ht t rfl
  rw [readFrom, readLoop, if_neg hopen, dif_neg (by simpa using hlimit), dif_pos (by simp)]

def proceed (limit : Nat) (schedule : Nat → Nat) (stream : Bytes) (cap l : Nat) :
    Option Target → Except Failure (Bytes × Option Target)
  | some t => readFrom limit schedule stream cap l (some t)
  | none =>
    match scan limit (stream.take l) with
    | .error f => .error f
    | .ok found => readFrom limit schedule stream cap l found

theorem readFrom_pass (hk : k < stream.length) (hlimit : k < limit) (ht : ∀ t, target = some t → k < t.total) :
    readFrom limit schedule stream cap k target =
      match reserve limit cap (k + amount limit schedule stream k + 1) with
      | none => .error tooLong
      | some cap => proceed limit schedule stream cap (k + amount limit schedule stream k) target := by
  have hlen : (stream.take k).length = k := List.length_take_of_le hk.le
  have hopen : ¬ target.any (·.total ≤ (stream.take k).length) := by
    cases target with
    | none => simp
    | some t => simpa [hlen] using ht t rfl
  have hrest : stream.drop k ≠ [] := by
    intro h
    have := List.drop_eq_nil_iff.mp h
    omega
  have htake (n : Nat) : stream.take k ++ (stream.drop k).take n = stream.take (k + n) :=
    (List.take_add).symm
  rw [readFrom, readLoop, if_neg hopen, dif_neg (by omega), dif_neg hrest]
  simp only [hlen, htake, List.drop_drop]
  cases target with
  | none | some t => rfl

theorem readFrom_full (hcap : CapOk limit cap) (hk : k < stream.length)
    (hlimit : k < limit) (ht : ∀ t, target = some t → k < t.total) (hn : k + amount limit schedule stream k = limit) :
    readFrom limit schedule stream cap k target = .error tooLong := by
  rw [readFrom_pass hk hlimit ht, hn, reserve_full hcap]

theorem readFrom_next (schedule : Nat → Nat) (hcap : CapOk limit cap) (hk : k < stream.length)
    (ht : ∀ t, target = some t → k < t.total) (hn : k + amount limit schedule stream k < limit) :
    ∃ cap', CapOk limit cap' ∧ readFrom limit schedule stream cap k target =
      proceed limit schedule stream cap' (k + amount limit schedule stream k) target := by
  obtain ⟨cap', hr, hcap'⟩ := reserve_ok hcap hn
  exact ⟨cap', hcap', by rw [readFrom_pass hk (by omega) ht, hr]⟩

/-! ### Whole runs, for every schedule -/

inductive Finish (limit : Nat) (stream : Bytes) (t : Target) : Except Failure (Bytes × Option Target) → Prop
  | closed (short : stream.length < t.total) : Finish limit stream t (.error closedEarly)
  | full (long : limit ≤ stream.length) (near : limit ≤ t.total + 4095) : Finish limit stream t (.error tooLong)
  | done (l : Nat) (reached : t.total ≤ l) (le : l ≤ stream.length) (below : l < limit) :
      Finish limit stream t (.ok (stream.take l, some t))

theorem finish_readFrom (hcap : CapOk limit cap) (hk : k ≤ stream.length) (hlimit : k < limit)
    (hnear : k ≤ t.total + 4095) : Finish limit stream t (readFrom limit schedule stream cap k (some t)) := by
  induction hm : stream.length - k using Nat.strong_induction_on generalizing k cap with
  | _ m ih =>
    by_cases hreach : t.total ≤ k
    · rw [readFrom_reached hk hreach]
      exact .done k hreach hk hlimit
    have ht : ∀ t', some t = some t' → k < t'.total := by
      rintro t' ⟨⟩
      omega
    by_cases hend : k = stream.length
    · subst hend
      rw [readFrom_closed hlimit ht]
      exact .closed (ht t rfl)
    have hlt : k < stream.length := by omega
    obtain ⟨hpos, hbig, hle, hcaps⟩ := amount_bounds schedule hlt hlimit
    by_cases hfull : k + amount limit schedule stream k = limit
    · rw [readFrom_full hcap hlt hlimit ht hfull]
      exact .full (by omega) (by omega)
    · obtain ⟨cap', hcap', he⟩ := readFrom_next schedule hcap hlt ht (by omega)
      rw [he]
      exact ih _ (by omega) hcap' hle (by omega) (by omega) rfl

inductive Ends (limit : Nat) (stream : Bytes) : Except Failure (Bytes × Option Target) → Prop
  | closed (short : stream.length < blankEnd stream) (below : stream.length < limit) :
      Ends limit stream (.error closedEarly)
  | full (long : limit ≤ stream.length) (near : limit ≤ blankEnd stream + 4095) :
      Ends limit stream (.error tooLong)
  | refused {p d : Nat} {f : Failure} (blank : firstBlank stream = some (p, d)) (below : p + d < limit)
      (asked : demand limit stream p d = .error f) : Ends limit stream (.error f)
  | found {p d : Nat} {t : Target} {r : Except Failure (Bytes × Option Target)}
      (blank : firstBlank stream = some (p, d)) (below : p + d < limit)
      (asked : demand limit stream p d = .ok (some t)) (finish : Finish limit stream t r) : Ends limit stream r

theorem demand_cases (limit : Nat) (stream : Bytes) (p d : Nat) : (∃ f, demand limit stream p d = .error f) ∨
      ∃ t, demand limit stream p d = .ok (some t) ∧ p + d ≤ t.total := by
  rw [demand]
  split
  · next f _ => exact .inl ⟨f, rfl⟩
  · split_ifs
    · exact .inl ⟨_, rfl⟩
    · exact .inl ⟨_, rfl⟩
    · exact .inr ⟨_, rfl, Nat.le_add_right _ _⟩

theorem ends_readFrom (hone : OneSpelling stream) (hcap : CapOk limit cap) (hk : k ≤ stream.length)
    (hlimit : k < limit) (hbefore : k < blankEnd stream) :
    Ends limit stream (readFrom limit schedule stream cap k none) := by
  induction hm : stream.length - k using Nat.strong_induction_on generalizing k cap with
  | _ m ih =>
    have ht : ∀ t' : Target, none = some t' → k < t'.total := by
      rintro t' ⟨⟩
    by_cases hend : k = stream.length
    · subst hend
      rw [readFrom_closed hlimit ht]
      exact .closed hbefore hlimit
    have hlt : k < stream.length := by omega
    obtain ⟨hpos, hbig, hle, hcaps⟩ := amount_bounds schedule hlt hlimit
    by_cases hfull : k + amount limit schedule stream k = limit
    · rw [readFrom_full hcap hlt hlimit ht hfull]
      exact .full (by omega) (by omega)
    obtain ⟨cap', hcap', he⟩ := readFrom_next schedule hcap hlt ht (by omega)
    rw [he, proceed]
    generalize hl : k + amount limit schedule stream k = l at *
    by_cases hblank : l < blankEnd stream
    · rw [scan_take_before limit hblank]
      exact ih _ (by omega) hcap' hle (by omega) hblank rfl
    -- the blank line is in the buffer for the first time
    cases hfirst : firstBlank stream with
    | none =>
      simp only [blankEnd, hfirst] at hblank
      omega
    | some found =>
      obtain ⟨p, d⟩ := found
      rw [blankEnd_eq hfirst] at hblank hbefore
      rw [scan_take hone hfirst (by omega)]
      obtain ⟨f, hf⟩ | ⟨t, hasked, htotal⟩ := demand_cases limit stream p d
      · rw [hf]
        exact .refused hfirst (by omega) hf
      · rw [hasked]
        exact .found hfirst (by omega) hasked (finish_readFrom hcap' hle (by omega) (by omega))

theorem ends_httpReadRawRequest (limit : Nat) (schedule : Nat → Nat) (hone : OneSpelling stream) :
    Ends limit stream (httpReadRawRequest limit schedule stream) := by
  by_cases h : limit = 0
  · have he : httpReadRawRequest limit schedule stream = .error tooLong := by
      rw [httpReadRawRequest, readLoop, if_neg (by simp), dif_pos (by omega)]
    rw [he]
    exact .full (by omega) (by omega)
  · have hstart : httpReadRawRequest limit schedule stream =
        readFrom limit schedule stream (startCap limit) 0 none := rfl
    exact ends_readFrom hone (startCap_ok (by omega)) (Nat.zero_le _) (by omega) (blankEnd_pos stream)

end Tablo.HttpRequest
