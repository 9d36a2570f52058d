import Tablo.BitsetOps

/-! Ranks, selection and listing of the members. -/

namespace Tablo.Bitset

open PackedBits List

variable {store : BitsetStore} {s : IndexSet} {ws : List Nat} {bitI count i rem wordI x : Nat}

def IndexSet.rank (s : IndexSet) (i : Nat) : Nat := (s.members.filter (· < i)).card

theorem Packs.sort_eq (h : Packs store s ws) : s.members.sort (· ≤ ·) = members 30 0 ws :=
  sort_eq_members (by decide) h.holds

theorem Packs.rank_eq (h : Packs store s ws) (i : Nat) : s.rank i = ((members 30 0 ws).filter (· < i)).length := by
  have hset : s.members.filter (· < i) = ((members 30 0 ws).filter (· < i)).toFinset := by
    ext k
    rw [Finset.mem_filter, mem_toFinset, List.mem_filter, h.holds, mem_members (by decide)]
    simp
  have hnodup : ((members 30 0 ws).filter (· < i)).Nodup :=
    ((sorted_members (by decide) 0 ws).filter _).imp fun hlt => Nat.ne_of_lt hlt
  rw [IndexSet.rank, hset, toFinset_card_of_nodup hnodup]

theorem rankLoop_eq (hw : ∀ w ∈ ws, w < 2 ^ 30) {n : Nat} (hn : n ≤ ws.length) (total : Int) (base : Nat) :
    rankLoop n (ws.map Nat.cast) total = .ok (total + (members 30 base (ws.take n)).length) := by
  induction ws generalizing n total base with
  | nil =>
    obtain rfl : n = 0 := by simpa using hn
    simp [rankLoop, members]
  | cons w ws ih =>
    cases n with
    | zero => simp [rankLoop, members]
    | succ n =>
      rw [map_cons, rankLoop, ih (fun x hx => hw x (by simp [hx])) (by simpa using hn) _ (base + 30),
        bitsetPopcountWord_eq (hw w (by simp)), take_succ_cons, members, length_append, length_map]
      push_cast
      rw [add_assoc]

theorem rankRest_eq (h : Packs store s ws) (full : Nat) (hr : rem < 30) (total : Int) :
    rankRest store full rem total = .ok (total + ((bits 30 (ws.getD full 0)).filter (· < rem)).length) := by
  rw [rankRest]
  by_cases hc : (0 : Int) < rem ∧ full < store.words.length
  · have hlt : full < ws.length := by
      rw [h.words, length_map] at hc
      exact hc.2
    have hmask : ws.getD full 0 &&& (2 ^ rem - 1) = ws.getD full 0 % 2 ^ rem := Nat.and_two_pow_sub_one_eq_mod _ _
    have hsmall : ws.getD full 0 % 2 ^ rem < 2 ^ 30 := lt_of_le_of_lt (Nat.mod_le _ _) (getD_small h.small full)
    rw [if_pos hc, bitsetMaskForBits_eq (by omega), h.words, arrayGet_cast hlt]
    dsimp only [bind, Except.bind]
    rw [land_cast, hmask, bitsetPopcountWord_eq hsmall, bits_mod]
    rfl
  · rw [if_neg hc]
    by_cases hz : rem = 0
    · simp [hz]
    · have hge : ws.length ≤ full := by
        rw [h.words, length_map] at hc
        omega
      simp [hge]

theorem bitsetRank_eq (h : Packs store s ws) (hi : i ≤ s.length) :
    bitsetRank store i = .ok ((s.rank i : Int), none) := by
  have hbound : ¬ ((i : Int) < 0 ∨ store.bitLength < i) := by
    rw [h.bitLength]
    omega
  have hdiv : Int.tdiv i bitsetWordBits = (i / 30 : Nat) := Int.ofNat_tdiv i 30
  have hmod : Int.tmod i bitsetWordBits = (i % 30 : Nat) := Int.ofNat_tmod i 30
  have hfull : i / 30 ≤ ws.length := by
    rw [h.wordCount, wordsFor]
    omega
  have hsplit := members_filter_lt (show 0 < 30 by decide) ws 0 i
  rw [zero_add] at hsplit
  rw [bitsetRank, if_neg hbound, hdiv, hmod, Int.toNat_natCast, h.words]
  dsimp only
  rw [rankLoop_eq h.small hfull 0 0]
  dsimp only [bind, Except.bind]
  rw [rankRest_eq h _ (Nat.mod_lt _ (by decide)), h.rank_eq, hsplit, length_append, length_map]
  rw [zero_add]
  rfl

variable {length : Int}

def masksFrom (bitI count : Nat) : List Int := (List.range' bitI count).map fun k => ((2 ^ k : Nat) : Int)

theorem bitsetBitMasks_eq_masksFrom : bitsetBitMasks = masksFrom 0 30 := by decide

theorem masksFrom_succ (bitI count : Nat) :
    masksFrom bitI (count + 1) = ((2 ^ bitI : Nat) : Int) :: masksFrom (bitI + 1) count := rfl

def bitsFrom (x bitI count : Nat) : List Nat := (List.range' bitI count).filter x.testBit

theorem bitsFrom_succ (x bitI count : Nat) : bitsFrom x bitI (count + 1) =
    if x.testBit bitI then bitI :: bitsFrom x (bitI + 1) count else bitsFrom x (bitI + 1) count := by
  rw [bitsFrom, range'_succ, filter_cons]
  rfl

theorem bitsFrom_all (x : Nat) : bitsFrom x 0 30 = bits 30 x := by
  rw [bitsFrom, bits, range_eq_range']

theorem selectBitLoop_eq (h : ∀ k ∈ bitsFrom x bitI count, (wordI * bitsetWordBits + k : Int) < length) :
    selectBitLoop length x wordI (masksFrom bitI count) bitI rem =
      match (bitsFrom x bitI count)[rem]? with
      | some k => .inl (wordI * bitsetWordBits + k : Int)
      | none => .inr ((rem : Int) - (bitsFrom x bitI count).length) := by
  induction count generalizing bitI rem with
  | zero => simp [masksFrom, bitsFrom, selectBitLoop]
  | succ count ih =>
    rw [masksFrom_succ, selectBitLoop]
    rw [bitsFrom_succ] at h ⊢
    by_cases hb : x.testBit bitI = true
    · have hland := (land_mask_eq_zero x bitI).not_left.mpr hb
      rw [if_pos hb] at h ⊢
      rw [if_pos hland]
      cases rem with
      | zero => simp [h bitI (by simp)]
      | succ rem =>
        have hne : ¬ (((rem + 1 : Nat) : Int) = 0 ∧ (wordI * bitsetWordBits + bitI : Int) < length) := by omega
        have hstep := @ih (bitI + 1) rem fun k hk => h k (by simp [hk])
        rw [if_neg hne, show ((rem + 1 : Nat) : Int) - 1 = rem by omega, hstep, getElem?_cons_succ]
        cases (bitsFrom x (bitI + 1) count)[rem]? with
        | some k => rfl
        | none =>
          simp only [length_cons]
          congr 1
          omega
    · have hland := (land_mask_eq_zero x bitI).mpr hb
      rw [if_neg hb] at h ⊢
      rw [if_neg (not_not.mpr hland)]
      exact ih h

theorem bits_below {w : Nat} {rest : List Nat}
    (h : ∀ k ∈ (bits 30 w).map (30 * wordI + ·) ++ rest, (k : Int) < length) :
    ∀ k ∈ bitsFrom w 0 30, (wordI * bitsetWordBits + k : Int) < length := by
  intro k hk
  have := h (30 * wordI + k) (mem_append_left _ (mem_map.mpr ⟨k, hk, rfl⟩))
  simp only [bitsetWordBits]
  omega

theorem Packs.member_lt (h : Packs store s ws) : ∀ i ∈ members 30 (30 * 0) ws, (i : Int) < store.bitLength := by
  intro i hi
  rw [← h.sort_eq, Finset.mem_sort] at hi
  rw [h.bitLength]
  exact_mod_cast s.bound i hi

theorem selectLoop_eq (hw : ∀ w ∈ ws, w < 2 ^ 30) (h : ∀ k ∈ members 30 (30 * wordI) ws, (k : Int) < length) :
    selectLoop length (ws.map Nat.cast) wordI rem = ((members 30 (30 * wordI) ws)[rem]?).map Nat.cast := by
  induction ws generalizing wordI rem with
  | nil => simp [selectLoop, members]
  | cons w ws ih =>
    have hcount := bitsetPopcountWord_eq (hw w (by simp))
    have hnext : 30 * wordI + 30 = 30 * (wordI + 1) := by omega
    rw [members, hnext] at h ⊢
    have hrest (rem : Nat) := @ih rem (wordI + 1) (fun x hx => hw x (by simp [hx]))
      fun k hk => h k (mem_append_right _ hk)
    rw [map_cons, selectLoop]
    by_cases hz : w = 0
    · subst hz
      rw [hrest]
      simp
    · rw [if_pos (by exact_mod_cast hz), hcount]
      by_cases hle : (bits 30 w).length ≤ rem
      · rw [if_pos (by exact_mod_cast hle), ← Int.ofNat_sub hle, hrest, getElem?_append_right (by simpa using hle),
          length_map]
      · have hbits := bits_below h
        have hlt : rem < (bits 30 w).length := by omega
        rw [if_neg (by exact_mod_cast hle), bitsetBitMasks_eq_masksFrom, selectBitLoop_eq hbits, bitsFrom_all,
          getElem?_append_left (by simpa using hlt), getElem?_map,
          getElem?_eq_getElem hlt]
        simp only [Option.map_some, Option.some.injEq, bitsetWordBits]
        omega

def IndexSet.select (s : IndexSet) (k : Nat) : Option Nat := (s.members.sort (· ≤ ·))[k]?

theorem bitsetSelect_eq (h : Packs store s ws) (k : Nat) : bitsetSelect store k = match s.select k with
      | some i => ((i : Int), true, none)
      | none => (-1, false, none) := by
  have hloop : selectLoop store.bitLength (ws.map Nat.cast) 0 k = _ := selectLoop_eq h.small h.member_lt
  rw [← h.words, ← h.sort_eq] at hloop
  rw [bitsetSelect, if_neg (by omega), h.count, IndexSet.select]
  by_cases hk : s.members.card ≤ k
  · rw [if_pos (by exact_mod_cast hk), getElem?_eq_none (by rwa [Finset.length_sort])]
  · have hlt : k < (s.members.sort (· ≤ ·)).length := by
      rw [Finset.length_sort]
      omega
    rw [getElem?_eq_getElem hlt] at hloop ⊢
    rw [if_neg (by exact_mod_cast hk)]
    have hzero : selectLoop store.bitLength store.words 0 k = some (((s.members.sort (· ≤ ·))[k] : Nat) : Int) := hloop
    rw [hzero]

theorem IndexSet.rank_of_select {k : Nat} (h : s.select k = some i) : i ∈ s.members ∧ s.rank i = k := by
  obtain ⟨hk, rfl⟩ := List.getElem?_eq_some_iff.mp h
  have hsorted : (s.members.sort (· ≤ ·)).Pairwise (· < ·) := Finset.sortedLT_sort s.members |>.pairwise
  have hfilter := filter_lt_getElem hsorted hk
  refine ⟨(Finset.mem_sort (· ≤ ·)).mp (getElem_mem hk), ?_⟩
  have hset : s.members.filter (· < (s.members.sort (· ≤ ·))[k]) =
      ((s.members.sort (· ≤ ·)).filter (· < (s.members.sort (· ≤ ·))[k])).toFinset := by
    ext j
    rw [Finset.mem_filter, mem_toFinset, List.mem_filter, Finset.mem_sort, decide_eq_true_iff]
  rw [IndexSet.rank, hset, hfilter, toFinset_card_of_nodup ((Finset.sort_nodup _ _).sublist (take_sublist _ _)),
    length_take]
  omega

theorem IndexSet.select_of_rank (h : i ∈ s.members) : s.select (s.rank i) = some i := by
  obtain ⟨k, hk, hget⟩ := getElem_of_mem ((Finset.mem_sort (· ≤ ·)).mpr h)
  have hsel : s.select k = some i := List.getElem?_eq_some_iff.mpr ⟨hk, hget⟩
  rw [(IndexSet.rank_of_select hsel).2, hsel]

variable {maxItems : Nat} {new out : List Int}

def capped (maxItems : Nat) (out new : List Int) : List Int × Bool :=
  if out.length + new.length ≤ maxItems then (out ++ new, false) else ((out ++ new).take maxItems, true)

theorem capped_nil (h : out.length ≤ maxItems) : capped maxItems out [] = (out, false) := by
  simp [capped, h]

theorem capped_append {rest : List Int} :
    capped maxItems (out ++ new) rest = capped maxItems out (new ++ rest) := by
  simp only [capped, length_append, append_assoc]
  rw [Nat.add_assoc]

theorem capped_full (h : maxItems < out.length + new.length)
    (rest : List Int) : capped maxItems out (new ++ rest) = ((out ++ new).take maxItems, true) := by
  have hlong : ¬ out.length + (new ++ rest).length ≤ maxItems := by
    rw [length_append]
    omega
  rw [capped, if_neg hlong, ← append_assoc, take_append_of_le_length]
  rw [length_append]
  omega

theorem toIndicesBitLoop_eq (ho : out.length ≤ maxItems)
    (h : ∀ k ∈ bitsFrom x bitI count, (wordI * bitsetWordBits + k : Int) < length) :
    toIndicesBitLoop length maxItems x wordI (masksFrom bitI count) bitI out =
      capped maxItems out ((bitsFrom x bitI count).map fun k : Nat => (wordI * bitsetWordBits + k : Int)) := by
  induction count generalizing bitI out with
  | zero => exact (capped_nil ho).symm
  | succ count ih =>
    rw [masksFrom_succ, toIndicesBitLoop]
    rw [bitsFrom_succ] at h ⊢
    by_cases hb : x.testBit bitI = true
    · have hland := (land_mask_eq_zero x bitI).not_left.mpr hb
      rw [if_pos hb] at h ⊢
      rw [if_pos ⟨hland, h bitI (by simp)⟩]
      by_cases hfull : maxItems ≤ out.length
      · rw [if_pos (by exact_mod_cast hfull)]
        have hover : maxItems < out.length + [(wordI * bitsetWordBits + bitI : Int)].length := by
          simp only [length_singleton]
          omega
        have hone := capped_full hover
          ((bitsFrom x (bitI + 1) count).map fun k : Nat => (wordI * bitsetWordBits + k : Int))
        rw [take_append_of_le_length (by omega), take_of_length_le (by omega)] at hone
        exact hone.symm
      · rw [if_neg (by exact_mod_cast hfull), ih (by simp; omega) fun k hk => h k (by simp [hk]), capped_append]
        rfl
    · have hland := (land_mask_eq_zero x bitI).mpr hb
      rw [if_neg hb] at h ⊢
      rw [if_neg fun hc => hc.1 hland]
      exact ih ho h

theorem toIndicesLoop_eq (ho : out.length ≤ maxItems)
    (h : ∀ k ∈ members 30 (30 * wordI) ws, (k : Int) < length) :
    toIndicesLoop length maxItems (ws.map Nat.cast) wordI out =
      capped maxItems out ((members 30 (30 * wordI) ws).map Nat.cast) := by
  induction ws generalizing wordI out with
  | nil => exact (capped_nil ho).symm
  | cons w ws ih =>
    have hnext : 30 * wordI + 30 = 30 * (wordI + 1) := by omega
    rw [members, hnext] at h ⊢
    have hrest {out : List Int} (ho : out.length ≤ maxItems) := @ih (wordI + 1) out ho
      fun k hk => h k (mem_append_right _ hk)
    rw [map_cons, toIndicesLoop, map_append]
    by_cases hz : w = 0
    · subst hz
      rw [hrest ho]
      simp
    · have hbits := bits_below h
      have hnew : ((bits 30 w).map fun k : Nat => (wordI * bitsetWordBits + k : Int)) =
          ((bits 30 w).map (30 * wordI + ·)).map Nat.cast := by
        rw [map_map]
        refine map_congr_left fun k _ => ?_
        simp only [Function.comp_apply, bitsetWordBits]
        omega
      rw [if_pos (by exact_mod_cast hz), bitsetBitMasks_eq_masksFrom, toIndicesBitLoop_eq ho hbits, bitsFrom_all, hnew]
      by_cases hfit : out.length + (((bits 30 w).map (30 * wordI + ·)).map (Nat.cast : Nat → Int)).length ≤ maxItems
      · rw [capped, if_pos hfit]
        dsimp only
        rw [hrest (by rwa [length_append]), capped_append]
      · rw [capped_full (by omega), capped, if_neg hfit]

theorem bitsetToIndices_eq (h : Packs store s ws) {m : Nat} (hm : 1 ≤ m ∧ m ≤ 100000000) : bitsetToIndices store m =
      (((s.members.sort (· ≤ ·)).take m).map Nat.cast, decide (m < s.members.card), none) := by
  have hloop : toIndicesLoop store.bitLength m store.words 0 [] =
      capped m [] ((s.members.sort (· ≤ ·)).map Nat.cast) := by
    rw [h.sort_eq, h.words]
    exact toIndicesLoop_eq (Nat.zero_le m) h.member_lt
  rw [bitsetToIndices, if_neg (by omega)]
  rw [hloop, capped]
  by_cases hfit : s.members.card ≤ m
  · simp [hfit]
  · rw [if_neg (by simpa using hfit)]
    simp [Nat.lt_of_not_le hfit]

end Tablo.Bitset
