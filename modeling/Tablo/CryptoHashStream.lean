import Tablo.CryptoHash
import Mathlib.Tactic.IntervalCases

/-! The transform is the compression of FIPS 180-4, and a context that was fed
any sequence of updates holds the complete blocks in its state and the rest of
the message in its buffer. -/

namespace Tablo.CryptoHash

open List Sha2
open BitVec (ofNat ofNat_add)

open Sha2 (Byte Word Hash)

section Words

variable (x : Word)

variable {n r stop t : Nat}

theorem cryptoSha256Rotr_eq (h : n < 32) : cryptoSha256Rotr x n = x.rotateRight n := by
  rw [cryptoSha256Rotr, BitVec.rotateRight_def, Nat.mod_eq_of_lt h]

theorem cryptoSha256Sigma0_eq : cryptoSha256Sigma0 x = bigSigma0 x := by
  simp [cryptoSha256Sigma0, bigSigma0, cryptoSha256Rotr_eq]

theorem cryptoSha256Sigma1_eq : cryptoSha256Sigma1 x = bigSigma1 x := by
  simp [cryptoSha256Sigma1, bigSigma1, cryptoSha256Rotr_eq]

theorem cryptoSha256Gamma0_eq : cryptoSha256Gamma0 x = smallSigma0 x := by
  simp [cryptoSha256Gamma0, smallSigma0, cryptoSha256Rotr_eq]

theorem cryptoSha256Gamma1_eq : cryptoSha256Gamma1 x = smallSigma1 x := by
  simp [cryptoSha256Gamma1, smallSigma1, cryptoSha256Rotr_eq]

theorem joinBytes_eq (x y z w : Byte) :
    (x.setWidth 32 <<< 24) ||| (y.setWidth 32 <<< 16) ||| (z.setWidth 32 <<< 8) ||| w.setWidth 32 =
      x ++ y ++ z ++ w := by
  apply BitVec.eq_of_getLsbD_eq
  intro i hi
  simp only [BitVec.getLsbD_append]
  -- each bit of the word is a bit of exactly one of the four bytes
  have h8 := fun (b : Byte) (j : Nat) (hj : 8 ≤ j) => b.getLsbD_of_ge j hj
  by_cases h1 : i < 8
  · simp [h1, show i < 16 by omega, show i < 24 by omega, hi]
  · by_cases h2 : i < 16
    · simp [h2, show i < 24 by omega, hi, h8 w i (by omega), show i - 8 < 8 by omega]
    · by_cases h3 : i < 24
      · simp [h1, h2, h3, hi, h8 w i (by omega), h8 z (i - 8) (by omega), show ¬ i - 8 < 8 by omega,
          show i - 8 - 8 = i - 16 by omega, show i - 16 < 8 by omega]
      · simp [h1, h3, hi, h8 w i (by omega), h8 z (i - 8) (by omega), h8 y (i - 16) (by omega),
          show ¬ i - 8 < 8 by omega, show i - 8 - 8 = i - 16 by omega, show ¬ i - 16 < 8 by omega,
          show i - 16 - 8 = i - 24 by omega]

theorem loadWord_eq (data : List Byte) (i : Nat) : loadWord data i = blockWord data i := by
  rw [loadWord, blockWord, joinBytes_eq, Nat.mul_comm i 4]

theorem outputByte_eq (w : Word) (i : Nat) : outputByte w i = w.extractLsb' (24 - i * 8) 8 := by
  apply BitVec.eq_of_getLsbD_eq
  intro j hj
  rw [outputByte, BitVec.getLsbD_setWidth, BitVec.getLsbD_and, BitVec.getLsbD_extractLsb']
  have hmask : (0xff#32).getLsbD j = true := by
    interval_cases j <;> rfl
  rw [show (0xff : Word) = 0xff#32 from rfl, hmask]
  simp [hj]

end Words

section Transform

theorem k_eq (h : t < 64) : k.getD t 0 = roundConstant t := by
  have hall : ∀ t < 64, k.getD t 0 = roundConstant t := by
    simp only [roundConstant, primes_eq]
    decide +kernel
  exact hall t h

theorem state_init : cryptoSha256Init.state = initialHash := by
  simp only [initialHash, primes_eq]
  decide +kernel

variable (data : List Byte)

theorem extendWords_schedule (n : Nat) :
    ((range' 16 n).foldl extendWords ((range 16).map (loadWord data))) =
      (range (16 + n)).map (schedule data) := by
  induction n with
  | zero =>
    refine map_congr_left fun t ht => ?_
    rw [schedule, if_pos (mem_range.mp ht), loadWord_eq]
  | succ n ih =>
    have hget : ∀ j < 16 + n, ((range (16 + n)).map (schedule data)).getD j 0 = schedule data j := by
      intro j hj
      simp [hj]
    rw [range'_1_concat, foldl_append, ih, foldl_cons, foldl_nil, extendWords,
      hget _ (by omega), hget _ (by omega), hget _ (by omega), hget _ (by omega),
      cryptoSha256Gamma1_eq, cryptoSha256Gamma0_eq, ← Nat.add_assoc, range_succ, map_append]
    congr 1
    congr 1
    conv_rhs => rw [schedule, if_neg (by omega)]

theorem messageWords_getD (h : t < 64) :
    (messageWords data).getD t 0 = schedule data t := by
  rw [messageWords, extendWords_schedule]
  simp [h]

theorem roundStep_eq (v : Hash) (h : t < 64) :
    roundStep (messageWords data) v t = round (roundConstant t) (schedule data t) v := by
  rw [roundStep, k_eq h, messageWords_getD data h, cryptoSha256Sigma1_eq, cryptoSha256Sigma0_eq]
  rfl

theorem cryptoSha256Transform_eq (ctx : CryptoSha256Ctx) (data : List Byte) :
    cryptoSha256Transform ctx data = { ctx with state := compress ctx.state data } := by
  have hrounds : (range 64).foldl (roundStep (messageWords data)) ctx.state =
      (range 64).foldl (fun v t => round (roundConstant t) (schedule data t) v) ctx.state :=
    foldl_ext _ _ _ fun v t ht => roundStep_eq data v (mem_range.mp ht)
  rw [cryptoSha256Transform, compress, hrounds]
  generalize (range 64).foldl _ ctx.state = v
  simp only [Hash.add_def, BitVec.add_comm]

end Transform

theorem zeroFill_eq {data : List Byte} {i : Nat} (hi : i ≤ stop) (h : stop ≤ data.length) :
    zeroFill data i stop = data.take i ++ replicate (stop - i) 0 ++ data.drop stop := by
  induction hn : stop - i generalizing data i with
  | zero =>
    have he : i = stop := by omega
    rw [zeroFill, he]
    simp
  | succ n ih =>
    rw [zeroFill, if_pos (by omega), @ih (data.set i 0) (i + 1) (by omega) (by simpa using h) (by omega),
      drop_set_of_lt (by omega), take_add_one, take_set_of_le (Nat.le_refl i)]
    simp [show i < data.length by omega, replicate_succ]

theorem writeBitlen_eq {data : List Byte} (h : data.length = 64) (bitlen : BitVec 64) :
    writeBitlen data bitlen = data.take 56 ++ octets 8 bitlen := by
  have htail : (data.drop 56).length = 8 := by simp [h]
  have hhead : (data.take 56).length = 56 := by simp [h]
  match ht : data.drop 56, htail with
  | [x0, x1, x2, x3, x4, x5, x6, x7], _ =>
    have hdata : data = data.take 56 ++ [x0, x1, x2, x3, x4, x5, x6, x7] := by
      rw [← ht, take_append_drop]
    generalize data.take 56 = front at hdata hhead
    subst hdata
    simp [writeBitlen, range_succ, hhead, octets, BitVec.setWidth_ushiftRight_eq_extractLsb]

/-- The complete blocks of the message are in the state, the bytes after them
at the front of the buffer. -/
structure Buffered (ctx : CryptoSha256Ctx) (whole rest : List Byte) : Prop where
  aligned : whole.length % 64 = 0
  short : rest.length < 64
  size : ctx.data.length = 64
  datalen : ctx.datalen = rest.length
  pending : ctx.data.take ctx.datalen = rest
  bitlen : ctx.bitlen = BitVec.ofNat 64 (8 * whole.length)
  state : ctx.state = Sha2.chain Sha2.initialHash whole

theorem buffered_init : Buffered cryptoSha256Init [] [] where
  aligned := rfl
  short := by decide
  size := rfl
  datalen := rfl
  pending := rfl
  bitlen := rfl
  state := by rw [state_init, chain_short (by decide)]

variable {ctx : CryptoSha256Ctx} {whole rest : List Byte}

theorem take_set_datalen (h : Buffered ctx whole rest) (b : Byte) :
    (ctx.data.set ctx.datalen b).take (ctx.datalen + 1) = rest ++ [b] := by
  have hlt : ctx.datalen < ctx.data.length := by
    rw [h.size, h.datalen]
    exact h.short
  rw [take_add_one, take_set_of_le (Nat.le_refl _), h.pending]
  simp [hlt]

theorem Buffered.updateByte (h : Buffered ctx whole rest) (b : Byte) :
    ∃ whole' rest', whole' ++ rest' = whole ++ rest ++ [b] ∧ Buffered (updateByte ctx b) whole' rest' := by
  have htake := take_set_datalen h b
  have hlen := h.datalen
  by_cases hfull : ctx.datalen + 1 = 64
  · -- the byte completes a block
    have hdata : ctx.data.set ctx.datalen b = rest ++ [b] := by
      rw [← htake, take_of_length_le (by simp [h.size, hfull])]
    have hblock : (rest ++ [b]).length = 64 := by
      simp
      omega
    have hstep : CryptoHash.updateByte ctx b =
        { ctx with data := rest ++ [b], datalen := 0, bitlen := ctx.bitlen + 512,
                   state := compress ctx.state (rest ++ [b]) } := by
      simp only [CryptoHash.updateByte, if_pos hfull, cryptoSha256Transform_eq, hdata]
    refine ⟨whole ++ (rest ++ [b]), [], by simp, ?_⟩
    rw [hstep]
    refine ⟨?_, by decide, hblock, rfl, rfl, ?_, ?_⟩
    · rw [length_append, hblock]
      have := h.aligned
      omega
    · rw [h.bitlen, length_append, hblock, Nat.mul_add, ofNat_add]
      rfl
    · rw [chain_append _ h.aligned, chain_single hblock, h.state]
  · have hstep : CryptoHash.updateByte ctx b =
        { ctx with data := ctx.data.set ctx.datalen b, datalen := ctx.datalen + 1 } := by
      simp only [CryptoHash.updateByte, if_neg hfull]
    refine ⟨whole, rest ++ [b], by simp, ?_⟩
    rw [hstep]
    have hshort := h.short
    exact ⟨h.aligned, by simp; omega, by simp [h.size], by simp [hlen], htake, h.bitlen, h.state⟩

theorem Buffered.update (h : Buffered ctx whole rest) (data : List Byte) :
    ∃ whole' rest', whole' ++ rest' = whole ++ rest ++ data ∧ Buffered (cryptoSha256UpdateCtx ctx data) whole' rest' := by
  induction data generalizing ctx whole rest with
  | nil => exact ⟨whole, rest, by simp, h⟩
  | cons b data ih =>
    obtain ⟨whole₁, rest₁, he₁, h₁⟩ := h.updateByte b
    obtain ⟨whole₂, rest₂, he₂, h₂⟩ := ih h₁
    exact ⟨whole₂, rest₂, by simp [he₂, he₁], h₂⟩

section Final

theorem outputBytes_eq (v : Hash) : (v.words.flatMap fun w => (range 4).map (outputByte w)) = digest v := by
  have hword : ∀ w : Word, (range 4).map (outputByte w) = octets 4 w := by
    intro w
    simp [range_succ, octets, outputByte_eq]
  rw [digest, funext hword]

theorem padding_of_lt (hn : n % 64 = 0) (hr : r < 56) :
    padding (n + r) = [0x80] ++ replicate (55 - r) 0 ++ octets 8 (ofNat 64 (8 * (n + r))) := by
  rw [padding, padZeros, show (119 - (n + r) % 64) % 64 = 55 - r by omega]

theorem padding_of_ge (hn : n % 64 = 0) (hr : 56 ≤ r) (hlt : r < 64) :
    padding (n + r) = ([0x80] ++ replicate (63 - r) 0) ++
      (replicate 56 0 ++ octets 8 (ofNat 64 (8 * (n + r)))) := by
  rw [padding, padZeros, show (119 - (n + r) % 64) % 64 = (63 - r) + 56 by omega, replicate_add]
  simp

variable {ctx : CryptoSha256Ctx} {whole rest : List Byte}

variable (h : Buffered ctx whole rest)

include h

theorem bitlen_total :
    ctx.bitlen + ofNat 64 ctx.datalen * 8 = ofNat 64 (8 * (whole.length + rest.length)) := by
  have hrest : ofNat 64 (rest.length * 8) = ofNat 64 rest.length * 8 := BitVec.ofNat_mul _ _
  rw [h.bitlen, h.datalen, Nat.mul_add, ofNat_add, Nat.mul_comm 8 rest.length, hrest]

theorem marked_eq (hr : rest.length < stop) (hs : stop ≤ 64) :
    zeroFill (ctx.data.set ctx.datalen 0x80) (ctx.datalen + 1) stop =
      rest ++ [0x80] ++ replicate (stop - 1 - rest.length) 0 ++ ctx.data.drop stop := by
  have hlen := h.datalen
  rw [zeroFill_eq (by omega) (by simpa [h.size] using hs), take_set_datalen h, drop_set_of_lt (by omega),
    show stop - (ctx.datalen + 1) = stop - 1 - rest.length by omega]

theorem Buffered.final : cryptoSha256Final ctx = sha256 (whole ++ rest) := by
  have hshort := h.short
  have hlen := h.datalen
  rw [sha256, length_append, append_assoc, chain_append _ h.aligned, ← h.state, cryptoSha256Final]
  simp only [cryptoSha256Transform_eq, outputBytes_eq]
  congr 1
  by_cases hr : rest.length < 56
  · -- mark, zeros and bit count fit behind the pending bytes
    have hmark := marked_eq h hr (by omega)
    have hsize : (zeroFill (ctx.data.set ctx.datalen 0x80) (ctx.datalen + 1) 56).length = 64 := by
      rw [hmark]
      simp [h.size]
      omega
    simp only [if_pos (show ctx.datalen < 56 by omega), writeBitlen_eq hsize, bitlen_total h]
    have htake : (zeroFill (ctx.data.set ctx.datalen 0x80) (ctx.datalen + 1) 56).take 56 =
        rest ++ [0x80] ++ replicate (55 - rest.length) 0 := by
      rw [hmark, take_left' (by simp; omega)]
    rw [htake, padding_of_lt h.aligned hr, chain_single (by simp; omega)]
    simp
  · -- the mark closes one block, the bit count needs another
    have hmark := marked_eq h hshort (Nat.le_refl 64)
    rw [drop_of_length_le (by rw [h.size]), append_nil] at hmark
    have hsize : (rest ++ [0x80] ++ replicate (63 - rest.length) (0 : Byte)).length = 64 := by
      simp
      omega
    have hzero : zeroFill (rest ++ [0x80] ++ replicate (63 - rest.length) 0) 0 56 =
        replicate 56 0 ++ (rest ++ [0x80] ++ replicate (63 - rest.length) 0).drop 56 := by
      rw [zeroFill_eq (by omega) (by omega)]
      simp
    have hzsize : (zeroFill (rest ++ [0x80] ++ replicate (63 - rest.length) 0) 0 56).length = 64 := by
      rw [hzero, length_append, length_drop, hsize]
      simp
    simp only [if_neg (show ¬ ctx.datalen < 56 by omega), hmark, writeBitlen_eq hzsize, bitlen_total h]
    rw [hzero, take_left' (by simp), padding_of_ge h.aligned (by omega) hshort, ← append_assoc rest,
      ← append_assoc rest, chain_block hsize, chain_single (by simp)]

end Final

theorem final_updates (pieces : List (List Byte)) :
    cryptoSha256Final (pieces.foldl cryptoSha256UpdateCtx cryptoSha256Init) = sha256 pieces.flatten := by
  have hrun : ∀ {ctx : CryptoSha256Ctx} {whole rest : List Byte}, Buffered ctx whole rest →
      cryptoSha256Final (pieces.foldl cryptoSha256UpdateCtx ctx) = sha256 (whole ++ rest ++ pieces.flatten) := by
    induction pieces with
    | nil =>
      intro ctx whole rest h
      simpa using h.final
    | cons piece pieces ih =>
      intro ctx whole rest h
      obtain ⟨whole', rest', he, h'⟩ := h.update piece
      rw [foldl_cons, ih h', he, flatten_cons, append_assoc _ piece]
  have hinit := hrun buffered_init
  exact hinit

theorem cryptoSha256_eq (data : List Byte) : cryptoSha256 data = sha256 data := by
  have h := final_updates [data]
  rw [flatten_singleton, foldl_cons] at h
  exact h

end Tablo.CryptoHash
