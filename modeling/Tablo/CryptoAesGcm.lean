import Tablo.CryptoAesField

/-! Sealing is the authenticated encryption of the standard over the block cipher of the key, and opening
accepts what sealing makes and nothing else. -/

namespace Tablo.CryptoAes

open GaloisCounter List Option

/-! ### Counters -/

theorem storeBytes_eq (n k : Nat) : storeBytes n k = numeral n k := by
  induction n generalizing k with
  | zero => rfl
  | succ n ih => rw [storeBytes, numeral_succ, ih]

theorem reverse_incrementBytes (xs : List UInt8) :
    (incrementBytes xs).reverse = numeral xs.length (number xs.reverse + 1) := by
  induction xs with
  | nil => rfl
  | cons x xs ih =>
    have hx := x.toNat_lt
    have hnext : (x + 1).toNat = (x.toNat + 1) % 256 := UInt8.toNat_add x 1
    rw [incrementBytes, length_cons, reverse_cons, numeral_succ, number_append_singleton]
    have hbyte : x + 1 = UInt8.ofNat (256 * number xs.reverse + x.toNat + 1) := by
      apply UInt8.toNat_inj.mp
      rw [UInt8.toNat_ofNat']
      omega
    rw [← hbyte]
    split
    · rename_i hne
      have hlt : x.toNat + 1 < 256 := by
        by_contra hge
        exact hne (UInt8.toNat_inj.mp (by rw [UInt8.toNat_zero]; omega))
      have hdiv : (256 * number xs.reverse + x.toNat + 1) / 256 = number xs.reverse := by omega
      have hkeep := numeral_number xs.reverse
      rw [length_reverse] at hkeep
      rw [hdiv, hkeep, reverse_cons]
    · rename_i hzero
      have hmax : (x.toNat + 1) % 256 = 0 := by
        rw [← hnext, not_not.mp hzero]
        rfl
      have hdiv : (256 * number xs.reverse + x.toNat + 1) / 256 = number xs.reverse + 1 := by omega
      rw [hdiv, reverse_cons, ih]

theorem cryptoAesIncrementCounter32_eq (counter : Block) : cryptoAesIncrementCounter32 counter = inc32 counter := by
  apply Block.ext
  change counter.bytes.take 12 ++ (incrementBytes (counter.bytes.drop 12).reverse).reverse =
    counter.bytes.take 12 ++ numeral 4 ((number (counter.bytes.drop 12) + 1) % 256 ^ 4)
  rw [reverse_incrementBytes, reverse_reverse, length_reverse, length_drop, counter.length_eq, numeral_mod]

variable (ctx : CryptoAesCtx) (increment : Block → Block) (counter : Block) (input : List UInt8) {key : List UInt8}

theorem streamLoop_eq :
    streamLoop ctx increment counter input = mask (cryptoAesEncryptBlock ctx) increment counter input := by
  induction counter, input using streamLoop.induct increment with
  | case1 counter => rw [streamLoop]; rfl
  | case2 counter input hne ih =>
    rw [streamLoop, if_neg hne, ih]
    by_cases hlong : 16 ≤ input.length
    · have htake : (input.take 16).length = 16 := by rw [length_take, Nat.min_eq_left hlong]
      rw [← mask_of_short _ increment counter htake.le, ← mask_append _ _ _ htake, take_append_drop]
    · have hshort : input.length ≤ 16 := by omega
      rw [drop_eq_nil_of_le hshort, take_of_length_le hshort, mask_of_short _ increment counter hshort]
      exact append_nil _

theorem streamLoop_gctr :
    streamLoop ctx cryptoAesIncrementCounter32 counter input = gctr (cryptoAesEncryptBlock ctx) counter input := by
  rw [streamLoop_eq, funext cryptoAesIncrementCounter32_eq]
  rfl

theorem streamLoop_streamLoop :
    streamLoop ctx increment counter (streamLoop ctx increment counter input) = input := by
  rw [streamLoop_eq, streamLoop_eq, mask_mask]

theorem length_streamLoop :
    (streamLoop ctx increment counter input).length = input.length := by
  rw [streamLoop_eq, length_mask]

/-! ### Tags -/

theorem cryptoAesGcmGhashUpdate_eq (y h : Block) (data : List UInt8) :
    cryptoAesGcmGhashUpdate y h data = ghashBlocks h y (blocks data) := by
  induction y, data using cryptoAesGcmGhashUpdate.induct h with
  | case1 y data hlong ih =>
    have hblocks : blocks data = Block.ofList data :: blocks (data.drop 16) := by
      rw [blocks, if_neg (length_pos_iff.mp (by omega))]
    rw [cryptoAesGcmGhashUpdate, if_pos hlong, ih, hblocks, cryptoAesGcmMultiply_eq]
    rfl
  | case2 y data hshort hpos =>
    rw [cryptoAesGcmGhashUpdate, if_neg hshort, if_pos hpos, cryptoAesGcmMultiply_eq,
      blocks_of_short (length_pos_iff.mp hpos) (by omega)]
    rfl
  | case3 y data hshort hempty =>
    have hnil : data = [] := eq_nil_of_length_eq_zero (by omega)
    rw [cryptoAesGcmGhashUpdate, hnil, blocks_nil]
    rfl

theorem ghashBlocks_append (h y : Block) (xs zs : List Block) :
    ghashBlocks h y (xs ++ zs) = ghashBlocks h (ghashBlocks h y xs) zs := foldl_append

theorem tagMask (ciph : Block → Block) (icb y : Block) : Block.ofList (gctr ciph icb y.bytes) = (ciph icb).xor y := by
  have hmask : gctr ciph icb y.bytes = (y.xor (ciph icb)).bytes := mask_of_short ciph inc32 icb y.length_eq.le
  rw [hmask, Block.ofList_bytes, Block.xor_comm]

theorem cryptoAesGcmBuildTag_eq (nonce : Nonce) {aad c : List UInt8}
    (haad : aad.length ≤ uint64Max / 8) (hc : c.length ≤ uint64Max / 8) :
    cryptoAesGcmBuildTag ctx nonce aad c = some (tag (cryptoAesEncryptBlock ctx) nonce aad c) := by
  rw [cryptoAesGcmBuildTag, if_neg (by omega)]
  refine congrArg some ?_
  let lens := numeral 8 (8 * aad.length) ++ numeral 8 (8 * c.length)
  have hlens : lens.length = 16 := by rw [length_append, length_numeral, length_numeral]
  have hblocks : blocks (pad aad ++ pad c ++ numeral 8 (8 * aad.length) ++ numeral 8 (8 * c.length)) =
      blocks aad ++ (blocks c ++ [Block.ofList lens]) := by
    have hne : lens ≠ [] := length_pos_iff.mp (by omega)
    rw [append_assoc, append_assoc, blocks_pad_append, blocks_pad_append, blocks_of_short hne hlens.le]
  dsimp only [tag, ghash, cryptoAesStoreU64Be]
  rw [hblocks, ghashBlocks_append, ghashBlocks_append, cryptoAesGcmGhashUpdate_eq, cryptoAesGcmGhashUpdate_eq,
    cryptoAesGcmMultiply_eq, storeBytes_eq, storeBytes_eq, Nat.mul_comm aad.length, Nat.mul_comm c.length]
  generalize ghashBlocks _ (ghashBlocks _ _ _) (blocks c) = y
  rw [tagMask]
  rfl

theorem foldl_or_eq_zero (xs : List UInt8) (acc : UInt8) :
    xs.foldl (· ||| ·) acc = 0 ↔ acc = 0 ∧ ∀ x ∈ xs, x = 0 := by
  induction xs generalizing acc with
  | nil => simp
  | cons x xs ih => rw [foldl_cons, ih, UInt8.or_eq_zero_iff, forall_mem_cons, and_assoc]

theorem zipWith_xor_eq_zero {l m : List UInt8} (hlen : l.length = m.length) :
    (∀ x ∈ List.zipWith (· ^^^ ·) l m, x = 0) ↔ l = m := by
  induction l generalizing m with
  | nil =>
    rw [eq_nil_of_length_eq_zero hlen.symm]
    simp
  | cons a l ih =>
    cases m with
    | nil => contradiction
    | cons b m =>
      rw [zipWith_cons_cons, forall_mem_cons, ih (by simpa using hlen), UInt8.xor_eq_zero_iff, List.cons.injEq]

theorem cryptoAesConstantTimeEqual_iff (a b : Block) : cryptoAesConstantTimeEqual a b = true ↔ a = b := by
  rw [cryptoAesConstantTimeEqual, beq_iff_eq, foldl_or_eq_zero,
    zipWith_xor_eq_zero (by rw [a.length_eq, b.length_eq]), Block.ext_iff]
  exact and_iff_right rfl

/-! ### Sealing and opening -/

section
variable {key : List UInt8} {ctx : CryptoAesCtx} (hctx : cryptoAesInit key = some ctx) (nonce : Nonce)
include hctx

theorem cryptoAesGcmSeal_eq_some_iff (aad p c : List UInt8) (t : Block) :
    cryptoAesGcmSeal key nonce aad p = some (c, t) ↔
      c = streamLoop ctx cryptoAesIncrementCounter32 (cryptoAesIncrementCounter32 (initialCounter nonce)) p ∧
        cryptoAesGcmBuildTag ctx nonce aad c = some t := by
  rw [cryptoAesGcmSeal, hctx]
  dsimp only [bind, bind_some]
  rw [bind_eq_some_iff]
  constructor
  · rintro ⟨t', ht, h⟩
    obtain ⟨rfl, rfl⟩ := Prod.mk.inj (some.inj h)
    exact ⟨rfl, ht⟩
  · rintro ⟨rfl, ht⟩
    exact ⟨t, ht, rfl⟩

theorem cryptoAesGcmOpen_eq (aad c : List UInt8) (t : Block) (out : List UInt8) :
    cryptoAesGcmOpen key nonce aad c t out =
      if cryptoAesGcmBuildTag ctx nonce aad c = some t then
        (true, streamLoop ctx cryptoAesIncrementCounter32 (cryptoAesIncrementCounter32 (initialCounter nonce)) c ++
          out.drop c.length)
      else (false, out) := by
  rw [cryptoAesGcmOpen, hctx]
  dsimp only
  cases htag : cryptoAesGcmBuildTag ctx nonce aad c with
  | none => rw [if_neg (some_ne_none t).symm]
  | some computed =>
    dsimp only
    by_cases heq : computed = t
    · rw [if_pos ((cryptoAesConstantTimeEqual_iff _ _).mpr heq), if_pos (congrArg some heq), length_streamLoop]
    · rw [if_neg (mt (cryptoAesConstantTimeEqual_iff _ _).mp heq), if_neg (mt some.inj heq)]

end

theorem cryptoAesInit_of_length (hkey : key.length = 16 ∨ key.length = 24 ∨ key.length = 32) :
    ∃ ctx, cryptoAesInit key = some ctx := by
  rw [cryptoAesInit]
  rcases hkey with h | h | h <;> simp [h]

theorem length_gctr (ciph : Block → Block) (icb : Block) (x : List UInt8) : (gctr ciph icb x).length = x.length :=
  length_mask ciph inc32 icb x

variable {ctx : CryptoAesCtx}

section

variable (hctx : cryptoAesInit key = some ctx) (nonce : Nonce)

include hctx

theorem cryptoAesGcmSeal_eq {aad p : List UInt8} (haad : AllowedData aad) (hp : AllowedText p) :
    cryptoAesGcmSeal key nonce aad p = some (encrypt (cryptoAesEncryptBlock ctx) nonce aad p) := by
  dsimp only [AllowedData] at haad
  dsimp only [AllowedText] at hp
  refine (cryptoAesGcmSeal_eq_some_iff hctx nonce aad p _ _).mpr ⟨?_, ?_⟩
  · rw [streamLoop_gctr, cryptoAesIncrementCounter32_eq]
    rfl
  · refine cryptoAesGcmBuildTag_eq ctx nonce ?_ ?_
    · rw [uint64Max]
      omega
    · rw [uint64Max, length_gctr]
      omega

theorem cryptoAesGcmOpen_seal
    {aad p c : List UInt8} {t : Block} (hseal : cryptoAesGcmSeal key nonce aad p = some (c, t)) (out : List UInt8) :
    cryptoAesGcmOpen key nonce aad c t out = (true, p ++ out.drop p.length) := by
  obtain ⟨rfl, htag⟩ := (cryptoAesGcmSeal_eq_some_iff hctx nonce aad p c t).mp hseal
  rw [cryptoAesGcmOpen_eq hctx, if_pos htag, streamLoop_streamLoop, length_streamLoop]

theorem cryptoAesGcmOpen_fst_iff (aad c : List UInt8) (t : Block) (out : List UInt8) :
    (cryptoAesGcmOpen key nonce aad c t out).1 = true ↔ cryptoAesGcmBuildTag ctx nonce aad c = some t := by
  rw [cryptoAesGcmOpen_eq hctx]
  split
  · rename_i htag
    exact iff_of_true rfl htag
  · rename_i htag
    exact iff_of_false Bool.false_ne_true htag

theorem exists_seal_iff (aad c : List UInt8) (t : Block) :
    (∃ p, cryptoAesGcmSeal key nonce aad p = some (c, t)) ↔ cryptoAesGcmBuildTag ctx nonce aad c = some t := by
  constructor
  · rintro ⟨p, hseal⟩
    exact ((cryptoAesGcmSeal_eq_some_iff hctx nonce aad p c t).mp hseal).2
  · intro htag
    exact ⟨_, (cryptoAesGcmSeal_eq_some_iff hctx nonce aad _ c t).mpr ⟨(streamLoop_streamLoop ctx _ _ c).symm, htag⟩⟩

end

/-- Galois/Counter Mode and counter mode of the code under a key of 128, 192 or 256 bits. -/
theorem aesGcm_correct (key : List UInt8) (hkey : key.length = 16 ∨ key.length = 24 ∨ key.length = 32) :
    ∃ ctx, cryptoAesInit key = some ctx ∧ (∀ nonce aad p, AllowedData aad → AllowedText p →
        cryptoAesGcmSeal key nonce aad p = some (encrypt (cryptoAesEncryptBlock ctx) nonce aad p)) ∧
      (∀ nonce aad p c t out, cryptoAesGcmSeal key nonce aad p = some (c, t) →
        cryptoAesGcmOpen key nonce aad c t out = (true, p ++ out.drop p.length)) ∧
      (∀ nonce aad c t out,
        ((cryptoAesGcmOpen key nonce aad c t out).1 = true ↔ ∃ p, cryptoAesGcmSeal key nonce aad p = some (c, t)) ∧
        ((cryptoAesGcmOpen key nonce aad c t out).1 = false → (cryptoAesGcmOpen key nonce aad c t out).2 = out)) ∧
      (∀ nonce aad c t out, AllowedData aad → AllowedText c →
        ((cryptoAesGcmOpen key nonce aad c t out).1 = true ↔ t = tag (cryptoAesEncryptBlock ctx) nonce aad c)) ∧
      ∀ counter x, ∃ y, cryptoAesCtr key counter x = some y ∧ cryptoAesCtr key counter y = some x := by
  obtain ⟨ctx, hctx⟩ := cryptoAesInit_of_length hkey
  refine ⟨ctx, hctx, fun nonce aad p haad hp => cryptoAesGcmSeal_eq hctx nonce haad hp,
    fun nonce aad p c t out hseal => cryptoAesGcmOpen_seal hctx nonce hseal out, ?_, ?_, ?_⟩
  · intro nonce aad c t out
    refine ⟨(cryptoAesGcmOpen_fst_iff hctx nonce aad c t out).trans (exists_seal_iff hctx nonce aad c t).symm, ?_⟩
    intro hfail
    have htag := mt (cryptoAesGcmOpen_fst_iff hctx nonce aad c t out).mpr (Bool.eq_false_iff.mp hfail)
    rw [cryptoAesGcmOpen_eq hctx, if_neg htag]
  · intro nonce aad c t out haad hc
    dsimp only [AllowedData] at haad
    dsimp only [AllowedText] at hc
    have haad' : aad.length ≤ uint64Max / 8 := by
      rw [uint64Max]
      omega
    have hc' : c.length ≤ uint64Max / 8 := by
      rw [uint64Max]
      omega
    have hbuild := cryptoAesGcmBuildTag_eq ctx nonce haad' hc'
    rw [cryptoAesGcmOpen_fst_iff hctx, hbuild, some.injEq, eq_comm]
  · intro counter x
    refine ⟨streamLoop ctx cryptoAesIncrementCounter counter x, by rw [cryptoAesCtr, hctx]; rfl, ?_⟩
    rw [cryptoAesCtr, hctx]
    exact congrArg some (streamLoop_streamLoop ctx _ counter x)

theorem aesGcm_correct_zero_key : ∃ ctx, cryptoAesInit (List.replicate 16 0) = some ctx ∧
      cryptoAesGcmSeal (List.replicate 16 0) ⟨List.replicate 12 0, rfl⟩ [7] [1, 2, 3] =
        some (encrypt (cryptoAesEncryptBlock ctx) ⟨List.replicate 12 0, rfl⟩ [7] [1, 2, 3]) := by
  obtain ⟨ctx, hctx, hseal, _⟩ := aesGcm_correct (List.replicate 16 0) (Or.inl rfl)
  refine ⟨ctx, hctx, hseal _ _ _ ?_ ?_⟩
  · rw [AllowedData]
    decide
  · rw [AllowedText]
    decide

end Tablo.CryptoAes
