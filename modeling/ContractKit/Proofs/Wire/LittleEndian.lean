import ContractKit.Bytes.LittleEndian
import Mathlib.Algebra.Order.Ring.Nat

/-!
# `Proofs/Wire/LittleEndian.lean`: integer formats lose nothing

A format and the byte strings of its width are in bijection, and `Format.encode?_eq_some_iff` is
that one fact: a number is written as a string exactly when the string has the width of the format
and reads back as the number. The base-256 digits come first, without a sign; the sign is one
subtraction of the whole range, so it costs one case split and no induction of its own.
-/

set_option autoImplicit false

namespace ContractKit.LittleEndian

/-! ## Digits without a sign -/

theorem ofDigits_digits : ∀ {width n : Nat}, n < 256 ^ width → ofDigits (digits width n) = n
  | 0, n, h => by
    have : n = 0 := by simpa using h
    rw [this]; rfl
  | width + 1, n, h => by
    have hq : n / 256 < 256 ^ width := by
      rw [Nat.div_lt_iff_lt_mul (by decide)]
      rwa [pow_succ] at h
    have hb : (UInt8.ofNat (n % 256)).toNat = n % 256 := by simp
    rw [digits, ofDigits, ofDigits_digits hq, hb]
    exact Nat.mod_add_div n 256

theorem ofDigits_lt : ∀ (data : Bytes), ofDigits data < 256 ^ data.length
  | [] => by simp [ofDigits]
  | b :: rest => by
    have hb := b.toNat_lt
    have hrest := ofDigits_lt rest
    rw [ofDigits, List.length_cons, pow_succ]
    omega

theorem digits_ofDigits : ∀ (data : Bytes), digits data.length (ofDigits data) = data
  | [] => rfl
  | b :: rest => by
    have hb := b.toNat_lt
    have hlow : (b.toNat + 256 * ofDigits rest) % 256 = b.toNat := by omega
    have hhigh : (b.toNat + 256 * ofDigits rest) / 256 = ofDigits rest := by omega
    rw [List.length_cons, ofDigits, digits, hlow, hhigh, digits_ofDigits rest]
    simp

/-! ## Formats -/

/-- Bits and bytes count the same strings. -/
theorem two_pow_eight_mul (width : Nat) : 2 ^ (8 * width) = 256 ^ width := by
  rw [Nat.pow_mul]

namespace Format

/-- The range of a format is as long as the byte strings of its width are many, and starts at zero
or at half that length below it. -/
theorem range_cases (f : Format) :
    (f.lower = 0 ∧ f.upper = (256 ^ f.width : Nat) ∧ (f.signed = false ∨ f.width = 0)) ∨
      ∃ half : Nat, f.signed = true ∧ 256 ^ f.width = 2 * half ∧ f.lower = -(half : Int) ∧
        f.upper = half := by
  have hpow := two_pow_eight_mul f.width
  by_cases hs : f.signed = true ∧ f.width ≠ 0
  · right
    refine ⟨2 ^ (8 * f.width - 1), hs.1, ?_, ?_, ?_⟩
    · rw [← hpow, ← pow_succ']
      congr 1
      omega
    · simp [lower, hs.1, hs.2]
    · simp [upper, hs.1, hs.2]
  · left
    have hc : (f.signed && f.width != 0) = false := by
      rw [Bool.eq_false_iff]
      intro h
      exact hs (by simpa using h)
    refine ⟨by simp [lower, hc], by simp [upper, hc, hpow], ?_⟩
    rw [Classical.not_and_iff_not_or_not] at hs
    simpa using hs

theorem decode_digits {f : Format} {n : Int} (h : f.Holds n) :
    f.decode (digits f.width (n % (256 ^ f.width : Nat)).toNat) = n := by
  obtain ⟨hlow, hhigh⟩ := h
  have hpos : 0 < 256 ^ f.width := Nat.pow_pos (by decide)
  generalize hM : 256 ^ f.width = M at *
  have hvalue : ofDigits (digits f.width (n % (M : Int)).toNat) = (n % (M : Int)).toNat := by
    apply ofDigits_digits
    have := Int.emod_lt_of_pos n (show (0 : Int) < M by omega)
    omega
  simp only [decode, length_digits, hvalue, Nat.pow_eq, hM]
  -- an unsigned number is its own remainder; a signed one is that or a power less
  rcases f.range_cases with ⟨hl, hu, hs⟩ | ⟨half, hs, hh, hl, hu⟩
  · rw [hM] at hu
    have hn : n % (M : Int) = n := Int.emod_eq_of_lt (by omega) (by omega)
    rw [hn, if_neg]
    · omega
    · rcases hs with hs | hs
      · simp [hs]
      · -- a format of no bytes holds zero alone
        rw [hs] at hM
        simp only [Bool.and_eq_true, decide_eq_true_eq, not_and]
        intro _
        omega
  · rw [hM] at hh
    rcases Int.lt_or_le n 0 with hneg | hnn
    · have hn : n % (M : Int) = n + M := by
        rw [← Int.add_emod_right]
        exact Int.emod_eq_of_lt (by omega) (by omega)
      rw [hn, if_pos]
      · omega
      · simp only [hs, Bool.true_and, decide_eq_true_eq]
        omega
    · have hn : n % (M : Int) = n := Int.emod_eq_of_lt (by omega) (by omega)
      rw [hn, if_neg]
      · omega
      · simp only [hs, Bool.true_and, decide_eq_true_eq]
        omega

/-- What a string of the right width reads as is in range, and differs from the value of the digits
by the whole range at most once. -/
theorem holds_decode {f : Format} {data : Bytes} (h : data.length = f.width) :
    f.Holds (f.decode data) ∧
      (f.decode data % (256 ^ f.width : Nat)).toNat = ofDigits data := by
  have hlt := ofDigits_lt data
  rw [h] at hlt
  simp only [decode, h, Nat.pow_eq]
  generalize ofDigits data = value at *
  generalize hM : 256 ^ f.width = M at *
  have hself : ((value : Int) % (M : Int)).toNat = value := by
    rw [Int.emod_eq_of_lt (by omega) (by omega)]
    omega
  rcases f.range_cases with ⟨hl, hu, hs⟩ | ⟨half, hs, hh, hl, hu⟩
  · rw [hM] at hu
    have hplain : ¬ (f.signed && decide (M ≤ 2 * value)) = true := by
      rcases hs with hs | hs
      · simp [hs]
      · rw [hs] at hM
        simp only [Bool.and_eq_true, decide_eq_true_eq, not_and]
        intro _
        omega
    rw [if_neg hplain]
    exact ⟨⟨by omega, by omega⟩, hself⟩
  · rw [hM] at hh
    by_cases hbig : M ≤ 2 * value
    · rw [if_pos (by simp [hs, hbig])]
      refine ⟨⟨by omega, by omega⟩, ?_⟩
      rw [Int.sub_emod_right]
      exact hself
    · rw [if_neg (by simp [hbig])]
      exact ⟨⟨by omega, by omega⟩, hself⟩

/-- **A format and the strings of its width are in bijection.** Signed formats are in two's complement,
so each string of the width stands for a number of the range. -/
theorem encode?_eq_some_iff {f : Format} {n : Int} {data : Bytes} :
    f.encode? n = some data ↔ data.length = f.width ∧ f.decode data = n := by
  constructor
  · intro h
    unfold encode? at h
    split at h
    · rename_i hn
      cases h
      exact ⟨length_digits _ _, decode_digits hn⟩
    · cases h
  · rintro ⟨hlen, rfl⟩
    obtain ⟨hholds, hmod⟩ := holds_decode hlen
    have hdigits : digits f.width (ofDigits data) = data := by
      rw [← hlen, digits_ofDigits]
    rw [encode?, if_pos hholds, Option.some.injEq]
    exact (congrArg (digits f.width) hmod).trans hdigits

/-- An unsigned format reads the value of the digits. -/
theorem decode_unsigned (width : Nat) (data : Bytes) :
    (⟨width, false⟩ : Format).decode data = ofDigits data := by
  simp [decode]

theorem holds_unsigned {width : Nat} {n : Nat} :
    (⟨width, false⟩ : Format).Holds n ↔ n < 256 ^ width := by
  have hpow := two_pow_eight_mul width
  simp only [Holds, lower, upper, Bool.false_and, Bool.false_eq_true, if_false, Nat.pow_eq, hpow]
  omega

end Format

end ContractKit.LittleEndian
