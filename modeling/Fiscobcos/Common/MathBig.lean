import Fiscobcos.Lib.Numerals
import Mathlib.NumberTheory.Multiplicity

/-! # Padded numbers and powers (common/math/big.go:130-219)

`PaddedBigBytes` fills a buffer word by word. `Exp` squares and multiplies along the words of its
exponent, and squares in the place of its base. -/

namespace Fiscobcos.MathBig
open Numerals List

def wordBytes : ℕ := 8

def bits (n : ℕ) : List ℕ := Nat.digits (2 ^ 64) n

def readWord : ℕ → ℕ → ℕ × Bytes → ℕ × Bytes
  | 0, _, s => s
  | j + 1, d, (i, buf) =>
    if i = 0 then (i, buf) else readWord j (d / 256) (i - 1, buf.set (i - 1) (lowByte d))

def readBits (bigint : ℕ) (buf : Bytes) : Bytes :=
  ((bits bigint).foldl (fun s d => readWord wordBytes d s) (buf.length, buf)).2

def paddedBigBytes (bigint n : ℕ) : Bytes :=
  if bitLen bigint / 8 ≥ n then minBytes bigint else readBits bigint (List.replicate n 0)

theorem beBytes_add (a b v : ℕ) : beBytes (a + b) v = beBytes a (v / 256 ^ b) ++ beBytes b v := by
  induction b generalizing v with
  | zero => simp [beBytes]
  | succ b ih =>
    rw [← Nat.add_assoc, beBytes, beBytes, ih, Nat.div_div_eq_div_mul, append_assoc, pow_succ']

theorem beBytes_zero (n : ℕ) : beBytes n 0 = replicate n 0 := by
  induction n with
  | zero => rfl
  | succ n ih => rw [beBytes, ih, replicate_succ']; rfl

theorem beBytes_mod (n v : ℕ) : beBytes n (v % 256 ^ n) = beBytes n v := by
  apply beVal_inj
  · simp
  · rw [beVal_beBytes, beVal_beBytes, Nat.mod_mod]

theorem readWord_eq (j d : ℕ) (pre tail : Bytes) : readWord j d (pre.length, pre ++ tail) =
      (pre.length - j, pre.take (pre.length - j) ++ (beBytes (min j pre.length) d ++ tail)) := by
  induction j generalizing d pre tail with
  | zero => simp [readWord, beBytes]
  | succ j ih =>
    cases pre using reverseRecOn with
    | nil => simp [readWord, beBytes]
    | append_singleton pre b =>
      have hset : (pre ++ [b] ++ tail).set pre.length (lowByte d) = pre ++ (lowByte d :: tail) := by
        simp
      have hmin : min (j + 1) (pre.length + 1) = min j pre.length + 1 := by omega
      have hsub : pre.length + 1 - (j + 1) = pre.length - j := by omega
      rw [readWord, length_append, length_singleton, if_neg (by omega),
        Nat.add_sub_cancel, hset, ih, hmin, hsub, beBytes, take_append_of_le_length (by omega)]
      simp

theorem foldl_readWord (ws : List ℕ) (hws : ∀ w ∈ ws, w < 2 ^ 64) (i : ℕ) (tail : Bytes) :
    (ws.foldl (fun s d => readWord wordBytes d s) (i, replicate i 0 ++ tail)).2 =
      beBytes i (Nat.ofDigits (2 ^ 64) ws) ++ tail := by
  induction ws generalizing i tail with
  | nil => simp [beBytes_zero]
  | cons w ws ih =>
    have hw := hws w mem_cons_self
    have hword := readWord_eq wordBytes w (replicate i 0) tail
    rw [length_replicate, take_replicate, min_eq_left (Nat.sub_le _ _)] at hword
    rw [foldl_cons, hword, ih (fun v hv => hws v (mem_cons_of_mem _ hv)),
      ← append_assoc, Nat.ofDigits_cons]
    congr 1
    have h256 : (256 : ℕ) ^ 8 = 2 ^ 64 := by norm_num
    by_cases hi : i ≤ 8
    · have h0 : i - wordBytes = 0 := by unfold wordBytes; omega
      have hm : min wordBytes i = i := by unfold wordBytes; omega
      rw [h0, hm, beBytes, nil_append, ← beBytes_mod i (w + _)]
      have hdvd : 256 ^ i ∣ 2 ^ 64 * Nat.ofDigits (2 ^ 64) ws := by
        rw [← h256]
        exact (pow_dvd_pow 256 hi).mul_right _
      rw [Nat.add_mod, Nat.mod_eq_zero_of_dvd hdvd, Nat.add_zero, Nat.mod_mod, beBytes_mod]
    · have h8 : i = (i - wordBytes) + 8 := by unfold wordBytes; omega
      have hm : min wordBytes i = 8 := by unfold wordBytes; omega
      have hdiv : (w + 2 ^ 64 * Nat.ofDigits (2 ^ 64) ws) / 256 ^ 8 = Nat.ofDigits (2 ^ 64) ws := by
        rw [h256, Nat.add_mul_div_left _ _ (by norm_num), Nat.div_eq_of_lt hw, Nat.zero_add]
      have hlow : beBytes 8 (w + 2 ^ 64 * Nat.ofDigits (2 ^ 64) ws) = beBytes 8 w := by
        rw [← beBytes_mod 8 (w + _), h256, Nat.add_mul_mod_self_left, ← h256, beBytes_mod]
      rw [hm]
      conv_rhs => rw [h8, beBytes_add, hdiv, hlow]

theorem readBits_zeros (bigint n : ℕ) : readBits bigint (replicate n 0) = beBytes n bigint := by
  have hfold := foldl_readWord (bits bigint) (fun w hw => Nat.digits_lt_base (by norm_num) hw) n []
  rw [append_nil, append_nil, bits, Nat.ofDigits_digits] at hfold
  rw [readBits, length_replicate]
  exact hfold

theorem paddedBigBytes_eq {bigint n : ℕ} (h : bigint < 256 ^ n) :
    paddedBigBytes bigint n = beBytes n bigint := by
  unfold paddedBigBytes
  split_ifs with hlen
  · have hle := (byteLen_le bigint n).mpr h
    have hge : n ≤ byteLen bigint := by
      unfold byteLen
      omega
    rw [minBytes, Nat.le_antisymm hle hge]
  · exact readBits_zeros bigint n

def u256 (x : ℤ) : ℤ := x % 2 ^ 256

/-- The inner loop with `i` rounds to go, on the result and the base. -/
def expWord : ℕ → ℕ → ℤ × ℤ → ℤ × ℤ
  | 0, _, s => s
  | i + 1, word, (result, base) =>
    expWord i (word / 2) (if word % 2 = 1 then u256 (result * base) else result, u256 (base * base))

/-- `Exp` on the numbers behind its pointers, which may be one. The words are those of the
exponent before the loop: a single word has been read by then, and the square of more words
is made in fresh memory. -/
def exp (wordBits : ℕ) (heap : ℕ → ℤ) (base exponent : ℕ) : ℤ × (ℕ → ℤ) :=
  match (Nat.digits (2 ^ wordBits) (heap exponent).natAbs).foldl
    (fun s word => expWord wordBits word s) (1, heap base) with
  | (result, base') => (result, Function.update heap base base')

theorem u256_congr {x y : ℤ} (h : x ≡ y [ZMOD 2 ^ 256]) : u256 x = u256 y := h

theorem u256_u256 (x : ℤ) : u256 (u256 x) = u256 x := Int.emod_emod _ _

theorem u256_modEq (x : ℤ) : u256 x ≡ x [ZMOD 2 ^ 256] := Int.mod_modEq _ _

theorem expWord_eq (i word : ℕ) (hword : word < 2 ^ i) (r b : ℤ) (hr : u256 r = r) :
    expWord i word (r, b) = (u256 (r * b ^ word), if i = 0 then b else u256 (b ^ 2 ^ i)) := by
  induction i generalizing word r b with
  | zero =>
    obtain rfl : word = 0 := by omega
    rw [expWord, pow_zero, mul_one, hr, if_pos rfl]
  | succ i ih =>
    have hsquare : u256 (b * b) ≡ b ^ 2 [ZMOD 2 ^ 256] := by
      rw [pow_two]
      exact u256_modEq _
    have hhalf : u256 (b * b) ^ (word / 2) ≡ b ^ (2 * (word / 2)) [ZMOD 2 ^ 256] := by
      rw [pow_mul]
      exact hsquare.pow _
    rw [expWord, if_neg i.succ_ne_zero]
    rw [ih (word / 2) (by omega) _ _ (by split_ifs; exacts [u256_u256 _, hr])]
    refine Prod.ext (u256_congr ?_) ?_
    · split_ifs with hodd
      · have hsplit : r * b ^ word = r * b * b ^ (2 * (word / 2)) := by
          conv_lhs => rw [← Nat.div_add_mod word 2, hodd, pow_succ]
          ring
        rw [hsplit]
        exact (u256_modEq _).mul hhalf
      · have hsplit : 2 * (word / 2) = word := by omega
        rw [hsplit] at hhalf
        exact hhalf.mul_left r
    · dsimp only
      split_ifs with hi
      · rw [hi, zero_add, pow_one, pow_two]
      · have hsucc : b ^ 2 ^ (i + 1) = (b ^ 2) ^ 2 ^ i := by rw [← pow_mul, ← pow_succ']
        rw [hsucc]
        exact u256_congr (hsquare.pow _)

theorem foldl_expWord {w : ℕ} (hw : w ≠ 0) (ws : List ℕ) (hws : ∀ d ∈ ws, d < 2 ^ w) (r b : ℤ)
    (hr : u256 r = r) : ws.foldl (fun s word => expWord w word s) (r, b) =
      (u256 (r * b ^ Nat.ofDigits (2 ^ w) ws),
        if ws = [] then b else u256 (b ^ 2 ^ (w * ws.length))) := by
  induction ws generalizing r b with
  | nil => simp [hr]
  | cons d ws ih =>
    have hpow : ∀ n, u256 (b ^ 2 ^ w) ^ n ≡ b ^ (2 ^ w * n) [ZMOD 2 ^ 256] := by
      intro n
      rw [pow_mul]
      exact (u256_modEq _).pow n
    rw [foldl_cons, expWord_eq w d (hws d mem_cons_self) r b hr, if_neg hw,
      ih (fun v hv => hws v (mem_cons_of_mem _ hv)) _ _ (u256_u256 _), if_neg (cons_ne_nil _ _)]
    refine Prod.ext (u256_congr ?_) ?_
    · rw [Nat.ofDigits_cons, pow_add, ← mul_assoc]
      exact (u256_modEq _).mul (hpow _)
    · dsimp only
      split_ifs with hnil
      · rw [hnil, length_singleton, mul_one]
      · apply u256_congr
        rw [length_cons, mul_add, mul_one, add_comm, pow_add]
        exact hpow _

/-- The base is squared so often that only 0 and 1 come back. -/
theorem u256_pow_eq_self_iff {m : ℕ} (hm : 8 ≤ m) (b : ℤ) :
    u256 (b ^ 2 ^ m) = b ↔ b = 0 ∨ b = 1 := by
  have hexp : 2 ^ 8 ≤ 2 ^ m := Nat.pow_le_pow_right two_pos hm
  constructor
  · intro h
    have hmod : u256 (b ^ 2 ^ m) ≡ b ^ 2 ^ m [ZMOD 2 ^ 256] := u256_modEq _
    have hlt : u256 (b ^ 2 ^ m) < 2 ^ 256 := Int.emod_lt_of_pos _ (by norm_num)
    have hnonneg : 0 ≤ u256 (b ^ 2 ^ m) := Int.emod_nonneg _ (by norm_num)
    rw [h] at hmod hlt hnonneg
    by_cases heven : 2 ∣ b
    · have hdvd : (2 : ℤ) ^ 256 ∣ b ^ 2 ^ m :=
        (pow_dvd_pow 2 hexp).trans (pow_dvd_pow_of_dvd heven _)
      exact .inl (h.symm.trans (Int.emod_eq_zero_of_dvd hdvd))
    · obtain ⟨n, hn⟩ : ∃ n, 2 ^ m = n + 1 := ⟨2 ^ m - 1, by omega⟩
      have hodd : ¬ (2 : ℤ) ∣ n := by
        have hpow : 2 ∣ 2 ^ m := dvd_pow_self 2 (by omega)
        omega
      have hprod : (2 : ℤ) ^ 256 ∣ b * (b ^ n - 1 ^ n) := by
        have hsplit : b ^ (n + 1) - b = b * (b ^ n - 1 ^ n) := by ring
        rw [← hsplit, ← hn]
        exact hmod.dvd
      have hcop : IsCoprime ((2 : ℤ) ^ 256) b :=
        (Int.prime_two.coprime_iff_not_dvd.mpr heven).pow_left
      have hle := pow_dvd_iff_le_emultiplicity.mp (hcop.dvd_of_dvd_mul_left hprod)
      rw [emultiplicity_pow_sub_pow_of_prime Int.prime_two (by omega) heven hodd] at hle
      have hone := pow_dvd_iff_le_emultiplicity.mpr hle
      exact .inr (by omega)
  · rintro (rfl | rfl)
    · rw [zero_pow (by positivity)]
      rfl
    · rw [one_pow]
      rfl

theorem exp_exact (w : ℕ) (hw : w = 32 ∨ w = 64) (heap : ℕ → ℤ) (base exponent : ℕ)
    (he : 0 ≤ heap exponent) :
    (exp w heap base exponent).1 = heap base ^ (heap exponent).toNat % 2 ^ 256 ∧
    ((exp w heap base exponent).2 base = heap base ∧
        (exp w heap base exponent).2 exponent = heap exponent ↔
      heap exponent = 0 ∨ heap base = 0 ∨ heap base = 1) ∧
    ∀ p, p ≠ base → (exp w heap base exponent).2 p = heap p := by
  have hbits : ∀ d ∈ Nat.digits (2 ^ w) (heap exponent).natAbs, d < 2 ^ w := fun d hd =>
    Nat.digits_lt_base (Nat.one_lt_two_pow (by omega)) hd
  have hfold := foldl_expWord (by omega) _ hbits 1 (heap base) rfl
  have hother : ∀ p, p ≠ base → (exp w heap base exponent).2 p = heap p :=
    fun p hp => Function.update_of_ne hp _ _
  have hbase : (exp w heap base exponent).2 base = heap base ↔
      heap exponent = 0 ∨ heap base = 0 ∨ heap base = 1 := by
    unfold exp
    rw [hfold]
    dsimp only
    rw [Function.update_self]
    split_ifs with hnil
    · rw [Nat.digits_eq_nil_iff_eq_zero, Int.natAbs_eq_zero] at hnil
      simp [hnil]
    · have hlen := Nat.le_mul_of_pos_right w (length_pos_iff.mpr hnil)
      rw [Nat.digits_eq_nil_iff_eq_zero, Int.natAbs_eq_zero] at hnil
      rw [u256_pow_eq_self_iff (by omega), or_iff_right hnil]
  refine ⟨?_, ?_, hother⟩
  · have habs : (heap exponent).natAbs = (heap exponent).toNat := by omega
    unfold exp
    rw [hfold, Nat.ofDigits_digits, one_mul, habs]
    rfl
  · rw [← hbase]
    refine ⟨And.left, fun h => ⟨h, ?_⟩⟩
    by_cases heq : exponent = base
    · subst heq
      exact h
    · exact hother exponent heq

/-- 2 to the power 1: the base is 0 after the call. -/
theorem exp_overwrites_base : (exp 64 (fun p => if p = 0 then 2 else 1) 0 1).1 = 2 ∧
      (exp 64 (fun p => if p = 0 then 2 else 1) 0 1).2 0 = 0 := by
  have hbits : Nat.digits (2 ^ 64) 1 = [1] := by norm_num
  have hrun : expWord 64 1 (1, 2) = (2, 0) := by decide +kernel
  simp only [exp, if_true, one_ne_zero, if_false, Int.natAbs_one, hbits, foldl_cons, foldl_nil, hrun,
    Function.update_self, and_self]

theorem exp_exact_one :
    (exp 64 (fun _ => 1) 0 1).1 = 1 ^ 1 % 2 ^ 256 ∧ (exp 64 (fun _ => 1) 0 1).2 0 = 1 := by
  have h := exp_exact 64 (.inr rfl) (fun _ => 1) 0 1 zero_le_one
  exact ⟨h.1, (h.2.1.mpr (.inr (.inr rfl))).1⟩

end Fiscobcos.MathBig
