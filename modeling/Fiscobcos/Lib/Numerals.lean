import Mathlib.Tactic

/-! # Bytes and base-256 numerals

Values of big-endian byte strings, the fixed-width writer, and the shortest form of a number. -/

namespace Fiscobcos.Numerals
open List

abbrev Byte := Fin 256
abbrev Bytes := List Byte

-- Literals of type `Byte` and membership in lists of strings take these instances in every
-- module.
instance byteNeZero : NeZero (256 : ℕ) := ⟨by decide⟩

instance bytesLawfulBEq : LawfulBEq Bytes := inferInstance

def lowByte (v : ℕ) : Byte := ⟨v % 256, Nat.mod_lt _ (by norm_num)⟩

@[simp] theorem lowByte_val (v : ℕ) : (lowByte v).val = v % 256 := rfl

theorem lowByte_of_byte (b : Byte) : lowByte b.val = b := Fin.ext (Nat.mod_eq_of_lt b.isLt)

def beVal (bs : Bytes) : ℕ := bs.foldl (fun acc b => 256 * acc + b.val) 0

@[simp] theorem beVal_nil : beVal [] = 0 := rfl

theorem beVal_concat (bs : Bytes) (b : Byte) : beVal (bs ++ [b]) = 256 * beVal bs + b.val := by
  simp [beVal]

theorem beVal_append (as bs : Bytes) :
    beVal (as ++ bs) = beVal as * 256 ^ bs.length + beVal bs := by
  induction bs using reverseRecOn with
  | nil => simp
  | append_singleton bs b ih =>
    rw [← append_assoc, beVal_concat, beVal_concat, ih]
    simp only [length_append, length_singleton, pow_succ]
    ring

theorem beVal_cons (b : Byte) (bs : Bytes) :
    beVal (b :: bs) = b.val * 256 ^ bs.length + beVal bs := by
  have h := beVal_append [b] bs
  simpa [beVal] using h

theorem beVal_lt (bs : Bytes) : beVal bs < 256 ^ bs.length := by
  induction bs using reverseRecOn with
  | nil => simp
  | append_singleton bs b ih =>
    rw [beVal_concat, length_append, length_singleton, pow_succ]
    have hb := b.isLt
    omega

/-- The `n` low bytes of `v`, most significant first. -/
def beBytes : ℕ → ℕ → Bytes
  | 0, _ => []
  | n + 1, v => beBytes n (v / 256) ++ [lowByte v]

@[simp] theorem beBytes_length (n v : ℕ) : (beBytes n v).length = n := by
  induction n generalizing v with
  | zero => rfl
  | succ n ih => simp [beBytes, ih]

theorem beVal_beBytes (n v : ℕ) : beVal (beBytes n v) = v % 256 ^ n := by
  induction n generalizing v with
  | zero => simp [beBytes, Nat.mod_one]
  | succ n ih =>
    rw [beBytes, beVal_concat, ih, lowByte_val, pow_succ', Nat.mod_mul]
    omega

theorem beVal_beBytes_of_lt (n v : ℕ) (h : v < 256 ^ n) : beVal (beBytes n v) = v := by
  rw [beVal_beBytes, Nat.mod_eq_of_lt h]

theorem beBytes_beVal (bs : Bytes) : beBytes bs.length (beVal bs) = bs := by
  induction bs using reverseRecOn with
  | nil => rfl
  | append_singleton bs b ih =>
    have hb := b.isLt
    have hdiv : (256 * beVal bs + b.val) / 256 = beVal bs := by omega
    have hlow : lowByte (256 * beVal bs + b.val) = b := Fin.ext (by simp only [lowByte_val]; omega)
    rw [length_append, length_singleton, beVal_concat, beBytes, hdiv, hlow, ih]

theorem beVal_inj (as bs : Bytes) (hlen : as.length = bs.length) (h : beVal as = beVal bs) :
    as = bs := by
  rw [← beBytes_beVal as, ← beBytes_beVal bs, hlen, h]

def bitLen (v : ℕ) : ℕ := if v = 0 then 0 else Nat.log2 v + 1

theorem bitLen_le (v k : ℕ) : bitLen v ≤ k ↔ v < 2 ^ k := by
  by_cases hv : v = 0
  · simp [bitLen, hv]
  · have h := Nat.log2_lt (k := k) hv
    simp only [bitLen, hv, ite_false]
    omega

def byteLen (v : ℕ) : ℕ := (bitLen v + 7) / 8

theorem byteLen_le (v k : ℕ) : byteLen v ≤ k ↔ v < 256 ^ k := by
  have hp : (256 : ℕ) ^ k = 2 ^ (8 * k) := by rw [pow_mul]; norm_num
  rw [hp, ← bitLen_le]
  simp only [byteLen]
  omega

theorem lt_pow_byteLen (v : ℕ) : v < 256 ^ byteLen v := (byteLen_le v _).mp le_rfl

theorem byteLen_eq_zero (v : ℕ) : byteLen v = 0 ↔ v = 0 := by
  have h := byteLen_le v 0
  simp only [pow_zero] at h
  omega

/-- Shortest big-endian form: no leading zero byte, `0` is the empty string. -/
def minBytes (v : ℕ) : Bytes := beBytes (byteLen v) v

@[simp] theorem minBytes_length (v : ℕ) : (minBytes v).length = byteLen v := beBytes_length _ _

theorem beVal_minBytes (v : ℕ) : beVal (minBytes v) = v :=
  beVal_beBytes_of_lt _ _ (lt_pow_byteLen v)

theorem minBytes_inj {v w : ℕ} (h : minBytes v = minBytes w) : v = w := by
  have h1 := congrArg beVal h
  rwa [beVal_minBytes, beVal_minBytes] at h1

theorem minBytes_eq_nil (v : ℕ) : minBytes v = [] ↔ v = 0 := by
  rw [← length_eq_zero_iff, minBytes_length, byteLen_eq_zero]

def NoLeadingZero (bs : Bytes) : Prop := bs.head? ≠ some 0

theorem byteLen_beVal (bs : Bytes) (h : NoLeadingZero bs) : byteLen (beVal bs) = bs.length := by
  cases bs with
  | nil => rfl
  | cons b bs =>
    have hb : b.val ≠ 0 := by
      intro h0
      have hz : b = 0 := Fin.ext h0
      exact h (by rw [hz]; rfl)
    have hle := (byteLen_le (beVal (b :: bs)) (b :: bs).length).mpr (beVal_lt _)
    have hlt : ¬ byteLen (beVal (b :: bs)) ≤ bs.length := by
      rw [byteLen_le, beVal_cons]
      have hmul : 256 ^ bs.length ≤ b.val * 256 ^ bs.length := Nat.le_mul_of_pos_left _ (by omega)
      omega
    simp only [length_cons] at hle ⊢
    omega

theorem minBytes_beVal (bs : Bytes) (h : NoLeadingZero bs) : minBytes (beVal bs) = bs := by
  rw [minBytes, byteLen_beVal bs h, beBytes_beVal]

theorem minBytes_noLeadingZero (v : ℕ) : NoLeadingZero (minBytes v) := by
  intro hz
  cases hm : minBytes v with
  | nil => simp [hm] at hz
  | cons b bs =>
    have hb : b = 0 := by simpa [hm] using hz
    have hval := beVal_minBytes v
    have hlen := minBytes_length v
    rw [hm, beVal_cons, hb] at hval
    rw [hm, length_cons] at hlen
    -- a leading zero would leave the value within one byte less
    have hlt : v < 256 ^ bs.length := by
      rw [← hval]
      simpa using beVal_lt bs
    have hle := (byteLen_le v bs.length).mpr hlt
    omega

theorem minBytes_of_byte (b : Byte) (h : b ≠ 0) : minBytes b.val = [b] := by
  have hv : beVal [b] = b.val := by simp [beVal]
  rw [← hv]
  exact minBytes_beVal [b] (by simpa [NoLeadingZero] using h)

theorem replicate_minBytes (bs : Bytes) :
    replicate (bs.length - byteLen (beVal bs)) 0 ++ minBytes (beVal bs) = bs := by
  have hle := (byteLen_le (beVal bs) bs.length).mpr (beVal_lt bs)
  apply beVal_inj
  · simp only [length_append, length_replicate, minBytes_length]
    omega
  · rw [beVal_append, beVal_minBytes]
    have hz : ∀ k, beVal (replicate k 0) = 0 := by
      intro k
      induction k with
      | zero => rfl
      | succ k ih => rw [replicate_succ', beVal_concat, ih]; rfl
    simp [hz]

end Fiscobcos.Numerals
