import Mathlib.Data.Nat.Bitwise
import Fiscobcos.Lib.Numerals

/-! # Byte strings as bit vectors

Bit `i` is bit `7 - i % 8` of byte `i / 8`. Past the end all bits are zero. -/

namespace Fiscobcos.Bitset
open List

open Numerals

def bitAt (bs : Bytes) (i : ℕ) : Bool := (bs.getD (i / 8) 0).val.testBit (7 - i % 8)

theorem bitAt_of_le {bs : Bytes} {i : ℕ} (h : 8 * bs.length ≤ i) : bitAt bs i = false := by
  have hnone : bs[i / 8]? = none := getElem?_eq_none (by omega)
  rw [bitAt, getD_eq_getElem?_getD, hnone]
  exact Nat.zero_testBit _

theorem and_shiftLeft_ne_zero (n k : ℕ) : n &&& 1 <<< k ≠ 0 ↔ n.testBit k = true := by
  rw [Nat.shiftLeft_eq, Nat.one_mul, Nat.and_two_pow]
  cases n.testBit k with
  | false => simp
  | true => simp

def byteAnd (a b : Byte) : Byte := lowByte (a.val &&& b.val)

def byteOr (a b : Byte) : Byte := lowByte (a.val ||| b.val)

theorem lowByte_testBit {v k : ℕ} (hk : k < 8) : (lowByte v).val.testBit k = v.testBit k := by
  have h256 : 256 = 2 ^ 8 := by norm_num
  rw [lowByte_val, h256, Nat.testBit_mod_two_pow]
  simp [hk]

theorem byteAnd_testBit {a b : Byte} {k : ℕ} (hk : k < 8) :
    (byteAnd a b).val.testBit k = (a.val.testBit k && b.val.testBit k) := by
  rw [byteAnd, lowByte_testBit hk, Nat.testBit_land]

theorem byteOr_testBit {a b : Byte} {k : ℕ} (hk : k < 8) :
    (byteOr a b).val.testBit k = (a.val.testBit k || b.val.testBit k) := by
  rw [byteOr, lowByte_testBit hk, Nat.testBit_lor]

theorem eq_zero_of_testBit {b : Byte} (h : ∀ k < 8, b.val.testBit k = false) : b = 0 := by
  apply Fin.ext
  apply Nat.eq_of_testBit_eq
  intro k
  rw [Fin.val_zero, Nat.zero_testBit]
  by_cases hk : k < 8
  · exact h k hk
  · apply Nat.testBit_lt_two_pow
    calc b.val < 2 ^ 8 := b.isLt
      _ ≤ 2 ^ k := Nat.pow_le_pow_right (by norm_num) (by omega)

def zipBytes (op : Byte → Byte → Byte) (dst a b : Bytes) : Bytes :=
  List.zipWith op a b ++ dst.drop (min a.length b.length)

theorem zipBytes_length {op : Byte → Byte → Byte} {a b : Bytes} :
    (zipBytes op a a b).length = a.length := by
  rw [zipBytes, length_append, length_zipWith, length_drop]
  omega

theorem bitAt_zipBytes {op : Byte → Byte → Byte} {f : Bool → Bool → Bool} {a b : Bytes}
    (hop : ∀ x y k, k < 8 → (op x y).val.testBit k = f (x.val.testBit k) (y.val.testBit k))
    (hf : f false false = false) (hlen : a.length = b.length) (i : ℕ) :
    bitAt (zipBytes op a a b) i = f (bitAt a i) (bitAt b i) := by
  by_cases hi : i < 8 * a.length
  · have ha : i / 8 < a.length := by omega
    have hb : i / 8 < b.length := by omega
    have hdrop : a.drop (min a.length b.length) = [] :=
      drop_of_length_le (by omega)
    have hget : (zipWith op a b).getD (i / 8) 0 = op (a.getD (i / 8) 0) (b.getD (i / 8) 0) := by
      rw [getD_eq_getElem?_getD, getD_eq_getElem?_getD, getD_eq_getElem?_getD,
        getElem?_zipWith, getElem?_eq_getElem ha, getElem?_eq_getElem hb]
      rfl
    rw [bitAt, zipBytes, hdrop, append_nil, hget, hop _ _ _ (by omega)]
    rfl
  · have hzip : 8 * (zipBytes op a a b).length ≤ i := by
      rw [zipBytes_length]
      omega
    rw [bitAt_of_le hzip, bitAt_of_le (by omega), bitAt_of_le (by omega), hf]

theorem any_ne_zero_iff {bs : Bytes} :
    (bs.any fun b => decide (b ≠ 0)) = true ↔ ∃ i, bitAt bs i = true := by
  rw [any_eq_true]
  constructor
  · intro h
    obtain ⟨b, hb, hne⟩ := h
    obtain ⟨j, hj⟩ := mem_iff_getElem?.mp hb
    have hbit : ∃ k < 8, b.val.testBit k = true := by
      by_contra hnone
      apply of_decide_eq_true hne
      apply eq_zero_of_testBit
      intro k hk
      rw [← Bool.not_eq_true]
      exact fun hbit => hnone ⟨k, hk, hbit⟩
    obtain ⟨k, hk, hbit⟩ := hbit
    refine ⟨8 * j + (7 - k), ?_⟩
    have hdiv : (8 * j + (7 - k)) / 8 = j := by omega
    have hmod : 7 - (8 * j + (7 - k)) % 8 = k := by omega
    rw [bitAt, hdiv, hmod, getD_eq_getElem?_getD, hj]
    exact hbit
  · intro h
    obtain ⟨i, hi⟩ := h
    rw [bitAt, getD_eq_getElem?_getD] at hi
    cases hget : bs[i / 8]? with
    | none =>
      rw [hget] at hi
      exact absurd hi (by simp)
    | some b =>
      rw [hget] at hi
      refine ⟨b, mem_iff_getElem?.mpr ⟨_, hget⟩, decide_eq_true fun hzero => ?_⟩
      rw [hzero] at hi
      exact absurd hi (by simp)

theorem bitAt_ones {n i : ℕ} (hi : i < 8 * n) : bitAt (replicate n 255) i = true := by
  have hget : (replicate n (255 : Byte)).getD (i / 8) 0 = 255 := by
    rw [getD_eq_getElem?_getD, getElem?_replicate, if_pos (by omega)]
    rfl
  have hall : ∀ k < 8, (255 : Byte).val.testBit k = true := by decide
  rw [bitAt, hget]
  exact hall _ (by omega)

theorem bitAt_zeros (n i : ℕ) : bitAt (replicate n 0) i = false := by
  have hget : (replicate n (0 : Byte)).getD (i / 8) 0 = 0 := by
    rw [getD_eq_getElem?_getD, getElem?_replicate]
    split_ifs <;> rfl
  rw [bitAt, hget]
  exact Nat.zero_testBit _

def setBit (bs : Bytes) (i : ℕ) : Bytes :=
  bs.modify (i / 8) fun b => byteOr b (lowByte (1 <<< (7 - i % 8)))

@[simp] theorem setBit_length (bs : Bytes) (i : ℕ) : (setBit bs i).length = bs.length :=
  length_modify _ _ _

theorem bitAt_setBit {bs : Bytes} {i : ℕ} (hi : i < 8 * bs.length) (j : ℕ) :
    bitAt (setBit bs i) j = (decide (j = i) || bitAt bs j) := by
  have hmask : ∀ k < 8, (lowByte (1 <<< (7 - i % 8))).val.testBit k = decide (k = 7 - i % 8) := by
    intro k hk
    rw [lowByte_testBit hk, Nat.shiftLeft_eq, Nat.one_mul, Nat.testBit_two_pow]
    exact decide_eq_decide.mpr eq_comm
  rw [bitAt, bitAt, setBit, getD_eq_getElem?_getD, getD_eq_getElem?_getD,
    getElem?_modify]
  by_cases hbyte : i / 8 = j / 8
  · have hlt : j / 8 < bs.length := by omega
    simp only [if_pos hbyte]
    rw [getElem?_eq_getElem hlt, Option.map_eq_map, Option.map_some, Option.getD_some,
      Option.getD_some, byteOr_testBit (by omega), hmask _ (by omega), Bool.or_comm]
    congr 1
    apply decide_eq_decide.mpr
    omega
  · have hne : j ≠ i := fun h => hbyte (by rw [h])
    simp only [if_neg hbyte]
    rw [decide_eq_false hne, Bool.false_or]
    simp

theorem testBit_beVal (bs : Bytes) (i : ℕ) : (beVal bs).testBit i =
    (decide (i < 8 * bs.length) && (bs.getD (bs.length - 1 - i / 8) 0).val.testBit (i % 8)) := by
  induction bs using reverseRecOn generalizing i with
  | nil => simp [beVal]
  | append_singleton bs b ih =>
    have hsplit : (256 * beVal bs + b.val).testBit i =
        if i < 8 then b.val.testBit i else (beVal bs).testBit (i - 8) :=
      Nat.testBit_two_pow_mul_add (i := 8) (beVal bs) b.isLt i
    rw [beVal_concat, hsplit, length_append, length_singleton,
      getD_eq_getElem?_getD]
    by_cases hi : i < 8
    · have hidx : bs.length + 1 - 1 - i / 8 = bs.length := by omega
      have hlast : (bs ++ [b])[bs.length]? = some b := by simp
      have hin : i < 8 * (bs.length + 1) := by omega
      rw [if_pos hi, hidx, hlast, Nat.mod_eq_of_lt hi, decide_eq_true hin]
      rfl
    · rw [if_neg hi, ih, getD_eq_getElem?_getD]
      by_cases hin : i < 8 * (bs.length + 1)
      · have hidx : bs.length + 1 - 1 - i / 8 = bs.length - 1 - (i - 8) / 8 := by omega
        have hlt : bs.length - 1 - (i - 8) / 8 < bs.length := by omega
        have hmod : (i - 8) % 8 = i % 8 := by omega
        have hold : i - 8 < 8 * bs.length := by omega
        rw [hidx, getElem?_append_left hlt, hmod, decide_eq_true hin, decide_eq_true hold]
      · have hold : ¬ i - 8 < 8 * bs.length := by omega
        rw [decide_eq_false hin, decide_eq_false hold]
        rfl

theorem bitAt_eq_testBit {bs : Bytes} {i : ℕ} (hi : i < 8 * bs.length) :
    bitAt bs i = (beVal bs).testBit (8 * bs.length - 1 - i) := by
  have hin : 8 * bs.length - 1 - i < 8 * bs.length := by omega
  have hbyte : bs.length - 1 - (8 * bs.length - 1 - i) / 8 = i / 8 := by omega
  have hbit : (8 * bs.length - 1 - i) % 8 = 7 - i % 8 := by omega
  rw [testBit_beVal, decide_eq_true hin, Bool.true_and, hbyte, hbit, bitAt]

theorem beVal_zipWith_byteOr {a b : Bytes} (hlen : a.length = b.length) :
    beVal (zipWith byteOr a b) = beVal a ||| beVal b := by
  apply Nat.eq_of_testBit_eq
  intro i
  have hzip : (zipWith byteOr a b).length = a.length := by
    rw [length_zipWith, hlen, min_self]
  rw [Nat.testBit_lor, testBit_beVal, testBit_beVal, testBit_beVal, hzip, ← hlen]
  by_cases hi : i < 8 * a.length
  · have ha : a.length - 1 - i / 8 < a.length := by omega
    have hget : (zipWith byteOr a b).getD (a.length - 1 - i / 8) 0 =
        byteOr (a.getD (a.length - 1 - i / 8) 0) (b.getD (a.length - 1 - i / 8) 0) := by
      rw [getD_eq_getElem?_getD, getD_eq_getElem?_getD, getD_eq_getElem?_getD,
        getElem?_zipWith, getElem?_eq_getElem ha, getElem?_eq_getElem (hlen ▸ ha)]
      rfl
    rw [hget, byteOr_testBit (Nat.mod_lt _ (by norm_num)), decide_eq_true hi]
    rfl
  · rw [decide_eq_false hi]
    rfl

end Fiscobcos.Bitset
