import Fiscobcos.Lib.Bitset
import Fiscobcos.Lib.Keccak

/-! # Bloom filters (core/types/bloom9.go)

A filter of 2048 bits, kept big-endian. A key sets three bits, read from its hash. -/

namespace Fiscobcos.Types

open Numerals Bitset

def bloomByteLength : ℕ := 256

def bloomBitLength : ℕ := 8 * bloomByteLength

structure Bloom where
  bytes : Bytes
  length_bytes : bytes.length = bloomByteLength

def Bloom.zero : Bloom := ⟨List.replicate bloomByteLength 0, List.length_replicate⟩

/-- `SetBytes`, which panics on too many bytes and leaves what is in front of a shorter string. -/
def Bloom.setBytes (b : Bloom) (d : Bytes) : Option Bloom :=
  if h : bloomByteLength < d.length then none
  else some ⟨b.bytes.take (bloomByteLength - d.length) ++ d, by
    rw [List.length_append, List.length_take, b.length_bytes]
    omega⟩

def bytesToBloom (b : Bytes) : Option Bloom := Bloom.zero.setBytes b

def Bloom.big (b : Bloom) : ℕ := beVal b.bytes

section Hash
variable (hash : Bytes → Vector Byte 32)

def bloom9Bit (b : Bytes) (i : Fin 3) : ℕ :=
  ((hash b)[2 * i.val + 1].val + ((hash b)[2 * i.val].val <<< 8)) &&& 2047

def bloom9 (b : Bytes) : ℕ :=
  (List.finRange 3).foldl (fun r i => r ||| 1 <<< bloom9Bit hash b i) 0

def bloomLookup (bin : Bloom) (topic : Bytes) : Bool :=
  bin.big &&& bloom9 hash topic == bloom9 hash topic

def Bloom.add (b : Bloom) (d : Bytes) : Option Bloom :=
  b.setBytes (minBytes (b.big ||| bloom9 hash d))

def Bloom.test (b : Bloom) (test : ℤ) : Bool := bloomLookup hash b (minBytes test.natAbs)

def Bloom.testBytes (b : Bloom) (test : Bytes) : Bool := b.test hash (beVal test)

structure BloomLog where
  address : Bytes
  topics : List Bytes

def logsBloom (logs : List BloomLog) : ℕ :=
  logs.foldl (fun bin log =>
    log.topics.foldl (fun bin b => bin ||| bloom9 hash b) (bin ||| bloom9 hash log.address)) 0

def createBloom (receipts : List (List BloomLog)) : Option Bloom :=
  bytesToBloom (minBytes (receipts.foldl (fun bin logs => bin ||| logsBloom hash logs) 0))

theorem bloom9Bit_lt (b : Bytes) (i : Fin 3) : bloom9Bit hash b i < bloomBitLength := by
  have h2047 : 2047 = 2 ^ 11 - 1 := by norm_num
  rw [bloom9Bit, h2047, Nat.and_two_pow_sub_one_eq_mod]
  exact Nat.mod_lt _ (by norm_num)

theorem testBit_foldl_or {α : Type} (f : α → ℕ) (l : List α) (v k : ℕ) :
    (l.foldl (fun r a => r ||| f a) v).testBit k = true ↔
      v.testBit k = true ∨ ∃ a ∈ l, (f a).testBit k = true := by
  induction l generalizing v with
  | nil => simp
  | cons a l ih =>
    rw [List.foldl_cons, ih, Nat.testBit_lor, Bool.or_eq_true]
    simp only [List.mem_cons, exists_eq_or_imp, or_assoc]

theorem testBit_bloom9 (b : Bytes) (k : ℕ) :
    (bloom9 hash b).testBit k = true ↔ ∃ i, bloom9Bit hash b i = k := by
  rw [bloom9, testBit_foldl_or]
  simp only [Nat.zero_testBit, Bool.false_eq_true, List.mem_finRange, true_and, false_or,
    Nat.shiftLeft_eq, Nat.one_mul, Nat.testBit_two_pow, decide_eq_true_eq]

theorem and_eq_right_iff (m n : ℕ) :
    m &&& n = n ↔ ∀ k, n.testBit k = true → m.testBit k = true := by
  constructor
  · intro h k hk
    rw [← h, Nat.testBit_land, Bool.and_eq_true] at hk
    exact hk.1
  · intro h
    apply Nat.eq_of_testBit_eq
    intro k
    rw [Nat.testBit_land]
    cases hk : n.testBit k with
    | false => rw [Bool.and_false]
    | true => rw [h k hk, Bool.and_true]

theorem bloomLookup_iff (bin : Bloom) (topic : Bytes) :
    bloomLookup hash bin topic = true ↔ ∀ i, bin.big.testBit (bloom9Bit hash topic i) = true := by
  rw [bloomLookup, beq_iff_eq, and_eq_right_iff]
  simp only [testBit_bloom9]
  constructor
  · intro h i
    exact h _ ⟨i, rfl⟩
  · intro h k hk
    obtain ⟨i, hi⟩ := hk
    rw [← hi]
    exact h i

theorem big_setBytes {b : Bloom} {v : ℕ} (hle : b.big ≤ v) (hv : v < 256 ^ bloomByteLength) :
    ∃ b', b.setBytes (minBytes v) = some b' ∧ b'.big = v := by
  have hlen : byteLen v ≤ bloomByteLength := (byteLen_le v _).mpr hv
  have hnot : ¬ bloomByteLength < (minBytes v).length := by
    rw [minBytes_length]
    omega
  refine ⟨_, dif_neg hnot, ?_⟩
  -- what is left in front is zero, as the old value is not larger
  have hfront : beVal (b.bytes.take (bloomByteLength - byteLen v)) = 0 := by
    have hsplit : b.big = beVal (b.bytes.take (bloomByteLength - byteLen v)) * 256 ^ byteLen v +
        beVal (b.bytes.drop (bloomByteLength - byteLen v)) := by
      have happend := beVal_append (b.bytes.take (bloomByteLength - byteLen v))
        (b.bytes.drop (bloomByteLength - byteLen v))
      have hdrop : (b.bytes.drop (bloomByteLength - byteLen v)).length = byteLen v := by
        rw [List.length_drop, b.length_bytes]
        omega
      rw [List.take_append_drop, hdrop] at happend
      exact happend
    by_contra hpos
    have hone : 1 ≤ beVal (b.bytes.take (bloomByteLength - byteLen v)) := Nat.one_le_iff_ne_zero.mpr hpos
    have hlarge : 256 ^ byteLen v ≤ b.big := by
      rw [hsplit]
      exact le_trans (Nat.le_mul_of_pos_left _ hone) (Nat.le_add_right _ _)
    have hlt := lt_pow_byteLen v
    omega
  show beVal (b.bytes.take (bloomByteLength - (minBytes v).length) ++ minBytes v) = v
  rw [minBytes_length, beVal_append, hfront, beVal_minBytes]
  omega

theorem pow_bloomByteLength : (256 : ℕ) ^ bloomByteLength = 2 ^ bloomBitLength := by
  have h256 : (2 : ℕ) ^ 8 = 256 := by norm_num
  rw [bloomBitLength, pow_mul, h256]

theorem bloom9_lt (b : Bytes) : bloom9 hash b < 256 ^ bloomByteLength := by
  rw [pow_bloomByteLength]
  apply Nat.lt_pow_two_of_testBit
  intro k hk
  rw [← Bool.not_eq_true, testBit_bloom9]
  intro hbit
  obtain ⟨i, hi⟩ := hbit
  have hlt := bloom9Bit_lt hash b i
  omega

theorem Bloom.big_lt (b : Bloom) : b.big < 256 ^ bloomByteLength := b.length_bytes ▸ beVal_lt b.bytes

theorem or_lt_bloom {v w : ℕ} (hv : v < 256 ^ bloomByteLength) (hw : w < 256 ^ bloomByteLength) :
    v ||| w < 256 ^ bloomByteLength := by
  rw [pow_bloomByteLength] at hv hw ⊢
  exact Nat.or_lt_two_pow hv hw

theorem add_big (b : Bloom) (d : Bytes) :
    ∃ b', b.add hash d = some b' ∧ b'.big = b.big ||| bloom9 hash d :=
  big_setBytes Nat.left_le_or (or_lt_bloom b.big_lt (bloom9_lt hash d))

theorem add_lookup (b : Bloom) (d topic : Bytes) :
    ∃ b', b.add hash d = some b' ∧ bloomLookup hash b' d = true ∧
      (bloomLookup hash b topic = true → bloomLookup hash b' topic = true) := by
  obtain ⟨b', hadd, hbig⟩ := add_big hash b d
  refine ⟨b', hadd, ?_, fun h => ?_⟩
  · rw [bloomLookup_iff]
    intro i
    rw [hbig, Nat.testBit_lor, (testBit_bloom9 hash d _).mpr ⟨i, rfl⟩, Bool.or_true]
  · rw [bloomLookup_iff] at h ⊢
    intro i
    rw [hbig, Nat.testBit_lor, h i, Bool.true_or]

theorem testBit_logsBloom (logs : List BloomLog) (k : ℕ) : (logsBloom hash logs).testBit k = true ↔
      ∃ log ∈ logs, ∃ key ∈ log.address :: log.topics, (bloom9 hash key).testBit k = true := by
  have hstart : ∀ v : ℕ, (logs.foldl (fun (bin : ℕ) (log : BloomLog) =>
      log.topics.foldl (fun bin b => bin ||| bloom9 hash b) (bin ||| bloom9 hash log.address))
        v).testBit k = true ↔ v.testBit k = true ∨
      ∃ log ∈ logs, ∃ key ∈ log.address :: log.topics, (bloom9 hash key).testBit k = true := by
    induction logs with
    | nil => simp
    | cons log logs ih =>
      intro v
      rw [List.foldl_cons, ih, testBit_foldl_or, Nat.testBit_lor, Bool.or_eq_true]
      simp only [List.mem_cons, exists_eq_or_imp, or_assoc]
  rw [logsBloom, hstart]
  simp

theorem createBloom_testBit (receipts : List (List BloomLog)) :
    ∃ bin, createBloom hash receipts = some bin ∧
      ∀ k, bin.big.testBit k = true ↔ ∃ logs ∈ receipts, ∃ log ∈ logs,
        ∃ key ∈ log.address :: log.topics, (bloom9 hash key).testBit k = true := by
  have hbits : ∀ k, (receipts.foldl (fun bin logs => bin ||| logsBloom hash logs) 0).testBit k =
      true ↔ ∃ logs ∈ receipts, ∃ log ∈ logs,
        ∃ key ∈ log.address :: log.topics, (bloom9 hash key).testBit k = true := by
    intro k
    rw [testBit_foldl_or]
    simp only [Nat.zero_testBit, Bool.false_eq_true, false_or, testBit_logsBloom]
  have hbound : receipts.foldl (fun bin logs => bin ||| logsBloom hash logs) 0 <
      256 ^ bloomByteLength := by
    rw [pow_bloomByteLength]
    apply Nat.lt_pow_two_of_testBit
    intro k hk
    rw [← Bool.not_eq_true, hbits]
    intro hbit
    obtain ⟨_, _, _, _, key, _, hkey⟩ := hbit
    obtain ⟨i, hi⟩ := (testBit_bloom9 hash key k).mp hkey
    have hlt := bloom9Bit_lt hash key i
    omega
  have hzero : Bloom.zero.big = 0 := by decide +kernel
  obtain ⟨bin, hset, hbig⟩ := big_setBytes (hzero ▸ Nat.zero_le _) hbound
  refine ⟨bin, hset, ?_⟩
  rw [hbig]
  exact hbits

theorem createBloom_lookup (receipts : List (List BloomLog)) :
    ∃ bin, createBloom hash receipts = some bin ∧
      ∀ logs ∈ receipts, ∀ log ∈ logs, ∀ key ∈ log.address :: log.topics,
        bloomLookup hash bin key = true := by
  obtain ⟨bin, hcreate, hbits⟩ := createBloom_testBit hash receipts
  refine ⟨bin, hcreate, fun logs hlogs log hlog key hkey => ?_⟩
  rw [bloomLookup_iff]
  intro i
  exact (hbits _).mpr ⟨logs, hlogs, log, hlog, key, hkey, (testBit_bloom9 hash key _).mpr ⟨i, rfl⟩⟩

theorem Bloom.bitAt_eq (b : Bloom) {i : ℕ} (hi : i < bloomBitLength) :
    bitAt b.bytes i = b.big.testBit (bloomBitLength - 1 - i) := by
  have hlen : i < 8 * b.bytes.length := by
    rw [b.length_bytes]
    exact hi
  rw [bitAt_eq_testBit hlen, b.length_bytes]
  rfl

theorem Bloom.bytes_eq_or {b b₁ b₂ : Bloom} (h : b.big = b₁.big ||| b₂.big) :
    b.bytes = List.zipWith byteOr b₁.bytes b₂.bytes := by
  have hlen : b₁.bytes.length = b₂.bytes.length := by rw [b₁.length_bytes, b₂.length_bytes]
  apply beVal_inj
  · rw [List.length_zipWith, ← hlen, min_self, b.length_bytes, b₁.length_bytes]
  · rw [beVal_zipWith_byteOr hlen]
    exact h

theorem createBloom_append (A B : List (List BloomLog)) :
    ∃ binA binB bin, createBloom hash A = some binA ∧ createBloom hash B = some binB ∧
      createBloom hash (A ++ B) = some bin ∧ bin.big = binA.big ||| binB.big := by
  obtain ⟨binA, hA, hbitsA⟩ := createBloom_testBit hash A
  obtain ⟨binB, hB, hbitsB⟩ := createBloom_testBit hash B
  obtain ⟨bin, hAB, hbits⟩ := createBloom_testBit hash (A ++ B)
  refine ⟨binA, binB, bin, hA, hB, hAB, ?_⟩
  apply Nat.eq_of_testBit_eq
  intro k
  rw [Nat.testBit_lor, Bool.eq_iff_iff, Bool.or_eq_true, hbits, hbitsA, hbitsB]
  simp only [List.mem_append, or_and_right, exists_or]

theorem add_keeps_bits (b : Bloom) (d : ℤ) : ∃ b', b.add hash (minBytes d.natAbs) = some b' ∧
      (∀ i, bitAt b.bytes i = true → bitAt b'.bytes i = true) ∧ b'.test hash d = true := by
  obtain ⟨b', hadd, hbig⟩ := add_big hash b (minBytes d.natAbs)
  obtain ⟨b'', hadd', hpass, -⟩ := add_lookup hash b (minBytes d.natAbs) []
  have hsame : b'' = b' := Option.some.inj (hadd'.symm.trans hadd)
  subst hsame
  refine ⟨b'', hadd, fun i hi => ?_, hpass⟩
  by_cases hlt : i < bloomBitLength
  · rw [Bloom.bitAt_eq _ hlt] at hi ⊢
    rw [hbig, Nat.testBit_lor, hi, Bool.true_or]
  · have hpast : bitAt b.bytes i = false := by
      apply bitAt_of_le
      rw [b.length_bytes]
      exact Nat.le_of_not_lt hlt
    rw [hpast] at hi
    exact absurd hi Bool.false_ne_true

/-- A filter lets every key of its logs pass, the filter of two lists is the bytewise or of their
filters, and `Add` loses no bit. -/
theorem blooms_are_unions (A B : List (List BloomLog)) (b : Bloom) (d : ℤ) :
    ∃ binA binB binAB b', createBloom hash A = some binA ∧ createBloom hash B = some binB ∧
      createBloom hash (A ++ B) = some binAB ∧
      (∀ logs ∈ A, ∀ log ∈ logs, ∀ key ∈ log.address :: log.topics,
        bloomLookup hash binA key = true) ∧
      binAB.bytes = List.zipWith byteOr binA.bytes binB.bytes ∧
      b.add hash (minBytes d.natAbs) = some b' ∧
      (∀ i, bitAt b.bytes i = true → bitAt b'.bytes i = true) ∧ b'.test hash d = true := by
  obtain ⟨binA, binB, binAB, hA, hB, hAB, hor⟩ := createBloom_append hash A B
  obtain ⟨bin, hbin, hpass⟩ := createBloom_lookup hash A
  obtain ⟨b', hadd, hkeeps, htest⟩ := add_keeps_bits hash b d
  have hsame : bin = binA := Option.some.inj (hbin.symm.trans hA)
  subst hsame
  exact ⟨bin, binB, binAB, b', hA, hB, hAB, hpass, Bloom.bytes_eq_or hor, hadd, hkeeps, htest⟩

theorem testBytes_eq (b : Bloom) (x : Bytes) :
    b.testBytes hash x = bloomLookup hash b (minBytes (beVal x)) := rfl

theorem exists_bloom_of_key (key : Bytes) : ∃ b : Bloom, b.big = bloom9 hash key := by
  have hzero : Bloom.zero.big = 0 := by decide +kernel
  obtain ⟨b, -, hb⟩ := add_big hash Bloom.zero key
  rw [hzero, Nat.zero_or] at hb
  exact ⟨b, hb⟩

theorem lookup_eq_iff (x y : Bytes) :
    (∀ b : Bloom, bloomLookup hash b x = bloomLookup hash b y) ↔ bloom9 hash x = bloom9 hash y := by
  constructor
  · intro h
    -- each key passes the filter that has just the bits of the other
    have hsub : ∀ x y : Bytes, (∀ b : Bloom, bloomLookup hash b x = bloomLookup hash b y) →
        bloom9 hash x &&& bloom9 hash y = bloom9 hash y := by
      intro x y h
      obtain ⟨b, hb⟩ := exists_bloom_of_key hash x
      have hpass : bloomLookup hash b y = true := by
        rw [← h, bloomLookup, hb, Nat.and_self, beq_iff_eq]
      rw [bloomLookup, hb, beq_iff_eq] at hpass
      exact hpass
    have hxy := hsub x y h
    have hyx := hsub y x fun b => (h b).symm
    rw [Nat.land_comm] at hyx
    exact hyx.symm.trans hxy
  · intro h b
    rw [bloomLookup, bloomLookup, h]

end Hash

def hashApart (x b : Bytes) : Vector Byte 32 := Vector.replicate 32 (if b = x then 0 else 1)

theorem bloom9_hashApart {x y : Bytes} (hne : y ≠ x) :
    bloom9 (hashApart x) y ≠ bloom9 (hashApart x) x := by
  have hx : hashApart x x = Vector.replicate 32 0 := by rw [hashApart, if_pos rfl]
  have hy : hashApart x y = Vector.replicate 32 1 := by rw [hashApart, if_neg hne]
  have hbits : ∀ b, bloom9 (hashApart x) b = bloom9 (fun _ => hashApart x b) [] := fun _ => rfl
  rw [hbits y, hbits x, hx, hy]
  decide +kernel

/-- `TestBytes` hashes the key without its leading zero bytes, `BloomLookup` the key itself: they
agree on all filters if both set the same bits. Whatever the hash, this is so for a key that does
not start with a zero byte, and for no other key. -/
theorem testBytes_agrees_iff (x : Bytes) :
    (∀ hash, (∀ b : Bloom, b.testBytes hash x = bloomLookup hash b x) ↔
      bloom9 hash (minBytes (beVal x)) = bloom9 hash x) ∧
    ((∀ hash, ∀ b : Bloom, b.testBytes hash x = bloomLookup hash b x) ↔ NoLeadingZero x) ∧
    (NoLeadingZero x → ∀ hash (receipts : List (List BloomLog)),
      ∃ bin, createBloom hash receipts = some bin ∧
        ∀ logs ∈ receipts, ∀ log ∈ logs, x ∈ log.address :: log.topics →
          bin.testBytes hash x = true) := by
  have hagree : ∀ hash, (∀ b : Bloom, b.testBytes hash x = bloomLookup hash b x) ↔
      bloom9 hash (minBytes (beVal x)) = bloom9 hash x := fun hash => lookup_eq_iff hash _ x
  refine ⟨hagree, ⟨fun h => ?_, fun hx hash b => ?_⟩, fun hx hash receipts => ?_⟩
  · have hsame : minBytes (beVal x) = x := by
      by_contra hne
      exact bloom9_hashApart hne ((hagree _).mp (h (hashApart x)))
    rw [← hsame]
    exact minBytes_noLeadingZero _
  · rw [testBytes_eq, minBytes_beVal x hx]
  · obtain ⟨bin, hcreate, hpass⟩ := createBloom_lookup hash receipts
    refine ⟨bin, hcreate, fun logs hlogs log hlog hkey => ?_⟩
    rw [testBytes_eq, minBytes_beVal x hx]
    exact hpass logs hlogs log hlog x hkey

def lowAddress : Bytes := List.replicate 19 0 ++ [1]

theorem testBytes_misses_lowAddress :
    ∃ bin, createBloom Keccak.keccak256 [[⟨lowAddress, []⟩]] = some bin ∧
      bloomLookup Keccak.keccak256 bin lowAddress = true ∧
      bin.testBytes Keccak.keccak256 lowAddress = false := by
  obtain ⟨bin, hcreate, hbits⟩ := createBloom_testBit Keccak.keccak256 [[⟨lowAddress, []⟩]]
  have hkey : ∀ k, bin.big.testBit k = true ↔
      (bloom9 Keccak.keccak256 lowAddress).testBit k = true := by
    intro k
    rw [hbits]
    simp
  refine ⟨bin, hcreate, ?_, ?_⟩
  · rw [bloomLookup_iff]
    intro i
    exact (hkey _).mpr ((testBit_bloom9 _ _ _).mpr ⟨i, rfl⟩)
  · -- the first bit of the one byte key 0x01 is not among the bits of the address
    have hone : minBytes (beVal lowAddress) = [1] := by decide +kernel
    have hbit : (bloom9 Keccak.keccak256 lowAddress).testBit (bloom9Bit Keccak.keccak256 [1] 0) =
        false := by decide +kernel
    rw [testBytes_eq, hone, ← Bool.not_eq_true, bloomLookup_iff]
    intro hall
    have hset := (hkey _).mp (hall 0)
    rw [hbit] at hset
    exact Bool.false_ne_true hset

end Fiscobcos.Types
