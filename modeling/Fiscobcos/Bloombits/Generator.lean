import Fiscobcos.Types.Bloom

/-! # Rotated blooms (core/bloombits/generator.go)

A generator takes the filters of a section and keeps the vector of each bit over the blocks. -/

namespace Fiscobcos.Bloombits

open Numerals Bitset Fiscobcos.Types

inductive GeneratorError
  | sectionCount
  | sectionOutOfBounds
  | unexpectedIndex
  | notGenerated
  | bloomBitOutOfBounds
  deriving DecidableEq, Repr

structure Generator where
  blooms : Fin bloomBitLength → Bytes
  sections : ℕ
  nextSec : ℕ

def newGenerator (sections : ℕ) : Except GeneratorError Generator :=
  if sections % 8 ≠ 0 then .error .sectionCount
  else .ok ⟨fun _ => List.replicate (sections / 8) 0, sections, 0⟩

/-- Round `i` of the loop touches the vector `i` only. -/
def Generator.addBloom (b : Generator) (index : ℕ) (bloom : Bloom) :
    Except GeneratorError Generator :=
  if b.nextSec ≥ b.sections then .error .sectionOutOfBounds
  else if b.nextSec ≠ index then .error .unexpectedIndex
  else .ok { b with
    blooms := fun i =>
      if (bloom.bytes.getD (bloomByteLength - 1 - i.val / 8) 0).val &&& 1 <<< (i.val % 8) ≠ 0 then
        setBit (b.blooms i) b.nextSec
      else b.blooms i
    nextSec := b.nextSec + 1 }

def Generator.bitset (b : Generator) (idx : ℕ) : Except GeneratorError Bytes :=
  if b.nextSec ≠ b.sections then .error .notGenerated
  else if h : idx < bloomBitLength then .ok (b.blooms ⟨idx, h⟩)
  else .error .bloomBitOutOfBounds

def Generator.addBlooms (b : Generator) (blooms : ℕ → Bloom) (n : ℕ) :
    Except GeneratorError Generator :=
  (List.range n).foldlM (fun b i => b.addBloom i (blooms i)) b

structure Generator.Took (b : Generator) (blooms : ℕ → Bloom) (n : ℕ) : Prop where
  nextSec : b.nextSec = n
  length : ∀ i, (b.blooms i).length = b.sections / 8
  bits : ∀ i j, bitAt (b.blooms i) j = (decide (j < n) && (blooms j).big.testBit i.val)

theorem bloom_bit (bloom : Bloom) (i : Fin bloomBitLength) :
    (bloom.bytes.getD (bloomByteLength - 1 - i.val / 8) 0).val &&& 1 <<< (i.val % 8) ≠ 0 ↔
      bloom.big.testBit i.val = true := by
  have hi : i.val < 8 * bloom.bytes.length := by
    rw [bloom.length_bytes]
    exact i.isLt
  rw [and_shiftLeft_ne_zero, Bloom.big, testBit_beVal, decide_eq_true hi, bloom.length_bytes,
    Bool.true_and]

theorem Generator.Took.addBloom {b : Generator} {blooms : ℕ → Bloom} {n : ℕ} (h : b.Took blooms n)
    (hlt : n < b.sections) (hdvd : b.sections % 8 = 0) :
    ∃ b', b.addBloom n (blooms n) = .ok b' ∧ b'.sections = b.sections ∧ b'.Took blooms (n + 1) := by
  have hroom : ¬ b.nextSec ≥ b.sections := by
    rw [h.nextSec]
    omega
  have hindex : ¬ b.nextSec ≠ n := not_not_intro h.nextSec
  refine ⟨_, (if_neg hroom).trans (if_neg hindex), rfl, ?_⟩
  refine ⟨congrArg (· + 1) h.nextSec, fun i => ?_, fun i j => ?_⟩
  · dsimp only
    split_ifs
    · rw [setBit_length]
      exact h.length i
    · exact h.length i
  · dsimp only
    have hin : n < 8 * (b.blooms i).length := by
      rw [h.length]
      omega
    have hlast (hj : j ≠ n) : (j < n + 1) = (j < n) := by
      apply propext
      omega
    by_cases hbit : (blooms n).big.testBit i.val = true
    · rw [if_pos ((bloom_bit _ i).mpr hbit), h.nextSec, bitAt_setBit hin, h.bits]
      by_cases hj : j = n
      · rw [hj, hbit]
        simp
      · simp only [hj, decide_false, Bool.false_or, hlast hj]
    · rw [if_neg (fun hne => hbit ((bloom_bit _ i).mp hne)), h.bits]
      by_cases hj : j = n
      · rw [hj, Bool.eq_false_of_not_eq_true hbit]
        simp
      · simp only [hlast hj]

theorem Generator.addBlooms_spec {b : Generator} {blooms : ℕ → Bloom} (h : b.Took blooms 0)
    (hdvd : b.sections % 8 = 0) {n : ℕ} (hn : n ≤ b.sections) :
    ∃ b', b.addBlooms blooms n = .ok b' ∧ b'.sections = b.sections ∧ b'.Took blooms n := by
  induction n with
  | zero => exact ⟨b, rfl, rfl, h⟩
  | succ n ih =>
    obtain ⟨b₁, hb₁, hsections, htook⟩ := ih (by omega)
    obtain ⟨b₂, hb₂, hsections₂, htook₂⟩ := htook.addBloom (by omega) (by omega)
    refine ⟨b₂, ?_, hsections₂.trans hsections, htook₂⟩
    rw [addBlooms, List.range_succ, List.foldlM_append, ← addBlooms, hb₁]
    show b₁.addBloom n (blooms n) >>= pure = .ok b₂
    rw [hb₂]
    rfl

theorem generator_bitset (sections : ℕ) (blooms : ℕ → Bloom) (hdvd : sections % 8 = 0) :
    ∃ b, (newGenerator sections >>= fun b => b.addBlooms blooms sections) = .ok b ∧
      ∀ idx < bloomBitLength, ∃ bitset, b.bitset idx = .ok bitset ∧ bitset.length = sections / 8 ∧
        ∀ j, bitAt bitset j = (decide (j < sections) && (blooms j).big.testBit idx) := by
  have hnew : newGenerator sections = .ok ⟨fun _ => List.replicate (sections / 8) 0, sections, 0⟩ :=
    if_neg (not_not_intro hdvd)
  have htook : (⟨fun _ => List.replicate (sections / 8) 0, sections, 0⟩ : Generator).Took
      blooms 0 := by
    refine ⟨rfl, fun i => List.length_replicate, fun i j => ?_⟩
    rw [bitAt_zeros]
    simp
  obtain ⟨b, hb, hsections, hlast⟩ := Generator.addBlooms_spec htook hdvd le_rfl
  refine ⟨b, ?_, fun idx hidx => ⟨b.blooms ⟨idx, hidx⟩, ?_, ?_, hlast.bits ⟨idx, hidx⟩⟩⟩
  · rw [hnew]
    exact hb
  · have hfull : ¬ b.nextSec ≠ b.sections := not_not_intro (hlast.nextSec.trans hsections.symm)
    rw [Generator.bitset, if_neg hfull, dif_pos hidx]
  · rw [hlast.length, hsections]

end Fiscobcos.Bloombits
