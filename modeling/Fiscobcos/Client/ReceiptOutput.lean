import Mathlib.Data.List.DropRight
import Fiscobcos.Abi.Unpack
import Fiscobcos.Common.HexJson
import Fiscobcos.Lib.JsonTree

/-! # Revert reasons (accounts/abi/abi.go, client/utils.go, client/channel.go)

`UnpackRevert` decodes a reason with the ABI decoder. `getReceiptOutput` skips the selector and one
word and takes the rest without the zeros at its end. -/

namespace Fiscobcos.Client
open List

open Numerals JsonTree Hexutil Checked

/-- `crypto.Keccak256([]byte("Error(string)"))[:4]` -/
def revertSelector : Bytes := [0x08, 0xc3, 0x79, 0xa0]

inductive RevertError where
  | invalidData
  | emptyData
  | abi (e : Abi.AbiError)

def stringArguments : List Abi.Argument := [⟨.string, false⟩]

def unpackString (data : Bytes) : Outcome RevertError Bytes :=
  if data = [] then .err .emptyData
  else
    match Abi.Arguments.unpackValues stringArguments data with
    | .fault f => .fault f
    | .err e => .err (.abi e)
    | .ok [.bytes reason] => .ok reason
    | .ok _ => .err .emptyData

def unpackRevert (data : Bytes) : Outcome RevertError Bytes :=
  if data.length < 4 then .err .invalidData
  else if data.take 4 ≠ revertSelector then .err .invalidData
  else unpackString (data.drop 4)

def trimOx (output : Bytes) : Bytes :=
  match output with
  | 48 :: 120 :: rest => rest
  | _ => output

def trimZeros (b : Bytes) : Bytes := b.rdropWhile (· = 0)

def getReceiptOutput (output : Bytes) : Bytes :=
  match hexDecodeString (trimOx output) with
  | (_, some _) => trimOx output
  | (b, none) => if b.length < 36 then trimOx output else trimZeros (b.drop 36)

def receiptError (status txHash output : Bytes) : Option Bytes :=
  if status ≠ ascii "0x0" then
    some (ascii "receipt status:" ++ status ++ ascii ", tx hash:" ++ txHash ++ ascii ", output:" ++
      getReceiptOutput output)
  else none

structure StringAt (d : Bytes) (offset : ℕ) (reason : Bytes) : Prop where
  word : 32 ≤ d.length
  offset_eq : offset = beVal (d.take 32)
  length_eq : reason.length = beVal ((d.drop offset).take 32)
  bytes_eq : reason = (d.drop (offset + 32)).take reason.length

theorem unpackString_ok {d reason : Bytes} (h : unpackString d = .ok reason) :
    ∃ offset, StringAt d offset reason := by
  unfold unpackString at h
  split_ifs at h with hnil
  split at h
  · cases h
  · cases h
  · next reason' hvalues =>
    cases h
    obtain ⟨v, ws, next, hvs, hgo, -, -⟩ := Abi.unpackAll_ok_inv hvalues
    cases hvs
    rw [Nat.zero_mul, Abi.toGoType] at hgo
    obtain ⟨-, -, hgo⟩ := Outcome.bind_eq_ok.mp hgo
    obtain ⟨place, hplace, hgo⟩ := Outcome.bind_eq_ok.mp hgo
    obtain ⟨stop, hstop, hgo⟩ := Outcome.bind_eq_ok.mp hgo
    obtain ⟨bs, hslice, hgo⟩ := Outcome.bind_eq_ok.mp hgo
    cases hgo
    obtain ⟨hword, hoffset, hlength, hroom⟩ := Abi.lengthPrefixPointsTo_ok hplace
    rw [drop_zero] at hoffset
    rw [hoffset, Nat.add_sub_cancel] at hlength
    obtain ⟨-, rfl⟩ := int64_eq_ok.mp hstop
    have hlen := slice_length hslice
    rw [slice_of_le (by omega) hroom] at hslice
    cases hslice
    refine ⟨beVal (d.take 32), hword, rfl, ?_, ?_⟩
    · rw [hlen, ← hlength]
      omega
    · rw [hlen, drop_take, hoffset]
  · cases h

theorem trimZeros_split (b : Bytes) : ∃ zeros, b = trimZeros b ++ zeros ∧ ∀ x ∈ zeros, x = 0 := by
  refine ⟨b.rtakeWhile (· = 0), rdropWhile_append_rtakeWhile.symm, fun x hx => ?_⟩
  have hzero := mem_rtakeWhile_imp hx
  exact of_decide_eq_true hzero

theorem trimZeros_eq_nil {b : Bytes} : trimZeros b = [] ↔ ∀ x ∈ b, x = 0 := by
  rw [trimZeros, rdropWhile_eq_nil_iff]
  simp only [decide_eq_true_eq]

theorem trimZeros_last {b : Bytes} {n : ℕ} {last : Byte} (hlen : (trimZeros b).length = n + 1)
    (hlast : (trimZeros b)[n]? = some last) : last ≠ 0 := by
  have hne : trimZeros b ≠ [] := ne_nil_of_length_eq_add_one hlen
  have hget : (trimZeros b).getLast hne = last := by
    apply Option.some.inj
    rw [← getLast?_eq_some_getLast, getLast?_eq_getElem?, hlen, Nat.add_sub_cancel, hlast]
  have hnot : ¬ decide ((trimZeros b).getLast hne = 0) = true := rdropWhile_last_not _ _ hne
  rw [decide_eq_true_eq, hget] at hnot
  exact hnot

theorem trimZeros_eq_iff {d reason : Bytes} {offset : ℕ} (h : StringAt d offset reason) :
    trimZeros (d.drop 32) = reason ↔ reason = [] ∧ ∀ b ∈ d.drop 32, b = 0 := by
  constructor
  · intro htrim
    by_cases hr : reason = []
    · exact ⟨hr, trimZeros_eq_nil.mp (htrim.trans hr)⟩
    · exfalso
      obtain ⟨n, hn⟩ : ∃ n, reason.length = n + 1 :=
        ⟨reason.length - 1, by have := length_pos_iff.mpr hr; omega⟩
      have hpos : 1 ≤ offset := by
        by_contra hzero
        have hoff : offset = 0 := by omega
        have hlen := h.length_eq
        rw [hoff, drop_zero, ← h.offset_eq, hoff] at hlen
        omega
      obtain ⟨zeros, hsplit, hzeros⟩ := trimZeros_split (d.drop 32)
      rw [htrim] at hsplit
      obtain ⟨last, hlast⟩ : ∃ last, reason[n]? = some last :=
        ⟨_, getElem?_eq_getElem (by omega)⟩
      have hplace : (d.drop 32)[offset + n]? = some last := by
        have hlast' := hlast
        rw [h.bytes_eq, getElem?_take_of_lt (by omega), getElem?_drop] at hlast'
        rw [getElem?_drop, ← hlast']
        congr 1
        omega
      rw [hsplit, getElem?_append_right (by omega)] at hplace
      rw [← htrim] at hn hlast
      exact trimZeros_last hn hlast (hzeros last (mem_of_getElem? hplace))
  · rintro ⟨hr, hzeros⟩
    rw [hr]
    exact trimZeros_eq_nil.mpr hzeros

theorem getReceiptOutput_eq {raw data : Bytes} (hraw : hexDecodeString raw = (data, none))
    (hlen : 36 ≤ data.length) : getReceiptOutput (48 :: 120 :: raw) = trimZeros (data.drop 36) := by
  have hox : trimOx (48 :: 120 :: raw) = raw := rfl
  rw [getReceiptOutput, hox, hraw]
  exact if_neg (Nat.not_lt.mpr hlen)

/-- The reason that the decoder finds is what the error of `CheckReceipt` quotes exactly if it is
empty and no byte behind the first word of the arguments is different from zero. -/
theorem receipt_output_iff (raw data reason : Bytes) (hraw : hexDecodeString raw = (data, none))
    (hreason : unpackRevert data = .ok reason) (status txHash : Bytes)
    (hstatus : status ≠ ascii "0x0") :
    (getReceiptOutput (48 :: 120 :: raw) = reason ↔ reason = [] ∧ ∀ b ∈ data.drop 36, b = 0) ∧
    (receiptError status txHash (48 :: 120 :: raw) = some (ascii "receipt status:" ++ status ++
        ascii ", tx hash:" ++ txHash ++ ascii ", output:" ++ reason) ↔
      reason = [] ∧ ∀ b ∈ data.drop 36, b = 0) := by
  unfold unpackRevert at hreason
  split_ifs at hreason with hshort hselector
  obtain ⟨offset, hstring⟩ := unpackString_ok hreason
  have hword := hstring.word
  rw [length_drop] at hword
  have hiff : getReceiptOutput (48 :: 120 :: raw) = reason ↔
      reason = [] ∧ ∀ b ∈ data.drop 36, b = 0 := by
    have htrim := trimZeros_eq_iff hstring
    rw [drop_drop] at htrim
    rw [getReceiptOutput_eq hraw (by omega)]
    exact htrim
  refine ⟨hiff, ?_⟩
  rw [receiptError, if_pos hstatus, Option.some.injEq, append_right_inj]
  exact hiff

def revertNo : Bytes :=
  [0x08, 0xc3, 0x79, 0xa0] ++ beBytes 32 32 ++ beBytes 32 2 ++ ascii "no" ++ List.replicate 30 0

/-- The reason `no` is reported with the word of its length in front. -/
theorem revertNo_output : unpackRevert revertNo = .ok (ascii "no") ∧
      hexDecodeString (hexEncode revertNo) = (revertNo, none) ∧
      getReceiptOutput (48 :: 120 :: hexEncode revertNo) = beBytes 32 2 ++ ascii "no" := by
  have hhex := hexDecodeString_hexEncode revertNo
  refine ⟨?_, hhex, ?_⟩
  · rfl
  · rw [getReceiptOutput_eq hhex (by decide)]
    decide +kernel

theorem revertEmpty_output : getReceiptOutput (48 :: 120 :: hexEncode
      ([0x08, 0xc3, 0x79, 0xa0] ++ beBytes 32 32 ++ beBytes 32 0)) = [] := by
  have hunpack : unpackRevert ([0x08, 0xc3, 0x79, 0xa0] ++ beBytes 32 32 ++ beBytes 32 0) =
      .ok [] := rfl
  exact ((receipt_output_iff _ _ [] (hexDecodeString_hexEncode _) hunpack (ascii "0x16") []
    (by decide)).1).mpr ⟨rfl, by decide +kernel⟩

end Fiscobcos.Client
