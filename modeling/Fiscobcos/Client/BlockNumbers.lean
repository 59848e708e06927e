import Fiscobcos.Client.Requests
import Fiscobcos.Client.Types
import Fiscobcos.Common.HexJson

/-! # Block numbers in requests (client/channel.go:406-415, client/rpcclient.go:116-139, 468-481)

`BlockByNumber` and `CodeAt` send a hex quantity. `BlockHashByNumber` sends the conversion
`string(n)`, the character with that code point. -/

namespace Fiscobcos.Client
open Numerals JsonTree Hexutil Fiscobcos.Types

def DecimalNumeral (s : Bytes) (n : ℕ) : Prop :=
  s ≠ [] ∧ (∀ c ∈ s, 48 ≤ c.val ∧ c.val ≤ 57) ∧ decimalVal s = n

def HexNumeral (s : Bytes) (n : ℕ) : Prop :=
  ∃ raw ds, Prefixed s raw ∧ raw ≠ [] ∧ nibbles raw = some ds ∧ hexValue ds = n

def Denotes (s : Bytes) (n : ℕ) : Prop := DecimalNumeral s n ∨ HexNumeral s n

theorem denotes_of_hexQuantity {s : Bytes} {n : ℕ} (h : HexQuantity s n) : Denotes s n := by
  obtain ⟨raw, ds, hp, hne, -, hds, hn⟩ := h
  exact .inr ⟨raw, ds, hp, hne, hds, hn⟩

def NoCharacter (i : UInt64) : Prop :=
  0x10FFFF < i.toNat ∨ 0xD800 ≤ i.toNat ∧ i.toNat ≤ 0xDFFF

instance (i : UInt64) : Decidable (NoCharacter i) := inferInstanceAs (Decidable (_ ∨ _))

def codePoint (i : UInt64) : ℕ := if NoCharacter i then 0xFFFD else i.toNat

def utf8Value : Bytes → ℕ
  | [a] => a.val
  | [a, b] => 64 * (a.val - 0xC0) + (b.val - 0x80)
  | [a, b, c] => 64 * (64 * (a.val - 0xE0) + (b.val - 0x80)) + (c.val - 0x80)
  | [a, b, c, d] =>
    64 * (64 * (64 * (a.val - 0xF0) + (b.val - 0x80)) + (c.val - 0x80)) + (d.val - 0x80)
  | _ => 0

theorem runeString_noCharacter {i : UInt64} (h : NoCharacter i) :
    runeString i = [0xEF, 0xBF, 0xBD] := by
  have h7 : ¬ i.toNat < 0x80 := by
    rcases h with h | h <;> omega
  have h11 : ¬ i.toNat < 0x800 := by
    rcases h with h | h <;> omega
  rw [NoCharacter] at h
  simp only [runeString, if_neg h7, if_neg h11, if_pos h]

theorem utf8Value_runeString (i : UInt64) : utf8Value (runeString i) = codePoint i := by
  by_cases hbad : NoCharacter i
  · rw [runeString_noCharacter hbad, codePoint, if_pos hbad]
    decide
  · rw [codePoint, if_neg hbad]
    rw [NoCharacter] at hbad
    unfold runeString
    generalize i.toNat = r at hbad
    dsimp only
    split_ifs with h7 h11 h16
    · exact Nat.mod_eq_of_lt (by omega)
    · show 64 * ((0xC0 + r / 64) % 256 - 0xC0) + ((0x80 + r % 64) % 256 - 0x80) = r
      omega
    · show 64 * (64 * ((0xE0 + r / 4096) % 256 - 0xE0) + ((0x80 + r / 64 % 64) % 256 - 0x80)) +
        ((0x80 + r % 64) % 256 - 0x80) = r
      omega
    · show 64 * (64 * (64 * ((0xF0 + r / 262144) % 256 - 0xF0) +
        ((0x80 + r / 4096 % 64) % 256 - 0x80)) + ((0x80 + r / 64 % 64) % 256 - 0x80)) +
        ((0x80 + r % 64) % 256 - 0x80) = r
      omega

theorem runeString_codePoint (i : UInt64) :
    runeString i = runeString (UInt64.ofNat (codePoint i)) := by
  by_cases hbad : NoCharacter i
  · rw [runeString_noCharacter hbad, codePoint, if_pos hbad]
    decide
  · rw [codePoint, if_neg hbad, UInt64.ofNat_toNat]

theorem runeString_eq_iff (a b : UInt64) :
    runeString a = runeString b ↔ codePoint a = codePoint b := by
  constructor
  · intro h
    rw [← utf8Value_runeString, ← utf8Value_runeString, h]
  · intro h
    rw [runeString_codePoint a, runeString_codePoint b, h]

theorem runeString_cases (i : UInt64) : i.toNat < 128 ∧ runeString i = [lowByte i.toNat] ∨
      ∃ c rest, runeString i = c :: rest ∧ 0xC0 ≤ c.val := by
  rw [runeString]
  generalize i.toNat = r
  split_ifs with h7 h11 hbad h16
  · exact .inl ⟨h7, rfl⟩
  · refine .inr ⟨_, _, rfl, ?_⟩
    rw [lowByte_val]
    omega
  · exact .inr ⟨_, _, rfl, by decide⟩
  · refine .inr ⟨_, _, rfl, ?_⟩
    rw [lowByte_val]
    omega
  · refine .inr ⟨_, _, rfl, ?_⟩
    rw [lowByte_val]
    omega

theorem runeString_not_denotes (i : UInt64) : ¬ Denotes (runeString i) i.toNat := by
  intro h
  rcases runeString_cases i with ⟨hlt, hrune⟩ | ⟨c, rest, hrune, hc⟩
  · rw [hrune] at h
    rcases h with ⟨-, hdigits, hval⟩ | ⟨raw, ds, ⟨x, -, hp⟩, -⟩
    · have hdigit := hdigits (lowByte i.toNat) (List.mem_singleton_self _)
      have hone : decimalVal [lowByte i.toNat] = (lowByte i.toNat).val - 48 := by
        simp [decimalVal]
      rw [hone, lowByte_val] at hval
      rw [lowByte_val] at hdigit
      omega
    · injection hp with _ hp
      cases hp
  · rw [hrune] at h
    rcases h with ⟨-, hdigits, -⟩ | ⟨raw, ds, ⟨x, -, hp⟩, -⟩
    · have hdigit := hdigits c List.mem_cons_self
      omega
    · injection hp with hc48 _
      rw [hc48] at hc
      exact absurd hc (by decide)

inductive NumberQuery where
  | blockHashByNumber (blockNumber : UInt64)
  | blockByNumber (number : ℕ)
  | codeAt (account : Address) (blockNumber : ℕ)

def NumberQuery.number : NumberQuery → ℕ
  | .blockHashByNumber n => n.toNat
  | .blockByNumber n => n
  | .codeAt _ n => n

def channelClient.numberRequest (groupID : UInt64) : NumberQuery → RpcRequest
  | .blockHashByNumber n => channelClient.blockHashByNumber groupID n
  | .blockByNumber n => channelClient.blockByNumber groupID (some n)
  | .codeAt account n => channelClient.codeAt groupID account (some n)

def rpcClient.numberRequest (groupId : UInt64) : NumberQuery → RpcRequest
  | .blockHashByNumber n => rpcClient.blockHashByNumber groupId n
  | .blockByNumber n => rpcClient.blockByNumber groupId (some n)
  | .codeAt account n => rpcClient.codeAt groupId account (some n)

def RpcRequest.stringParam (r : RpcRequest) (i : ℕ) : Option Bytes :=
  match r.params with
  | some (.arr ps) =>
    match ps[i]? with
    | some (.str s) => some s
    | _ => none
  | _ => none

def NumberQuery.position : NumberQuery → ℕ
  | .blockHashByNumber _ | .blockByNumber _ => 1
  | .codeAt _ _ => 2

/-- The request names the block asked for; a quantity does so in its shortest form, which
`DecodeBig` reads back if it fits 256 bits. -/
def NumberQuery.NamedBy (q : NumberQuery) (r : RpcRequest) : Prop :=
  ∃ s, r.stringParam q.position = some s ∧ Denotes s q.number ∧
    match q with
    | .blockHashByNumber _ => True
    | .blockByNumber n | .codeAt _ n =>
      HexQuantity s n ∧ (n < 2 ^ 256 → decodeBig s = .ok (n : ℤ))

def NumberQuery.asksForHash : NumberQuery → Bool
  | .blockHashByNumber _ => true
  | _ => false

theorem toBlockNumArg_names (n : ℕ) : Denotes (toBlockNumArg (some n)) n ∧
    HexQuantity (toBlockNumArg (some n)) n ∧
      (n < 2 ^ 256 → decodeBig (toBlockNumArg (some n)) = .ok (n : ℤ)) := by
  have hq := hexQuantity_encodeBig n
  refine ⟨denotes_of_hexQuantity hq, hq, fun hn => ?_⟩
  exact (read_encodeBig (Int.natCast_nonneg n) (by exact_mod_cast hn)).1

theorem namedBy_channel_iff (groupID : UInt64) (q : NumberQuery) :
    q.NamedBy (channelClient.numberRequest groupID q) ↔ q.asksForHash = false := by
  cases q with
  | blockHashByNumber n =>
    refine iff_of_false ?_ (by simp [NumberQuery.asksForHash])
    intro ⟨s, hs, hd, _⟩
    cases hs
    exact runeString_not_denotes n hd
  | blockByNumber n | codeAt account n => exact iff_of_true ⟨_, rfl, toBlockNumArg_names n⟩ rfl

/-- Both clients name the block they ask for by a numeral unless they ask for its hash, and two
requests for a hash are the same if the two numbers have the same character. -/
theorem block_number_named_iff (groupID : UInt64) (q : NumberQuery) (a b : UInt64) :
    (q.NamedBy (channelClient.numberRequest groupID q) ↔ q.asksForHash = false) ∧
    (q.NamedBy (rpcClient.numberRequest groupID q) ↔ q.asksForHash = false) ∧
    (channelClient.blockHashByNumber groupID a = channelClient.blockHashByNumber groupID b ↔
      codePoint a = codePoint b) ∧
    (rpcClient.blockHashByNumber groupID a = rpcClient.blockHashByNumber groupID b ↔
      codePoint a = codePoint b) := by
  -- the requests are written alike for the two clients
  have hsame : ∀ q, rpcClient.numberRequest groupID q = channelClient.numberRequest groupID q := by
    intro q
    cases q <;> rfl
  have hhash : channelClient.blockHashByNumber groupID a =
      channelClient.blockHashByNumber groupID b ↔ codePoint a = codePoint b := by
    rw [← runeString_eq_iff]
    constructor
    · intro h
      have hparams := congrArg (fun r => r.stringParam 1) h
      exact Option.some.inj hparams
    · intro h
      rw [channelClient.blockHashByNumber, channelClient.blockHashByNumber, h]
  refine ⟨namedBy_channel_iff groupID q, ?_, hhash, hhash⟩
  rw [hsame]
  exact namedBy_channel_iff groupID q

/-- Block 1 is asked for by a control character, and two large numbers by the same request. -/
theorem block_hash_number_garbled : (channelClient.blockHashByNumber 1 1).stringParam 1 = some [1] ∧
    channelClient.blockHashByNumber 1 0x110000 = channelClient.blockHashByNumber 1 0x110001 ∧
    (rpcClient.blockHashByNumber 1 1).stringParam 1 = some [1] ∧
    rpcClient.blockHashByNumber 1 0x110000 = rpcClient.blockHashByNumber 1 0x110001 :=
  ⟨rfl, rfl, rfl, rfl⟩

end Fiscobcos.Client
