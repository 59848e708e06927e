import Fiscobcos.Types.TxJson

/-! # The signature values V, R, S (core/types/transaction_signing.go, core/types/transaction.go)

What the signers make of `V`, and whether a signature that `UnmarshalJSON` lets through passes the
check of the signer that the transaction asks for. -/

namespace Fiscobcos.Types
open Option

open Fiscobcos.Numerals Fiscobcos.RlpFormat Fiscobcos.Rlp Fiscobcos.JsonTree Fiscobcos.FlatJson
open Fiscobcos.Hexutil

theorem validateSignatureValues_iff (v : Byte) (r s : ℤ) (homestead : Bool) :
    validateSignatureValues v r s homestead = true ↔
      (1 ≤ r ∧ r < secp256k1N) ∧ (1 ≤ s ∧ s < secp256k1N) ∧
        (homestead = true → s ≤ secp256k1halfN) ∧ (v = 0 ∨ v = 1) := by
  unfold validateSignatureValues
  by_cases hlow : r < 1 ∨ s < 1
  · rw [if_pos hlow]
    refine iff_of_false Bool.false_ne_true fun h => ?_
    omega
  · rw [if_neg hlow]
    by_cases hhigh : homestead = true ∧ s > secp256k1halfN
    · rw [if_pos hhigh]
      refine iff_of_false Bool.false_ne_true fun h => ?_
      have hle := h.2.2.1 hhigh.1
      omega
    · rw [if_neg hhigh, Bool.and_eq_true, Bool.and_eq_true, Bool.or_eq_true, decide_eq_true_eq,
        decide_eq_true_eq, decide_eq_true_eq, decide_eq_true_eq]
      constructor
      · intro h
        refine ⟨⟨by omega, h.1.1⟩, ⟨by omega, h.1.2⟩, fun hh => ?_, h.2⟩
        by_contra hgt
        exact hhigh ⟨hh, lt_of_not_ge hgt⟩
      · intro h
        exact ⟨⟨h.1.2, h.2.1.2⟩, h.2.2.2⟩

section

variable {Key : Type} (C : Crypto Key)

theorem recoverPlain_invalidSig_iff (h : Hash) (r s vb : ℤ) (homestead : Bool) :
    recoverPlain C h r s vb homestead = .error .invalidSig ↔ 8 < bitLen vb.natAbs ∨
        validateSignatureValues (lowByte (sub64 (uint64Of vb) 27)) r s homestead = false := by
  unfold recoverPlain
  by_cases hbits : 8 < bitLen vb.natAbs
  · rw [if_pos hbits]
    exact iff_of_true rfl (.inl hbits)
  · rw [if_neg hbits, or_iff_right hbits]
    dsimp only
    by_cases hvalid : validateSignatureValues (lowByte (sub64 (uint64Of vb) 27)) r s homestead = false
    · rw [if_pos hvalid]
      exact iff_of_true rfl hvalid
    · rw [if_neg hvalid]
      refine iff_of_false ?_ hvalid
      split
      · nofun
      · split_ifs
        · nofun
        · nofun

theorem recoverPlain_recovery (h : Hash) (r s : ℤ) {v : ℕ} (hv : v = 0 ∨ v = 1) (homestead : Bool) :
    recoverPlain C h r s (27 + v : ℕ) homestead ≠ .error .invalidSig ↔
      (1 ≤ r ∧ r < secp256k1N) ∧ (1 ≤ s ∧ s < secp256k1N) ∧
        (homestead = true → s ≤ secp256k1halfN) := by
  have hbyte : lowByte v = 0 ∨ lowByte v = 1 := by
    rcases hv with rfl | rfl
    · exact .inl rfl
    · exact .inr rfl
  rw [ne_eq, recoverPlain_invalidSig_iff, Int.natAbs_natCast, recoveryByte hv, not_or,
    Bool.not_eq_false, validateSignatureValues_iff]
  constructor
  · intro h
    exact ⟨h.2.1, h.2.2.1, h.2.2.2.1⟩
  · intro h
    exact ⟨not_bitLen_recovery hv, h.1, h.2.1, h.2.2, hbyte⟩

end

theorem signatureValues_eip155 {c : ℤ} (hc : 0 < c) {sig : Bytes} (hlen : sig.length = 65) {v : ℕ}
    (hv : v = 0 ∨ v = 1) (hsig : sig.getD 64 0 = lowByte v) :
    (newEIP155Signer (some c)).signatureValues sig =
      .ok ((beVal (sig.take 32) : ℤ), (beVal ((sig.drop 32).take 32) : ℤ), (35 + v : ℕ) + 2 * c) := by
  have hb : (lowByte v).val = v := lowByte_val_of_lt (by omega)
  have h35 : (lowByte (v + 35)).val = 35 + v := by
    rw [lowByte_val_of_lt (by omega)]
    omega
  have hne : c ≠ 0 := by omega
  simp only [newEIP155Signer, Signer.signatureValues, hlen, ne_eq, not_true_eq_false, if_false,
    hsig, hb, h35, getD_some, hne, not_false_eq_true, if_true]

/-- Whatever the size of the chain id, the `V` that the EIP155 signer stores leads back to the chain
id and to the recovery id, and no signer for another chain takes it. -/
theorem replay_protection {Key : Type} (C : Crypto Key) (tx : Transaction) (c : ℤ) (hc : 0 < c)
    (v : ℕ) (hv : v = 0 ∨ v = 1) (sig : Bytes) (hlen : sig.length = 65)
    (hsig : sig.getD 64 0 = lowByte v) : ∃ r s V : ℤ, V = 35 + v + 2 * c ∧
      (newEIP155Signer (some c)).signatureValues sig = .ok (r, s, V) ∧
      isProtectedV V = true ∧ deriveChainId V = c ∧ V - 2 * c - 8 = 27 + v ∧ ∀ R S : ℤ,
        ((newEIP155Signer (some c)).senderOf C tx R S V =
          recoverPlain C ((newEIP155Signer (some c)).hash C tx) R S (27 + v) true) ∧
        (recoverPlain C ((newEIP155Signer (some c)).hash C tx) R S (27 + v) true ≠
            .error .invalidSig ↔ (1 ≤ R ∧ R < secp256k1N) ∧ 1 ≤ S ∧ S ≤ secp256k1halfN) ∧
        ∀ c' : Option ℤ, c'.getD 0 ≠ c →
          (newEIP155Signer c').senderOf C tx R S V = .error .invalidChainId := by
  have hprot := isProtectedV_eip155 (show 1 ≤ c by omega) v
  have hchain := deriveChainId_eip155 (show 1 ≤ c by omega) hv
  have hcast : (27 : ℤ) + v = (27 + v : ℕ) := by omega
  have hback : ((35 + v : ℕ) : ℤ) + 2 * c - 2 * c - 8 = 27 + v := by omega
  refine ⟨_, _, (35 + v : ℕ) + 2 * c, by omega, signatureValues_eip155 hc hlen hv hsig, hprot, hchain,
    hback, fun R S => ⟨?_, ?_, fun c' hc' => ?_⟩⟩
  · simp only [newEIP155Signer, getD_some, Signer.senderOf, hprot, hchain, hback, ne_eq,
      not_true_eq_false, Bool.true_eq_false, if_false]
  · have hhalf : secp256k1halfN < secp256k1N := by decide
    rw [hcast, recoverPlain_recovery C _ R S hv]
    constructor
    · intro h
      exact ⟨h.1, h.2.1.1, h.2.2 rfl⟩
    · intro h
      exact ⟨h.1, ⟨h.2.1, by omega⟩, fun _ => h.2.2⟩
  · simp only [newEIP155Signer, Signer.senderOf, hprot, hchain, Bool.true_eq_false, if_false]
    rw [if_pos (Ne.symm hc')]

theorem replay_protection_large : deriveChainId (36 + 2 * 2 ^ 70) = 2 ^ 70 ∧
      (newEIP155Signer (some 1)).senderOf twoKeys (transfer 1) 1 1 (36 + 2 * 2 ^ 70) =
        .error .invalidChainId := by
  obtain ⟨r, s, V, hV, -, -, hchain, -, hrest⟩ :=
    replay_protection twoKeys (transfer 1) (2 ^ 70) (by norm_num) 1 (.inr rfl)
      (List.replicate 65 1) (by decide) (by decide)
  subst hV
  exact ⟨hchain, (hrest 1 1).2.2 (some 1) (by decide)⟩

theorem bigText_nonneg {input : Bytes} {z : ℤ} (h : bigText input = .ok z) : 0 ≤ z := by
  unfold bigText at h
  cases hraw : checkNumberText input with
  | error e =>
    rw [hraw] at h
    cases h
  | ok raw =>
    rw [hraw] at h
    dsimp only at h
    split_ifs at h
    split at h
    · cases h
    · cases h
      exact Int.natCast_nonneg _

def NonNegPtr (v : Option ℤ) : Prop := ∀ z, v = some z → 0 ≤ z

theorem pointer_bigText {raw : Bytes} {v : Option ℤ} (h : pointer bigText raw = .ok v) :
    NonNegPtr v := by
  intro z hz
  subst hz
  unfold pointer at h
  split_ifs at h with hnull
  · cases h
  · unfold unmarshalJSON at h
    split_ifs at h with hstr
    · cases htext : bigText (raw.drop 1).dropLast with
      | error e =>
        rw [htext] at h
        cases h
      | ok w =>
        rw [htext] at h
        cases h
        exact bigText_nonneg htext
    · cases h

structure TxJson.NonNegSignature (d : TxJson) : Prop where
  v : NonNegPtr d.v
  r : NonNegPtr d.r
  s : NonNegPtr d.s

theorem map_eq_ok {ε α β : Type} {f : α → β} {x : Except ε α} {y : β} (h : x.map f = .ok y) :
    ∃ a, x = .ok a ∧ f a = y := by
  cases x with
  | error e => cases h
  | ok a =>
    cases h
    exact ⟨a, rfl, rfl⟩

theorem TxJson.NonNegSignature.store {d d' : TxJson} (hd : d.NonNegSignature) {raw : Bytes}
    {f : TxField} (h : d.store raw f = .ok d') : d'.NonNegSignature := by
  cases f with
  | v =>
    obtain ⟨x, hx, rfl⟩ := map_eq_ok h
    exact ⟨pointer_bigText hx, hd.r, hd.s⟩
  | r =>
    obtain ⟨x, hx, rfl⟩ := map_eq_ok h
    exact ⟨hd.v, pointer_bigText hx, hd.s⟩
  | s =>
    obtain ⟨x, hx, rfl⟩ := map_eq_ok h
    exact ⟨hd.v, hd.r, pointer_bigText hx⟩
  | _ =>
    obtain ⟨x, hx, rfl⟩ := map_eq_ok h
    exact ⟨hd.v, hd.r, hd.s⟩

theorem TxJson.NonNegSignature.fill {ms : List (Bytes × Bytes)} {d d' : TxJson}
    (hd : d.NonNegSignature) (h : TxJson.fill ms d = .ok d') : d'.NonNegSignature := by
  induction ms generalizing d with
  | nil =>
    cases h
    exact hd
  | cons m ms ih =>
    obtain ⟨key, raw⟩ := m
    unfold TxJson.fill at h
    cases hf : TxField.forKey key with
    | none =>
      rw [hf] at h
      exact ih hd h
    | some f =>
      rw [hf] at h
      dsimp only at h
      cases hstore : d.store raw f with
      | error e =>
        rw [hstore] at h
        cases h
      | ok d₁ =>
        rw [hstore] at h
        exact ih (hd.store hstore) h

theorem toData_signature {d : TxJson} {data : TxData} (h : d.toData = .ok data) :
    data.v = d.v ∧ data.r = d.r ∧ data.s = d.s ∧ data.v.isSome ∧ data.r.isSome ∧ data.s.isSome := by
  obtain ⟨randomId, price, gasLimit, _, amount, payload, v, r, s, _⟩ := d
  -- a required field that is missing ends the function
  cases randomId with
  | none => cases h
  | some _ =>
  cases price with
  | none => cases h
  | some _ =>
  cases gasLimit with
  | none => cases h
  | some _ =>
  cases amount with
  | none => cases h
  | some _ =>
  cases payload with
  | none => cases h
  | some _ =>
  cases v with
  | none => cases h
  | some _ =>
  cases r with
  | none => cases h
  | some _ =>
  cases s with
  | none => cases h
  | some _ =>
  cases h
  exact ⟨rfl, rfl, rfl, rfl, rfl, rfl⟩

theorem unmarshalJSON_signature {R : ObjectReader} {input : Bytes} {tx : Transaction}
    (h : Transaction.unmarshalJSON R input = .ok tx) :
    ∃ n r s : ℕ, tx.data.v = some n ∧ tx.data.r = some r ∧ tx.data.s = some s ∧
      ((n ≠ 0 ∨ r ≠ 0 ∨ s ≠ 0) → (1 ≤ r ∧ r < secp256k1N) ∧ (1 ≤ s ∧ s < secp256k1N)) := by
  unfold Transaction.unmarshalJSON at h
  cases hdata : TxData.unmarshalJSON R input with
  | error e =>
    rw [hdata] at h
    cases h
  | ok data =>
    rw [hdata] at h
    dsimp only at h
    split_ifs at h with hcheck
    cases h
    unfold TxData.unmarshalJSON at hdata
    cases hms : R.members input with
    | none =>
      rw [hms] at hdata
      cases hdata
    | some ms =>
      rw [hms] at hdata
      dsimp only at hdata
      cases hfill : TxJson.fill ms .zero with
      | error e =>
        rw [hfill] at hdata
        cases hdata
      | ok d =>
        rw [hfill] at hdata
        have hnn : d.NonNegSignature :=
          TxJson.NonNegSignature.fill (d := .zero) ⟨nofun, nofun, nofun⟩ hfill
        obtain ⟨hv, hr, hs, hvs, hrs, hss⟩ := toData_signature hdata
        obtain ⟨v, hv'⟩ := isSome_iff_exists.mp hvs
        obtain ⟨r, hr'⟩ := isSome_iff_exists.mp hrs
        obtain ⟨s, hs'⟩ := isSome_iff_exists.mp hss
        obtain ⟨n, rfl⟩ := Int.eq_ofNat_of_zero_le (hnn.v v (hv.symm.trans hv'))
        obtain ⟨r, rfl⟩ := Int.eq_ofNat_of_zero_le (hnn.r r (hr.symm.trans hr'))
        obtain ⟨s, rfl⟩ := Int.eq_ofNat_of_zero_le (hnn.s s (hs.symm.trans hs'))
        refine ⟨n, r, s, hv', hr', hs', fun hne => ?_⟩
        have hsigned : (n : ℤ) ≠ 0 ∨ (r : ℤ) ≠ 0 ∨ (s : ℤ) ≠ 0 := by omega
        simp only [checkSignature, hv', hr', hs', getD_some, if_pos hsigned,
          validateSignatureValues_iff] at hcheck
        obtain ⟨hr1, hs1, -⟩ := hcheck
        omega

theorem deriveChainId_of_le {n : ℕ} (h : 35 ≤ n) : deriveChainId n = ((n - 35) / 2 : ℕ) := by
  unfold deriveChainId uint64Of
  simp only [Int.natAbs_natCast]
  split_ifs with h64 h27
  · have hlt := (bitLen_le n 64).mp h64
    rw [Nat.mod_eq_of_lt hlt] at h27
    omega
  · have hlt := (bitLen_le n 64).mp h64
    rw [Nat.mod_eq_of_lt hlt, Stream.sub64_of_le h hlt]
  · omega

theorem deriveChainId_of_lt {n : ℕ} (h : n < 35) (hp : n ≠ 27 ∧ n ≠ 28) :
    deriveChainId n = ((2 ^ 64 + n - 35) / 2 : ℕ) := by
  have h64 : bitLen n ≤ 64 := (bitLen_le n 64).mpr (by omega)
  have hmod : n % 2 ^ 64 = n := Nat.mod_eq_of_lt (by omega)
  have hne : ¬ (n = 27 ∨ n = 28) := by omega
  unfold deriveChainId uint64Of
  simp only [Int.natAbs_natCast, if_pos h64, hmod, if_neg hne, sub64]
  have hsub : (n + (2 ^ 64 - 35)) % 2 ^ 64 = 2 ^ 64 + n - 35 := by omega
  rw [hsub]

section

variable {Key : Type} (C : Crypto Key) (tx : Transaction) (r s : ℤ)

theorem senderOf_eip155_derived {n : ℕ} (hp : n ≠ 27 ∧ n ≠ 28) :
    (Signer.eip155 (deriveChainId n)).senderOf C tx r s n =
      recoverPlain C ((Signer.eip155 (deriveChainId n)).hash C tx) r s
        (n - 2 * deriveChainId n - 8) true := by
  simp only [Signer.senderOf, (isProtectedV_nat n).mpr hp, Bool.true_eq_false, if_false, ne_eq,
    not_true_eq_false]

theorem senderOf_eip155_small {n : ℕ} (h : n < 35) (hp : n ≠ 27 ∧ n ≠ 28) :
    (Signer.eip155 (deriveChainId n)).senderOf C tx r s n = .error .invalidSig := by
  rw [senderOf_eip155_derived C tx r s hp, recoverPlain_invalidSig_iff]
  left
  rw [deriveChainId_of_lt h hp]
  by_contra hbits
  have hlt := (bitLen_le _ 8).mp (Nat.le_of_not_lt hbits)
  omega

theorem senderOf_eip155_iff {n : ℕ} (hp : n ≠ 27 ∧ n ≠ 28) (hr : 1 ≤ r ∧ r < secp256k1N)
    (hs : 1 ≤ s ∧ s < secp256k1N) :
    (Signer.eip155 (deriveChainId n)).senderOf C tx r s n ≠ .error .invalidSig ↔
      35 ≤ n ∧ s ≤ secp256k1halfN := by
  by_cases hn : 35 ≤ n
  · have hpar : (n - 35) % 2 = 0 ∨ (n - 35) % 2 = 1 := by omega
    have hback : (n : ℤ) - 2 * ((n - 35) / 2 : ℕ) - 8 = (27 + (n - 35) % 2 : ℕ) := by omega
    rw [senderOf_eip155_derived C tx r s hp, deriveChainId_of_le hn, hback,
      recoverPlain_recovery C _ r s hpar]
    constructor
    · intro h
      exact ⟨hn, h.2.2 rfl⟩
    · intro h
      exact ⟨hr, hs, fun _ => h.2⟩
  · refine iff_of_false (not_not.mpr ?_) fun h => hn h.1
    exact senderOf_eip155_small C tx r s (Nat.lt_of_not_le hn) hp

theorem senderOf_frontier_passes {n : ℕ} (hn : n = 27 ∨ n = 28) (hr : 1 ≤ r ∧ r < secp256k1N)
    (hs : 1 ≤ s ∧ s < secp256k1N) : Signer.frontier.senderOf C tx r s n ≠ .error .invalidSig := by
  obtain ⟨v, hv, rfl⟩ : ∃ v, (v = 0 ∨ v = 1) ∧ n = 27 + v := ⟨n - 27, by omega, by omega⟩
  exact (recoverPlain_recovery C _ r s hv false).mpr ⟨hr, hs, nofun⟩

end

/-- The signature values of an accepted transaction pass the check of the signer that its `V` asks
for, exactly if `V` is 27 or 28, or is at least 35 with an `S` in the lower half. -/
theorem json_signature_recovers_iff {Key : Type} (C : Crypto Key) (R : ObjectReader)
    (input : Bytes) (tx : Transaction) (h : Transaction.unmarshalJSON R input = .ok tx)
    (v r s : ℤ) (hv : tx.data.v = some v) (hr : tx.data.r = some r) (hs : tx.data.s = some s)
    (hne : v ≠ 0 ∨ r ≠ 0 ∨ s ≠ 0) : ((isProtectedV v = true → 35 ≤ v ∧
        (Signer.eip155 (deriveChainId v)).senderOf C tx r s v ≠ .error .invalidSig) ∧
      (isProtectedV v = false → Signer.frontier.senderOf C tx r s v ≠ .error .invalidSig)) ↔
      (v = 27 ∨ v = 28) ∨ (35 ≤ v ∧ s ≤ secp256k1halfN) := by
  obtain ⟨n, r', s', hv', hr', hs', hrange⟩ := unmarshalJSON_signature h
  obtain rfl : v = n := some.inj (hv.symm.trans hv')
  obtain rfl : r = r' := some.inj (hr.symm.trans hr')
  obtain rfl : s = s' := some.inj (hs.symm.trans hs')
  obtain ⟨hrN, hsN⟩ := hrange (by omega)
  have hrZ : 1 ≤ (r' : ℤ) ∧ (r' : ℤ) < secp256k1N := by omega
  have hsZ : 1 ≤ (s' : ℤ) ∧ (s' : ℤ) < secp256k1N := by omega
  by_cases hp : n ≠ 27 ∧ n ≠ 28
  · have hprot := (isProtectedV_nat n).mpr hp
    rw [hprot, senderOf_eip155_iff C tx r' s' hp hrZ hsZ]
    constructor
    · intro hall
      have h35 := (hall.1 rfl).2
      omega
    · intro hcond
      refine ⟨fun _ => ?_, nofun⟩
      omega
  · have hn : n = 27 ∨ n = 28 := by omega
    have hprot : isProtectedV n = false := by
      rw [← Bool.not_eq_true, isProtectedV_nat]
      exact hp
    refine iff_of_true ⟨fun hf => ?_, fun _ => senderOf_frontier_passes C tx r' s' hn hrZ hsZ⟩ ?_
    · rw [hprot] at hf
      exact absurd hf Bool.false_ne_true
    · omega

def paymentSigned (v s : ℤ) : Transaction := (newTransaction none (payment 1)).signed 1 s v

theorem paymentSigned_reads {v s : ℤ} (hv : 0 ≤ v ∧ v < 2 ^ 256) (hs : 1 ≤ s ∧ s < secp256k1N) :
    ∃ tx, Transaction.unmarshalJSON flatReader
        ((paymentSigned v s).marshalJSON fun _ => fillArray 32 []) = .ok tx ∧
      tx.data.v = some v ∧ tx.data.r = some 1 ∧ tx.data.s = some s := by
  have hpay := payment_inBig256 1 (by norm_num)
  have hN : (secp256k1N : ℤ) < 2 ^ 256 := by decide
  have hbig : ∀ z : ℤ, 0 ≤ z ∧ z < 2 ^ 256 → InBig256 (some z) := by
    intro z hz w hw
    cases hw
    exact hz
  have hdata : (paymentSigned v s).data.InBig256 :=
    ⟨hpay.price, hpay.amount, hpay.chainId, hpay.groupId, hbig v hv, hbig 1 (by norm_num),
      hbig s (by omega)⟩
  have hone : (1 : ℤ) < secp256k1N := by decide
  have hcheck : checkSignature (paymentSigned v s).data = true :=
    checkSignature_of_range (d := (paymentSigned v s).data) hv.1 ⟨le_rfl, hone⟩ hs
  exact ⟨_, unmarshalJSON_reread flatReader _ hdata rfl rfl rfl rfl rfl hcheck, rfl, rfl, rfl⟩

/-- A transaction with `V` zero is accepted and counts as protected, but no signer takes its
values. -/
theorem json_accepts_zero_v : ∃ tx, Transaction.unmarshalJSON flatReader
        ((paymentSigned 0 1).marshalJSON fun _ => fillArray 32 []) = .ok tx ∧
      tx.data.v = some 0 ∧ tx.data.r = some 1 ∧ tx.data.s = some 1 ∧ isProtectedV 0 = true ∧
      ∀ (Key : Type) (C : Crypto Key) (σ : Signer),
        σ.senderOf C tx 1 1 0 = .error .invalidSig ∨ σ.senderOf C tx 1 1 0 = .error .invalidChainId := by
  obtain ⟨tx, hread, hv, hr, hs⟩ := paymentSigned_reads (v := 0) (s := 1) (by norm_num) (by decide)
  refine ⟨tx, hread, hv, hr, hs, rfl, fun Key C σ => ?_⟩
  have hplain : ∀ h homestead, recoverPlain C h 1 1 0 homestead = .error .invalidSig := by
    intro h homestead
    rw [recoverPlain_invalidSig_iff]
    right
    cases homestead with
    | false | true => decide
  cases σ with
  | frontier | homestead => exact .inl (hplain _ _)
  | eip155 c =>
    by_cases hc : deriveChainId 0 = c
    · subst hc
      exact .inl (senderOf_eip155_small C tx 1 1 (n := 0) (by norm_num) (by norm_num))
    · right
      simp only [Signer.senderOf, show isProtectedV 0 = true from rfl, Bool.true_eq_false, if_false,
        ne_eq, hc, not_false_eq_true, if_true]

theorem json_signature_recovers_protected : ∃ tx, Transaction.unmarshalJSON flatReader
        ((paymentSigned 37 1).marshalJSON fun _ => fillArray 32 []) = .ok tx ∧
      (Signer.eip155 (deriveChainId 37)).senderOf twoKeys tx 1 1 37 ≠ .error .invalidSig := by
  obtain ⟨tx, hread, hv, hr, hs⟩ := paymentSigned_reads (v := 37) (s := 1) (by norm_num) (by decide)
  have hall := (json_signature_recovers_iff twoKeys flatReader _ tx hread 37 1 1 hv hr hs
    (.inl (by norm_num))).mpr (.inr ⟨by norm_num, by decide⟩)
  exact ⟨tx, hread, (hall.1 rfl).2⟩

end Fiscobcos.Types
