import Fiscobcos.Lib.Keccak
import Fiscobcos.Types.Signing

/-! # Signing and recovering the sender (core/types/transaction_signing.go, crypto/crypto.go)

A `Crypto` carries what is assumed of the curve and the hash function. -/

namespace Fiscobcos.Types
open List Signer

open Fiscobcos.Numerals Fiscobcos.RlpFormat Fiscobcos.Rlp

def secp256k1N : ℕ := 0xfffffffffffffffffffffffffffffffebaaedce6af48a03bbfd25e8cd0364141
def secp256k1halfN : ℕ := secp256k1N / 2

/-- A signature is `r || s || v` in canonical form, and recovering from it gives the public key in
uncompressed form. -/
structure Crypto (Key : Type) where
  keccak256 : Bytes → Hash
  sign : Hash → Key → Except String Bytes
  ecrecover : Hash → Bytes → Except String Bytes
  publicKey : Key → Bytes
  publicKey_form : ∀ k, ∃ xy, publicKey k = 4 :: xy ∧ xy.length = 64
  sign_form : ∀ h k, ∃ r s v : ℕ, sign h k = .ok (beBytes 32 r ++ beBytes 32 s ++ [lowByte v]) ∧
    1 ≤ r ∧ r < secp256k1N ∧ 1 ≤ s ∧ s ≤ secp256k1halfN ∧ (v = 0 ∨ v = 1)
  recover_sign : ∀ h k sig, sign h k = .ok sig → ecrecover h sig = .ok (publicKey k)

/-- The last two are the run-time panics of the source. -/
inductive SigningError where
  | invalidSig
  | invalidChainId
  | invalidPublicKey
  | crypto (msg : String)
  | wrongSize
  | nilPointer
deriving DecidableEq

def SigningError.message : SigningError → String
  | .invalidSig => "invalid transaction v, r, s values"
  | .invalidChainId => "invalid chain id for signer"
  | .invalidPublicKey => "invalid public key"
  | .crypto msg => msg
  | .wrongSize => "wrong size for signature"
  | .nilPointer => "invalid memory address or nil pointer dereference"

def addressOfHash (h : Hash) : Address := ⟨h.val.drop 12, by rw [List.length_drop, h.property]⟩

def Crypto.pubkeyToAddress {Key : Type} (C : Crypto Key) (k : Key) : Address :=
  addressOfHash (C.keccak256 ((C.publicKey k).drop 1))

def uint64Of (v : ℤ) : ℕ := v.natAbs % 2 ^ 64

def isProtectedV (v : ℤ) : Bool :=
  if bitLen v.natAbs ≤ 8 then uint64Of v ≠ 27 && uint64Of v ≠ 28 else true

def deriveChainId (v : ℤ) : ℤ :=
  if bitLen v.natAbs ≤ 64 then
    if uint64Of v = 27 ∨ uint64Of v = 28 then 0 else (sub64 (uint64Of v) 35 / 2 : ℕ)
  else (v - 35) / 2

def validateSignatureValues (v : Byte) (r s : ℤ) (homestead : Bool) : Bool :=
  if r < 1 ∨ s < 1 then false
  else if homestead ∧ s > secp256k1halfN then false
  else r < secp256k1N && s < secp256k1N && (v = 0 || v = 1)

def padLeft (n : ℕ) (bs : Bytes) : Bytes := List.replicate (n - bs.length) 0 ++ bs

section

variable {Key : Type} (C : Crypto Key)

def Signer.hash (σ : Signer) (tx : Transaction) : Hash := C.keccak256 (σ.hashInput tx.data)

def recoverPlain (sighash : Hash) (r s vb : ℤ) (homestead : Bool) : Except SigningError Address :=
  if 8 < bitLen vb.natAbs then .error .invalidSig
  else
    let v := lowByte (sub64 (uint64Of vb) 27)
    if validateSignatureValues v r s homestead = false then .error .invalidSig
    else
      match C.ecrecover sighash
        (padLeft 32 (minBytes r.natAbs) ++ padLeft 32 (minBytes s.natAbs) ++ [v]) with
      | .error e => .error (.crypto e)
      | .ok pub =>
        if pub.head? ≠ some 4 then .error .invalidPublicKey
        else .ok (addressOfHash (C.keccak256 (pub.drop 1)))

def Signer.senderOf (σ : Signer) (tx : Transaction) (r s v : ℤ) : Except SigningError Address :=
  match σ with
  | .frontier => recoverPlain C (Signer.frontier.hash C tx) r s v false
  | .homestead => recoverPlain C (Signer.homestead.hash C tx) r s v true
  | .eip155 chainId =>
    if isProtectedV v = false then recoverPlain C (Signer.homestead.hash C tx) r s v true
    else if deriveChainId v ≠ chainId then .error .invalidChainId
    else recoverPlain C ((Signer.eip155 chainId).hash C tx) r s (v - 2 * chainId - 8) true

def Signer.equal : Signer → Signer → Bool
  | .frontier, .frontier => true
  | .homestead, .homestead => true
  | .eip155 c, .eip155 c' => c = c'
  | _, _ => false

/-- How the recovery ends when `R` or `S` is nil: `V` is looked at before them, and
`S` only if `R` is in range. -/
def Signer.withoutValue (σ : Signer) (r : Option ℤ) (v : ℤ) : SigningError :=
  let plain (vb : ℤ) : SigningError :=
    if 8 < bitLen vb.natAbs then .invalidSig
    else if r.any (· < 1) then .invalidSig
    else .nilPointer
  match σ with
  | .frontier | .homestead => plain v
  | .eip155 chainId =>
    if isProtectedV v = false then plain v
    else if deriveChainId v ≠ chainId then .invalidChainId
    else plain (v - 2 * chainId - 8)

def deriveSender (σ : Signer) (tx : Transaction) : Except SigningError Address × Transaction :=
  match tx.data.v with
  | none => (.error .nilPointer, tx)
  | some v =>
    match tx.data.r, tx.data.s with
    | some r, some s =>
      match σ.senderOf C tx r s v with
      | .error e => (.error e, tx)
      | .ok addr => (.ok addr, { tx with sender := some ⟨σ, addr⟩ })
    | r, _ => (.error (σ.withoutValue r v), tx)

theorem deriveSender_cases (σ : Signer) (tx : Transaction) :
    (∃ e, deriveSender C σ tx = (.error e, tx)) ∨
      ∃ addr, deriveSender C σ tx = (.ok addr, { tx with sender := some ⟨σ, addr⟩ }) := by
  unfold deriveSender
  split
  · exact .inl ⟨_, rfl⟩
  · split
    · split
      · exact .inl ⟨_, rfl⟩
      · exact .inr ⟨_, rfl⟩
    · exact .inl ⟨_, rfl⟩

/-- `Sender`, with the transaction after it: the address is cached. -/
def sender (σ : Signer) (tx : Transaction) : Except SigningError Address × Transaction :=
  match tx.sender with
  | none => deriveSender C σ tx
  | some sc => if sc.signer.equal σ then (.ok sc.sender, tx) else deriveSender C σ tx

def Signer.signatureValues (σ : Signer) (sig : Bytes) : Except SigningError (ℤ × ℤ × ℤ) :=
  if sig.length ≠ 65 then .error .wrongSize
  else
    let r : ℤ := beVal (sig.take 32)
    let s : ℤ := beVal ((sig.drop 32).take 32)
    let b := (sig.getD 64 0).val
    match σ with
    | .frontier | .homestead => .ok (r, s, (lowByte (b + 27)).val)
    | .eip155 chainId =>
      if chainId ≠ 0 then .ok (r, s, (lowByte (b + 35)).val + 2 * chainId)
      else .ok (r, s, (lowByte (b + 27)).val)

def Transaction.signed (tx : Transaction) (r s v : ℤ) : Transaction :=
  { data := { tx.data with r := some r, s := some s, v := some v }
    hash := none
    size := none
    sender := none }

def Transaction.withSignature (tx : Transaction) (σ : Signer) (sig : Bytes) :
    Except SigningError Transaction :=
  match σ.signatureValues sig with
  | .error e => .error e
  | .ok (r, s, v) => .ok (tx.signed r s v)

def signTx (tx : Transaction) (σ : Signer) (k : Key) : Except SigningError Transaction :=
  match C.sign (σ.hash C tx) k with
  | .error e => .error (.crypto e)
  | .ok sig => tx.withSignature σ sig

end

theorem secp256k1N_lt : secp256k1N < 256 ^ 32 := by decide

variable {r : ℕ}

theorem padLeft_minBytes (h : r < 256 ^ 32) : padLeft 32 (minBytes r) = beBytes 32 r := by
  have hval : beVal (beBytes 32 r) = r := beVal_beBytes_of_lt 32 r h
  have hpad := replicate_minBytes (beBytes 32 r)
  rw [hval, beBytes_length] at hpad
  rw [padLeft, minBytes_length, hpad]

variable {v : ℕ}

theorem recoveryByte (hv : v = 0 ∨ v = 1) :
    lowByte (sub64 (uint64Of ((27 + v : ℕ) : ℤ)) 27) = lowByte v := by
  rw [uint64Of, Int.natAbs_natCast, Nat.mod_eq_of_lt (by omega),
    Stream.sub64_of_le (by omega) (by omega), Nat.add_sub_cancel_left]

theorem not_bitLen_recovery (hv : v = 0 ∨ v = 1) : ¬ 8 < bitLen (27 + v) := by
  have := (bitLen_le (27 + v) 8).mpr (by omega)
  omega

variable {Key : Type} {s : ℕ}

theorem recoverPlain_canonical (C : Crypto Key) (h : Hash) (hr : 1 ≤ r)
    (hrN : r < secp256k1N) (hs : 1 ≤ s) (hsN : s ≤ secp256k1halfN) (hv : v = 0 ∨ v = 1)
    {pub : Bytes} (hrec : C.ecrecover h (beBytes 32 r ++ beBytes 32 s ++ [lowByte v]) = .ok pub)
    (hpub : pub.head? = some 4) (homestead : Bool) : recoverPlain C h r s (27 + v : ℕ) homestead =
      .ok (addressOfHash (C.keccak256 (pub.drop 1))) := by
  have hhalf : secp256k1halfN < secp256k1N := by decide
  have hN := secp256k1N_lt
  have hbits := not_bitLen_recovery hv
  have hvb := recoveryByte hv
  have hvalid : validateSignatureValues (lowByte v) r s homestead = true := by
    have h1 : ¬ ((r : ℤ) < 1 ∨ (s : ℤ) < 1) := by omega
    have h2 : ¬ (homestead = true ∧ (s : ℤ) > secp256k1halfN) := by omega
    have h3 : (lowByte v) = 0 ∨ (lowByte v) = 1 := by
      rcases hv with rfl | rfl
      · exact .inl rfl
      · exact .inr rfl
    simp only [validateSignatureValues, if_neg h1, if_neg h2, Bool.and_eq_true, Bool.or_eq_true,
      decide_eq_true_eq]
    exact ⟨⟨by omega, by omega⟩, h3⟩
  simp only [recoverPlain, Int.natAbs_natCast, if_neg hbits, hvb, hvalid, Bool.true_eq_false,
    if_false, padLeft_minBytes (show r < 256 ^ 32 by omega),
    padLeft_minBytes (show s < 256 ^ 32 by omega), hrec, hpub, ne_eq, not_true_eq_false]

theorem recoverPlain_sign (C : Crypto Key) (h : Hash) (k : Key)
    (hsig : C.sign h k = .ok (beBytes 32 r ++ beBytes 32 s ++ [lowByte v])) (hr : 1 ≤ r)
    (hrN : r < secp256k1N) (hs : 1 ≤ s) (hsN : s ≤ secp256k1halfN) (hv : v = 0 ∨ v = 1)
    (homestead : Bool) :
    recoverPlain C h r s (27 + v : ℕ) homestead = .ok (C.pubkeyToAddress k) := by
  obtain ⟨xy, hpub, -⟩ := C.publicKey_form k
  exact recoverPlain_canonical C h hr hrN hs hsN hv (C.recover_sign h k _ hsig) (by rw [hpub]; rfl)
    homestead

theorem signatureValues_sign (hr : r < 256 ^ 32) (hs : s < 256 ^ 32)
    (hv : v = 0 ∨ v = 1) (σ : Signer) :
    σ.signatureValues (beBytes 32 r ++ beBytes 32 s ++ [lowByte v]) = .ok ((r : ℤ), (s : ℤ),
      match σ with
      | .eip155 c => if c ≠ 0 then (35 + v : ℕ) + 2 * c else ((27 + v : ℕ) : ℤ)
      | _ => ((27 + v : ℕ) : ℤ)) := by
  have hlen : (beBytes 32 r ++ beBytes 32 s ++ [lowByte v]).length = 65 := by simp
  have htake : (beBytes 32 r ++ beBytes 32 s ++ [lowByte v]).take 32 = beBytes 32 r := by
    rw [append_assoc, take_left' (by simp)]
  have hdrop : ((beBytes 32 r ++ beBytes 32 s ++ [lowByte v]).drop 32).take 32 = beBytes 32 s := by
    rw [append_assoc, drop_left' (by simp), take_left' (by simp)]
  have hget : (beBytes 32 r ++ beBytes 32 s ++ [lowByte v]).getD 64 0 = lowByte v := by
    rw [getD_eq_getElem?_getD, getElem?_append_right (by simp)]
    simp
  have hb : (lowByte v).val = v := lowByte_val_of_lt (by omega)
  have h27 : (lowByte (v + 27)).val = 27 + v := by
    rw [lowByte_val_of_lt (by omega)]
    omega
  have h35 : (lowByte (v + 35)).val = 35 + v := by
    rw [lowByte_val_of_lt (by omega)]
    omega
  simp only [signatureValues, hlen, htake, hdrop, hget, hb, h27, h35,
    beVal_beBytes_of_lt 32 r hr, beVal_beBytes_of_lt 32 s hs, ne_eq, not_true_eq_false, if_false]
  cases σ with
  | frontier => rfl
  | homestead => rfl
  | eip155 c =>
    by_cases hc : c = 0
    · simp [hc]
    · simp [hc]

section

variable {Key : Type} (C : Crypto Key)

theorem Signer.hash_signed (σ : Signer) (tx : Transaction) (r s v : ℤ) :
    σ.hash C (tx.signed r s v) = σ.hash C tx := by
  cases σ <;> rfl

theorem sender_signed (σ : Signer) (tx : Transaction) (r s v : ℤ) :
    (sender C σ (tx.signed r s v)).1 = σ.senderOf C (tx.signed r s v) r s v := by
  simp only [sender, deriveSender, Transaction.signed]
  split <;> simp_all

def Signer.storedV (σ : Signer) (v : ℕ) : ℤ :=
  match σ with
  | .eip155 c => if c ≠ 0 then (35 + v : ℕ) + 2 * c else (27 + v : ℕ)
  | _ => (27 + v : ℕ)

theorem signTx_eq (tx : Transaction) (σ : Signer) (k : Key)
    (hsig : C.sign (σ.hash C tx) k = .ok (beBytes 32 r ++ beBytes 32 s ++ [lowByte v]))
    (hr : r < 256 ^ 32) (hs : s < 256 ^ 32) (hv : v = 0 ∨ v = 1) :
    signTx C tx σ k = .ok (tx.signed r s (σ.storedV v)) := by
  simp only [signTx, hsig, Transaction.withSignature, signatureValues_sign hr hs hv σ]
  cases σ <;> rfl

end

theorem isProtectedV_eip155 {c : ℤ} (hc : 1 ≤ c) (v : ℕ) :
    isProtectedV ((35 + v : ℕ) + 2 * c) = true := by
  unfold isProtectedV uint64Of
  split_ifs with h
  · have hlt := (bitLen_le _ 8).mp h
    rw [Nat.mod_eq_of_lt (by omega)]
    simp only [Bool.and_eq_true, decide_eq_true_eq]
    omega
  · rfl

theorem deriveChainId_eip155 {c : ℤ} (hc : 1 ≤ c) (hv : v = 0 ∨ v = 1) :
    deriveChainId ((35 + v : ℕ) + 2 * c) = c := by
  unfold deriveChainId uint64Of
  split_ifs with h h27
  · have hlt := (bitLen_le _ 64).mp h
    rw [Nat.mod_eq_of_lt hlt] at h27
    omega
  · have hlt := (bitLen_le _ 64).mp h
    rw [Nat.mod_eq_of_lt hlt, Stream.sub64_of_le (by omega) hlt]
    omega
  · omega

theorem signTx_sender (C : Crypto Key) (tx : Transaction) (k : Key) (σ : Signer)
    (hσ : ∀ c, σ = .eip155 c → 1 ≤ c) :
    ∃ tx', signTx C tx σ k = .ok tx' ∧ (sender C σ tx').1 = .ok (C.pubkeyToAddress k) := by
  have hN := secp256k1N_lt
  have hhalf : secp256k1halfN < secp256k1N := by decide
  obtain ⟨r, s, v, hsig, hr, hrN, hs, hsN, hv⟩ := C.sign_form (σ.hash C tx) k
  have hrec := recoverPlain_sign C (σ.hash C tx) k hsig hr hrN hs hsN hv
  refine ⟨_, signTx_eq C tx σ k hsig (by omega) (by omega) hv, ?_⟩
  rw [sender_signed]
  cases σ with
  | frontier =>
    simp only [senderOf, hash_signed]
    exact hrec false
  | homestead =>
    simp only [senderOf, hash_signed]
    exact hrec true
  | eip155 c =>
    have hc := hσ c rfl
    have hstored : (eip155 c).storedV v = (35 + v : ℕ) + 2 * c :=
      if_pos (show c ≠ 0 by omega)
    have hback : ((35 + v : ℕ) : ℤ) + 2 * c - 2 * c - 8 = (27 + v : ℕ) := by omega
    rw [hstored]
    simp only [senderOf, isProtectedV_eip155 hc, deriveChainId_eip155 hc hv, ne_eq,
      not_true_eq_false, Bool.true_eq_false, if_false, hash_signed, hback]
    exact hrec true

theorem senderOf_eip155_zero (C : Crypto Key) (tx : Transaction) (r s : ℤ) (hv : v = 0 ∨ v = 1) :
    (eip155 0).senderOf C tx r s (27 + v : ℕ) =
      recoverPlain C (homestead.hash C tx) r s (27 + v : ℕ) true := by
  have hp : isProtectedV ((27 + v : ℕ) : ℤ) = false := by
    rcases hv with rfl | rfl <;> decide
  simp only [senderOf, hp, if_true]

def flatHash (b : Byte) : Hash := ⟨List.replicate 32 b, by simp⟩

def oneSig (r : ℕ) : Bytes := beBytes 32 r ++ beBytes 32 1 ++ [0]

def flatKey (b : Byte) : Bytes := 4 :: List.replicate 64 b

/-- A library that meets the assumptions and whose hash tells the input `p` from every other:
recovering with another hash than the one that was signed gives another public key. -/
def tellingCrypto (p : Bytes) : Crypto Unit where
  keccak256 b := if b = p then flatHash 1 else if b = List.replicate 64 0 then flatHash 2
    else flatHash 3
  sign h _ := .ok (oneSig (if h = flatHash 1 then 1 else 2))
  ecrecover h sig :=
    .ok (if sig = oneSig (if h = flatHash 1 then 1 else 2) then flatKey 0 else flatKey 1)
  publicKey _ := flatKey 0
  publicKey_form _ := ⟨_, rfl, by simp⟩
  sign_form h _ := by
    refine ⟨if h = flatHash 1 then 1 else 2, 1, 0, rfl, ?_⟩
    split_ifs <;> decide
  recover_sign h _ sig hsig := by
    simp only [Except.ok.injEq] at hsig
    rw [if_pos hsig.symm]

theorem tellingCrypto_keccak256 (p b : Bytes) : (tellingCrypto p).keccak256 b =
    if b = p then flatHash 1 else if b = replicate 64 0 then flatHash 2 else flatHash 3 := rfl

theorem tellingCrypto_ecrecover (p : Bytes) (h : Hash) (sig : Bytes) :
    (tellingCrypto p).ecrecover h sig =
      .ok (if sig = oneSig (if h = flatHash 1 then 1 else 2) then flatKey 0 else flatKey 1) := rfl

theorem list_encode_ne {xs : List Item} {b : Byte} (hb : b.val < 0xC0) (n : ℕ)
    (hlen : (encodeAll xs).length < 2 ^ 64) : (Item.list xs).encode ≠ replicate n b := by
  intro h
  obtain ⟨c, t, hc, hge⟩ := listHeader_head (encodeAll xs).length hlen
  rw [Item.encode, hc] at h
  have hmem : c ∈ replicate n b := by
    rw [← h]
    simp
  have := congrArg Fin.val (eq_of_mem_replicate hmem)
  omega

variable {d : TxData}

theorem TxData.InMemory.homestead (h : d.InMemory) : Signer.homestead.InMemory d := by
  have hitems : d.items = Signer.homestead.items d ++ [bigIntItem d.v, bigIntItem d.r,
      bigIntItem d.s] := rfl
  unfold TxData.InMemory at h
  rw [hitems, encodeAll_append, List.length_append] at h
  unfold Signer.InMemory
  omega

theorem TxData.InMemory.eip155_zero (h : d.InMemory) : (Signer.eip155 0).InMemory d := by
  have hpos : ∀ x : Item, 1 ≤ x.encode.length := fun x => List.length_pos_of_ne_nil x.encode_ne_nil
  -- block limit, chain id and group id leave room for the signer's three one-byte elements
  have arith : ∀ a b c l e f g i j m : ℕ, 1 ≤ l → 1 ≤ i → 1 ≤ j →
      a + (b + (c + (l + (e + (f + (g + (i + (j + m)))))))) < 2 ^ 63 →
      a + (b + (c + (e + (f + (g + (1 + (1 + (1 + 0)))))))) < 2 ^ 63 := by
    intro a b c l e f g i j m hl hi hj hsum
    omega
  simp only [TxData.InMemory, TxData.items, encodeAll, List.length_append] at h
  simp only [Signer.InMemory, Signer.items, encodeAll, List.length_append]
  exact arith _ _ _ _ _ _ _ _ _ _ (hpos (.str (minBytes d.blockLimit.toNat)))
    (hpos (bigIntItem d.chainId)) (hpos (bigIntItem d.groupId)) h

theorem hashInput_eip155_ne_homestead (hn : d.NonNeg) (hm : d.InMemory) :
    homestead.hashInput d ≠ (eip155 0).hashInput d := by
  have hten := hm.homestead
  have hnine := hm.eip155_zero
  rw [hashInput_eq .homestead (fun _ => nofun) hn hten,
    hashInput_eq (.eip155 0) (by rintro c ⟨⟩; exact le_rfl) hn hnine]
  intro h
  unfold InMemory at hten hnine
  have hft : (Item.list (homestead.items d)).Fits :=
    show (encodeAll _).length < 2 ^ 64 by omega
  have hfn : (Item.list ((eip155 0).items d)).Fits :=
    show (encodeAll _).length < 2 ^ 64 by omega
  have hlist := Item.list.inj (Item.encode_inj _ _ hft hfn h)
  have hlen := congrArg length hlist
  simp [items] at hlen

theorem tellingCrypto_misleads (hn : d.NonNeg) (hm : d.InMemory) (tx : Transaction)
    (htx : tx.data = d) : signTx (tellingCrypto ((Signer.eip155 0).hashInput d)) tx (.eip155 0) () =
        .ok (tx.signed 1 1 27) ∧
      (sender (tellingCrypto ((Signer.eip155 0).hashInput d)) (.eip155 0) (tx.signed 1 1 27)).1 =
        .ok (addressOfHash (flatHash 3)) ∧
      (tellingCrypto ((Signer.eip155 0).hashInput d)).pubkeyToAddress () =
        addressOfHash (flatHash 2) := by
  subst htx
  set p := (Signer.eip155 0).hashInput tx.data with hp
  have hten := hm.homestead
  have hnine := hm.eip155_zero
  have hp' : p = (Item.list ((Signer.eip155 0).items tx.data)).encode :=
    Signer.hashInput_eq (.eip155 0) (by rintro c ⟨⟩; exact le_rfl) hn hnine
  have hq' : Signer.homestead.hashInput tx.data =
      (Item.list (Signer.homestead.items tx.data)).encode :=
    Signer.hashInput_eq .homestead (fun _ => nofun) hn hten
  unfold Signer.InMemory at hten hnine
  -- what the hash answers on the four inputs that matter
  have hp0 : List.replicate 64 (0 : Byte) ≠ p := by
    rw [hp']
    exact (list_encode_ne (by decide) 64 (by omega)).symm
  have hp1 : List.replicate 64 (1 : Byte) ≠ p := by
    rw [hp']
    exact (list_encode_ne (by decide) 64 (by omega)).symm
  have hq0 : Signer.homestead.hashInput tx.data ≠ List.replicate 64 (0 : Byte) := by
    rw [hq']
    exact list_encode_ne (by decide) 64 (by omega)
  have hsigned : (Signer.eip155 0).hash (tellingCrypto p) tx = flatHash 1 := if_pos rfl
  have hother : Signer.homestead.hash (tellingCrypto p) tx = flatHash 3 := by
    unfold Signer.hash
    rw [tellingCrypto_keccak256, if_neg (hashInput_eip155_ne_homestead hn hm), if_neg hq0]
  have hkey1 : (tellingCrypto p).keccak256 (List.replicate 64 1) = flatHash 3 := by
    rw [tellingCrypto_keccak256, if_neg hp1, if_neg (by decide)]
  have hkey0 : (tellingCrypto p).keccak256 (List.replicate 64 0) = flatHash 2 := by
    rw [tellingCrypto_keccak256, if_neg hp0, if_pos rfl]
  refine ⟨?_, ?_, ?_⟩
  · have hsig : (tellingCrypto p).sign ((Signer.eip155 0).hash (tellingCrypto p) tx) () =
        .ok (beBytes 32 1 ++ beBytes 32 1 ++ [lowByte 0]) := by
      rw [hsigned]
      rfl
    exact signTx_eq _ tx _ () hsig (by norm_num) (by norm_num) (.inl rfl)
  · have hzero := senderOf_eip155_zero (tellingCrypto p) (tx.signed 1 1 27) 1 1 (.inl rfl)
    rw [sender_signed]
    refine hzero.trans ?_
    rw [Signer.hash_signed, hother]
    have hrec : (tellingCrypto p).ecrecover (flatHash 3)
        (beBytes 32 1 ++ beBytes 32 1 ++ [lowByte 0]) = .ok (flatKey 1) := by
      rw [tellingCrypto_ecrecover, if_neg (show flatHash 3 ≠ flatHash 1 by decide),
        if_neg (by decide)]
    have hfound := recoverPlain_canonical (tellingCrypto p) (flatHash 3) le_rfl (by decide) le_rfl
      (by decide) (.inl rfl) hrec rfl true
    rw [show (flatKey 1).drop 1 = List.replicate 64 1 from rfl, hkey1] at hfound
    exact hfound
  · show addressOfHash ((tellingCrypto p).keccak256 (List.replicate 64 0)) = _
    rw [hkey0]

/-- Under every library that meets the assumptions, what has been signed is attributed to the key
that signed it, except by the EIP155 signer with chain id zero. -/
theorem sign_recover_iff (tx : Transaction) (hn : tx.data.NonNeg) (hm : tx.data.InMemory)
    (σ : Signer) (hσ : ∀ c, σ = .eip155 c → 0 ≤ c) :
    (∀ (Key : Type) (C : Crypto Key) (k : Key), ∃ tx', signTx C tx σ k = .ok tx' ∧
      (sender C σ tx').1 = .ok (C.pubkeyToAddress k)) ↔ σ ≠ .eip155 0 := by
  constructor
  · rintro h rfl
    obtain ⟨tx', hsign, hsender⟩ := h Unit (tellingCrypto ((eip155 0).hashInput tx.data)) ()
    obtain ⟨hsigned, hother, hkey⟩ := tellingCrypto_misleads hn hm tx rfl
    rw [hsigned] at hsign
    cases hsign
    rw [hother, hkey] at hsender
    revert hsender
    decide
  · intro hne Key C k
    refine signTx_sender C tx k σ fun c hc => ?_
    have h0 := hσ c hc
    have h1 : c ≠ 0 := by
      rintro rfl
      exact hne hc
    omega

/-- What `crypto.Sign` makes with the private keys 1 (`false`) and 2: the hash, the
key, and `R`, `S` and the recovery id. -/
def madeSignatures : List (ℕ × Bool × ℕ × ℕ × ℕ) := [
  (0xe2e3f742c6d1d506b8b38aae96aa7247dfbdb5bc0ca53ae54a472b40e830cb47, false,
    0x452028240aaa8553555e57f80fdefb0d3ac063771d35db38485d992711c489ed,
    0x7db73c05581939dc4d6e9e0969171212be446ebf6d3b2f30b8b6094204a24c, 1),
  (0xa887bc86fa894dd23aae09ee0a79b377969681c9a44b62e039bc8e1dcdec7285, false,
    0x4c29098e9a7ed996590b555089914ece59fdd943557c998ee9df9e30381276e9,
    0x53a23964dadfc11b5e2371f0c66ca3b39228f4df1217ea54357dbde36ff784c2, 1),
  (0xc3abf0d16098c9375cba1ec68a3ae579871699722119b9d62e6bf964f50d9b0d, false,
    0x4855ce4d44a60ba8aa8a0e6a6bec43b9c979bee0dfba0a0cc41092e47fe5999,
    0x3df87d726ee79b9672b26a2d99289498b2fac2825e618a2f064e8dfa5c509caa, 1),
  (0xb9d7bdb63c091e8dc42ea0fe80e0547d0d1c7ca8ed62af33d40f20e8e5b5bb44, true,
    0x59dfbcd9400efbde6beee289ab10ebab5180761611f5ee3bfcb02d3b9e818c32,
    0x649595b83969873127d98f0e9022cfe9eae9950c648be31e3443ef5e9d380568, 0),
  (0xf6eceb646dfe6fbdb4ef3f2dc38ef7611b3b31205b4391c528be832a63466f22, true,
    0x942fb74beb4ae24265f29926f2b60de0e992abfd93a2257fbea64c09a43e128a,
    0x2c4e978b4d5166eea255075ac152abeaf61c754d7bca982413c787031512cc75, 1)]

def madeSignature (h : Hash) (k : Bool) : ℕ × ℕ × ℕ :=
  ((madeSignatures.find? fun e => e.1 = beVal h.val ∧ e.2.1 = k).map fun e => e.2.2).getD
    (if k then 2 else 1, 1, 0)

def sigBytes (sig : ℕ × ℕ × ℕ) : Bytes :=
  beBytes 32 sig.1 ++ beBytes 32 sig.2.1 ++ [lowByte sig.2.2]

def pointBytes (x y : ℕ) : Bytes := 4 :: (beBytes 32 x ++ beBytes 32 y)

theorem madeSignature_cases (h : Hash) (k : Bool) : madeSignature h k = (if k then 2 else 1, 1, 0) ∨
      ∃ e ∈ madeSignatures, e.2.1 = k ∧ madeSignature h k = e.2.2 := by
  unfold madeSignature
  cases hf : madeSignatures.find? fun e => e.1 = beVal h.val ∧ e.2.1 = k with
  | none => exact .inl rfl
  | some e =>
    have hp := List.find?_some hf
    simp only [decide_eq_true_eq] at hp
    exact .inr ⟨e, List.mem_of_find?_eq_some hf, hp.2, rfl⟩

theorem madeSignature_range (h : Hash) (k : Bool) :
    1 ≤ (madeSignature h k).1 ∧ (madeSignature h k).1 < secp256k1N ∧
      1 ≤ (madeSignature h k).2.1 ∧ (madeSignature h k).2.1 ≤ secp256k1halfN ∧
      ((madeSignature h k).2.2 = 0 ∨ (madeSignature h k).2.2 = 1) := by
  have hall : ∀ e ∈ madeSignatures, 1 ≤ e.2.2.1 ∧ e.2.2.1 < secp256k1N ∧ 1 ≤ e.2.2.2.1 ∧
      e.2.2.2.1 ≤ secp256k1halfN ∧ (e.2.2.2.2 = 0 ∨ e.2.2.2.2 = 1) := by decide
  rcases madeSignature_cases h k with he | ⟨e, he, -, hsig⟩
  · rw [he]
    cases k <;> decide
  · rw [hsig]
    exact hall e he

theorem madeSignature_ne (h : Hash) : (madeSignature h true).1 ≠ (madeSignature h false).1 := by
  have hall : ∀ e ∈ madeSignatures, e.2.2.1 ≠ 1 ∧ e.2.2.1 ≠ 2 ∧
      ∀ e' ∈ madeSignatures, e.2.1 = true → e'.2.1 = false → e.2.2.1 ≠ e'.2.2.1 := by decide
  rcases madeSignature_cases h true with ht | ⟨e, he, hk, ht⟩ <;>
    rcases madeSignature_cases h false with hf | ⟨e', he', hk', hf⟩ <;> rw [ht, hf]
  · decide
  · exact (hall e' he').2.1.symm
  · exact (hall e he).1
  · exact (hall e he).2.2 e' he' hk hk'

theorem sigBytes_inj {sig sig' : ℕ × ℕ × ℕ} (h : sig.1 < 256 ^ 32) (h' : sig'.1 < 256 ^ 32)
    (heq : sigBytes sig = sigBytes sig') : sig.1 = sig'.1 := by
  have htake : ∀ sig, (sigBytes sig).take 32 = beBytes 32 sig.1 := by
    intro sig
    rw [sigBytes, append_assoc]
    exact take_left' (beBytes_length 32 sig.1)
  have hfirst := congrArg (fun b => beVal (b.take 32)) heq
  simp only [htake] at hfirst
  rwa [beVal_beBytes_of_lt 32 _ h, beVal_beBytes_of_lt 32 _ h'] at hfirst

/-- The two private keys. A signature that neither of them made for the hash is met
with one hash below; the key is the one recovered from it there. -/
def twoKeys : Crypto Bool where
  keccak256 b := ⟨(Keccak.keccak256 b).toList, Keccak.length_keccak256 b⟩
  sign h k := .ok (sigBytes (madeSignature h k))
  ecrecover h sig := .ok (
    if sig = sigBytes (madeSignature h false) then
      pointBytes 0x79be667ef9dcbbac55a06295ce870b07029bfcdb2dce28d959f2815b16f81798
        0x483ada7726a3c4655da4fbfc0e1108a8fd17b448a68554199c47d08ffb10d4b8
    else if sig = sigBytes (madeSignature h true) then
      pointBytes 0xc6047f9441ed7d6d3045406e95c07cd85c778e4b8cef3ca7abac09b95c709ee5
        0x1ae168fea63dc339a3c58419466ceaeef7f632653266d0e1236431a950cfe52a
    else
      pointBytes 0xe79bc957a752182f6e85519f406c07c98f21455836afe4efa2ab00f3e4bf2af8
        0xad7007a677957b2fe9cbff3e6a3d4b31a496f4220880be90d868ad298f125f3c)
  publicKey k :=
    if k then
      pointBytes 0xc6047f9441ed7d6d3045406e95c07cd85c778e4b8cef3ca7abac09b95c709ee5
        0x1ae168fea63dc339a3c58419466ceaeef7f632653266d0e1236431a950cfe52a
    else
      pointBytes 0x79be667ef9dcbbac55a06295ce870b07029bfcdb2dce28d959f2815b16f81798
        0x483ada7726a3c4655da4fbfc0e1108a8fd17b448a68554199c47d08ffb10d4b8
  publicKey_form k := by cases k <;> exact ⟨_, rfl, by simp⟩
  sign_form h k := ⟨_, _, _, rfl, madeSignature_range h k⟩
  recover_sign h k sig hsig := by
    rw [Except.ok.injEq] at hsig
    subst hsig
    cases k with
    | false => simp
    | true =>
      have hlt : ∀ k, (madeSignature h k).1 < 256 ^ 32 := fun k =>
        (madeSignature_range h k).2.1.trans (by decide)
      have hne : sigBytes (madeSignature h true) ≠ sigBytes (madeSignature h false) := fun heq =>
        madeSignature_ne h (sigBytes_inj (hlt true) (hlt false) heq)
      simp [hne]

/-- A nil chain id is chain id zero: the recovered address is not the signer's. -/
theorem eip155_zero_misattributes : (transfer 1).data.NonNeg ∧ (transfer 1).data.InMemory ∧
      ∃ tx' : Transaction, signTx twoKeys (transfer 1) (newEIP155Signer none) false = .ok tx' ∧
        (sender twoKeys (newEIP155Signer none) tx').1 ≠ .ok (twoKeys.pubkeyToAddress false) := by
  refine ⟨transfer_nonNeg (by decide), transfer_inMemory, _, rfl, ?_⟩
  decide +kernel

theorem sign_recover_eip155 : (transfer 1).data.NonNeg ∧ (transfer 1).data.InMemory ∧
    ∀ (Key : Type) (C : Crypto Key) (k : Key), ∃ tx',
      signTx C (transfer 1) (newEIP155Signer (some 1)) k = .ok tx' ∧
      (sender C (newEIP155Signer (some 1)) tx').1 = .ok (C.pubkeyToAddress k) := by
  have hn : (transfer 1).data.NonNeg := transfer_nonNeg (by decide)
  refine ⟨hn, transfer_inMemory, ?_⟩
  exact (sign_recover_iff (transfer 1) hn transfer_inMemory (.eip155 1)
    (by rintro c ⟨⟩; decide)).mpr (by decide)

end Fiscobcos.Types
