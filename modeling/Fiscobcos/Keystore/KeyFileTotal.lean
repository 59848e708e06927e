import Fiscobcos.Keystore.KeyFileRoundTrip

/-! # When decrypting a key file panics

`DecryptKey` asserts types, slices the derived key, hands the IV to the cipher and takes the bytes
for a scalar, all without a check. -/

namespace Fiscobcos.Keystore
open Numerals JsonTree Hexutil Panics KeyDoc

section Steps
variable {L : KeyLib} {x : Option Any} {s b key iv text : Bytes} {z : ℤ}

theorem total_hexDecode (s : Bytes) : Total (hexDecode s) := by
  unfold hexDecode
  split
  · exact total_pure _
  · exact total_throw _

theorem returns_hexDecode_iff : Returns (hexDecode s) b ↔ hexDecodeString s = (b, none) := by
  unfold hexDecode
  split
  · rename_i c hc
    rw [returns_pure, hc]
    simp
  · rename_i c e hc
    rw [hc]
    exact iff_of_false not_returns_throw (by simp)

theorem returns_asString_iff : Returns (asString x) s ↔ x = some (.json (.str s)) := by
  unfold asString
  split
  · rw [returns_pure]
    simp
  · rename_i hx
    refine iff_of_false not_returns_panics ?_
    intro heq
    exact hx s heq

theorem total_asString_iff : Total (asString x) ↔ ∃ s, x = some (.json (.str s)) := by
  unfold asString
  split
  · exact iff_of_true (total_pure _) ⟨_, rfl⟩
  · rename_i hx
    refine iff_of_false (not_total_panics _) ?_
    intro h
    obtain ⟨s, heq⟩ := h
    exact hx s heq

def IntValue (L : KeyLib) (x : Option Any) (z : ℤ) : Prop :=
  x = some (.int z) ∨ ∃ n, x = some (.json (.num n)) ∧ L.float64ToInt n = z

theorem returns_ensureInt_iff : Returns (ensureInt L x) z ↔ IntValue L x z := by
  unfold ensureInt IntValue
  split
  · rw [returns_pure]
    simp
  · rw [returns_pure]
    simp
  · rename_i hint hnum
    refine iff_of_false not_returns_panics ?_
    intro h
    rcases h with heq | ⟨n, heq, -⟩
    · exact hint z heq
    · exact hnum n heq

theorem total_ensureInt_iff : Total (ensureInt L x) ↔ ∃ z, IntValue L x z := by
  unfold ensureInt IntValue
  split
  · exact iff_of_true (total_pure _) ⟨_, .inl rfl⟩
  · exact iff_of_true (total_pure _) ⟨_, .inr ⟨_, rfl, rfl⟩⟩
  · rename_i hint hnum
    refine iff_of_false (not_total_panics _) ?_
    intro h
    obtain ⟨z, heq | ⟨n, heq, -⟩⟩ := h
    · exact hint z heq
    · exact hnum n heq

theorem total_slice_iff {lo hi : ℕ} (hle : lo ≤ hi) : Total (slice b lo hi) ↔ hi ≤ b.length := by
  unfold slice
  split_ifs with h
  · exact iff_of_true (total_pure _) h.2
  · refine iff_of_false (not_total_panics _) ?_
    intro hhi
    exact h ⟨hle, hhi⟩

theorem returns_slice_iff {lo hi : ℕ} (hle : lo ≤ hi) {a : Bytes} :
    Returns (slice b lo hi) a ↔ hi ≤ b.length ∧ a = (b.take hi).drop lo := by
  unfold slice
  split_ifs with h
  · rw [returns_pure]
    exact ⟨fun heq => ⟨h.2, heq.symm⟩, fun heq => heq.2.symm⟩
  · refine iff_of_false not_returns_panics ?_
    intro hhi
    exact h ⟨hle, hhi.1⟩

end Steps

def KdfTyped (L : KeyLib) (c : CryptoJSON) : Prop :=
  ∃ text, c.param (ascii "salt") = some (.json (.str text)) ∧
    ∀ salt, hexDecodeString text = (salt, none) →
      (∃ z, IntValue L (c.param (ascii "dklen")) z) ∧
      (c.kdf = keyHeaderKDF → (∃ z, IntValue L (c.param (ascii "n")) z) ∧
        (∃ z, IntValue L (c.param (ascii "r")) z) ∧ ∃ z, IntValue L (c.param (ascii "p")) z) ∧
      (c.kdf = ascii "pbkdf2" → (∃ z, IntValue L (c.param (ascii "c")) z) ∧
        ∃ prf, c.param (ascii "prf") = some (.json (.str prf)))

def KdfCall (L : KeyLib) (c : CryptoJSON) (auth : Bytes) (k : ℤ) (x : KeyRun Bytes) : Prop :=
  ∃ text salt, c.param (ascii "salt") = some (.json (.str text)) ∧ hexDecodeString text = (salt, none) ∧
    IntValue L (c.param (ascii "dklen")) k ∧
    ((c.kdf = keyHeaderKDF ∧ ∃ n r p, IntValue L (c.param (ascii "n")) n ∧
        IntValue L (c.param (ascii "r")) r ∧ IntValue L (c.param (ascii "p")) p ∧
        x = L.scrypt auth salt n r p k) ∨
      (c.kdf = ascii "pbkdf2" ∧ ∃ iter, IntValue L (c.param (ascii "c")) iter ∧
        c.param (ascii "prf") = some (.json (.str (ascii "hmac-sha256"))) ∧
        x = L.pbkdf2 auth salt iter k))

section Derive
variable {L : KeyLib} {c : CryptoJSON} {auth dk : Bytes} {k : ℤ} {x : KeyRun Bytes}

theorem pbkdf2_ne_scrypt : ascii "pbkdf2" ≠ keyHeaderKDF := by decide

theorem KdfCall.length (h : KdfCall L c auth k x) (hdk : Returns x dk) :
    (dk.length : ℤ) = (k + 31) / 32 * 32 := by
  obtain ⟨text, salt, -, -, -, ⟨-, n, r, p, -, -, -, rfl⟩ | ⟨-, iter, -, -, rfl⟩⟩ := h
  · exact L.scrypt_length hdk
  · exact L.pbkdf2_length hdk

theorem returns_getKDFKey_iff :
    Returns (getKDFKey L c auth) dk ↔ ∃ k x, KdfCall L c auth k x ∧ Returns x dk := by
  unfold getKDFKey KdfCall
  simp only [returns_bind, returns_asString_iff, returns_hexDecode_iff, returns_ensureInt_iff]
  constructor
  · intro h
    obtain ⟨text, htext, salt, hsalt, k, hk, h⟩ := h
    split_ifs at h with hs hp
    · simp only [returns_bind, returns_ensureInt_iff] at h
      obtain ⟨n, hn, r, hr, p, hp, h⟩ := h
      exact ⟨k, _, ⟨text, salt, htext, hsalt, hk, .inl ⟨hs, n, r, p, hn, hr, hp, rfl⟩⟩, h⟩
    · simp only [returns_bind, returns_ensureInt_iff, returns_asString_iff] at h
      obtain ⟨iter, hiter, prf, hprf, h⟩ := h
      split_ifs at h with hmac
      · subst hmac
        exact ⟨k, _, ⟨text, salt, htext, hsalt, hk, .inr ⟨hp, iter, hiter, hprf, rfl⟩⟩, h⟩
      · exact absurd h not_returns_throw
    · exact absurd h not_returns_throw
  · intro h
    obtain ⟨k, x, ⟨text, salt, htext, hsalt, hk, hcall⟩, hx⟩ := h
    refine ⟨text, htext, salt, hsalt, k, hk, ?_⟩
    rcases hcall with ⟨hs, n, r, p, hn, hr, hp, rfl⟩ | ⟨hp, iter, hiter, hprf, rfl⟩
    · rw [if_pos hs]
      simp only [returns_bind, returns_ensureInt_iff]
      exact ⟨n, hn, r, hr, p, hp, hx⟩
    · rw [if_neg (hp ▸ pbkdf2_ne_scrypt), if_pos hp]
      simp only [returns_bind, returns_ensureInt_iff, returns_asString_iff]
      refine ⟨iter, hiter, _, hprf, ?_⟩
      rw [if_pos rfl]
      exact hx

theorem total_getKDFKey_iff : Total (getKDFKey L c auth) ↔
    KdfTyped L c ∧ ∀ k x, KdfCall L c auth k x → Total x := by
  unfold getKDFKey
  simp only [total_bind, total_asString_iff, returns_asString_iff, total_hexDecode,
    returns_hexDecode_iff, true_and, total_ensureInt_iff, returns_ensureInt_iff]
  constructor
  · intro h
    obtain ⟨⟨text, htext⟩, h⟩ := h
    refine ⟨⟨text, htext, ?_⟩, ?_⟩
    · intro salt hsalt
      obtain ⟨⟨k, hk⟩, h⟩ := h text htext salt hsalt
      refine ⟨⟨k, hk⟩, ?_, ?_⟩
      · intro hs
        have hrest := h k hk
        rw [if_pos hs] at hrest
        simp only [total_bind, total_ensureInt_iff, returns_ensureInt_iff] at hrest
        obtain ⟨⟨n, hn⟩, hrest⟩ := hrest
        obtain ⟨⟨r, hr⟩, hrest⟩ := hrest n hn
        exact ⟨⟨n, hn⟩, ⟨r, hr⟩, (hrest r hr).1⟩
      · intro hp
        have hrest := h k hk
        rw [if_neg (hp ▸ pbkdf2_ne_scrypt), if_pos hp] at hrest
        simp only [total_bind, total_ensureInt_iff, returns_ensureInt_iff, total_asString_iff,
          returns_asString_iff] at hrest
        obtain ⟨⟨iter, hiter⟩, hrest⟩ := hrest
        exact ⟨⟨iter, hiter⟩, (hrest iter hiter).1⟩
    · intro k x hcall
      obtain ⟨text', salt, htext', hsalt, hk, hcall⟩ := hcall
      have hrest := (h text' htext' salt hsalt).2 k hk
      rcases hcall with ⟨hs, n, r, p, hn, hr, hp, rfl⟩ | ⟨hp, iter, hiter, hprf, rfl⟩
      · rw [if_pos hs] at hrest
        simp only [total_bind, total_ensureInt_iff, returns_ensureInt_iff] at hrest
        exact ((hrest.2 n hn).2 r hr).2 p hp
      · rw [if_neg (hp ▸ pbkdf2_ne_scrypt), if_pos hp] at hrest
        simp only [total_bind, total_ensureInt_iff, returns_ensureInt_iff, total_asString_iff,
          returns_asString_iff] at hrest
        have hlast := (hrest.2 iter hiter).2 _ hprf
        rwa [if_pos rfl] at hlast
  · intro h
    obtain ⟨⟨text, htext, htyped⟩, hcalls⟩ := h
    refine ⟨⟨text, htext⟩, ?_⟩
    intro text' htext'
    rw [htext] at htext'
    cases htext'
    intro salt hsalt
    obtain ⟨hk, hs, hp⟩ := htyped salt hsalt
    refine ⟨hk, ?_⟩
    intro k hk
    split_ifs with hscrypt hpbkdf
    · obtain ⟨hn, hr, hp⟩ := hs hscrypt
      simp only [total_bind, total_ensureInt_iff, returns_ensureInt_iff]
      refine ⟨hn, fun n hn => ⟨hr, fun r hr => ⟨hp, fun p hp => ?_⟩⟩⟩
      exact hcalls k _ ⟨text, salt, htext, hsalt, hk, .inl ⟨hscrypt, n, r, p, hn, hr, hp, rfl⟩⟩
    · obtain ⟨hiter, hprf⟩ := hp hpbkdf
      simp only [total_bind, total_ensureInt_iff, returns_ensureInt_iff, total_asString_iff,
        returns_asString_iff]
      refine ⟨hiter, fun iter hiter => ⟨hprf, fun prf hprf => ?_⟩⟩
      split_ifs with hmac
      · subst hmac
        exact hcalls k _ ⟨text, salt, htext, hsalt, hk, .inr ⟨hpbkdf, iter, hiter, hprf, rfl⟩⟩
      · exact total_throw _
    · exact total_throw _

end Derive

section Open
variable {L : KeyLib} {c : CryptoJSON} {auth : Bytes} {α : Type}

def opened (L : KeyLib) (c : CryptoJSON) (auth : Bytes) (f : Bytes → Bytes → Bytes → KeyRun α) :
    KeyRun α := do
  let mac ← hexDecode c.mac
  let iv ← hexDecode c.iv
  let cipherText ← hexDecode c.ciphertext
  let derivedKey ← getKDFKey L c auth
  let macKey ← slice derivedKey 16 32
  if L.keccak256 (macKey ++ cipherText) = mac then
    let key ← slice derivedKey 0 16
    f key iv cipherText
  else throw .decrypt

def CryptoJSON.Readable (c : CryptoJSON) : Prop :=
  ∃ mac iv text, hexDecodeString c.mac = (mac, none) ∧ hexDecodeString c.iv = (iv, none) ∧
    hexDecodeString c.ciphertext = (text, none)

def Opens (L : KeyLib) (c : CryptoJSON) (auth dk iv text : Bytes) : Prop :=
  hexDecodeString c.iv = (iv, none) ∧ hexDecodeString c.ciphertext = (text, none) ∧
    (∃ k x, KdfCall L c auth k x ∧ Returns x dk ∧ 1 ≤ k) ∧
    hexDecodeString c.mac = (L.keccak256 ((dk.take 32).drop 16 ++ text), none)

theorem KdfCall.pos_iff {k : ℤ} {x : KeyRun Bytes} {dk : Bytes} (h : KdfCall L c auth k x)
    (hdk : Returns x dk) : 32 ≤ dk.length ↔ 1 ≤ k := by
  have hlen := h.length hdk
  omega

theorem Opens.length {dk iv text : Bytes} (h : Opens L c auth dk iv text) : 32 ≤ dk.length := by
  obtain ⟨-, -, ⟨k, x, hcall, hdk, hk⟩, -⟩ := h
  exact (hcall.pos_iff hdk).mpr hk

theorem returns_opened_iff {f : Bytes → Bytes → Bytes → KeyRun α} {a : α} :
    Returns (opened L c auth f) a ↔
      ∃ dk iv text, Opens L c auth dk iv text ∧ Returns (f (dk.take 16) iv text) a := by
  unfold opened
  simp only [returns_bind, returns_hexDecode_iff, returns_getKDFKey_iff,
    returns_slice_iff (by norm_num : 16 ≤ 32)]
  constructor
  · intro h
    obtain ⟨mac, hmac, iv, hiv, text, htext, dk, ⟨k, x, hcall, hdk⟩, macKey, ⟨hlen, rfl⟩, h⟩ := h
    split_ifs at h with heq
    · simp only [returns_bind, returns_slice_iff (Nat.zero_le 16)] at h
      obtain ⟨key, ⟨-, rfl⟩, h⟩ := h
      subst heq
      exact ⟨dk, iv, text, ⟨hiv, htext, ⟨k, x, hcall, hdk, (hcall.pos_iff hdk).mp hlen⟩, hmac⟩, h⟩
    · exact absurd h not_returns_throw
  · intro h
    obtain ⟨dk, iv, text, hopens, h⟩ := h
    have hlen := hopens.length
    obtain ⟨hiv, htext, ⟨k, x, hcall, hdk, -⟩, hmac⟩ := hopens
    refine ⟨_, hmac, iv, hiv, text, htext, dk, ⟨k, x, hcall, hdk⟩, _, ⟨hlen, rfl⟩, ?_⟩
    rw [if_pos rfl]
    simp only [returns_bind, returns_slice_iff (Nat.zero_le 16)]
    exact ⟨_, ⟨by omega, rfl⟩, h⟩

theorem total_opened_iff {f : Bytes → Bytes → Bytes → KeyRun α} : Total (opened L c auth f) ↔
      (c.Readable → KdfTyped L c ∧ ∀ k x, KdfCall L c auth k x →
        Total x ∧ ∀ dk, Returns x dk → 1 ≤ k) ∧
      ∀ dk iv text, Opens L c auth dk iv text → Total (f (dk.take 16) iv text) := by
  unfold opened
  simp only [total_bind, total_hexDecode, true_and, returns_hexDecode_iff, total_getKDFKey_iff,
    returns_getKDFKey_iff, total_slice_iff (by norm_num : 16 ≤ 32),
    returns_slice_iff (by norm_num : 16 ≤ 32)]
  constructor
  · intro h
    refine ⟨?_, ?_⟩
    · intro hread
      obtain ⟨mac, iv, text, hmac, hiv, htext⟩ := hread
      obtain ⟨⟨htyped, hcalls⟩, h⟩ := h mac hmac iv hiv text htext
      refine ⟨htyped, fun k x hcall => ⟨hcalls k x hcall, fun dk hdk => ?_⟩⟩
      exact (hcall.pos_iff hdk).mp (h dk ⟨k, x, hcall, hdk⟩).1
    · intro dk iv text hopens
      have hlen := hopens.length
      obtain ⟨hiv, htext, ⟨k, x, hcall, hdk, -⟩, hmac⟩ := hopens
      have hrest := ((h _ hmac iv hiv text htext).2 dk ⟨k, x, hcall, hdk⟩).2 _ ⟨hlen, rfl⟩
      rw [if_pos rfl] at hrest
      simp only [total_bind, total_slice_iff (Nat.zero_le 16),
        returns_slice_iff (Nat.zero_le 16)] at hrest
      exact hrest.2 _ ⟨by omega, rfl⟩
  · intro h
    obtain ⟨hkdf, hopen⟩ := h
    intro mac hmac iv hiv text htext
    obtain ⟨htyped, hcalls⟩ := hkdf ⟨mac, iv, text, hmac, hiv, htext⟩
    refine ⟨⟨htyped, fun k x hcall => (hcalls k x hcall).1⟩, ?_⟩
    intro dk hdk
    obtain ⟨k, x, hcall, hdk⟩ := hdk
    have hk := (hcalls k x hcall).2 dk hdk
    have hlen := (hcall.pos_iff hdk).mpr hk
    refine ⟨hlen, ?_⟩
    intro macKey hmacKey
    obtain ⟨-, rfl⟩ := hmacKey
    split_ifs with heq
    · simp only [total_bind, total_slice_iff (Nat.zero_le 16), returns_slice_iff (Nat.zero_le 16)]
      refine ⟨by omega, ?_⟩
      intro key hkey
      obtain ⟨-, rfl⟩ := hkey
      subst heq
      exact hopen dk iv text ⟨hiv, htext, ⟨k, x, hcall, hdk, hk⟩, hmac⟩
    · exact total_throw _

end Open

section Cipher
variable {L : KeyLib} {key iv text plain : Bytes}

theorem returns_newCipher (hkey : key.length = 16) : Returns (newCipher key) () := by
  unfold newCipher
  rw [if_pos (.inl hkey)]
  exact returns_pure.mpr rfl

theorem total_aesCTRXOR_iff (hkey : key.length = 16) :
    Total (aesCTRXOR L key text iv) ↔ iv.length = 16 := by
  refine (total_bind_of_returns (returns_newCipher hkey)).trans ?_
  split_ifs with hiv
  · exact iff_of_true (total_pure _) hiv
  · exact iff_of_false (not_total_panics _) hiv

theorem returns_aesCTRXOR_iff (hkey : key.length = 16) :
    Returns (aesCTRXOR L key text iv) plain ↔ iv.length = 16 ∧ plain = L.ctr key iv text := by
  unfold aesCTRXOR Returns
  rw [run_bind_of_returns (returns_newCipher hkey)]
  split_ifs with hiv
  · rw [← Returns, returns_pure]
    exact ⟨fun h => ⟨hiv, h.symm⟩, fun h => h.2.symm⟩
  · exact iff_of_false not_returns_panics fun h => hiv h.1

theorem total_aesCBCDecrypt_iff (hkey : key.length = 16) :
    Total (aesCBCDecrypt L key text iv) ↔ iv.length = 16 ∧ text.length % 16 = 0 := by
  refine (total_bind_of_returns (returns_newCipher hkey)).trans ?_
  split_ifs with hiv hblocks
  · refine iff_of_true ?_ ⟨hiv, hblocks⟩
    split
    · exact total_throw _
    · exact total_pure _
  · exact iff_of_false (not_total_panics _) fun h => hblocks h.2
  · exact iff_of_false (not_total_panics _) fun h => hiv h.1

theorem returns_aesCBCDecrypt_iff (hkey : key.length = 16) :
    Returns (aesCBCDecrypt L key text iv) plain ↔ (iv.length = 16 ∧ text.length % 16 = 0) ∧
      pkcs7Unpad (L.cbcDecrypt key iv text) = some plain := by
  unfold aesCBCDecrypt Returns
  rw [run_bind_of_returns (returns_newCipher hkey)]
  split_ifs with hiv hblocks
  · split
    · rename_i hnone
      exact iff_of_false not_returns_throw fun h => by rw [hnone] at h; cases h.2
    · rename_i p hp
      rw [← Returns, returns_pure, hp]
      exact ⟨fun h => ⟨⟨hiv, hblocks⟩, congrArg some h⟩, fun h => Option.some.inj h.2⟩
  · exact iff_of_false not_returns_panics fun h => hblocks h.1.2
  · exact iff_of_false not_returns_panics fun h => hiv h.1.1

def ValidScalar (d : Bytes) : Prop := 1 ≤ beVal d ∧ beVal d < secp256k1N ∧ d.length ≤ 32

theorem returns_toECDSAUnsafe_none {d : Bytes} {e : KeyError} (h : toECDSA L d false = throw e) :
    Returns (toECDSAUnsafe L d) none := by
  unfold toECDSAUnsafe
  rw [h]
  rfl

theorem total_toKey_iff {d : Bytes} {α : Type} {f : PrivateKey → α} :
    Total (do
      match ← toECDSAUnsafe L d with
      | none => panics .nilPointer
      | some key => pure (f key) : KeyRun α) ↔ ValidScalar d := by
  by_cases hlarge : secp256k1N ≤ beVal d
  · have hkey : toECDSA L d false = throw .tooLarge := by
      unfold toECDSA
      rw [if_neg (by simp), if_pos hlarge]
    refine (total_bind_of_returns (returns_toECDSAUnsafe_none hkey)).trans ?_
    exact iff_of_false (not_total_panics _) fun h => absurd h.2.1 (by omega)
  by_cases hzero : beVal d = 0
  · have hkey : toECDSA L d false = throw .notPositive := by
      unfold toECDSA
      rw [if_neg (by simp), if_neg hlarge, if_pos hzero]
    refine (total_bind_of_returns (returns_toECDSAUnsafe_none hkey)).trans ?_
    exact iff_of_false (not_total_panics _) fun h => absurd h.1 (by omega)
  by_cases hlen : d.length ≤ 32
  · have hkey := returns_toECDSAUnsafe L hlen (by omega) (by omega)
    refine (total_bind_of_returns hkey).trans ?_
    exact iff_of_true (total_pure _) ⟨by omega, by omega, hlen⟩
  · refine iff_of_false ?_ fun h => hlen h.2.2
    intro h
    obtain ⟨⟨r, hr⟩, -⟩ := total_bind.mp h
    have hmult : scalarBaseMult L d = panics .scalarLength := if_pos (by omega)
    unfold toECDSAUnsafe toECDSA at hr
    rw [if_neg (by simp), if_neg hlarge, if_neg hzero, hmult] at hr
    cases hr

end Cipher

section Whole
variable (L : KeyLib) (auth : Bytes)

def KeyDoc.crypto : KeyDoc → CryptoJSON
  | .v1 k => k.crypto
  | .v3 k => k.crypto

def KeyDoc.Supported : KeyDoc → Prop
  | .v1 _ => True
  | .v3 k => k.version = version ∧ k.crypto.cipher = ascii "aes-128-ctr"

def KeyDoc.Plain (dk iv text plain : Bytes) : KeyDoc → Prop
  | .v1 _ => pkcs7Unpad (L.cbcDecrypt ((L.keccak256 (dk.take 16)).take 16) iv text) = some plain
  | .v3 _ => plain = L.ctr (dk.take 16) iv text

def KeyDoc.WholeBlocks (text : Bytes) : KeyDoc → Prop
  | .v1 _ => text.length % 16 = 0
  | .v3 _ => True

structure KeyDoc.Sound (doc : KeyDoc) : Prop where
  typed : doc.Supported → doc.crypto.Readable → KdfTyped L doc.crypto
  derived : doc.Supported → doc.crypto.Readable → ∀ k x, KdfCall L doc.crypto auth k x →
    Total x ∧ ∀ dk, Returns x dk → 1 ≤ k
  blocks : doc.Supported → ∀ dk iv text, Opens L doc.crypto auth dk iv text →
    iv.length = 16 ∧ doc.WholeBlocks text
  scalar : doc.Supported → ∀ dk iv text plain, Opens L doc.crypto auth dk iv text →
    doc.Plain L dk iv text plain → ValidScalar plain

def KeyDoc.decrypt : KeyDoc → KeyRun (Bytes × Option Bytes)
  | .v1 k => decryptKeyV1 L k auth
  | .v3 k => decryptKeyV3 L k auth

def KeyDoc.cipher (doc : KeyDoc) (key iv text : Bytes) : KeyRun Bytes :=
  match doc with
  | .v1 _ => aesCBCDecrypt L ((L.keccak256 key).take 16) text iv
  | .v3 _ => aesCTRXOR L key text iv

section Cipher
variable {L auth} {doc : KeyDoc} {dk iv text plain : Bytes}

theorem keccak256_take (b : Bytes) : ((L.keccak256 b).take 16).length = 16 := by
  rw [List.length_take, L.keccak256_length]
  rfl

theorem Opens.take (h : Opens L doc.crypto auth dk iv text) : (dk.take 16).length = 16 := by
  have hlen := h.length
  rw [List.length_take]
  omega

theorem total_cipher_iff (h : Opens L doc.crypto auth dk iv text) :
    Total (doc.cipher L (dk.take 16) iv text) ↔ iv.length = 16 ∧ doc.WholeBlocks text := by
  cases doc with
  | v1 k => exact total_aesCBCDecrypt_iff (keccak256_take _)
  | v3 k => exact (total_aesCTRXOR_iff h.take).trans (iff_of_eq (and_true _)).symm

theorem returns_cipher_iff (h : Opens L doc.crypto auth dk iv text) :
    Returns (doc.cipher L (dk.take 16) iv text) plain ↔
      (iv.length = 16 ∧ doc.WholeBlocks text) ∧ doc.Plain L dk iv text plain := by
  cases doc with
  | v1 k => exact returns_aesCBCDecrypt_iff (keccak256_take _)
  | v3 k => exact (returns_aesCTRXOR_iff h.take).trans (and_congr_left' (iff_of_eq (and_true _)).symm)

theorem decryptKeyV3_eq (L : KeyLib) (k : EncryptedKeyJSONV3) (auth : Bytes) :
    decryptKeyV3 L k auth =
      if k.version = version then
        (if k.crypto.cipher = ascii "aes-128-ctr" then
          opened L k.crypto auth (cipher L (.v3 k))
        else throw (.cipherNotSupported k.crypto.cipher)) >>= fun plain => pure (plain, L.uuidParse k.id)
      else throw (.versionNotSupported k.version) := rfl

theorem KeyDoc.decrypt_unsupported (h : ¬ doc.Supported) : ∃ e, doc.decrypt L auth = throw e := by
  cases doc with
  | v1 k => exact absurd trivial h
  | v3 k =>
    by_cases hversion : k.version = version
    · have hcipher : ¬ k.crypto.cipher = ascii "aes-128-ctr" := fun hc => h ⟨hversion, hc⟩
      refine ⟨.cipherNotSupported k.crypto.cipher, ?_⟩
      show decryptKeyV3 L k auth = _
      rw [decryptKeyV3_eq, if_pos hversion, if_neg hcipher]
      rfl
    · exact ⟨_, if_neg hversion⟩

theorem KeyDoc.total_decrypt (h : doc.Supported) :
    Total (doc.decrypt L auth) ↔ Total (opened L doc.crypto auth (doc.cipher L)) := by
  cases doc with
  | v1 k =>
    have hopened : decrypt L auth (.v1 k) = opened L k.crypto auth fun key iv text =>
        cipher L (.v1 k) key iv text >>= fun plain => pure (plain, L.uuidParse k.id) := rfl
    rw [hopened, total_opened_iff, total_opened_iff]
    simp only [total_bind, total_pure, implies_true, and_true, crypto]
  | v3 k =>
    obtain ⟨hversion, hcipher⟩ := h
    show Total (decryptKeyV3 L k auth) ↔ _
    rw [decryptKeyV3_eq, if_pos hversion, if_pos hcipher, total_bind]
    simp only [total_pure, implies_true, and_true, crypto]

theorem KeyDoc.returns_decrypt (h : doc.Supported) : ∃ id, ∀ plain keyId,
    Returns (doc.decrypt L auth) (plain, keyId) ↔
      Returns (opened L doc.crypto auth (doc.cipher L)) plain ∧ keyId = id := by
  cases doc with
  | v1 k =>
    have hopened : decrypt L auth (.v1 k) = opened L k.crypto auth fun key iv text =>
        cipher L (.v1 k) key iv text >>= fun plain => pure (plain, L.uuidParse k.id) := rfl
    refine ⟨L.uuidParse k.id, ?_⟩
    intro plain keyId
    rw [hopened, returns_opened_iff, returns_opened_iff]
    simp only [returns_bind, returns_pure, Prod.mk.injEq, crypto]
    constructor
    · intro hr
      obtain ⟨dk, iv, text, hopens, a, ha, rfl, rfl⟩ := hr
      exact ⟨⟨dk, iv, text, hopens, ha⟩, rfl⟩
    · intro hr
      obtain ⟨⟨dk, iv, text, hopens, ha⟩, rfl⟩ := hr
      exact ⟨dk, iv, text, hopens, plain, ha, rfl, rfl⟩
  | v3 k =>
    obtain ⟨hversion, hcipher⟩ := h
    refine ⟨L.uuidParse k.id, ?_⟩
    intro plain keyId
    show Returns (decryptKeyV3 L k auth) _ ↔ _
    rw [decryptKeyV3_eq, if_pos hversion, if_pos hcipher, returns_bind]
    simp only [returns_pure, Prod.mk.injEq, crypto]
    constructor
    · intro hr
      obtain ⟨a, ha, rfl, rfl⟩ := hr
      exact ⟨ha, rfl⟩
    · intro hr
      obtain ⟨ha, rfl⟩ := hr
      exact ⟨plain, ha, rfl, rfl⟩

end Cipher

theorem decryptKey_of_read {parse : Bytes → Option Value} {keyjson : Bytes} {doc : KeyDoc}
    (h : readKeyDoc parse keyjson = some doc) : decryptKey L parse keyjson auth =
      doc.decrypt L auth >>= fun p => toECDSAUnsafe L p.1 >>= fun key =>
        match key with
        | none => panics .nilPointer
        | some key => pure ⟨p.2, pubkeyToAddress L key.publicKey, key⟩ := by
  unfold decryptKey
  rw [h]
  cases doc <;> rfl

theorem KeyDoc.sound_iff (doc : KeyDoc) : doc.Sound L auth ↔ Total (doc.decrypt L auth) ∧
    ∀ plain keyId, Returns (doc.decrypt L auth) (plain, keyId) → ValidScalar plain := by
  by_cases hsup : doc.Supported
  · obtain ⟨id, hreturns⟩ := @KeyDoc.returns_decrypt L auth doc hsup
    rw [total_decrypt hsup, total_opened_iff]
    constructor
    · intro h
      refine ⟨⟨fun hread => ⟨h.typed hsup hread, h.derived hsup hread⟩, ?_⟩, ?_⟩
      · intro dk iv text hopens
        exact (total_cipher_iff hopens).mpr (h.blocks hsup dk iv text hopens)
      · intro plain keyId hr
        obtain ⟨dk, iv, text, hopens, hr⟩ := returns_opened_iff.mp ((hreturns plain keyId).mp hr).1
        exact h.scalar hsup dk iv text plain hopens ((returns_cipher_iff hopens).mp hr).2
    · intro h
      obtain ⟨⟨hkdf, hopen⟩, hscalar⟩ := h
      have hblocks : ∀ dk iv text, Opens L doc.crypto auth dk iv text →
          iv.length = 16 ∧ doc.WholeBlocks text := by
        intro dk iv text hopens
        exact (total_cipher_iff hopens).mp (hopen dk iv text hopens)
      refine ⟨fun _ hread => (hkdf hread).1, fun _ hread => (hkdf hread).2, fun _ => hblocks, ?_⟩
      intro _ dk iv text plain hopens hplain
      apply hscalar plain id
      rw [hreturns]
      refine ⟨returns_opened_iff.mpr ⟨dk, iv, text, hopens, ?_⟩, rfl⟩
      exact (returns_cipher_iff hopens).mpr ⟨hblocks dk iv text hopens, hplain⟩
  · obtain ⟨e, he⟩ := @KeyDoc.decrypt_unsupported L auth doc hsup
    rw [he]
    refine iff_of_true ?_ ⟨total_throw _, fun plain keyId h => absurd h not_returns_throw⟩
    exact ⟨fun h => absurd h hsup, fun h => absurd h hsup, fun h => absurd h hsup,
      fun h => absurd h hsup⟩

/-- For every text and passphrase: a key or an error is returned iff what is taken for granted
holds. -/
theorem decrypt_total_iff (parse : Bytes → Option Value) (keyjson : Bytes) :
    Total (decryptKey L parse keyjson auth) ↔
      ∀ doc, readKeyDoc parse keyjson = some doc → doc.Sound L auth := by
  cases hread : readKeyDoc parse keyjson with
  | none =>
    refine iff_of_true ?_ fun doc h => by cases h
    unfold decryptKey
    rw [hread]
    exact total_throw _
  | some doc =>
    have hdoc : (∀ doc', some doc = some doc' → doc'.Sound L auth) ↔ doc.Sound L auth := by
      simp
    rw [decryptKey_of_read L auth hread, hdoc, sound_iff, total_bind]
    apply and_congr_right'
    constructor
    · intro h plain keyId hr
      exact total_toKey_iff.mp (h (plain, keyId) hr)
    · intro h p hr
      exact total_toKey_iff.mpr (h p.1 p.2 hr)

end Whole

def oneText (text : Bytes) (v : Value) : Bytes → Option Value :=
  fun b => if b = text then some v else none

def noSalt : EncryptedKeyJSONV3 :=
  ⟨[], ⟨ascii "aes-128-ctr", [], [], keyHeaderKDF, [], []⟩, [], version⟩

def noSaltText : Bytes :=
  ascii ("\x7b\"address\":\"\",\"crypto\":\x7b\"cipher\":\"aes-128-ctr\",\"ciphertext\":\"\"," ++
    "\"cipherparams\":\x7b\"iv\":\"\"\x7d,\"kdf\":\"scrypt\",\"kdfparams\":\x7b\x7d,\"mac\":\"\"\x7d," ++
    "\"id\":\"\",\"version\":3\x7d")

theorem missing_salt_panics :
    (decryptKey oneLib (oneText noSaltText noSalt.tree) noSaltText []).run =
      .error .interfaceConversion := by
  have hread : readKeyDoc (oneText noSaltText noSalt.tree) noSaltText = some (.v3 noSalt) :=
    readKeyDoc_tree (k := noSalt) (if_pos rfl) rfl
      (inFloatRange_integer (z := version) (by decide) (by decide)) rfl
  rw [decryptKey_of_read _ _ hread]
  rfl

end Fiscobcos.Keystore
