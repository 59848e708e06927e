import Fiscobcos.Keystore.KeyFile
import Fiscobcos.Lib.Keccak

/-! # Key files read back

What `EncryptKey` has written is decrypted with the same passphrase to the same key. -/

namespace Fiscobcos.Keystore
open Numerals JsonTree Hexutil Panics Layout List

theorem isAscii_hexEncode (b : Bytes) : IsAscii (hexEncode b) := by
  have hchar : ∀ d, d < 16 → (hexChar d).val < 128 := by decide
  intro c hc
  obtain ⟨x, -, hc⟩ := mem_flatMap.mp hc
  have hx := x.isLt
  have hhigh : x.val / 16 < 16 := by omega
  have hlow : x.val % 16 < 16 := Nat.mod_lt _ (by norm_num)
  simp only [mem_cons, not_mem_nil, or_false] at hc
  rcases hc with rfl | rfl
  · exact hchar _ hhigh
  · exact hchar _ hlow

def CryptoJSON.read (c : CryptoJSON) : CryptoJSON :=
  { c with kdfparams := c.kdfparams.map fun m => (m.1, .json m.2.tree) }

section Document
variable {c : CryptoJSON} {k : EncryptedKeyJSONV3}

theorem cryptoLayout_tree
    (h : membersInFloatRange (c.kdfparams.map fun m => (m.1, m.2.tree)) = true) :
    cryptoLayout.decodeValue c.tree .zero = some c.read := by
  have hiv : ∀ s : CryptoJSON, cryptoLayout.store (ascii "cipherparams")
      (.obj [(ascii "iv", .str c.iv)]) s = some { s with iv := c.iv } := by
    intro s
    have hstore : cryptoLayout.store (ascii "cipherparams") (.obj [(ascii "iv", .str c.iv)]) s =
        (cipherparamsLayout.decodeValue (.obj [(ascii "iv", .str c.iv)]) s.iv).map
          fun iv => { s with iv } := rfl
    rw [hstore, decodeValue, decode_field _ (by decide) rfl]
    rfl
  have hparams : ∀ s : CryptoJSON, s.kdfparams = [] → cryptoLayout.store (ascii "kdfparams")
      (.obj (c.kdfparams.map fun m => (m.1, m.2.tree))) s =
        some { s with kdfparams := c.read.kdfparams } := by
    intro s hs
    show (decodeParams _ s.kdfparams).map _ = _
    rw [decodeParams, if_pos h, hs, map_map, nil_append]
    rfl
  rw [CryptoJSON.tree, decodeValue, decode_field _ (by decide) rfl, decode_field _ (by decide) rfl,
    decode_field _ (by decide) (hiv _),
    decode_field _ (by decide) rfl,
    decode_field _ (by decide) (hparams _ rfl),
    decode_field _ (by decide) rfl]
  rfl

theorem encryptedKeyJSONV3Layout_tree
    (h : membersInFloatRange (k.crypto.kdfparams.map fun m => (m.1, m.2.tree)) = true)
    (hversion : decodeInt64 (.num (.integer k.version)) 0 = some k.version) :
    encryptedKeyJSONV3Layout.decodeValue k.tree ⟨[], .zero, [], 0⟩ =
      some { k with crypto := k.crypto.read } := by
  have hcrypto : ∀ s : EncryptedKeyJSONV3, s.crypto = .zero → encryptedKeyJSONV3Layout.store
      (ascii "crypto") k.crypto.tree s = some { s with crypto := k.crypto.read } := by
    intro s hs
    show (cryptoLayout.decodeValue k.crypto.tree s.crypto).map _ = _
    rw [hs, cryptoLayout_tree h]
    rfl
  have hnumber : ∀ s : EncryptedKeyJSONV3, s.version = 0 → encryptedKeyJSONV3Layout.store
      (ascii "version") (.num (.integer k.version)) s = some { s with version := k.version } := by
    intro s hs
    show (decodeInt64 (.num (.integer k.version)) s.version).map _ = _
    rw [hs, hversion]
    rfl
  rw [EncryptedKeyJSONV3.tree, decodeValue, decode_field _ (by decide) rfl,
    decode_field _ (by decide) (hcrypto _ rfl), decode_field _ (by decide) rfl,
    decode_field _ (by decide) (hnumber _ rfl)]
  rfl

theorem readKeyDoc_tree {parse : Bytes → Option Value} {text : Bytes} (hparse : parse text = some k.tree)
    (h : membersInFloatRange (k.crypto.kdfparams.map fun m => (m.1, m.2.tree)) = true)
    (hrange : (Number.integer k.version).InFloatRange)
    (hversion : decodeInt64 (.num (.integer k.version)) 0 = some k.version) :
    readKeyDoc parse text = some (.v3 { k with crypto := k.crypto.read }) := by
  have hmap : decodeMap k.tree = some [(ascii "address", .str k.address), (ascii "crypto", k.crypto.tree),
      (ascii "id", .str k.id), (ascii "version", .num (.integer k.version))] := by
    apply if_pos
    simp [membersInFloatRange, Value.inFloatRange, CryptoJSON.tree, h, hrange]
  have hfilter : ([(ascii "address", Value.str k.address), (ascii "crypto", k.crypto.tree),
      (ascii "id", .str k.id), (ascii "version", .num (.integer k.version))].filter
        fun e => decide (e.1 = ascii "version")) = [(ascii "version", .num (.integer k.version))] := rfl
  unfold readKeyDoc
  rw [hparse, Option.bind_some, hmap, Option.bind_some, hfilter]
  show (encryptedKeyJSONV3Layout.decodeValue k.tree _).map _ = _
  rw [encryptedKeyJSONV3Layout_tree h hversion]
  rfl

end Document

theorem returns_hexDecode (b : Bytes) : Returns (hexDecode (hexEncode b)) b := by
  unfold hexDecode
  rw [hexDecodeString_hexEncode]
  exact returns_pure.mpr rfl

theorem returns_slice {b : Bytes} {lo hi : ℕ} (hlo : lo ≤ hi) (hhi : hi ≤ b.length) :
    Returns (slice b lo hi) ((b.take hi).drop lo) := by
  unfold slice
  rw [if_pos ⟨hlo, hhi⟩]
  exact returns_pure.mpr rfl

section Encryption
variable (L : KeyLib)

theorem returns_aesCTRXOR {key iv : Bytes} (hkey : key.length = 16) (hiv : iv.length = 16)
    (text : Bytes) : Returns (aesCTRXOR L key text iv) (L.ctr key iv text) := by
  refine returns_bind.mpr ⟨(), ?_, ?_⟩
  · unfold newCipher
    rw [if_pos (.inl hkey)]
    exact returns_pure.mpr rfl
  · rw [if_pos hiv]
    exact returns_pure.mpr rfl

def scryptParams (scryptN scryptP : ℤ) (salt : Bytes) : List (Bytes × Any) :=
  [(ascii "dklen", .int scryptDKLen), (ascii "n", .int scryptN), (ascii "p", .int scryptP),
    (ascii "r", .int scryptR), (ascii "salt", .json (.str (hexEncode salt)))]

variable {scryptN scryptP : ℤ} {salt iv auth dk data : Bytes}

def sealed (scryptN scryptP : ℤ) (salt iv dk data : Bytes) : CryptoJSON where
  cipher := ascii "aes-128-ctr"
  ciphertext := hexEncode (L.ctr (dk.take 16) iv data)
  iv := hexEncode iv
  kdf := keyHeaderKDF
  kdfparams := scryptParams scryptN scryptP salt
  mac := hexEncode (L.keccak256 ((dk.take 32).drop 16 ++ L.ctr (dk.take 16) iv data))

theorem returns_encryptDataV3 (hdk : Returns (L.scrypt auth salt scryptN 8 scryptP 32) dk)
    (hiv : iv.length = 16) : Returns (encryptDataV3 L data auth scryptN scryptP salt iv)
      (sealed L scryptN scryptP salt iv dk data) := by
  have hlen : dk.length = 32 := by
    have := L.scrypt_length hdk
    omega
  refine returns_bind.mpr ⟨dk, hdk, returns_bind.mpr ⟨_, returns_slice (Nat.zero_le _) (by omega), ?_⟩⟩
  rw [drop_zero]
  refine returns_bind.mpr ⟨_, returns_aesCTRXOR L (by simp [hlen]) hiv data, ?_⟩
  refine returns_bind.mpr ⟨_, returns_slice (by norm_num) (by omega), ?_⟩
  exact returns_pure.mpr rfl

theorem returns_getKDFKey (hvalid : ValidScrypt scryptN scryptP)
    (hdk : Returns (L.scrypt auth salt scryptN 8 scryptP 32) dk) :
    Returns (getKDFKey L (sealed L scryptN scryptP salt iv dk data).read auth) dk := by
  obtain ⟨⟨k, -, hk⟩, hN, hp, hp'⟩ := hvalid
  have hsalt : (sealed L scryptN scryptP salt iv dk data).read.param (ascii "salt") =
      some (.json (.str (hexEncode salt))) := rfl
  have hdklen : (sealed L scryptN scryptP salt iv dk data).read.param (ascii "dklen") =
      some (.json (.num (.integer 32))) := rfl
  have hn : (sealed L scryptN scryptP salt iv dk data).read.param (ascii "n") =
      some (.json (.num (.integer scryptN))) := rfl
  have hr : (sealed L scryptN scryptP salt iv dk data).read.param (ascii "r") =
      some (.json (.num (.integer 8))) := rfl
  have hpp : (sealed L scryptN scryptP salt iv dk data).read.param (ascii "p") =
      some (.json (.num (.integer scryptP))) := rfl
  have hint : ∀ z : ℤ, 0 ≤ z → z < 2 ^ 53 →
      Returns (ensureInt L (some (.json (.num (.integer z))))) z := by
    intro z h0 hz
    exact returns_pure.mpr (L.float64ToInt_integer z h0 hz)
  have hNpos : 0 ≤ scryptN := by
    rw [hk]
    positivity
  have hkdf : (sealed L scryptN scryptP salt iv dk data).read.kdf = keyHeaderKDF := rfl
  unfold getKDFKey
  rw [hsalt, hdklen, hn, hr, hpp]
  refine returns_bind.mpr ⟨hexEncode salt, returns_pure.mpr rfl, ?_⟩
  refine returns_bind.mpr ⟨salt, returns_hexDecode salt, ?_⟩
  refine returns_bind.mpr ⟨32, hint 32 (by norm_num) (by norm_num), ?_⟩
  rw [if_pos hkdf]
  refine returns_bind.mpr ⟨scryptN, hint scryptN hNpos (by omega), ?_⟩
  refine returns_bind.mpr ⟨8, hint 8 (by norm_num) (by norm_num), ?_⟩
  exact returns_bind.mpr ⟨scryptP, hint scryptP (by omega) (by omega), hdk⟩

theorem returns_decryptDataV3 (hvalid : ValidScrypt scryptN scryptP)
    (hdk : Returns (L.scrypt auth salt scryptN 8 scryptP 32) dk) (hiv : iv.length = 16) :
    Returns (decryptDataV3 L (sealed L scryptN scryptP salt iv dk data).read auth) data := by
  have hlen : dk.length = 32 := by
    have := L.scrypt_length hdk
    omega
  have hcipher : (sealed L scryptN scryptP salt iv dk data).read.cipher = ascii "aes-128-ctr" := rfl
  unfold decryptDataV3
  rw [if_pos hcipher]
  refine returns_bind.mpr ⟨_, returns_hexDecode _, returns_bind.mpr ⟨iv, returns_hexDecode iv, ?_⟩⟩
  refine returns_bind.mpr ⟨_, returns_hexDecode _, ?_⟩
  refine returns_bind.mpr ⟨dk, returns_getKDFKey L hvalid hdk, ?_⟩
  refine returns_bind.mpr ⟨_, returns_slice (by norm_num) (by omega), ?_⟩
  rw [if_pos rfl]
  refine returns_bind.mpr ⟨_, returns_slice (Nat.zero_le _) (by omega), ?_⟩
  have hkey : (dk.take 16).length = 16 := by simp [hlen]
  have hctr := returns_aesCTRXOR L hkey hiv (L.ctr (dk.take 16) iv data)
  rw [L.ctr_ctr] at hctr
  exact hctr

theorem returns_toECDSAUnsafe {d : Bytes} (hlen : d.length ≤ 32) (hpos : 1 ≤ beVal d)
    (hlt : beVal d < secp256k1N) :
    Returns (toECDSAUnsafe L d) (some ⟨beVal d, L.publicKey (beVal d)⟩) := by
  have hmult : scalarBaseMult L d = pure (some (L.publicKey (beVal d))) := by
    unfold scalarBaseMult
    rw [if_neg (by omega), if_neg (by omega)]
  have hkey : toECDSA L d false = pure ⟨beVal d, L.publicKey (beVal d)⟩ := by
    unfold toECDSA
    rw [if_neg (by simp), if_neg (by omega), if_neg (by omega), hmult]
    rfl
  unfold toECDSAUnsafe Returns
  rw [hkey]
  rfl

end Encryption

def oneDerived : Bytes :=
  beBytes 32 0xe4adac0d28e336ed1ab78465cf342a4a2ab966966c2ff0c1d54f4c25a1e146dc

def oneGenerator : Bytes :=
  4 :: beBytes 32 0x79be667ef9dcbbac55a06295ce870b07029bfcdb2dce28d959f2815b16f81798 ++
    beBytes 32 0x483ada7726a3c4655da4fbfc0e1108a8fd17b448a68554199c47d08ffb10d4b8

/-- Two blocks of the key stream; text beyond them is left as it is. -/
def xorStream (text : Bytes) : Bytes :=
  text.mapIdx fun i b => lowByte (b.val ^^^ ((beBytes 32
    0x6f7cd928976f70baeea7fe41165b27d50a48631aa66c803ab140d35f1aa885ca).getD i 0).val)

theorem xorStream_xorStream (text : Bytes) : xorStream (xorStream text) = text := by
  have hbyte : ∀ b k : Byte, lowByte ((lowByte (b.val ^^^ k.val)).val ^^^ k.val) = b := by
    intro b k
    have hlt : b.val ^^^ k.val < 2 ^ 8 := Nat.xor_lt_two_pow b.isLt k.isLt
    have hval : (lowByte (b.val ^^^ k.val)).val = b.val ^^^ k.val := Nat.mod_eq_of_lt hlt
    rw [hval, Nat.xor_assoc, Nat.xor_self, Nat.xor_zero, lowByte_of_byte]
  rw [xorStream, xorStream, mapIdx_mapIdx]
  simp only [Function.comp_def, hbyte, mapIdx_eq_zipIdx_map, zipIdx_map_fst]

def zeroUUID : Bytes := ascii "00000000-0000-0000-0000-000000000000"

theorem isAscii_zeroUUID : IsAscii zeroUUID := by decide +kernel

theorem hexEncode_ne_zeroUUID {id : Bytes} (h : id.length = 16) : hexEncode id ≠ zeroUUID := by
  intro heq
  have hlen := congrArg length heq
  rw [hexEncode_length, h] at hlen
  exact absurd hlen (by decide +kernel)

/-- A library that computes what the real ones do for the scalar 1 under the passphrase `foo`, with
zeros for salt and initial vector. -/
def oneLib : KeyLib where
  keccak256 b := (Keccak.keccak256 b).toList
  keccak256_length := Keccak.length_keccak256
  scrypt _ _ _ _ _ keyLen := if keyLen = 32 then pure oneDerived else throw (.kdf [])
  scrypt_length := by
    intro password salt N r p keyLen dk h
    split_ifs at h with hlen
    · rw [← returns_pure.mp h, hlen, oneDerived, beBytes_length]
      rfl
    · exact absurd h not_returns_throw
  scrypt_valid _ _ _ _ _ := ⟨oneDerived, returns_pure.mpr rfl⟩
  pbkdf2 _ _ _ _ := throw (.kdf [])
  pbkdf2_length h := absurd h not_returns_throw
  ctr _ _ text := xorStream text
  ctr_ctr _ _ := xorStream_xorStream
  cbcDecrypt _ _ text := text
  publicKey _ := oneGenerator
  uuidString id := if id = replicate 16 0 then zeroUUID else hexEncode id
  uuidString_ascii id := by
    split_ifs
    · exact isAscii_zeroUUID
    · exact isAscii_hexEncode id
  uuidParse s := if s = zeroUUID then some (replicate 16 0) else some (hexDecodeString s).1
  uuidParse_uuidString id h := by
    by_cases hid : id = replicate 16 0
    · rw [if_pos hid, if_pos rfl, hid]
    · rw [if_neg hid, if_neg (hexEncode_ne_zeroUUID h), hexDecodeString_hexEncode]
  float64ToInt
    | .integer z => z
    | .decimal _ _ => 0
  float64ToInt_integer _ _ _ := rfl

abbrev DocParts :=
  (Bytes × Bytes × ℤ) × (Bytes × Bytes × Bytes × Bytes × Bytes) × List (Bytes × (ℤ ⊕ Bytes))

def Any.part : Any → ℤ ⊕ Bytes
  | .int z => .inl z
  | .json (.str s) => .inr s
  | .json _ => .inr []

def partAny : ℤ ⊕ Bytes → Any
  | .inl z => .int z
  | .inr s => .json (.str s)

def EncryptedKeyJSONV3.parts (k : EncryptedKeyJSONV3) : DocParts :=
  ((k.address, k.id, k.version),
    (k.crypto.cipher, k.crypto.ciphertext, k.crypto.iv, k.crypto.kdf, k.crypto.mac),
    k.crypto.kdfparams.map fun m => (m.1, m.2.part))

def ofParts : DocParts → EncryptedKeyJSONV3
  | ((address, id, version), (cipher, ciphertext, iv, kdf, mac), params) =>
    ⟨address, ⟨cipher, ciphertext, iv, kdf, params.map fun m => (m.1, partAny m.2), mac⟩, id, version⟩

theorem ofParts_parts {k : EncryptedKeyJSONV3} (h : k.Written) : ofParts k.parts = k := by
  have hparams : (k.crypto.kdfparams.map fun m => (m.1, partAny m.2.part)) = k.crypto.kdfparams := by
    conv_rhs => rw [← map_id k.crypto.kdfparams]
    apply map_congr_left
    intro m hm
    obtain ⟨name, x⟩ := m
    obtain ⟨-, ⟨z, hz⟩ | ⟨s, -, hs⟩⟩ := h.params _ hm
    · dsimp only at hz
      rw [hz]
      rfl
    · dsimp only at hs
      rw [hs]
      rfl
  obtain ⟨address, ⟨cipher, ciphertext, iv, kdf, kdfparams, mac⟩, id, version⟩ := k
  dsimp only at hparams
  simp only [EncryptedKeyJSONV3.parts, ofParts, map_map, Function.comp_def, hparams]

section RoundTrip
variable (L : KeyLib) (key : Key) {id dk salt iv : Bytes} {scryptN scryptP : ℤ}

def sealedDoc (scryptN scryptP : ℤ) (salt iv dk : Bytes) : EncryptedKeyJSONV3 :=
  ⟨hexEncode key.address,
    sealed L scryptN scryptP salt iv dk (MathBig.paddedBigBytes key.privateKey.d 32),
    L.uuidString (key.id.getD []), version⟩

theorem sealedDoc_written : (sealedDoc L key scryptN scryptP salt iv dk).Written where
  address := isAscii_hexEncode _
  id := L.uuidString_ascii _
  cipher := (by decide +kernel : IsAscii (ascii "aes-128-ctr"))
  ciphertext := isAscii_hexEncode _
  iv := isAscii_hexEncode _
  kdf := (by decide +kernel : IsAscii keyHeaderKDF)
  mac := isAscii_hexEncode _
  names := (by decide : [ascii "dklen", ascii "n", ascii "p", ascii "r", ascii "salt"].Pairwise (· < ·))
  params := by
    have hnames : ∀ s ∈ [ascii "dklen", ascii "n", ascii "p", ascii "r", ascii "salt"], IsAscii s := by
      decide +kernel
    intro m hm
    refine ⟨hnames m.1 (mem_map_of_mem hm), ?_⟩
    simp only [sealedDoc, sealed, scryptParams, mem_cons, not_mem_nil, or_false] at hm
    rcases hm with rfl | rfl | rfl | rfl | rfl
    · exact .inl ⟨_, rfl⟩
    · exact .inl ⟨_, rfl⟩
    · exact .inl ⟨_, rfl⟩
    · exact .inl ⟨_, rfl⟩
    · exact .inr ⟨_, isAscii_hexEncode _, rfl⟩

theorem inFloatRange_integer {z : ℤ} (h0 : 0 ≤ z) (hz : z < 2 ^ 53) :
    (Number.integer z).InFloatRange := by
  have hq : (z : ℚ) < 2 ^ 53 := by exact_mod_cast hz
  have h0q : (0 : ℚ) ≤ z := by exact_mod_cast h0
  have hsplit : (2 : ℚ) ^ 1024 = 2 ^ 54 * 2 ^ 970 := by rw [← pow_add]
  have hone : (1 : ℚ) ≤ 2 ^ 970 := one_le_pow₀ (by norm_num)
  unfold Number.InFloatRange Number.value
  rw [abs_of_nonneg h0q, hsplit]
  generalize (2 : ℚ) ^ 970 = x at hone ⊢
  linarith

theorem ValidScrypt.bounds (h : ValidScrypt scryptN scryptP) :
    (0 ≤ scryptN ∧ scryptN < 2 ^ 53) ∧ 0 ≤ scryptP ∧ scryptP < 2 ^ 53 := by
  obtain ⟨⟨k, -, hk⟩, hN, hp, hp'⟩ := h
  have hNpos : 0 ≤ scryptN := by
    rw [hk]
    positivity
  refine ⟨⟨hNpos, ?_⟩, ?_, ?_⟩ <;> omega

theorem sealedDoc_inFloatRange (hvalid : ValidScrypt scryptN scryptP) :
    membersInFloatRange ((sealedDoc L key scryptN scryptP salt iv dk).crypto.kdfparams.map
      fun m => (m.1, m.2.tree)) = true := by
  obtain ⟨⟨hN0, hN⟩, hp0, hp⟩ := hvalid.bounds
  simp [sealedDoc, sealed, scryptParams, membersInFloatRange, Any.tree, Value.inFloatRange,
    inFloatRange_integer hN0 hN, inFloatRange_integer hp0 hp,
    inFloatRange_integer (z := scryptDKLen) (by decide) (by decide),
    inFloatRange_integer (z := scryptR) (by decide) (by decide)]

section Padded
variable {key : Key} (hlt : key.privateKey.d < secp256k1N)
include hlt

theorem Key.lt_pow : key.privateKey.d < 256 ^ 32 := by
  have hN : secp256k1N < 256 ^ 32 := by decide
  omega

theorem Key.padded_length : (MathBig.paddedBigBytes key.privateKey.d 32).length = 32 := by
  rw [MathBig.paddedBigBytes_eq (Key.lt_pow hlt), beBytes_length]

theorem Key.beVal_padded : beVal (MathBig.paddedBigBytes key.privateKey.d 32) = key.privateKey.d := by
  rw [MathBig.paddedBigBytes_eq (Key.lt_pow hlt), beVal_beBytes_of_lt _ _ (Key.lt_pow hlt)]

end Padded

variable (J : KeyJson) (auth salt : Bytes) (hid : key.id = some id) (hidlen : id.length = 16)
  (hpos : 1 ≤ key.privateKey.d) (hlt : key.privateKey.d < secp256k1N)
  (hvalid : ValidScrypt scryptN scryptP) (hiv : iv.length = 16)
include hid hidlen hpos hlt hvalid hiv

theorem decryptKey_encryptKey :
    ∃ keyjson, Returns (encryptKey L J key auth scryptN scryptP salt iv) keyjson ∧
      Returns (decryptKey L J.parse keyjson auth)
        ⟨some id, pubkeyToAddress L (L.publicKey key.privateKey.d),
          ⟨key.privateKey.d, L.publicKey key.privateKey.d⟩⟩ := by
  have hval := Key.beVal_padded hlt
  obtain ⟨dk, hdk⟩ := L.scrypt_valid auth salt scryptN scryptP hvalid
  refine ⟨J.marshal (sealedDoc L key scryptN scryptP salt iv dk), ?_, ?_⟩
  · refine returns_bind.mpr ⟨sealedDoc L key scryptN scryptP salt iv dk, ?_, returns_pure.mpr rfl⟩
    exact returns_bind.mpr ⟨_, returns_encryptDataV3 L hdk hiv, returns_pure.mpr rfl⟩
  · have hread := readKeyDoc_tree (k := sealedDoc L key scryptN scryptP salt iv dk)
      (J.parse_marshal _ (sealedDoc_written L key)) (sealedDoc_inFloatRange L key hvalid)
      (inFloatRange_integer (z := version) (by decide) (by decide)) rfl
    have hplain : Returns (decryptDataV3 L (sealedDoc L key scryptN scryptP salt iv dk).crypto.read auth)
        (MathBig.paddedBigBytes key.privateKey.d 32) := returns_decryptDataV3 L hvalid hdk hiv
    have hkey := returns_toECDSAUnsafe L (Key.padded_length hlt).le (by rwa [hval]) (by rwa [hval])
    rw [hval] at hkey
    unfold decryptKey
    rw [hread]
    refine returns_bind.mpr ⟨(MathBig.paddedBigBytes key.privateKey.d 32, some id), ?_, ?_⟩
    · refine returns_bind.mpr ⟨_, hplain, returns_pure.mpr ?_⟩
      show (_, L.uuidParse (L.uuidString (key.id.getD []))) = _
      rw [hid, Option.getD_some, L.uuidParse_uuidString id hidlen]
    · exact returns_bind.mpr ⟨_, hkey, returns_pure.mpr rfl⟩

/-- The file opens under the address of its key and under no other. -/
theorem getKey_encryptKey :
    ∃ keyjson, Returns (encryptKey L J key auth scryptN scryptP salt iv) keyjson ∧
      ∀ addr, (getKey L J.parse addr keyjson auth).run =
        if pubkeyToAddress L (L.publicKey key.privateKey.d) = addr then
          .ok (.ok ⟨some id, addr, ⟨key.privateKey.d, L.publicKey key.privateKey.d⟩⟩)
        else .ok (.error (.mismatch (pubkeyToAddress L (L.publicKey key.privateKey.d)) addr)) := by
  obtain ⟨keyjson, henc, hdec⟩ :=
    decryptKey_encryptKey L key J auth salt hid hidlen hpos hlt hvalid hiv
  refine ⟨keyjson, henc, fun addr => ?_⟩
  rw [getKey, run_bind_of_returns hdec]
  split_ifs with haddr
  · subst haddr
    rfl
  · rfl

theorem key_file_round_trip : (MathBig.paddedBigBytes key.privateKey.d 32).length = 32 ∧
    ∃ keyjson, Returns (encryptKey L J key auth scryptN scryptP salt iv) keyjson ∧
      Returns (decryptKey L J.parse keyjson auth)
        ⟨some id, pubkeyToAddress L (L.publicKey key.privateKey.d),
          ⟨key.privateKey.d, L.publicKey key.privateKey.d⟩⟩ :=
  ⟨Key.padded_length hlt, decryptKey_encryptKey L key J auth salt hid hidlen hpos hlt hvalid hiv⟩

end RoundTrip

def keyOne : Key :=
  ⟨some (replicate 16 0), pubkeyToAddress oneLib (oneLib.publicKey 1), ⟨1, oneLib.publicKey 1⟩⟩

def oneDoc : EncryptedKeyJSONV3 :=
  sealedDoc oneLib keyOne 4096 6 (replicate 32 0) (replicate 16 0) oneDerived

def oneDocText : Bytes :=
  ascii "\x7b" ++
  ascii "\"address\":\"7e5f4552091a69125d5dfcb7b8c2659029395bdf\"," ++
  ascii "\"crypto\":\x7b\"cipher\":\"aes-128-ctr\"," ++
  ascii "\"ciphertext\":\"6f7cd928976f70baeea7fe41165b27d50a48631aa66c803ab140d35f1aa885cb\"," ++
  ascii "\"cipherparams\":\x7b\"iv\":\"00000000000000000000000000000000\"\x7d,\"kdf\":\"scrypt\"," ++
  ascii "\"kdfparams\":\x7b\"dklen\":32,\"n\":4096,\"p\":6,\"r\":8,\"salt\":" ++
  ascii "\"0000000000000000000000000000000000000000000000000000000000000000\"\x7d," ++
  ascii "\"mac\":\"897684c88ffe402661de2d9e858384a966a232b0e35684b6d3f2a4a2e171feed\"\x7d," ++
  ascii "\"id\":\"00000000-0000-0000-0000-000000000000\",\"version\":3\x7d"

/-- The real text of `oneDoc`; other documents are numbers after a zero byte. -/
def oneJson : KeyJson where
  parse text :=
    if text = oneDocText then some oneDoc.tree
    else (Encodable.decode (α := DocParts) (beVal text)).map fun parts => (ofParts parts).tree
  marshal k :=
    if Encodable.encode k.parts = Encodable.encode oneDoc.parts then oneDocText
    else 0 :: minBytes (Encodable.encode k.parts)
  parse_marshal k hk := by
    by_cases hparts : Encodable.encode k.parts = Encodable.encode oneDoc.parts
    · have heq : k = oneDoc := by
        rw [← ofParts_parts hk, Encodable.encode_injective hparts, oneDoc,
          ofParts_parts (sealedDoc_written oneLib keyOne)]
      rw [if_pos hparts, if_pos rfl, heq]
    · have hne : 0 :: minBytes (Encodable.encode k.parts) ≠ oneDocText := fun heq =>
        absurd (congrArg head? heq) (by decide +kernel : some 0 ≠ head? oneDocText)
      have hval : beVal (0 :: minBytes (Encodable.encode k.parts)) = Encodable.encode k.parts := by
        rw [beVal_cons, beVal_minBytes, Fin.val_zero, zero_mul, zero_add]
      rw [if_neg hparts, if_neg hne, hval, Encodable.encodek, Option.map_some, ofParts_parts hk]

theorem key_file_round_trip_one : (MathBig.paddedBigBytes 1 32).length = 32 ∧
    ∃ keyjson, Returns (encryptKey oneLib oneJson keyOne (ascii "foo") 4096 6 (List.replicate 32 0)
        (List.replicate 16 0)) keyjson ∧
      Returns (decryptKey oneLib oneJson.parse keyjson (ascii "foo")) keyOne :=
  key_file_round_trip oneLib keyOne oneJson (ascii "foo") _ rfl rfl (by decide) (by decide)
    ⟨⟨12, by decide, by norm_num⟩, by norm_num, by norm_num, by norm_num⟩ rfl

theorem getKey_encryptKey_one :
    ∃ keyjson, Returns (encryptKey oneLib oneJson keyOne (ascii "foo") 4096 6 (List.replicate 32 0)
        (List.replicate 16 0)) keyjson ∧
      Returns (getKey oneLib oneJson.parse keyOne.address keyjson (ascii "foo")) keyOne := by
  have hvalid : ValidScrypt 4096 6 :=
    ⟨⟨12, by decide, by norm_num⟩, by norm_num, by norm_num, by norm_num⟩
  obtain ⟨keyjson, henc, hget⟩ := getKey_encryptKey oneLib keyOne oneJson (ascii "foo")
    (replicate 32 0) rfl rfl (by decide) (by decide) hvalid length_replicate
  exact ⟨keyjson, henc, (hget _).trans (if_pos rfl)⟩

end Fiscobcos.Keystore
