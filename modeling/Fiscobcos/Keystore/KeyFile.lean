import Fiscobcos.Common.HexJson
import Fiscobcos.Common.MathBig
import Fiscobcos.Lib.JsonTree
import Fiscobcos.Lib.Panics

/-! # Encrypted key files (accounts/keystore/passphrase.go, presale.go:101-147, crypto/crypto.go:100-133)

`EncryptKey` writes version 3, `DecryptKey` reads versions 1 and 3. The key derivation, the ciphers,
the hash, the curve and the text of a UUID are parameters. -/

namespace Fiscobcos.Keystore
open Numerals JsonTree Hexutil Panics

def secp256k1N : ℕ := 0xfffffffffffffffffffffffffffffffebaaedce6af48a03bbfd25e8cd0364141

inductive Panic where
  | interfaceConversion
  | sliceBounds
  | ivLength
  | fullBlocks
  | scalarLength
  | nilPointer
  | library
deriving DecidableEq

inductive KeyError where
  | json
  | hex (e : DecError)
  | keySize
  | versionNotSupported (version : ℤ)
  | cipherNotSupported (cipher : Bytes)
  | unsupportedPRF (prf : Bytes)
  | unsupportedKDF (kdf : Bytes)
  | kdf (message : Bytes)
  | decrypt
  | invalidLength
  | tooLarge
  | notPositive
  | invalidKey
  | mismatch (found want : Bytes)
deriving DecidableEq

abbrev KeyRun := Run Panic KeyError

/-- A value in a `map[string]interface{}`: an `int` put there, or what `encoding/json` has read. -/
inductive Any where
  | int (z : ℤ)
  | json (v : Value)

structure CryptoJSON where
  cipher : Bytes
  ciphertext : Bytes
  iv : Bytes
  kdf : Bytes
  kdfparams : List (Bytes × Any)
  mac : Bytes

def CryptoJSON.zero : CryptoJSON := ⟨[], [], [], [], [], []⟩

/-- `KDFParams[name]`; a member read later replaces an earlier one. -/
def CryptoJSON.param (c : CryptoJSON) (name : Bytes) : Option Any :=
  ((c.kdfparams.filter fun m => decide (m.1 = name)).getLast?).map Prod.snd

structure EncryptedKeyJSONV3 where
  address : Bytes
  crypto : CryptoJSON
  id : Bytes
  version : ℤ

structure EncryptedKeyJSONV1 where
  address : Bytes
  crypto : CryptoJSON
  id : Bytes
  version : Bytes

def cipherparamsLayout : Layout Bytes where
  names := [ascii "iv"]
  store _ v iv := decodeString v iv

/-- An object goes into the map that is there. -/
def decodeParams (v : Value) (old : List (Bytes × Any)) : Option (List (Bytes × Any)) :=
  match v with
  | .null => some []
  | .obj ms =>
    if membersInFloatRange ms then some (old ++ ms.map fun m => (m.1, .json m.2)) else none
  | _ => none

def cryptoLayout : Layout CryptoJSON where
  names := [ascii "cipher", ascii "ciphertext", ascii "cipherparams", ascii "kdf",
    ascii "kdfparams", ascii "mac"]
  store name v c :=
    if name = ascii "cipher" then (decodeString v c.cipher).map fun cipher => { c with cipher }
    else if name = ascii "ciphertext" then
      (decodeString v c.ciphertext).map fun ciphertext => { c with ciphertext }
    else if name = ascii "cipherparams" then
      (cipherparamsLayout.decodeValue v c.iv).map fun iv => { c with iv }
    else if name = ascii "kdf" then (decodeString v c.kdf).map fun kdf => { c with kdf }
    else if name = ascii "kdfparams" then
      (decodeParams v c.kdfparams).map fun kdfparams => { c with kdfparams }
    else if name = ascii "mac" then (decodeString v c.mac).map fun mac => { c with mac }
    else some c

def keyNames : List Bytes := [ascii "address", ascii "crypto", ascii "id", ascii "version"]

def encryptedKeyJSONV3Layout : Layout EncryptedKeyJSONV3 where
  names := keyNames
  store name v k :=
    if name = ascii "address" then (decodeString v k.address).map fun address => { k with address }
    else if name = ascii "crypto" then
      (cryptoLayout.decodeValue v k.crypto).map fun crypto => { k with crypto }
    else if name = ascii "id" then (decodeString v k.id).map fun id => { k with id }
    else if name = ascii "version" then (decodeInt64 v k.version).map fun version => { k with version }
    else some k

def encryptedKeyJSONV1Layout : Layout EncryptedKeyJSONV1 where
  names := keyNames
  store name v k :=
    if name = ascii "address" then (decodeString v k.address).map fun address => { k with address }
    else if name = ascii "crypto" then
      (cryptoLayout.decodeValue v k.crypto).map fun crypto => { k with crypto }
    else if name = ascii "id" then (decodeString v k.id).map fun id => { k with id }
    else if name = ascii "version" then (decodeString v k.version).map fun version => { k with version }
    else some k

inductive KeyDoc where
  | v1 (k : EncryptedKeyJSONV1)
  | v3 (k : EncryptedKeyJSONV3)

def decodeMap (v : Value) : Option (List (Bytes × Value)) :=
  match v with
  | .null => some []
  | .obj ms => if membersInFloatRange ms then some ms else none
  | _ => none

/-- Both calls of `json.Unmarshal` in `DecryptKey`. -/
def readKeyDoc (parse : Bytes → Option Value) (keyjson : Bytes) : Option KeyDoc :=
  (parse keyjson).bind fun v =>
    (decodeMap v).bind fun m =>
      match (m.filter fun e => decide (e.1 = ascii "version")).getLast? with
      | some (_, .str version) =>
        if version = ascii "1" then
          (encryptedKeyJSONV1Layout.decodeValue v ⟨[], .zero, [], []⟩).map .v1
        else (encryptedKeyJSONV3Layout.decodeValue v ⟨[], .zero, [], 0⟩).map .v3
      | _ => (encryptedKeyJSONV3Layout.decodeValue v ⟨[], .zero, [], 0⟩).map .v3

def ValidScrypt (N p : ℤ) : Prop :=
  (∃ k : ℕ, 1 ≤ k ∧ N = 2 ^ k) ∧ N ≤ (2 ^ 63 - 1) / 128 / 8 ∧ 1 ≤ p ∧ 8 * p < 2 ^ 30

def IsAscii (s : Bytes) : Prop := ∀ b ∈ s, b.val < 128

instance (s : Bytes) : Decidable (IsAscii s) := inferInstanceAs (Decidable (∀ b ∈ s, b.val < 128))

/-- What is used of the libraries. A derived key comes with the rest of its buffer, which a slice
expression may reach; the buffer holds whole blocks of 32 bytes. -/
structure KeyLib where
  keccak256 : Bytes → Bytes
  keccak256_length : ∀ b, (keccak256 b).length = 32
  scrypt : Bytes → Bytes → ℤ → ℤ → ℤ → ℤ → KeyRun Bytes
  scrypt_length : ∀ {password salt N r p keyLen dk}, Returns (scrypt password salt N r p keyLen) dk →
    (dk.length : ℤ) = (keyLen + 31) / 32 * 32
  scrypt_valid : ∀ password salt N p, ValidScrypt N p → ∃ dk, Returns (scrypt password salt N 8 p 32) dk
  pbkdf2 : Bytes → Bytes → ℤ → ℤ → KeyRun Bytes
  pbkdf2_length : ∀ {password salt iter keyLen dk}, Returns (pbkdf2 password salt iter keyLen) dk →
    (dk.length : ℤ) = (keyLen + 31) / 32 * 32
  ctr : Bytes → Bytes → Bytes → Bytes
  ctr_ctr : ∀ key iv text, ctr key iv (ctr key iv text) = text
  cbcDecrypt : Bytes → Bytes → Bytes → Bytes
  publicKey : ℕ → Bytes
  uuidString : Bytes → Bytes
  uuidString_ascii : ∀ id, IsAscii (uuidString id)
  uuidParse : Bytes → Option Bytes
  uuidParse_uuidString : ∀ id, id.length = 16 → uuidParse (uuidString id) = some id
  /-- `int(x)` of the `float64` a number is read as. -/
  float64ToInt : Number → ℤ
  float64ToInt_integer : ∀ z : ℤ, 0 ≤ z → z < 2 ^ 53 → float64ToInt (.integer z) = z

section Model
variable (L : KeyLib)

def slice (b : Bytes) (lo hi : ℕ) : KeyRun Bytes :=
  if lo ≤ hi ∧ hi ≤ b.length then pure ((b.take hi).drop lo) else panics .sliceBounds

def hexDecode (s : Bytes) : KeyRun Bytes :=
  match hexDecodeString s with
  | (b, none) => pure b
  | (_, some e) => throw (.hex e)

def asString (x : Option Any) : KeyRun Bytes :=
  match x with
  | some (.json (.str s)) => pure s
  | _ => panics .interfaceConversion

def ensureInt (x : Option Any) : KeyRun ℤ :=
  match x with
  | some (.int z) => pure z
  | some (.json (.num n)) => pure (L.float64ToInt n)
  | _ => panics .interfaceConversion

def keyHeaderKDF : Bytes := ascii "scrypt"

def getKDFKey (c : CryptoJSON) (auth : Bytes) : KeyRun Bytes := do
  let text ← asString (c.param (ascii "salt"))
  let salt ← hexDecode text
  let dkLen ← ensureInt L (c.param (ascii "dklen"))
  if c.kdf = keyHeaderKDF then
    let n ← ensureInt L (c.param (ascii "n"))
    let r ← ensureInt L (c.param (ascii "r"))
    let p ← ensureInt L (c.param (ascii "p"))
    L.scrypt auth salt n r p dkLen
  else if c.kdf = ascii "pbkdf2" then
    let iter ← ensureInt L (c.param (ascii "c"))
    let prf ← asString (c.param (ascii "prf"))
    if prf = ascii "hmac-sha256" then L.pbkdf2 auth salt iter dkLen
    else throw (.unsupportedPRF prf)
  else throw (.unsupportedKDF c.kdf)

def newCipher (key : Bytes) : KeyRun Unit :=
  if key.length = 16 ∨ key.length = 24 ∨ key.length = 32 then pure () else throw .keySize

def aesCTRXOR (key inText iv : Bytes) : KeyRun Bytes := do
  newCipher key
  if iv.length = 16 then pure (L.ctr key iv inText) else panics .ivLength

def pkcs7Unpad (input : Bytes) : Option Bytes :=
  match input.getLast? with
  | none => none
  | some padding =>
    if padding.val > input.length ∨ padding.val > 16 then none
    else if padding.val = 0 then none
    else if ∀ b ∈ input.drop (input.length - padding.val), b = padding then
      some (input.take (input.length - padding.val))
    else none

def aesCBCDecrypt (key cipherText iv : Bytes) : KeyRun Bytes := do
  newCipher key
  if iv.length = 16 then
    if cipherText.length % 16 = 0 then
      match pkcs7Unpad (L.cbcDecrypt key iv cipherText) with
      | none => throw .decrypt
      | some plaintext => pure plaintext
    else panics .fullBlocks
  else panics .ivLength

def decryptDataV3 (c : CryptoJSON) (auth : Bytes) : KeyRun Bytes := do
  if c.cipher = ascii "aes-128-ctr" then
    let mac ← hexDecode c.mac
    let iv ← hexDecode c.iv
    let cipherText ← hexDecode c.ciphertext
    let derivedKey ← getKDFKey L c auth
    let macKey ← slice derivedKey 16 32
    if L.keccak256 (macKey ++ cipherText) = mac then
      let key ← slice derivedKey 0 16
      aesCTRXOR L key cipherText iv
    else throw .decrypt
  else throw (.cipherNotSupported c.cipher)

def version : ℤ := 3

def decryptKeyV3 (k : EncryptedKeyJSONV3) (auth : Bytes) : KeyRun (Bytes × Option Bytes) := do
  if k.version = version then
    let plainText ← decryptDataV3 L k.crypto auth
    pure (plainText, L.uuidParse k.id)
  else throw (.versionNotSupported k.version)

def decryptKeyV1 (k : EncryptedKeyJSONV1) (auth : Bytes) : KeyRun (Bytes × Option Bytes) := do
  let mac ← hexDecode k.crypto.mac
  let iv ← hexDecode k.crypto.iv
  let cipherText ← hexDecode k.crypto.ciphertext
  let derivedKey ← getKDFKey L k.crypto auth
  let macKey ← slice derivedKey 16 32
  if L.keccak256 (macKey ++ cipherText) = mac then
    let key ← slice derivedKey 0 16
    let plainText ← aesCBCDecrypt L ((L.keccak256 key).take 16) cipherText iv
    pure (plainText, L.uuidParse k.id)
  else throw .decrypt

structure PrivateKey where
  d : ℕ
  publicKey : Bytes

def scalarBaseMult (k : Bytes) : KeyRun (Option Bytes) :=
  if 32 < k.length then panics .scalarLength
  else if beVal k = 0 ∨ secp256k1N ≤ beVal k then pure none
  else pure (some (L.publicKey (beVal k)))

def toECDSA (d : Bytes) (strict : Bool) : KeyRun PrivateKey := do
  if strict = true ∧ 8 * d.length ≠ 256 then throw .invalidLength
  else if secp256k1N ≤ beVal d then throw .tooLarge
  else if beVal d = 0 then throw .notPositive
  else
    match ← scalarBaseMult L d with
    | none => throw .invalidKey
    | some publicKey => pure ⟨beVal d, publicKey⟩

def toECDSAUnsafe (d : Bytes) : KeyRun (Option PrivateKey) :=
  ExceptT.mk ((toECDSA L d false).run.map fun r => .ok r.toOption)

def pubkeyToAddress (publicKey : Bytes) : Bytes := (L.keccak256 (publicKey.drop 1)).drop 12

structure Key where
  id : Option Bytes
  address : Bytes
  privateKey : PrivateKey

def decryptKey (parse : Bytes → Option Value) (keyjson auth : Bytes) : KeyRun Key := do
  match readKeyDoc parse keyjson with
  | none => throw .json
  | some doc =>
    let (keyBytes, keyId) ← match doc with
      | .v1 k => decryptKeyV1 L k auth
      | .v3 k => decryptKeyV3 L k auth
    match ← toECDSAUnsafe L keyBytes with
    | none => panics .nilPointer
    | some key => pure ⟨keyId, pubkeyToAddress L key.publicKey, key⟩

def getKey (parse : Bytes → Option Value) (addr keyjson auth : Bytes) : KeyRun Key := do
  let key ← decryptKey L parse keyjson auth
  if key.address = addr then pure key else throw (.mismatch key.address addr)

def scryptR : ℤ := 8
def scryptDKLen : ℤ := 32

/-- `EncryptDataV3`; `salt` and `iv` are the random bytes read. -/
def encryptDataV3 (data auth : Bytes) (scryptN scryptP : ℤ) (salt iv : Bytes) : KeyRun CryptoJSON := do
  let derivedKey ← L.scrypt auth salt scryptN scryptR scryptP scryptDKLen
  let encryptKey ← slice derivedKey 0 16
  let cipherText ← aesCTRXOR L encryptKey data iv
  let macKey ← slice derivedKey 16 32
  pure
    { cipher := ascii "aes-128-ctr"
      ciphertext := hexEncode cipherText
      iv := hexEncode iv
      kdf := keyHeaderKDF
      kdfparams := [(ascii "dklen", .int scryptDKLen), (ascii "n", .int scryptN),
        (ascii "p", .int scryptP), (ascii "r", .int scryptR),
        (ascii "salt", .json (.str (hexEncode salt)))]
      mac := hexEncode (L.keccak256 (macKey ++ cipherText)) }

def encryptKeyDoc (key : Key) (auth : Bytes) (scryptN scryptP : ℤ) (salt iv : Bytes) :
    KeyRun EncryptedKeyJSONV3 := do
  let crypto ← encryptDataV3 L (MathBig.paddedBigBytes key.privateKey.d 32) auth scryptN scryptP salt iv
  pure ⟨hexEncode key.address, crypto, L.uuidString (key.id.getD []), version⟩

end Model

def Any.tree : Any → Value
  | .int z => .num (.integer z)
  | .json v => v

def CryptoJSON.tree (c : CryptoJSON) : Value :=
  .obj [(ascii "cipher", .str c.cipher), (ascii "ciphertext", .str c.ciphertext),
    (ascii "cipherparams", .obj [(ascii "iv", .str c.iv)]), (ascii "kdf", .str c.kdf),
    (ascii "kdfparams", .obj (c.kdfparams.map fun m => (m.1, m.2.tree))), (ascii "mac", .str c.mac)]

def EncryptedKeyJSONV3.tree (k : EncryptedKeyJSONV3) : Value :=
  .obj [(ascii "address", .str k.address), (ascii "crypto", k.crypto.tree), (ascii "id", .str k.id),
    (ascii "version", .num (.integer k.version))]

/-- Integers and strings, which `encoding/json` writes with their names in order. -/
structure EncryptedKeyJSONV3.Written (k : EncryptedKeyJSONV3) : Prop where
  address : IsAscii k.address
  id : IsAscii k.id
  cipher : IsAscii k.crypto.cipher
  ciphertext : IsAscii k.crypto.ciphertext
  iv : IsAscii k.crypto.iv
  kdf : IsAscii k.crypto.kdf
  mac : IsAscii k.crypto.mac
  names : (k.crypto.kdfparams.map Prod.fst).Pairwise (· < ·)
  params : ∀ m ∈ k.crypto.kdfparams, IsAscii m.1 ∧
    ((∃ z, m.2 = .int z) ∨ ∃ s, IsAscii s ∧ m.2 = .json (.str s))

/-- `encoding/json`: the tree of a text, and the text of a document. -/
structure KeyJson where
  parse : Bytes → Option Value
  marshal : EncryptedKeyJSONV3 → Bytes
  parse_marshal : ∀ k, k.Written → parse (marshal k) = some k.tree

def encryptKey (L : KeyLib) (J : KeyJson) (key : Key) (auth : Bytes) (scryptN scryptP : ℤ)
    (salt iv : Bytes) : KeyRun Bytes := do
  let doc ← encryptKeyDoc L key auth scryptN scryptP salt iv
  pure (J.marshal doc)

end Fiscobcos.Keystore
