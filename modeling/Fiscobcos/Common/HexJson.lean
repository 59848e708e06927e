import Fiscobcos.Common.Hexutil

/-! # Hex types in JSON (common/hexutil/json.go)

The types read the text of a JSON value, quotes included, and write a hex string. -/

namespace Fiscobcos.Hexutil
open Numerals List Option

inductive TextError where
  | nonString
  | dec (e : DecError)
  | big256Range
  | wrongLength (got want : ℕ)
  deriving DecidableEq

def isString (input : Bytes) : Bool :=
  2 ≤ input.length && input.head? = some 34 && input.getLast? = some 34

/-- `UnmarshalJSON` of every hex type, from its `UnmarshalText`. -/
def unmarshalJSON {α : Type} (text : Bytes → Except TextError α) (input : Bytes) :
    Except TextError α :=
  if isString input then text (input.drop 1).dropLast else .error .nonString

def checkEven (input : Bytes) : Except TextError Bytes :=
  if input.length % 2 ≠ 0 then .error (.dec .oddLength) else .ok input

def checkText (input : Bytes) (wantPrefix : Bool) : Except TextError Bytes :=
  if input = [] then .ok []
  else if has0xPrefix input then checkEven (input.drop 2)
  else if wantPrefix then .error (.dec .missingPrefix)
  else checkEven input

def checkNumberText (input : Bytes) : Except TextError Bytes :=
  if input = [] then .ok []
  else (checkNumber input).mapError .dec

def nibbles (raw : Bytes) : Option (List ℕ) := raw.mapM fromHexChar

def hexValue (ds : List ℕ) : ℕ := ds.foldl (fun w d => w * 16 + d) 0

def uint64Text (input : Bytes) : Except TextError UInt64 :=
  match checkNumberText input with
  | .error e => .error e
  | .ok raw =>
    if 16 < raw.length then .error (.dec .uint64Range)
    else
      match nibbles raw with
      | none => .error (.dec .badSyntax)
      | some ds => .ok (.ofNat (hexValue ds))

/-- The words of `Big.UnmarshalText`, the low one first: each takes the last 16 digits left. -/
def bigWords : ℕ → Bytes → Option (List ℕ)
  | 0, _ => some []
  | n + 1, raw =>
    (nibbles (raw.drop (raw.length - 16))).bind fun ds =>
      (bigWords n (raw.take (raw.length - 16))).map (hexValue ds :: ·)

def bigText (input : Bytes) : Except TextError ℤ :=
  match checkNumberText input with
  | .error e => .error e
  | .ok raw =>
    if 64 < raw.length then .error .big256Range
    else
      match bigWords (raw.length / 16 + 1) raw with
      | none => .error (.dec .badSyntax)
      | some words => .ok ((Nat.ofDigits (2 ^ 64) words : ℕ) : ℤ)

/-- `DecodeBig` (`common/hexutil/hexutil.go:138-168`), which does not allow an empty string. -/
def decodeBig (input : Bytes) : Except TextError ℤ :=
  match checkNumber input with
  | .error e => .error (.dec e)
  | .ok raw =>
    if 64 < raw.length then .error .big256Range
    else
      match bigWords (raw.length / 16 + 1) raw with
      | none => .error (.dec .badSyntax)
      | some words => .ok ((Nat.ofDigits (2 ^ 64) words : ℕ) : ℤ)

def bytesText (input : Bytes) : Except TextError Bytes :=
  match checkText input true with
  | .error e => .error e
  | .ok raw =>
    match hexDecodeString raw with
    | (_, some e) => .error (.dec e)
    | (dec, none) => .ok dec

def fixedText (size : ℕ) (input : Bytes) : Except TextError Bytes :=
  match checkText input true with
  | .error e => .error e
  | .ok raw =>
    if raw.length / 2 ≠ size then .error (.wrongLength raw.length (size * 2))
    else if (nibbles raw).isNone then .error (.dec .badSyntax)
    else .ok (hexDecodeString raw).1

def HexDigits (raw : Bytes) : Prop := ∀ c ∈ raw, (fromHexChar c).isSome

def Prefixed (s raw : Bytes) : Prop := ∃ x : Byte, (x = 120 ∨ x = 88) ∧ s = 48 :: x :: raw

theorem has0xPrefix_iff (s : Bytes) : has0xPrefix s = true ↔ Prefixed s (s.drop 2) := by
  match s with
  | [] => simp [has0xPrefix, Prefixed]
  | [a] => simp [has0xPrefix, Prefixed]
  | a :: b :: rest =>
    have hb : has0xPrefix (a :: b :: rest) = true ↔ a = 48 ∧ (b = 120 ∨ b = 88) := by
      simp only [has0xPrefix, Bool.and_eq_true, Bool.or_eq_true, decide_eq_true_eq]
    rw [hb]
    constructor
    · intro h
      exact ⟨b, h.2, by rw [h.1]; rfl⟩
    · intro ⟨x, hx, h⟩
      injection h with ha h
      injection h with hbx _
      exact ⟨ha, hbx ▸ hx⟩

variable {s raw : Bytes} {ds : List ℕ}

theorem Prefixed.drop (h : Prefixed s raw) : s.drop 2 = raw := by
  obtain ⟨x, -, rfl⟩ := h
  rfl

theorem prefixed_iff_drop (hp : has0xPrefix s = true) : Prefixed s raw ↔ s.drop 2 = raw := by
  constructor
  · exact Prefixed.drop
  · intro h
    rw [← h]
    exact (has0xPrefix_iff s).mp hp

theorem Prefixed.has0xPrefix (h : Prefixed s raw) : has0xPrefix s = true := by
  rw [has0xPrefix_iff, h.drop]
  exact h

theorem Prefixed.ne_nil (h : Prefixed s raw) : s ≠ [] := by
  obtain ⟨x, -, rfl⟩ := h
  simp

theorem nibbles_cons (c : Byte) (raw : Bytes) :
    nibbles (c :: raw) = (fromHexChar c).bind fun d => (nibbles raw).map (d :: ·) := by
  simp [nibbles, mapM_cons, map_eq_bind]

theorem nibbles_isSome_iff (raw : Bytes) : (nibbles raw).isSome ↔ HexDigits raw := by
  induction raw with
  | nil => simp [nibbles, HexDigits]
  | cons c raw ih =>
    have hdigits : HexDigits (c :: raw) ↔ (fromHexChar c).isSome ∧ HexDigits raw := by
      simp [HexDigits]
    rw [nibbles_cons, hdigits, ← ih]
    cases fromHexChar c with
    | none => simp
    | some d => simp

def hexValueFrom (a : ℕ) (ds : List ℕ) : ℕ := ds.foldl (fun w d => w * 16 + d) a

theorem le_hexValueFrom (a : ℕ) (ds : List ℕ) : a ≤ hexValueFrom a ds := by
  induction ds generalizing a with
  | nil => exact le_rfl
  | cons d ds ih =>
    have hnext := ih (a * 16 + d)
    show a ≤ hexValueFrom (a * 16 + d) ds
    omega

theorem fromHexChar_eq_some_iff (c : Byte) (d : ℕ) :
    fromHexChar c = some d ↔ digitVal c = some d ∧ d < 16 := by
  rw [fromHexChar, digitVal]
  split_ifs <;> simp <;> omega

theorem nibbles_cons_eq_some_iff (c : Byte) (raw : Bytes) (ds : List ℕ) :
    nibbles (c :: raw) = some ds ↔
      ∃ d ds', fromHexChar c = some d ∧ nibbles raw = some ds' ∧ ds = d :: ds' := by
  rw [nibbles_cons, bind_eq_some_iff]
  constructor
  · intro ⟨d, hd, h⟩
    obtain ⟨ds', hds', rfl⟩ := map_eq_some_iff.mp h
    exact ⟨d, ds', hd, hds', rfl⟩
  · intro ⟨d, ds', hd, hds', h⟩
    exact ⟨d, hd, by rw [hds', h]; rfl⟩

theorem parseDigits_ok_iff {a : ℕ} (ha : a < 2 ^ 64) (raw : Bytes) (n : ℕ) :
    parseDigits 16 a raw = (n, none) ↔
      ∃ ds, nibbles raw = some ds ∧ hexValueFrom a ds = n ∧ n < 2 ^ 64 := by
  induction raw generalizing a with
  | nil =>
    rw [parseDigits, Prod.mk.injEq]
    constructor
    · intro h
      exact ⟨[], rfl, h.1, h.1 ▸ ha⟩
    · intro ⟨ds, hds, hn, _⟩
      cases hds
      exact ⟨hn, rfl⟩
  | cons c cs ih =>
    rw [parseDigits]
    cases hc : digitVal c with
    | none =>
      refine iff_of_false (by simp) ?_
      intro ⟨ds, hds, _⟩
      obtain ⟨d, _, hd, _⟩ := (nibbles_cons_eq_some_iff c cs ds).mp hds
      rw [((fromHexChar_eq_some_iff c d).mp hd).1] at hc
      cases hc
    | some d =>
      simp only
      split_ifs with hbase hrange
      · refine iff_of_false (by simp) ?_
        intro ⟨ds, hds, _⟩
        obtain ⟨d', _, hd, _⟩ := (nibbles_cons_eq_some_iff c cs ds).mp hds
        have hd := (fromHexChar_eq_some_iff c d').mp hd
        rw [hc, some.injEq] at hd
        omega
      · refine iff_of_false (by simp) ?_
        intro ⟨ds, hds, hn, hlt⟩
        obtain ⟨d', ds', hd, _, rfl⟩ := (nibbles_cons_eq_some_iff c cs ds).mp hds
        have hd := ((fromHexChar_eq_some_iff c d').mp hd).1
        rw [hc, some.injEq] at hd
        subst hd
        have hle := le_hexValueFrom (a * 16 + d) ds'
        have hn : hexValueFrom (a * 16 + d) ds' = n := hn
        omega
      · have hfrom : fromHexChar c = some d :=
          (fromHexChar_eq_some_iff c d).mpr ⟨hc, by omega⟩
        rw [ih (by omega)]
        constructor
        · intro ⟨ds', hds', hn, hlt⟩
          exact ⟨d :: ds', (nibbles_cons_eq_some_iff c cs _).mpr ⟨d, ds', hfrom, hds', rfl⟩, hn, hlt⟩
        · intro ⟨ds, hds, hn, hlt⟩
          obtain ⟨d', ds', hd, hds', rfl⟩ := (nibbles_cons_eq_some_iff c cs ds).mp hds
          rw [hfrom, some.injEq] at hd
          subst hd
          exact ⟨ds', hds', hn, hlt⟩

/-- A quantity: `0x` and digits without leading zeros, with the value `n`. -/
def HexQuantity (s : Bytes) (n : ℕ) : Prop :=
  ∃ raw ds, Prefixed s raw ∧ raw ≠ [] ∧ (raw.head? = some 48 → raw = [48]) ∧
    nibbles raw = some ds ∧ hexValue ds = n

theorem checkNumber_ok_iff (s raw : Bytes) : checkNumber s = .ok raw ↔
    Prefixed s raw ∧ raw ≠ [] ∧ (raw.head? = some 48 → raw = [48]) := by
  rw [checkNumber]
  split_ifs with hs hp
  · refine iff_of_false (by simp) ?_
    intro h
    exact h.1.ne_nil hs
  · rw [prefixed_iff_drop hp]
    cases hd : s.drop 2 with
    | nil =>
      refine iff_of_false (by simp) ?_
      intro h
      exact h.2.1 h.1.symm
    | cons c cs =>
      simp only
      split_ifs with hlead
      · refine iff_of_false (by simp) ?_
        intro h
        have hone := h.2.2 (by rw [← h.1, hlead.2]; rfl)
        rw [← h.1, cons.injEq] at hone
        exact hlead.1 hone.2
      · rw [Except.ok.injEq]
        constructor
        · intro h
          refine ⟨h, by rw [← h]; simp, fun hhead => ?_⟩
          rw [← h, head?_cons, some.injEq] at hhead
          by_contra hne
          apply hlead
          refine ⟨fun hcs => hne ?_, hhead⟩
          rw [← h, hcs, hhead]
        · intro h
          exact h.1
  · refine iff_of_false (by simp) ?_
    intro h
    exact hp h.1.has0xPrefix

theorem not_hexQuantity {e : DecError} (hc : checkNumber s = .error e) (n : ℕ) :
    ¬ HexQuantity s n := by
  rintro ⟨raw, ds, hp, hne, hlead, -⟩
  rw [(checkNumber_ok_iff s raw).mpr ⟨hp, hne, hlead⟩] at hc
  cases hc

theorem hexQuantity_iff (hc : checkNumber s = .ok raw) (n : ℕ) :
    HexQuantity s n ↔ ∃ ds, nibbles raw = some ds ∧ hexValue ds = n := by
  constructor
  · rintro ⟨raw', ds, hp, hne, hlead, hds, hn⟩
    rw [(checkNumber_ok_iff s raw').mpr ⟨hp, hne, hlead⟩] at hc
    cases hc
    exact ⟨ds, hds, hn⟩
  · intro ⟨ds, hds, hn⟩
    obtain ⟨hp, hne, hlead⟩ := (checkNumber_ok_iff s raw).mp hc
    exact ⟨raw, ds, hp, hne, hlead, hds, hn⟩

theorem decodeUint64_ok_iff (s : Bytes) (n : ℕ) :
    decodeUint64 s = (n, none) ↔ HexQuantity s n ∧ n < 2 ^ 64 := by
  rw [decodeUint64]
  cases hc : checkNumber s with
  | error e => exact iff_of_false (by simp) fun h => not_hexQuantity hc n h.1
  | ok raw =>
    have hne := ((checkNumber_ok_iff s raw).mp hc).2.1
    simp only
    rw [parseUint, if_neg hne, parseDigits_ok_iff (by norm_num), hexQuantity_iff hc]
    constructor
    · intro ⟨ds, hds, hn, hlt⟩
      exact ⟨⟨ds, hds, hn⟩, hlt⟩
    · intro ⟨⟨ds, hds, hn⟩, hlt⟩
      exact ⟨ds, hds, hn, hlt⟩

theorem hexDecodeString_ok_iff (raw : Bytes) :
    (hexDecodeString raw).2 = none ↔ raw.length % 2 = 0 ∧ HexDigits raw := by
  fun_induction hexDecodeString raw with
  | case1 => simp [HexDigits]
  | case2 c => cases hc : fromHexChar c <;> simp
  | case3 c d rest a b ha hb r ih =>
    have hdigits : HexDigits (c :: d :: rest) ↔ HexDigits rest := by
      simp [HexDigits, ha, hb]
    rw [hdigits, length_cons, length_cons, Nat.add_assoc, Nat.add_mod_right]
    exact ih
  | case4 c d rest hbad =>
    refine iff_of_false (by simp) ?_
    intro h
    obtain ⟨a, ha⟩ := isSome_iff_exists.mp (h.2 c (by simp))
    obtain ⟨b, hb⟩ := isSome_iff_exists.mp (h.2 d (by simp))
    exact hbad a b ha hb

inductive HexPairs : Bytes → Bytes → Prop where
  | nil : HexPairs [] []
  | cons {c d : Byte} {x y : ℕ} {raw b : Bytes} (hc : fromHexChar c = some x)
      (hd : fromHexChar d = some y) (h : HexPairs raw b) :
      HexPairs (c :: d :: raw) (lowByte (16 * x + y) :: b)

theorem hexDecodeString_eq_iff (raw b : Bytes) :
    hexDecodeString raw = (b, none) ↔ HexPairs raw b := by
  constructor
  · intro h
    fun_induction hexDecodeString raw generalizing b with
    | case1 =>
      cases h
      exact .nil
    | case2 c =>
      have hbad : (if (fromHexChar c).isSome then some DecError.oddLength else some .badSyntax) =
        none := congrArg Prod.snd h
      split_ifs at hbad
    | case3 c d rest x y hy hx r ih =>
      have hb : lowByte (16 * x + y) :: r.1 = b := congrArg Prod.fst h
      have hr : r.2 = none := congrArg Prod.snd h
      rw [← hb]
      exact .cons hx hy (ih r.1 (by rw [← hr]))
    | case4 c d rest hbad => cases h
  · intro h
    induction h with
    | nil => rfl
    | cons hc hd _ ih => simp only [hexDecodeString, hc, hd, ih]

theorem decode_ok_iff (s b : Bytes) :
    decode s = (b, none) ↔ ∃ raw, Prefixed s raw ∧ HexPairs raw b := by
  rw [decode]
  split_ifs with hs hp
  · refine iff_of_false (by simp) ?_
    intro ⟨raw, h, _⟩
    exact h.ne_nil hs
  · rw [hexDecodeString_eq_iff]
    constructor
    · intro h
      exact ⟨_, (has0xPrefix_iff s).mp hp, h⟩
    · intro ⟨raw, h, hpairs⟩
      rw [h.drop]
      exact hpairs
  · refine iff_of_false (by simp) ?_
    intro ⟨raw, h, _⟩
    exact hp h.has0xPrefix

theorem hexDecodeString_length (h : HexDigits raw) :
    (hexDecodeString raw).1.length = raw.length / 2 := by
  fun_induction hexDecodeString raw with
  | case1 => rfl
  | case2 c => simp
  | case3 c d rest a b ha hb r ih =>
    have hrest := ih fun x hx => h x (by simp [hx])
    rw [length_cons, hrest, length_cons, length_cons]
    omega
  | case4 c d rest hbad =>
    obtain ⟨a, ha⟩ := isSome_iff_exists.mp (h c (by simp))
    obtain ⟨b, hb⟩ := isSome_iff_exists.mp (h d (by simp))
    exact absurd hb (hbad a b ha)

theorem checkText_ok_iff (s raw : Bytes) :
    checkText s true = .ok raw ↔ s = [] ∧ raw = [] ∨ Prefixed s raw ∧ raw.length % 2 = 0 := by
  rw [checkText]
  by_cases hs : s = []
  · subst hs
    rw [if_pos rfl]
    constructor
    · intro h
      exact .inl ⟨rfl, (Except.ok.inj h).symm⟩
    · intro h
      rcases h with h | h
      · rw [h.2]
      · exact absurd rfl h.1.ne_nil
  · rw [if_neg hs]
    by_cases hp : has0xPrefix s = true
    · rw [if_pos hp, prefixed_iff_drop hp, checkEven]
      split_ifs with hodd
      · simp only [false_iff, not_or, not_and]
        exact ⟨fun h => absurd h hs, fun h hr => hodd (h ▸ hr)⟩
      · simp only [Except.ok.injEq, hs, false_and, false_or]
        exact ⟨fun h => ⟨h, by rw [← h]; omega⟩, fun h => h.1⟩
    · rw [if_neg hp, if_pos rfl]
      refine iff_of_false (by simp) ?_
      intro h
      rcases h with h | h
      · exact hs h.1
      · exact hp h.1.has0xPrefix

theorem bytesText_ok_iff (s b : Bytes) : bytesText s = .ok b ↔
    ∃ raw, (s = [] ∧ raw = [] ∨ Prefixed s raw ∧ raw.length % 2 = 0) ∧ HexDigits raw ∧
      (hexDecodeString raw).1 = b := by
  rw [bytesText]
  cases hc : checkText s true with
  | error e =>
    refine iff_of_false (by simp) ?_
    intro ⟨raw, h, _⟩
    rw [(checkText_ok_iff s raw).mpr h] at hc
    cases hc
  | ok raw =>
    have hraw := (checkText_ok_iff s raw).mp hc
    have hlen : raw.length % 2 = 0 := by
      rcases hraw with h | h
      · rw [h.2]
        rfl
      · exact h.2
    have huniq : ∀ raw', (s = [] ∧ raw' = [] ∨ Prefixed s raw' ∧ raw'.length % 2 = 0) →
        raw' = raw := by
      intro raw' h
      rw [← checkText_ok_iff, hc] at h
      exact (Except.ok.inj h).symm
    have hok := hexDecodeString_ok_iff raw
    simp only
    rcases hd : hexDecodeString raw with ⟨dec, _ | e⟩
    · rw [hd] at hok
      constructor
      · intro h
        cases h
        exact ⟨raw, hraw, (hok.mp rfl).2, by rw [hd]⟩
      · intro ⟨raw', h, _, hb⟩
        rw [huniq raw' h, hd] at hb
        cases hb
        rfl
    · rw [hd] at hok
      refine iff_of_false (by simp) ?_
      intro ⟨raw', h, hdigits, _⟩
      rw [huniq raw' h] at hdigits
      exact absurd (hok.mpr ⟨hlen, hdigits⟩) (by simp)

theorem fixedText_ok_iff {size : ℕ} (hsize : 0 < size) (s b : Bytes) : fixedText size s = .ok b ↔
    ∃ raw, Prefixed s raw ∧ raw.length = 2 * size ∧ HexDigits raw ∧
      (hexDecodeString raw).1 = b := by
  rw [fixedText]
  cases hc : checkText s true with
  | error e =>
    refine iff_of_false (by simp) ?_
    intro ⟨raw, hp, hlen, _⟩
    rw [(checkText_ok_iff s raw).mpr (.inr ⟨hp, by omega⟩)] at hc
    cases hc
  | ok raw =>
    have hraw := (checkText_ok_iff s raw).mp hc
    have huniq : ∀ raw', Prefixed s raw' → raw'.length = 2 * size → raw' = raw := by
      intro raw' hp hlen
      have h := (checkText_ok_iff s raw').mpr (.inr ⟨hp, by omega⟩)
      rw [hc] at h
      exact (Except.ok.inj h).symm
    simp only
    split_ifs with hlen hn
    · refine iff_of_false (by simp) ?_
      intro ⟨raw', hp, hlen', _⟩
      rw [huniq raw' hp hlen'] at hlen'
      omega
    · refine iff_of_false (by simp) ?_
      intro ⟨raw', hp, hlen', hdigits, _⟩
      rw [huniq raw' hp hlen', ← nibbles_isSome_iff] at hdigits
      rw [isNone_iff_eq_none.mp hn] at hdigits
      cases hdigits
    · have hsome : HexDigits raw := by
        rw [← nibbles_isSome_iff]
        cases h : nibbles raw with
        | none =>
          rw [h] at hn
          exact absurd rfl hn
        | some ds => rfl
      constructor
      · intro h
        cases h
        rcases hraw with hnil | hp
        · rw [hnil.2] at hlen
          exact absurd (by simpa using hlen) hsize.ne
        · exact ⟨raw, hp.1, by omega, hsome, rfl⟩
      · intro ⟨raw', hp, hlen', _, hb⟩
        rw [huniq raw' hp hlen'] at hb
        rw [hb]

theorem hexToHash_eq {s h : Bytes} (hs : fixedText 32 s = .ok h) : hexToHash s = h := by
  obtain ⟨raw, hp, hlen, hdigits, rfl⟩ := (fixedText_ok_iff (by norm_num) s h).mp hs
  have hfrom : fromHex s = (hexDecodeString raw).1 := by
    simp only [fromHex, hp.has0xPrefix, if_true, hp.drop]
    rw [if_neg (by omega)]
  have hsize := hexDecodeString_length hdigits
  rw [hexToHash, hfrom, setBytes, if_neg (by omega), hsize, hlen]
  rfl

theorem fromHexChar_hexChar {d : ℕ} (h : d < 16) : fromHexChar (hexChar d) = some d := by
  interval_cases d <;> rfl

theorem hexChar_eq_zero {d : ℕ} (h : d < 16) : hexChar d = 48 ↔ d = 0 := by
  interval_cases d <;> decide

theorem nibbles_map_hexChar (h : ∀ d ∈ ds, d < 16) : nibbles (ds.map hexChar) = some ds := by
  unfold nibbles
  induction ds with
  | nil => rfl
  | cons d ds ih =>
    rw [map_cons, mapM_cons, fromHexChar_hexChar (h d (by simp)),
      ih fun e he => h e (by simp [he])]
    rfl

theorem hexValue_eq_ofDigits (ds : List ℕ) : hexValue ds = Nat.ofDigits 16 ds.reverse := by
  rw [hexValue, Nat.ofDigits_eq_foldr, foldr_reverse]
  congr 1
  funext w d
  push_cast
  ring

theorem hexValue_append (ds es : List ℕ) :
    hexValue (ds ++ es) = hexValue ds * 16 ^ es.length + hexValue es := by
  simp only [hexValue_eq_ofDigits, reverse_append, Nat.ofDigits_append, length_reverse]
  ring

def hexDigits (n : ℕ) : List ℕ := if n = 0 then [0] else (Nat.digits 16 n).reverse

theorem hexUint_eq (n : ℕ) : hexUint n = (hexDigits n).map hexChar := by
  unfold hexUint hexDigits
  split_ifs <;> rfl

theorem hexDigits_lt {n d : ℕ} (h : d ∈ hexDigits n) : d < 16 := by
  unfold hexDigits at h
  split_ifs at h
  · rw [mem_singleton] at h
    omega
  · exact Nat.digits_lt_base (by norm_num) (mem_reverse.mp h)

theorem hexValue_hexDigits (n : ℕ) : hexValue (hexDigits n) = n := by
  unfold hexDigits
  split_ifs with h
  · rw [h]
    rfl
  · rw [hexValue_eq_ofDigits, reverse_reverse, Nat.ofDigits_digits]

theorem hexDigits_ne_nil (n : ℕ) : hexDigits n ≠ [] := by
  unfold hexDigits
  split_ifs with h
  · exact cons_ne_nil _ _
  · rw [ne_eq, reverse_eq_nil_iff, Nat.digits_eq_nil_iff_eq_zero]
    exact h

theorem hexDigits_head {n d : ℕ} (h : hexDigits n = d :: ds) (hds : ds ≠ []) : d ≠ 0 := by
  unfold hexDigits at h
  split_ifs at h with h0
  · cases h
    exact absurd rfl hds
  · have hlast := Nat.getLast_digit_ne_zero 16 h0
    rw [← head_reverse (reverse_ne_nil_iff.mpr (Nat.digits_ne_nil_iff_ne_zero.mpr h0))]
      at hlast
    simpa only [h, head_cons] using hlast

theorem nibbles_hexUint (n : ℕ) : nibbles (hexUint n) = some (hexDigits n) := by
  rw [hexUint_eq]
  exact nibbles_map_hexChar fun d hd => hexDigits_lt hd

theorem encodeBig_natCast (m : ℕ) : encodeBig (m : ℤ) = [48, 120] ++ hexUint m := by
  unfold encodeBig
  split_ifs with hz hneg
  · have hzero : m = 0 := by exact_mod_cast hz
    rw [hzero]
    rfl
  · omega
  · rfl

theorem hexQuantity_hexUint (n : ℕ) : HexQuantity ([48, 120] ++ hexUint n) n := by
  have hne : hexUint n ≠ [] := by
    rw [hexUint_eq]
    simp [hexDigits_ne_nil]
  refine ⟨hexUint n, hexDigits n, ⟨120, .inl rfl, rfl⟩, hne, ?_, nibbles_hexUint n,
    hexValue_hexDigits n⟩
  intro hhead
  rw [hexUint_eq] at hhead ⊢
  cases hds : hexDigits n with
  | nil => exact absurd hds (hexDigits_ne_nil n)
  | cons d ds =>
    have hd : d < 16 := hexDigits_lt (hds ▸ mem_cons_self)
    rw [hds, map_cons, head?_cons, some.injEq, hexChar_eq_zero hd] at hhead
    have hnil : ds = [] := by
      by_contra hne
      exact hexDigits_head hds hne hhead
    rw [hnil, hhead]
    rfl

theorem hexQuantity_encodeBig (n : ℕ) : HexQuantity (encodeBig n) n := by
  rw [encodeBig_natCast]
  exact hexQuantity_hexUint n

theorem nibbles_digits (h : nibbles raw = some ds) : ds.length = raw.length ∧ ∀ d ∈ ds, d < 16 := by
  induction raw generalizing ds with
  | nil =>
    cases h
    exact ⟨rfl, nofun⟩
  | cons c raw ih =>
    obtain ⟨d, ds, hd, hds, rfl⟩ := (nibbles_cons_eq_some_iff c raw ds).mp h
    obtain ⟨hlen, hlt⟩ := ih hds
    refine ⟨congrArg (· + 1) hlen, ?_⟩
    intro e he
    rcases mem_cons.mp he with rfl | he
    · exact ((fromHexChar_eq_some_iff c e).mp hd).2
    · exact hlt e he

theorem fromHexChar_eq_zero {c : Byte} (h : fromHexChar c = some 0) : c = 48 := by
  unfold fromHexChar at h
  split_ifs at h <;> simp only [some.injEq] at h <;> apply Fin.ext <;> simp <;> omega

/-- Without a leading zero the number of digits decides about the range. -/
theorem hexValue_lt_iff (h : nibbles raw = some ds)
    (hlead : raw.head? = some 48 → raw = [48]) {k : ℕ} (hk : 0 < k) :
    hexValue ds < 16 ^ k ↔ raw.length ≤ k := by
  obtain ⟨hlen, hlt⟩ := nibbles_digits h
  constructor
  · intro hval
    by_contra hlong
    cases raw with
    | nil => exact hlong (Nat.zero_le k)
    | cons c raw =>
      obtain ⟨d, ds, hd, -, rfl⟩ := (nibbles_cons_eq_some_iff c raw ds).mp h
      have hpos : d ≠ 0 := by
        rintro rfl
        have hone := hlead (by rw [fromHexChar_eq_zero hd]; rfl)
        rw [hone] at hlong
        exact hlong hk
      have hle : 16 ^ k ≤ 16 ^ ds.length := by
        apply Nat.pow_le_pow_right (by norm_num)
        simp only [length_cons] at hlen hlong
        omega
      have happ : hexValue (d :: ds) = d * 16 ^ ds.length + hexValue ds := by
        rw [← singleton_append, hexValue_append]
        simp [hexValue]
      have := Nat.le_mul_of_pos_left (16 ^ ds.length) (Nat.pos_of_ne_zero hpos)
      omega
  · intro hle
    rw [hexValue_eq_ofDigits]
    have hdigits := Nat.ofDigits_lt_base_pow_length (b := 16) (l := ds.reverse) (by norm_num)
      fun d hd => hlt d (mem_reverse.mp hd)
    rw [length_reverse, hlen] at hdigits
    exact hdigits.trans_le (Nat.pow_le_pow_right (by norm_num) hle)

theorem nibbles_append (a b : Bytes) :
    nibbles (a ++ b) = (nibbles a).bind fun es => (nibbles b).map (es ++ ·) := by
  simp [nibbles, mapM_append, map_eq_bind]

theorem bigWords_value (n : ℕ) (raw : Bytes) (hn : raw.length ≤ 16 * n) :
    (bigWords n raw).map (Nat.ofDigits (2 ^ 64)) = (nibbles raw).map hexValue := by
  induction n generalizing raw with
  | zero =>
    have hnil : raw = [] := length_eq_zero_iff.mp (by omega)
    rw [hnil]
    rfl
  | succ n ih =>
    have hhigh := ih (raw.take (raw.length - 16)) (by rw [length_take]; omega)
    have hsplit := nibbles_append (raw.take (raw.length - 16)) (raw.drop (raw.length - 16))
    rw [take_append_drop] at hsplit
    rw [bigWords, hsplit]
    cases hlow : nibbles (raw.drop (raw.length - 16)) with
    | none => cases nibbles (raw.take (raw.length - 16)) <;> rfl
    | some ds =>
      have hlen := (nibbles_digits hlow).1
      rw [length_drop] at hlen
      cases hes : nibbles (raw.take (raw.length - 16)) with
      | none =>
        rw [hes, map_none, map_eq_none_iff] at hhigh
        simp [hhigh]
      | some es =>
        rw [hes, map_some, map_eq_some_iff] at hhigh
        obtain ⟨words, hwords, hval⟩ := hhigh
        have hpow : hexValue es * 16 ^ ds.length = 2 ^ 64 * hexValue es := by
          by_cases hlong : 16 ≤ raw.length
          · rw [show ds.length = 16 by omega]
            ring
          · have hnil : es.length = 0 := by
              rw [(nibbles_digits hes).1, length_take]
              omega
            rw [length_eq_zero_iff.mp hnil]
            simp [hexValue]
        simp only [hwords, bind_some, map_some, Nat.ofDigits_cons, hval,
          hexValue_append, hpow]
        push_cast
        rw [Nat.add_comm]

theorem uint64Text_ok_iff (hs : s ≠ []) (i : UInt64) :
    uint64Text s = .ok i ↔ HexQuantity s i.toNat := by
  rw [uint64Text, checkNumberText, if_neg hs]
  cases hc : checkNumber s with
  | error e => exact iff_of_false (by simp [Except.mapError]) (not_hexQuantity hc _)
  | ok raw =>
    have hlead := ((checkNumber_ok_iff s raw).mp hc).2.2
    have hi := i.toNat_lt
    simp only [Except.mapError]
    rw [hexQuantity_iff hc]
    cases hds : nibbles raw with
    | none => split_ifs <;> simp
    | some ds =>
      have hrange := hexValue_lt_iff hds hlead (k := 16) (by norm_num)
      split_ifs with hlong
      · refine iff_of_false (by simp) ?_
        rintro ⟨es, hes, hn⟩
        cases hes
        norm_num at hrange hi
        omega
      · have hlt : hexValue ds < 2 ^ 64 := by
          norm_num at hrange ⊢
          omega
        simp only [Except.ok.injEq, some.injEq, exists_eq_left']
        constructor
        · intro h
          rw [← h, UInt64.toNat_ofNat_of_lt' hlt]
        · intro h
          rw [h, UInt64.ofNat_toNat]

theorem decodeBig_eq_bigText {input : Bytes} (h : input ≠ []) : decodeBig input = bigText input := by
  rw [decodeBig, bigText, checkNumberText, if_neg h]
  cases checkNumber input <;> rfl

theorem decodeBig_ok_iff (s : Bytes) (z : ℤ) :
    decodeBig s = .ok z ↔ ∃ n : ℕ, z = n ∧ HexQuantity s n ∧ n < 2 ^ 256 := by
  rw [decodeBig]
  cases hc : checkNumber s with
  | error e =>
    refine iff_of_false (by simp) ?_
    rintro ⟨n, -, h, -⟩
    exact not_hexQuantity hc n h
  | ok raw =>
    have hlead := ((checkNumber_ok_iff s raw).mp hc).2.2
    have hwords := bigWords_value (raw.length / 16 + 1) raw (by omega)
    simp only [hexQuantity_iff hc]
    cases hds : nibbles raw with
    | none =>
      rw [hds, map_none, map_eq_none_iff] at hwords
      rw [hwords]
      split_ifs <;> simp
    | some ds =>
      rw [hds, map_some, map_eq_some_iff] at hwords
      obtain ⟨words, hw, hval⟩ := hwords
      have hrange := hexValue_lt_iff hds hlead (k := 64) (by norm_num)
      norm_num at hrange
      rw [hw]
      split_ifs with hlong
      · refine iff_of_false (by simp) ?_
        rintro ⟨n, -, ⟨es, hes, rfl⟩, hlt⟩
        cases hes
        norm_num at hlt
        omega
      · simp only [hval, Except.ok.injEq, some.injEq, exists_eq_left']
        constructor
        · intro h
          exact ⟨_, h.symm, rfl, by norm_num; omega⟩
        · rintro ⟨n, rfl, hn, -⟩
          rw [hn]

theorem HexQuantity.ne_nil {n : ℕ} (h : HexQuantity s n) : s ≠ [] := by
  rintro rfl
  exact not_hexQuantity rfl n h

theorem HexQuantity.read_uint64 {i : UInt64} (h : HexQuantity s i.toNat) :
    decodeUint64 s = (i.toNat, none) ∧ uint64Text s = .ok i :=
  ⟨(decodeUint64_ok_iff s _).mpr ⟨h, i.toNat_lt⟩, (uint64Text_ok_iff h.ne_nil i).mpr h⟩

theorem HexQuantity.read_big {n : ℕ} (h : HexQuantity s n) (hn : n < 2 ^ 256) :
    decodeBig s = .ok n ∧ bigText s = .ok n := by
  have hbig : decodeBig s = .ok n := (decodeBig_ok_iff s _).mpr ⟨n, rfl, h, hn⟩
  exact ⟨hbig, by rw [← decodeBig_eq_bigText h.ne_nil, hbig]⟩

theorem read_encodeBig {n : ℤ} (h0 : 0 ≤ n) (h : n < 2 ^ 256) :
    decodeBig (encodeBig n) = .ok n ∧ bigText (encodeBig n) = .ok n := by
  obtain ⟨m, rfl⟩ := Int.eq_ofNat_of_zero_le h0
  exact (hexQuantity_encodeBig m).read_big (by exact_mod_cast h)

theorem uint64Text_encodeUint64 (i : UInt64) : uint64Text (encodeUint64 i) = .ok i :=
  (hexQuantity_hexUint i.toNat).read_uint64.2

def uint64MarshalText (b : UInt64) : Bytes := [48, 120] ++ hexUint b.toNat

def bigMarshalText (b : ℤ) : Bytes := encodeBig b

/-- A nonempty string means the same to every decoder of its width, and what is written for a
number in range is read back as that number by all of them. -/
theorem hex_quantities_agree : (∀ s : Bytes, s ≠ [] →
      (∀ n, decodeUint64 s = (n, none) ↔ HexQuantity s n ∧ n < 2 ^ 64) ∧
      (∀ i, uint64Text s = .ok i ↔ decodeUint64 s = (i.toNat, none)) ∧
      (∀ z, decodeBig s = .ok z ↔ ∃ n : ℕ, z = n ∧ HexQuantity s n ∧ n < 2 ^ 256) ∧
      bigText s = decodeBig s) ∧
    (∀ i : UInt64, ∀ s ∈ [encodeUint64 i, uint64MarshalText i, encodeBig i.toNat,
        bigMarshalText i.toNat], (decodeUint64 s = (i.toNat, none) ∧ uint64Text s = .ok i) ∧
      decodeBig s = .ok i.toNat ∧ bigText s = .ok i.toNat) ∧
    ∀ n : ℕ, n < 2 ^ 256 → ∀ s ∈ [encodeBig n, bigMarshalText n],
      decodeBig s = .ok n ∧ bigText s = .ok n := by
  refine ⟨fun s hs => ⟨decodeUint64_ok_iff s, fun i => ?_, decodeBig_ok_iff s,
    (decodeBig_eq_bigText hs).symm⟩, fun i s hi => ?_, fun n hn s h => ?_⟩
  · rw [uint64Text_ok_iff hs, decodeUint64_ok_iff]
    exact ⟨fun h => ⟨h, i.toNat_lt⟩, fun h => h.1⟩
  · have hq : HexQuantity s i.toNat := by
      simp only [mem_cons, not_mem_nil, or_false] at hi
      rcases hi with rfl | rfl | rfl | rfl
      · exact hexQuantity_hexUint i.toNat
      · exact hexQuantity_hexUint i.toNat
      · exact hexQuantity_encodeBig i.toNat
      · exact hexQuantity_encodeBig i.toNat
    have hlt := i.toNat_lt
    exact ⟨hq.read_uint64, hq.read_big (by omega)⟩
  · have hq : HexQuantity s n := by
      simp only [mem_cons, not_mem_nil, or_false] at h
      rcases h with rfl | rfl <;> exact hexQuantity_encodeBig n
    exact hq.read_big hn

theorem hex_quantities_agree_ten :
    (HexQuantity [48, 120, 97] 10 ∧ 10 < 2 ^ 64) ∧ decodeBig (encodeBig (2 ^ 64)) = .ok (2 ^ 64) :=
  ⟨((hex_quantities_agree.1 [48, 120, 97] (by decide)).1 10).mp (by decide +kernel),
    (hex_quantities_agree.2.2 (2 ^ 64) (by norm_num) _ mem_cons_self).1⟩

theorem hexDecodeString_hexEncode (b : Bytes) : hexDecodeString (hexEncode b) = (b, none) := by
  induction b with
  | nil => rfl
  | cons c b ih =>
    have hbyte : lowByte (16 * (c.val / 16) + c.val % 16) = c := by
      rw [Nat.div_add_mod]
      exact lowByte_of_byte c
    show hexDecodeString (hexChar (c.val / 16) :: hexChar (c.val % 16) :: hexEncode b) = _
    rw [hexDecodeString, fromHexChar_hexChar (show c.val / 16 < 16 by omega),
      fromHexChar_hexChar (show c.val % 16 < 16 by omega)]
    simp only [ih, hbyte]

theorem hexEncode_length (b : Bytes) : (hexEncode b).length = 2 * b.length := by
  induction b with
  | nil => rfl
  | cons c b ih =>
    show (hexEncode b).length + 2 = _
    rw [ih, length_cons]
    ring

theorem hexEncode_injective {a b : Bytes} (h : hexEncode a = hexEncode b) : a = b := by
  have hdec := hexDecodeString_hexEncode a
  rw [h, hexDecodeString_hexEncode] at hdec
  exact (congrArg Prod.fst hdec).symm

theorem checkText_encode (b : Bytes) : checkText (encode b) true = .ok (hexEncode b) := by
  have heven : ¬ (hexEncode b).length % 2 ≠ 0 := by
    rw [hexEncode_length]
    omega
  show checkEven (hexEncode b) = _
  rw [checkEven, if_neg heven]

theorem bytesText_encode (b : Bytes) : bytesText (encode b) = .ok b := by
  simp only [bytesText, checkText_encode, hexDecodeString_hexEncode]

theorem nibbles_hexEncode (b : Bytes) : (nibbles (hexEncode b)).isSome := by
  have hmap : hexEncode b = (b.flatMap fun c => [c.val / 16, c.val % 16]).map hexChar := by
    rw [hexEncode, map_flatMap]
    rfl
  rw [hmap, nibbles_map_hexChar]
  · rfl
  · intro d hd
    obtain ⟨c, -, hc⟩ := mem_flatMap.mp hd
    have := c.isLt
    simp only [mem_cons, not_mem_nil, or_false] at hc
    omega

theorem fixedText_encode (b : Bytes) : fixedText b.length (encode b) = .ok b := by
  have hlen : ¬ (hexEncode b).length / 2 ≠ b.length := by
    rw [hexEncode_length]
    omega
  have hnib : ¬ (nibbles (hexEncode b)).isNone = true := by
    rw [isNone_iff_eq_none, ← not_isSome_iff_eq_none, not_not]
    exact nibbles_hexEncode b
  simp only [fixedText, checkText_encode, if_neg hlen, if_neg hnib, hexDecodeString_hexEncode]

theorem unmarshalJSON_quoted {α : Type} (text : Bytes → Except TextError α) (s : Bytes) :
    unmarshalJSON text ([34] ++ s ++ [34]) = text s := by
  have hstr : isString ([34] ++ s ++ [34]) = true := by
    simp [isString, getLast?_cons]
  rw [unmarshalJSON, if_pos hstr]
  simp

end Fiscobcos.Hexutil
