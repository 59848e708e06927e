import Fiscobcos.Lib.Numerals

/-! # The recursive length format

An item is a byte string or a list of items. A header holds the length of the contents; a single
byte below 128 is its own encoding. The code is self-delimiting (`Item.encode_append_inj`). -/

namespace Fiscobcos.RlpFormat
open List

open Fiscobcos.Numerals

/-- Header of contents of `n` bytes: one byte up to 55, else the big-endian bytes of `n` after a
byte that counts them. -/
def header (small large n : ℕ) : Bytes :=
  if n < 56 then [lowByte (small + n)] else lowByte (large + byteLen n) :: minBytes n

def strHeader (n : ℕ) : Bytes := header 0x80 0xB7 n
def listHeader (n : ℕ) : Bytes := header 0xC0 0xF7 n

def isOwnCode : Bytes → Bool
  | [b] => decide (b.val < 128)
  | _ => false

def encodeStr (bs : Bytes) : Bytes :=
  if isOwnCode bs then bs else strHeader bs.length ++ bs

inductive Item where
  | str (bs : Bytes)
  | list (xs : List Item)

mutual
def Item.encode : Item → Bytes
  | .str bs => encodeStr bs
  | .list xs => listHeader (encodeAll xs).length ++ encodeAll xs
def encodeAll : List Item → Bytes
  | [] => []
  | x :: xs => x.encode ++ encodeAll xs
end

theorem encodeAll_append (xs ys : List Item) :
    encodeAll (xs ++ ys) = encodeAll xs ++ encodeAll ys := by
  induction xs with
  | nil => rfl
  | cons x xs ih => simp only [cons_append, encodeAll, ih, append_assoc]

theorem isOwnCode_iff (bs : Bytes) : isOwnCode bs = true ↔ ∃ b : Byte, b.val < 128 ∧ bs = [b] := by
  match bs with
  | [] | [b] | a :: b :: bs => simp [isOwnCode]

theorem encodeStr_own (b : Byte) (hb : b.val < 128) : encodeStr [b] = [b] := by
  simp [encodeStr, isOwnCode, hb]

theorem encodeStr_of_not_own (bs : Bytes) (h : isOwnCode bs = false) :
    encodeStr bs = strHeader bs.length ++ bs := by
  simp [encodeStr, h]

section Header

/-- The two tag ranges that the format uses leave room for eight length bytes. -/
structure Tags (small large : ℕ) : Prop where
  next : small + 55 = large
  top : large + 8 < 256

theorem strTags : Tags 0x80 0xB7 := ⟨by norm_num, by norm_num⟩
theorem listTags : Tags 0xC0 0xF7 := ⟨by norm_num, by norm_num⟩

variable {small large : ℕ}

theorem lowByte_val_of_lt {v : ℕ} (h : v < 256) : (lowByte v).val = v := Nat.mod_eq_of_lt h

theorem byteLen_le_eight {n : ℕ} (h : n < 2 ^ 64) : byteLen n ≤ 8 :=
  (byteLen_le n 8).mpr (lt_of_lt_of_eq h (by norm_num))

theorem byteLen_pos {n : ℕ} (h : 0 < n) : 0 < byteLen n := by
  have h0 := byteLen_eq_zero n
  omega

theorem header_short (n : ℕ) (h : n < 56) : header small large n = [lowByte (small + n)] := by
  simp [header, h]

theorem header_long (n : ℕ) (h : 56 ≤ n) :
    header small large n = lowByte (large + byteLen n) :: minBytes n := by
  have hn : ¬ n < 56 := by omega
  simp [header, hn]

theorem header_of_long {b : Byte} {bs : Bytes} (hb : b.val = large + bs.length)
    (h56 : 56 ≤ beVal bs) (hz : 2 ≤ bs.length → NoLeadingZero bs) :
    header small large (beVal bs) = b :: bs := by
  have hnz : NoLeadingZero bs := by
    match bs with
    | [] => simp at h56
    | [c] =>
      intro h0
      simp only [head?_cons, Option.some.injEq] at h0
      subst h0
      simp [beVal] at h56
    | c :: d :: cs => exact hz (by simp)
  rw [header_long _ h56, byteLen_beVal bs hnz, minBytes_beVal bs hnz, ← hb, lowByte_of_byte]

theorem header_head (ht : Tags small large) (n : ℕ) (hn : n < 2 ^ 64) :
    ∃ b bs, header small large n = b :: bs ∧ small ≤ b.val ∧ b.val ≤ large + 8 := by
  have htop := ht.top
  have hnext := ht.next
  by_cases h : n < 56
  · refine ⟨_, _, header_short n h, ?_, ?_⟩ <;>
      · rw [lowByte_val_of_lt (by omega)]
        omega
  · have h8 := byteLen_le_eight hn
    refine ⟨_, _, header_long n (by omega), ?_, ?_⟩ <;>
      · rw [lowByte_val_of_lt (by omega)]
        omega

theorem header_append_inj (ht : Tags small large) {n m : ℕ} (hn : n < 2 ^ 64) (hm : m < 2 ^ 64)
    {r r' : Bytes} (h : header small large n ++ r = header small large m ++ r') :
    n = m ∧ r = r' := by
  have htop := ht.top
  have hnext := ht.next
  have hn8 := byteLen_le_eight hn
  have hm8 := byteLen_le_eight hm
  have key : ∀ {a b : ℕ}, a < 256 → b < 256 → lowByte a = lowByte b → a = b := by
    intro a b ha hb hab
    have hv := congrArg Fin.val hab
    rwa [lowByte_val_of_lt ha, lowByte_val_of_lt hb] at hv
  by_cases h1 : n < 56 <;> by_cases h2 : m < 56
  · rw [header_short n h1, header_short m h2] at h
    obtain ⟨hb, hr⟩ := cons.inj h
    have := key (by omega) (by omega) hb
    exact ⟨by omega, hr⟩
  · rw [header_short n h1, header_long m (by omega)] at h
    have := key (by omega) (by omega) (cons.inj h).1
    have hpos := byteLen_pos (n := m) (by omega)
    omega
  · rw [header_long n (by omega), header_short m h2] at h
    have := key (by omega) (by omega) (cons.inj h).1
    have hpos := byteLen_pos (n := n) (by omega)
    omega
  · rw [header_long n (by omega), header_long m (by omega)] at h
    obtain ⟨hb, hr⟩ := cons.inj h
    -- the first byte counts the length bytes, so both length fields are equally long
    have hlen := key (by omega) (by omega) hb
    obtain ⟨hmin, hrest⟩ := append_inj hr (by simp only [minBytes_length]; omega)
    exact ⟨minBytes_inj hmin, hrest⟩

end Header

theorem encodeStr_head (bs : Bytes) (h : bs.length < 2 ^ 64) :
    ∃ b t, encodeStr bs = b :: t ∧ b.val < 0xC0 := by
  by_cases hown : isOwnCode bs = true
  · obtain ⟨b, hb, rfl⟩ := (isOwnCode_iff bs).mp hown
    exact ⟨b, [], encodeStr_own b hb, by omega⟩
  · obtain ⟨b, t, hh, -, hb⟩ := header_head strTags bs.length h
    refine ⟨b, t ++ bs, ?_, by omega⟩
    rw [encodeStr_of_not_own bs (by simpa using hown), strHeader, hh]
    rfl

theorem encodeStr_append_inj {as bs : Bytes} (ha : as.length < 2 ^ 64) (hb : bs.length < 2 ^ 64)
    {r r' : Bytes} (h : encodeStr as ++ r = encodeStr bs ++ r') : as = bs ∧ r = r' := by
  -- a byte that is its own code is below every header byte
  have clash : ∀ {cs : Bytes} {b : Byte} {q q' : Bytes}, cs.length < 2 ^ 64 → b.val < 128 →
      [b] ++ q = strHeader cs.length ++ cs ++ q' → False := by
    intro cs b q q' hcs hlt heq
    obtain ⟨c, t, hh, hc, -⟩ := header_head strTags cs.length hcs
    rw [strHeader, hh] at heq
    have := congrArg Fin.val (cons.inj heq).1
    omega
  by_cases h1 : isOwnCode as = true <;> by_cases h2 : isOwnCode bs = true
  · obtain ⟨a, hlt, rfl⟩ := (isOwnCode_iff as).mp h1
    obtain ⟨b, hlt', rfl⟩ := (isOwnCode_iff bs).mp h2
    rw [encodeStr_own a hlt, encodeStr_own b hlt'] at h
    obtain ⟨hab, hr⟩ := cons.inj h
    exact ⟨by rw [hab], hr⟩
  · obtain ⟨a, hlt, rfl⟩ := (isOwnCode_iff as).mp h1
    rw [encodeStr_own a hlt, encodeStr_of_not_own bs (by simpa using h2)] at h
    exact (clash hb hlt h).elim
  · obtain ⟨b, hlt, rfl⟩ := (isOwnCode_iff bs).mp h2
    rw [encodeStr_own b hlt, encodeStr_of_not_own as (by simpa using h1)] at h
    exact (clash ha hlt h.symm).elim
  · rw [encodeStr_of_not_own as (by simpa using h1), encodeStr_of_not_own bs (by simpa using h2),
      append_assoc, append_assoc] at h
    obtain ⟨hlen, hrest⟩ := header_append_inj strTags ha hb h
    exact append_inj hrest hlen

theorem length_le_encodeStr (bs : Bytes) : bs.length ≤ (encodeStr bs).length := by
  unfold encodeStr
  split
  · exact le_rfl
  · rw [length_append]
    omega

theorem listHeader_head (n : ℕ) (hn : n < 2 ^ 64) :
    ∃ b t, listHeader n = b :: t ∧ 0xC0 ≤ b.val := by
  obtain ⟨b, t, hh, hb, -⟩ := header_head listTags n hn
  exact ⟨b, t, hh, hb⟩

theorem Item.encode_ne_nil : (x : Item) → x.encode ≠ []
  | .str bs => by
    unfold Item.encode encodeStr
    split
    · intro h
      simp_all [isOwnCode]
    · unfold strHeader header
      split <;> simp
  | .list xs => by
    unfold Item.encode listHeader header
    split <;> simp

theorem encodeAll_eq_nil {xs : List Item} (h : (encodeAll xs).length = 0) : xs = [] := by
  cases xs with
  | nil => rfl
  | cons x xs =>
    have hx := List.length_pos_of_ne_nil x.encode_ne_nil
    simp only [encodeAll, List.length_append] at h
    omega

def Item.payload : Item → ℕ
  | .str bs => bs.length
  | .list xs => (encodeAll xs).length

def Item.Fits (x : Item) : Prop := x.payload < 2 ^ 64

theorem Item.payload_le (x : Item) : x.payload ≤ x.encode.length := by
  cases x with
  | str bs => exact length_le_encodeStr bs
  | list xs =>
    rw [Item.payload, Item.encode, length_append]
    omega

mutual
theorem Item.encode_append_inj : (x y : Item) → x.Fits → y.Fits → (r r' : Bytes) →
    x.encode ++ r = y.encode ++ r' → x = y ∧ r = r'
  | .str as, .str bs, hx, hy, r, r', h => by
    simp only [Item.encode] at h
    obtain ⟨rfl, hr⟩ := encodeStr_append_inj hx hy h
    exact ⟨rfl, hr⟩
  | .str as, .list ys, hx, hy, r, r', h => by
    simp only [Item.encode] at h
    obtain ⟨b, t, hb, hlt⟩ := encodeStr_head as hx
    obtain ⟨c, u, hc, hge⟩ := listHeader_head (encodeAll ys).length hy
    rw [hb, hc] at h
    have := congrArg Fin.val (cons.inj h).1
    omega
  | .list xs, .str bs, hx, hy, r, r', h => by
    simp only [Item.encode] at h
    obtain ⟨b, t, hb, hlt⟩ := encodeStr_head bs hy
    obtain ⟨c, u, hc, hge⟩ := listHeader_head (encodeAll xs).length hx
    rw [hb, hc] at h
    have := congrArg Fin.val (cons.inj h).1
    omega
  | .list xs, .list ys, hx, hy, r, r', h => by
    simp only [Item.encode, append_assoc] at h
    obtain ⟨hlen, hrest⟩ := header_append_inj listTags hx hy h
    obtain ⟨hall, hr⟩ := append_inj hrest hlen
    have hxs := encodeAll_inj xs ys hx hy hall
    exact ⟨by rw [hxs], hr⟩
theorem encodeAll_inj : (xs ys : List Item) → (encodeAll xs).length < 2 ^ 64 →
    (encodeAll ys).length < 2 ^ 64 → encodeAll xs = encodeAll ys → xs = ys
  | [], [], _, _, _ => rfl
  | [], y :: ys, _, _, h => by
    have hy := y.encode_ne_nil
    simp_all [encodeAll]
  | x :: xs, [], _, _, h => by
    have hx := x.encode_ne_nil
    simp_all [encodeAll]
  | x :: xs, y :: ys, hx, hy, h => by
    have hpx := x.payload_le
    have hpy := y.payload_le
    simp only [encodeAll, length_append] at hx hy h
    obtain ⟨hxy, hrest⟩ := Item.encode_append_inj x y
      (by unfold Item.Fits; omega) (by unfold Item.Fits; omega) _ _ h
    rw [hxy, encodeAll_inj xs ys (by omega) (by omega) hrest]
end

theorem Item.encode_inj (x y : Item) (hx : x.Fits) (hy : y.Fits) (h : x.encode = y.encode) :
    x = y :=
  (Item.encode_append_inj x y hx hy [] [] (by rw [h])).1

end Fiscobcos.RlpFormat
