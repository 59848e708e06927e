import Fiscobcos.Lib.Checked
import Fiscobcos.Rlp.Shapes

/-! # Splitting values off a byte slice (rlp/raw.go)

`Split` and its relatives parse headers without a stream. They differ from `Stream.Raw` in the
strings of one byte that should have been written without a header. -/

namespace Fiscobcos.Rlp
open List Rlp.Stream

open Fiscobcos.Numerals Fiscobcos.RlpFormat Fiscobcos.Checked

/-- The size field; the source writes the sum out for each of the lengths from one to eight. -/
def readSize (b : Bytes) (slen : ℕ) : Outcome StreamError ℕ :=
  if slen > b.length then .err .unexpectedEOF
  else do
    let field ← slice b 0 slen
    if beVal field < 56 then .err .canonSize
    else
      match b with
      | [] => .fault .bounds
      | b₀ :: _ => if b₀ = 0 then .err .canonSize else .ok (beVal field)

def withinSlice (buf : Bytes) (k : Kind) (tagsize contentsize : ℕ) :
    Outcome StreamError (Kind × ℕ × ℕ) :=
  if contentsize > sub64 buf.length tagsize then .err .valueTooLarge
  else .ok (k, tagsize, contentsize)

def longHeader (buf rest : Bytes) (k : Kind) (slen : ℕ) : Outcome StreamError (Kind × ℕ × ℕ) := do
  let size ← readSize rest slen
  withinSlice buf k (slen + 1) size

/-- A header that has the size in its first byte. Strings that should have been single bytes are
rejected. -/
def shortString (buf rest : Bytes) (contentsize : ℕ) : Outcome StreamError (Kind × ℕ × ℕ) :=
  if contentsize = 1 ∧ ∃ c ∈ rest.head?, c.val < 128 then .err .canonSize
  else withinSlice buf .string 1 contentsize

/-- Kind, size of the header and size of the content. A single byte has no header. -/
def readKind (buf : Bytes) : Outcome StreamError (Kind × ℕ × ℕ) :=
  match buf with
  | [] => .err .unexpectedEOF
  | b :: rest =>
    if b.val < 0x80 then withinSlice buf .byte 0 1
    else if b.val < 0xB8 then shortString buf rest (b.val - 0x80)
    else if b.val < 0xC0 then longHeader buf rest .string (b.val - 0xB7)
    else if b.val < 0xF8 then withinSlice buf .list 1 (b.val - 0xC0)
    else longHeader buf rest .list (b.val - 0xF7)

/-- With an error the source returns `b` as the rest. -/
def split (b : Bytes) : Outcome StreamError (Kind × Bytes × Bytes) :=
  match readKind b with
  | .err e => .err e
  | .fault f => .fault f
  | .ok (k, ts, cs) => do
    let content ← slice b ts (add64 ts cs)
    let rest ← sliceFrom b (add64 ts cs)
    .ok (k, content, rest)

def splitString (b : Bytes) : Outcome StreamError (Bytes × Bytes) :=
  match split b with
  | .err e => .err e
  | .fault f => .fault f
  | .ok (k, content, rest) => if k = .list then .err .expectedString else .ok (content, rest)

def splitList (b : Bytes) : Outcome StreamError (Bytes × Bytes) :=
  match split b with
  | .err e => .err e
  | .fault f => .fault f
  | .ok (k, content, rest) => if k ≠ .list then .err .expectedList else .ok (content, rest)

/-- The loop of `CountValues`; `none` says that it has not ended. -/
def countLoop : ℕ → Bytes → ℕ → Option (Outcome StreamError ℕ)
  | _, [], i => some (.ok i)
  | 0, _ :: _, _ => none
  | rounds + 1, b :: bs, i =>
    match readKind (b :: bs) with
    | .err e => some (.err e)
    | .fault f => some (.fault f)
    | .ok (_, tagsize, size) =>
      match sliceFrom (b :: bs) (add64 tagsize size) with
      | .ok rest => countLoop rounds rest (i + 1)
      | .err e => some (.err e)
      | .fault f => some (.fault f)

/-- A round removes at least one byte. -/
def countValues (b : Bytes) : Option (Outcome StreamError ℕ) := countLoop b.length b 0

variable {b head rest content v : Bytes} {k : Kind} {vs : List Bytes}

theorem readSize_spec {slen : ℕ} (hpos : 0 < slen) : (∃ e, readSize b slen = .err e) ∨
      (readSize b slen = .ok (beVal (b.take slen)) ∧ slen ≤ b.length ∧
        56 ≤ beVal (b.take slen) ∧ NoLeadingZero (b.take slen)) := by
  unfold readSize
  by_cases hlen : slen > b.length
  · rw [if_pos hlen]
    exact .inl ⟨_, rfl⟩
  have hle : slen ≤ b.length := by omega
  rw [if_neg hlen, slice_of_le (Nat.zero_le _) hle, Outcome.ok_bind, drop_zero]
  by_cases hsmall : beVal (b.take slen) < 56
  · rw [if_pos hsmall]
    exact .inl ⟨_, rfl⟩
  rw [if_neg hsmall]
  cases b with
  | nil => exact absurd hle (Nat.not_le.mpr hpos)
  | cons b₀ bs =>
    have hhead : ((b₀ :: bs).take slen).head? = some b₀ := by
      cases slen with
      | zero => omega
      | succ m => rfl
    dsimp only
    by_cases hzero : b₀ = 0
    · rw [if_pos hzero]
      exact .inl ⟨_, rfl⟩
    · rw [if_neg hzero]
      refine .inr ⟨rfl, hle, by omega, ?_⟩
      rw [NoLeadingZero, hhead, ne_eq, Option.some.injEq]
      exact hzero

theorem readSize_of_field {field rest : Bytes} (hne : field ≠ []) (h56 : 56 ≤ beVal field)
    (hzero : NoLeadingZero field) : readSize (field ++ rest) field.length = .ok (beVal field) := by
  have hpos : 0 < field.length := length_pos_iff.mpr hne
  have hnot : ¬ field.length > (field ++ rest).length := by simp
  have hsmall : ¬ beVal field < 56 := by omega
  unfold readSize
  rw [if_neg hnot, slice_of_le (Nat.zero_le _) (by simp), Outcome.ok_bind, drop_zero,
    take_left, if_neg hsmall]
  cases field with
  | nil => exact absurd rfl hne
  | cons b₀ bs =>
    have hb₀ : b₀ ≠ 0 := by simpa [NoLeadingZero] using hzero
    exact if_neg hb₀

theorem withinSlice_spec {buf : Bytes} (hbuf : buf.length < 2 ^ 63) (k : Kind) {ts : ℕ}
    (hts : ts ≤ buf.length) (cs : ℕ) : (∃ e, withinSlice buf k ts cs = .err e) ∨
      (withinSlice buf k ts cs = .ok (k, ts, cs) ∧ ts + cs ≤ buf.length) := by
  unfold withinSlice
  rw [sub64_of_le hts (by omega)]
  by_cases h : cs > buf.length - ts
  · rw [if_pos h]
    exact .inl ⟨_, rfl⟩
  · rw [if_neg h]
    exact .inr ⟨rfl, by omega⟩

theorem withinSlice_of_le {buf : Bytes} (hbuf : buf.length < 2 ^ 63) (k : Kind) {ts cs : ℕ}
    (h : ts + cs ≤ buf.length) : withinSlice buf k ts cs = .ok (k, ts, cs) := by
  unfold withinSlice
  rw [sub64_of_le (by omega) (by omega), if_neg (by omega)]

theorem exists_content {cs : ℕ} (hhead : head <+: b) (h : head.length + cs ≤ b.length) :
    ∃ content rest, b = head ++ content ++ rest ∧ content.length = cs := by
  obtain ⟨tail, rfl⟩ := hhead
  refine ⟨tail.take cs, tail.drop cs, ?_, ?_⟩
  · rw [append_assoc, take_append_drop]
  · rw [length_append] at h
    rw [length_take]
    omega

theorem longHeader_spec (small large : ℕ) {b : Byte} (hlo : large < b.val)
    (hbuf : (b :: rest).length < 2 ^ 63) (k : Kind) :
    (∃ e, longHeader (b :: rest) rest k (b.val - large) = .err e) ∨
      ∃ content tail, b :: rest = header small large content.length ++ content ++ tail ∧
        56 ≤ content.length ∧ longHeader (b :: rest) rest k (b.val - large) =
          .ok (k, (header small large content.length).length, content.length) := by
  unfold longHeader
  rcases @readSize_spec rest (b.val - large) (by omega) with
    ⟨e, he⟩ | ⟨hok, hle, h56, hzero⟩
  · rw [he, Outcome.err_bind]
    exact .inl ⟨_, rfl⟩
  have hlen : (rest.take (b.val - large)).length = b.val - large := by
    rw [length_take]
    omega
  have hhdr : header small large (beVal (rest.take (b.val - large))) =
      b :: rest.take (b.val - large) := header_of_long (by omega) h56 fun _ => hzero
  have hts : b.val - large + 1 ≤ (b :: rest).length := by
    rw [length_cons]
    omega
  rw [hok, Outcome.ok_bind]
  generalize hn : beVal (rest.take (b.val - large)) = n at *
  rcases withinSlice_spec hbuf k hts n with ⟨e, he⟩ | ⟨hfit, hroom⟩
  · exact .inl ⟨e, he⟩
  · have hpre : header small large n <+: b :: rest := by
      rw [hhdr, cons_prefix_cons]
      exact ⟨rfl, take_prefix _ _⟩
    have hhlen : (header small large n).length = b.val - large + 1 := by
      rw [hhdr, length_cons, hlen]
    obtain ⟨content, tail, heq, rfl⟩ := exists_content hpre (by rw [hhlen]; exact hroom)
    exact .inr ⟨content, tail, heq, h56, by rw [hfit, hhlen]⟩

theorem shortHeader_spec (small large : ℕ) {b : Byte} (hlo : small ≤ b.val)
    (hhi : b.val < small + 56) (hbuf : (b :: rest).length < 2 ^ 63) (k : Kind) :
    (∃ e, withinSlice (b :: rest) k 1 (b.val - small) = .err e) ∨
      ∃ content tail, b :: rest = header small large content.length ++ content ++ tail ∧
        rest = content ++ tail ∧ content.length = b.val - small ∧
        withinSlice (b :: rest) k 1 (b.val - small) =
          .ok (k, (header small large content.length).length, content.length) := by
  have hone : 1 ≤ (b :: rest).length := by simp
  have hhdr := @Stream.header_of_short small large b hlo hhi
  rcases withinSlice_spec hbuf k hone (b.val - small) with ⟨e, he⟩ | ⟨hfit, hroom⟩
  · exact .inl ⟨e, he⟩
  · have hpre : header small large (b.val - small) <+: b :: rest := by
      rw [hhdr]
      exact ⟨rest, rfl⟩
    obtain ⟨content, tail, heq, hlen⟩ := exists_content hpre (by rw [hhdr]; exact hroom)
    rw [← hlen] at heq hhdr
    refine .inr ⟨content, tail, heq, ?_, hlen, by rw [hfit, hlen, ← hlen, hhdr]; rfl⟩
    rw [hhdr] at heq
    exact (cons.inj heq).2

theorem isOwnCode_false_of_head {content tail : Bytes}
    (h : ¬ (content.length = 1 ∧ ∃ c ∈ (content ++ tail).head?, c.val < 128)) :
    isOwnCode content = false := by
  cases hown : isOwnCode content with
  | false => rfl
  | true =>
    obtain ⟨c, hc, rfl⟩ := (isOwnCode_iff content).mp hown
    exact absurd ⟨rfl, c, rfl, hc⟩ h

theorem readKind_spec (hb : b.length < 2 ^ 63) : (∃ e, readKind b = .err e) ∨
      ∃ k head content rest, ValueCode true k head content ∧ b = head ++ content ++ rest ∧
        readKind b = .ok (k, head.length, content.length) := by
  cases b with
  | nil => exact .inl ⟨_, rfl⟩
  | cons c rest =>
    rw [readKind]
    by_cases h₁ : c.val < 0x80
    · rw [if_pos h₁, withinSlice_of_le hb _ (by simp)]
      exact .inr ⟨.byte, [], [c], rest, .byte c h₁, rfl, rfl⟩
    rw [if_neg h₁]
    by_cases h₂ : c.val < 0xB8
    · rw [if_pos h₂, shortString]
      by_cases hlone : c.val - 0x80 = 1 ∧ ∃ d ∈ rest.head?, d.val < 128
      · rw [if_pos hlone]
        exact .inl ⟨_, rfl⟩
      rw [if_neg hlone]
      rcases shortHeader_spec 0x80 0xB7 (by omega) (by omega) hb .string with
        ⟨e, he⟩ | ⟨content, tail, heq, hrest, hlen, hok⟩
      · exact .inl ⟨e, he⟩
      · rw [← hlen, hrest] at hlone
        exact .inr ⟨.string, _, content, tail,
          .string content (by omega) fun _ => isOwnCode_false_of_head hlone, heq, hok⟩
    rw [if_neg h₂]
    by_cases h₃ : c.val < 0xC0
    · rw [if_pos h₃]
      rcases longHeader_spec 0x80 0xB7 (by omega) hb .string with
        ⟨e, he⟩ | ⟨content, tail, heq, h56, hok⟩
      · exact .inl ⟨e, he⟩
      · have hlen : content.length ≤ (c :: rest).length := by
          rw [heq, length_append, length_append]
          omega
        have hown : isOwnCode content = false := by
          refine @isOwnCode_false_of_head content [] ?_
          omega
        exact .inr ⟨.string, _, content, tail, .string content (by omega) fun _ => hown, heq, hok⟩
    rw [if_neg h₃]
    by_cases h₄ : c.val < 0xF8
    · rw [if_pos h₄]
      rcases shortHeader_spec 0xC0 0xF7 (by omega) (by omega) hb .list with
        ⟨e, he⟩ | ⟨content, tail, heq, -, hlen, hok⟩
      · exact .inl ⟨e, he⟩
      · exact .inr ⟨.list, _, content, tail, .list content (by omega), heq, hok⟩
    · rw [if_neg h₄]
      rcases longHeader_spec 0xC0 0xF7 (by omega) hb .list with
        ⟨e, he⟩ | ⟨content, tail, heq, -, hok⟩
      · exact .inl ⟨e, he⟩
      · have hlen : content.length ≤ (c :: rest).length := by
          rw [heq, length_append, length_append]
          omega
        exact .inr ⟨.list, _, content, tail, .list content (by omega), heq, hok⟩

theorem longHeader_of_code {small large : ℕ} (ht : Tags small large) (k : Kind)
    (h56 : 56 ≤ content.length)
    (hbuf : (header small large content.length ++ content ++ rest).length < 2 ^ 63) :
    ∃ (b : Byte) (tail : Bytes), header small large content.length ++ content ++ rest = b :: tail ∧
      large < b.val ∧ b.val ≤ large + 8 ∧ longHeader (b :: tail) tail k (b.val - large) =
        .ok (k, (header small large content.length).length, content.length) := by
  have htop := ht.top
  have hlt : content.length < 2 ^ 64 := by
    rw [length_append, length_append] at hbuf
    omega
  have h8 := byteLen_le_eight hlt
  have hpos := byteLen_pos (n := content.length) (by omega)
  have hval : (lowByte (large + byteLen content.length)).val = large + byteLen content.length :=
    lowByte_val_of_lt (by omega)
  have hhdr := @header_long small large content.length h56
  have hfield := minBytes_length content.length
  refine ⟨lowByte (large + byteLen content.length), minBytes content.length ++ content ++ rest, ?_,
    by omega, by omega, ?_⟩
  · rw [hhdr]
    rfl
  · have hlen : large + byteLen content.length - large = (minBytes content.length).length := by
      omega
    have hsize := @readSize_of_field (minBytes content.length) (content ++ rest)
      (length_pos_iff.mp (by omega)) (by rwa [beVal_minBytes]) (minBytes_noLeadingZero _)
    rw [longHeader, hval, hlen, append_assoc, hsize, Outcome.ok_bind, beVal_minBytes]
    rw [hhdr] at hbuf
    rw [withinSlice_of_le (by simpa using hbuf) _ (by simp; omega), hhdr, length_cons]

theorem shortHeader_of_code {small large : ℕ} (ht : Tags small large) (k : Kind)
    (h56 : content.length < 56)
    (hbuf : (header small large content.length ++ content ++ rest).length < 2 ^ 63) :
    ∃ b : Byte, header small large content.length ++ content ++ rest = b :: (content ++ rest) ∧
      b.val = small + content.length ∧ withinSlice (b :: (content ++ rest)) k 1 content.length =
        .ok (k, (header small large content.length).length, content.length) := by
  have htop := ht.top
  have hnext := ht.next
  have hhdr := @header_short small large content.length h56
  rw [hhdr] at hbuf ⊢
  refine ⟨lowByte (small + content.length), rfl, lowByte_val_of_lt (by omega), ?_⟩
  have hroom : 1 + content.length ≤
      (lowByte (small + content.length) :: (content ++ rest)).length := by
    rw [length_cons, length_append]
    omega
  exact withinSlice_of_le hbuf k hroom

theorem not_lone (hown : isOwnCode content = false) :
    ¬ (content.length = 1 ∧ ∃ c ∈ (content ++ rest).head?, c.val < 128) := by
  rintro ⟨hlen, c, hc, hlt⟩
  obtain ⟨d, rfl⟩ := length_eq_one_iff.mp hlen
  cases hc
  simp [isOwnCode] at hown
  omega

theorem readKind_of_code (h : ValueCode true k head content)
    (hb : (head ++ content ++ rest).length < 2 ^ 63) :
    readKind (head ++ content ++ rest) = .ok (k, head.length, content.length) := by
  cases h with
  | byte c hc =>
    have hlt : c.val < 0x80 := hc
    rw [nil_append, singleton_append] at hb ⊢
    rw [readKind, if_pos hlt]
    exact withinSlice_of_le hb _ (by simp)
  | string content hlen hown =>
    by_cases h56 : content.length < 56
    · obtain ⟨c, heq, hval, hok⟩ := shortHeader_of_code strTags .string h56 hb
      rw [strHeader, heq, readKind, if_neg (by omega), if_pos (by omega), shortString,
        show c.val - 0x80 = content.length by omega, if_neg (not_lone (hown rfl))]
      exact hok
    · obtain ⟨c, tail, heq, hlo, hhi, hok⟩ := longHeader_of_code strTags .string (by omega) hb
      rw [strHeader, heq, readKind, if_neg (by omega), if_neg (by omega), if_pos (by omega)]
      exact hok
  | list content hlen =>
    by_cases h56 : content.length < 56
    · obtain ⟨c, heq, hval, hok⟩ := shortHeader_of_code listTags .list h56 hb
      rw [listHeader, heq, readKind, if_neg (by omega), if_neg (by omega), if_neg (by omega),
        if_pos (by omega), show c.val - 0xC0 = content.length by omega]
      exact hok
    · obtain ⟨c, tail, heq, hlo, hhi, hok⟩ := longHeader_of_code listTags .list (by omega) hb
      rw [listHeader, heq, readKind, if_neg (by omega), if_neg (by omega), if_neg (by omega),
        if_neg (by omega)]
      exact hok

theorem split_of_readKind (hb : (head ++ content ++ rest).length < 2 ^ 63)
    (h : readKind (head ++ content ++ rest) = .ok (k, head.length, content.length)) :
    split (head ++ content ++ rest) = .ok (k, content, rest) := by
  have hlen : (head ++ content ++ rest).length =
      head.length + content.length + rest.length := by
    rw [length_append, length_append]
  have hsum : add64 head.length content.length = head.length + content.length :=
    add64_of_lt (by omega)
  have hle : head.length + content.length ≤ (head ++ content ++ rest).length := by omega
  have hcontent : ((head ++ content ++ rest).take (head.length + content.length)).drop
      head.length = content := by
    rw [← length_append, take_left, drop_left]
  have hrest : (head ++ content ++ rest).drop (head.length + content.length) = rest := by
    rw [← length_append, drop_left]
  rw [split, h]
  dsimp only
  rw [hsum, slice_of_le (by omega) hle, hcontent, Outcome.ok_bind, sliceFrom_of_le hle, hrest,
    Outcome.ok_bind]

theorem split_spec (hb : b.length < 2 ^ 63) : (∃ e, split b = .err e) ∨
      ∃ k head content rest, ValueCode true k head content ∧ b = head ++ content ++ rest ∧
        split b = .ok (k, content, rest) := by
  rcases readKind_spec hb with ⟨e, he⟩ | ⟨k, head, content, rest, hcode, rfl, hok⟩
  · exact .inl ⟨e, by rw [split, he]⟩
  · exact .inr ⟨k, head, content, rest, hcode, rfl, split_of_readKind hb hok⟩

theorem split_iff (hb : b.length < 2 ^ 63) : split b = .ok (k, content, rest) ↔
      ∃ head, ValueCode true k head content ∧ b = head ++ content ++ rest := by
  constructor
  · intro h
    rcases split_spec hb with ⟨e, he⟩ | ⟨k', head, content', rest', hcode, hsplit, hok⟩
    · rw [he] at h
      cases h
    · rw [hok, Outcome.ok.injEq, Prod.mk.injEq, Prod.mk.injEq] at h
      obtain ⟨rfl, rfl, rfl⟩ := h
      exact ⟨head, hcode, hsplit⟩
  · rintro ⟨head, hcode, rfl⟩
    exact split_of_readKind hb (readKind_of_code hcode hb)

theorem splitString_iff (hb : b.length < 2 ^ 63) :
    splitString b = .ok (content, rest) ↔ b = encodeStr content ++ rest := by
  constructor
  · intro h
    unfold splitString at h
    rcases split_spec hb with ⟨e, he⟩ | ⟨k, head, content', rest', hcode, rfl, hok⟩
    · rw [he] at h
      cases h
    · rw [hok] at h
      dsimp only at h
      cases hcode with
      | byte c hc =>
        cases h
        rw [encodeStr_own c hc]
        rfl
      | string content hlen hown =>
        cases h
        rw [encodeStr_of_not_own content (hown rfl)]
      | list content hlen => cases h
  · rintro rfl
    have hlen : content.length < 2 ^ 64 := by
      have hle := length_le_encodeStr content
      rw [length_append] at hb
      omega
    rcases strHeader_cases content hlen with ⟨c, hc, rfl, henc⟩ | ⟨hown, -, henc⟩
    · have hsplit := (split_iff hb).mpr ⟨[], .byte c hc, by rw [henc]; rfl⟩
      rw [splitString, hsplit]
      rfl
    · have hsplit := (split_iff hb).mpr ⟨_, .string content hlen fun _ => hown, by rw [henc]⟩
      rw [splitString, hsplit]
      rfl

theorem splitList_iff (hb : b.length < 2 ^ 63) :
    splitList b = .ok (content, rest) ↔ b = listHeader content.length ++ content ++ rest := by
  constructor
  · intro h
    unfold splitList at h
    rcases split_spec hb with ⟨e, he⟩ | ⟨k, head, content', rest', hcode, rfl, hok⟩
    · rw [he] at h
      cases h
    · rw [hok] at h
      dsimp only at h
      cases hcode with
      | byte c hc => cases h
      | string content hlen hown => cases h
      | list content hlen =>
        cases h
        rfl
  · intro h
    have hlen : content.length < 2 ^ 64 := by
      rw [h, length_append, length_append] at hb
      omega
    have hsplit := (split_iff hb).mpr ⟨_, .list content hlen, h⟩
    rw [splitList, hsplit]
    rfl

theorem splitString_safe (hb : b.length < 2 ^ 63) : (splitString b).Safe := by
  unfold splitString
  rcases split_spec hb with ⟨e, he⟩ | ⟨k, head, content, rest, -, -, hok⟩
  · rw [he]
    trivial
  · rw [hok]
    exact Outcome.safe_unless fun _ => trivial

theorem splitList_safe (hb : b.length < 2 ^ 63) : (splitList b).Safe := by
  unfold splitList
  rcases split_spec hb with ⟨e, he⟩ | ⟨k, head, content, rest, -, -, hok⟩
  · rw [he]
    trivial
  · rw [hok]
    exact Outcome.safe_unless fun _ => trivial

namespace Stream

theorem reset_zero (b : Bytes) : reset b 0 = reset b b.length := by
  unfold reset
  cases b <;> rfl

theorem fresh_has (v rest : Bytes) : (reset (v ++ rest) 0).Has v := by
  rw [reset_zero]
  exact ((Has.append_iff _ v rest).mp (reset_has (v ++ rest))).1

theorem Reads.fresh {b v : Bytes} {s : Stream} (h : Reads (reset b 0) v s) : b = v ++ s.input :=
  h.input

end Stream

theorem bytes_fresh_iff (hb : b.length < 2 ^ 63) :
    (∃ s, (reset b 0).bytes = (.ok content, s) ∧ s.input = rest) ↔
      b = encodeStr content ++ rest := by
  constructor
  · rintro ⟨s, hs, rfl⟩
    exact (bytes_sound (reset_ready b 0) hs).2.fresh
  · rintro rfl
    have hlen : content.length < 2 ^ 64 := by
      have hle := length_le_encodeStr content
      rw [length_append] at hb
      omega
    obtain ⟨s, hs, hreads⟩ := bytes_complete (reset_ready _ 0) hlen
      (fresh_has (encodeStr content) rest)
    exact ⟨s, hs, (append_cancel_left hreads.fresh).symm⟩

theorem list_fresh_iff (hb : b.length < 2 ^ 63) :
    (∃ s, (reset b 0).list = (.ok content.length, s) ∧ s.input = content ++ rest) ↔
      b = listHeader content.length ++ content ++ rest := by
  constructor
  · rintro ⟨s, hs, hin⟩
    obtain ⟨hn, hhas, -, rfl⟩ := (list_iff (reset_ready b 0) _ s).mp hs
    have hdrop : b.drop (listHeader content.length).length = content ++ rest := hin
    have htake : b.take (listHeader content.length).length = listHeader content.length :=
      hhas.input
    rw [append_assoc, ← hdrop]
    conv_lhs => rw [← take_append_drop (listHeader content.length).length b, htake]
  · rintro rfl
    have hlen : content.length < 2 ^ 64 := by
      rw [length_append, length_append] at hb
      omega
    have hhas := fresh_has (listHeader content.length ++ content) rest
    have hhead := ((Has.append_iff _ _ _).mp hhas).1
    refine ⟨_, (list_iff (reset_ready _ 0) _ _).mpr
      ⟨hlen, hhead, hhas.claims, rfl⟩, ?_⟩
    show (listHeader content.length ++ content ++ rest).drop _ = content ++ rest
    rw [append_assoc, drop_left]

/-- Splitting a slice and reading a stream make the same decisions. -/
theorem split_agrees_with_stream (b : Bytes) (hb : b.length < 2 ^ 63) :
    (∀ content rest, splitString b = .ok (content, rest) ↔
      ∃ s, (Stream.reset b 0).bytes = (.ok content, s) ∧ s.input = rest) ∧
    (∀ content rest, splitList b = .ok (content, rest) ↔
      ∃ s, (Stream.reset b 0).list = (.ok content.length, s) ∧ s.input = content ++ rest) ∧
    (splitString b).Safe ∧ (splitList b).Safe := by
  refine ⟨fun content rest => ?_, fun content rest => ?_, splitString_safe hb, splitList_safe hb⟩
  · rw [splitString_iff hb, bytes_fresh_iff hb]
  · rw [splitList_iff hb, list_fresh_iff hb]

theorem split_agrees_with_stream_short :
    splitString [0x82, 0x61, 0x62, 0x63] = .ok ([0x61, 0x62], [0x63]) ∧
      ∃ s, (Stream.reset [0x82, 0x61, 0x62, 0x63] 0).bytes = (.ok [0x61, 0x62], s) ∧
        s.input = [0x63] := by
  have h : splitString [0x82, 0x61, 0x62, 0x63] = .ok ([0x61, 0x62], [0x63]) := by decide +kernel
  exact ⟨h, ((split_agrees_with_stream [0x82, 0x61, 0x62, 0x63] (by decide)).1 _ _).mp h⟩

def RawValue (v : Bytes) : Prop :=
  ∃ k head content, ValueCode false k head content ∧ v = head ++ content

def NonCanonical (v : Bytes) : Prop := ∃ c : Byte, c.val < 128 ∧ v = [0x81, c]

theorem NonCanonical.rawValue (h : NonCanonical v) : RawValue v := by
  obtain ⟨c, hc, rfl⟩ := h
  exact ⟨.string, strHeader 1, [c], .string [c] (by simp) (fun h => by cases h), rfl⟩

theorem ValueCode.loose (h : ValueCode true k head content) : ValueCode false k head content := by
  cases h with
  | byte c hc => exact .byte c hc
  | string content hlen hown => exact .string content hlen fun h => by cases h
  | list content hlen => exact .list content hlen

theorem ValueCode.strict (h : ValueCode false k head content)
    (hcanon : ¬ NonCanonical (head ++ content)) : ValueCode true k head content := by
  cases h with
  | byte c hc => exact .byte c hc
  | list content hlen => exact .list content hlen
  | string content hlen hown =>
    refine .string content hlen fun _ => ?_
    cases hcode : isOwnCode content with
    | false => rfl
    | true =>
      obtain ⟨c, hc, rfl⟩ := (isOwnCode_iff content).mp hcode
      exact absurd ⟨c, hc, rfl⟩ hcanon

theorem ValueCode.canonical (h : ValueCode true k head content) :
    ¬ NonCanonical (head ++ content) := by
  rintro ⟨c, hc, heq⟩
  cases h with
  | byte d hd => cases heq
  | string content hlen hown =>
    have hone : strHeader content.length ++ content = strHeader 1 ++ [c] := heq
    obtain ⟨-, rfl⟩ := header_append_inj strTags hlen (by norm_num) hone
    have hcode := (isOwnCode_iff [c]).mpr ⟨c, hc, rfl⟩
    rw [hown rfl] at hcode
    cases hcode
  | list content hlen =>
    obtain ⟨b, t, hh, hlo, -⟩ := header_head listTags content.length hlen
    rw [listHeader, hh] at heq
    have hb : b = 0x81 := (cons.inj heq).1
    rw [hb] at hlo
    exact absurd hlo (by decide)

theorem RawValue.ne_nil (h : RawValue v) : v ≠ [] := by
  obtain ⟨k, head, content, hcode, rfl⟩ := h
  cases hcode with
  | byte c hc => exact cons_ne_nil _ _
  | string content hlen hown =>
    obtain ⟨b, t, hh, -, -⟩ := header_head strTags content.length hlen
    rw [strHeader, hh]
    exact cons_ne_nil _ _
  | list content hlen =>
    obtain ⟨b, t, hh, -, -⟩ := header_head listTags content.length hlen
    rw [listHeader, hh]
    exact cons_ne_nil _ _

theorem raw_of_value {s : Stream} (hs : s.Ready) (hv : RawValue v) (h : s.Has v) :
    ∃ s', s.raw = (.ok v, s') ∧ Reads s v s' := by
  obtain ⟨k, head, content, hcode, rfl⟩ := hv
  exact raw_of_code hs hcode h

theorem raw_value {s s' : Stream} (hs : s.Ready) (h : s.raw = (.ok v, s')) :
    RawValue v ∧ Reads s v s' := by
  obtain ⟨k, head, content, hcode, heq, hreads⟩ := raw_inv hs h
  exact ⟨⟨k, head, content, hcode, heq⟩, hreads⟩

theorem RawValue.prefix_inj {v v' rest rest' : Bytes} (hv : RawValue v) (hv' : RawValue v')
    (h : v ++ rest = v' ++ rest') : v = v' ∧ rest = rest' := by
  obtain ⟨s, hs, -⟩ := raw_of_value (reset_ready _ 0) hv (fresh_has v rest)
  obtain ⟨s', hs', -⟩ := raw_of_value (reset_ready _ 0) hv' (fresh_has v' rest')
  rw [h, hs'] at hs
  cases hs
  exact ⟨rfl, append_cancel_left h⟩

theorem flatten_inj {vs vs' : List Bytes} (hvs : ∀ v ∈ vs, RawValue v)
    (hvs' : ∀ v ∈ vs', RawValue v) (h : vs.flatten = vs'.flatten) : vs = vs' := by
  induction vs generalizing vs' with
  | nil =>
    cases vs' with
    | nil => rfl
    | cons v' vs' =>
      have hnil := (append_eq_nil_iff.mp h.symm).1
      exact absurd hnil (hvs' v' mem_cons_self).ne_nil
  | cons v vs ih =>
    obtain ⟨hv, hall⟩ := forall_mem_cons.mp hvs
    cases vs' with
    | nil => exact absurd (append_eq_nil_iff.mp h).1 hv.ne_nil
    | cons v' vs' =>
      obtain ⟨hv', hall'⟩ := forall_mem_cons.mp hvs'
      obtain ⟨rfl, hrest⟩ := hv.prefix_inj hv' h
      rw [ih hall hall' hrest]

theorem raw_fresh_iff :
    (∃ s, (reset b 0).raw = (.ok v, s)) ↔ RawValue v ∧ ∃ rest, b = v ++ rest := by
  constructor
  · rintro ⟨s, hs⟩
    obtain ⟨hv, hreads⟩ := raw_value (reset_ready b 0) hs
    exact ⟨hv, s.input, hreads.fresh⟩
  · rintro ⟨hv, rest, rfl⟩
    obtain ⟨s, hs, -⟩ := raw_of_value (reset_ready _ 0) hv (fresh_has v rest)
    exact ⟨s, hs⟩

theorem split_value_iff (hb : b.length < 2 ^ 63) : (∃ k content, split b = .ok (k, content, rest)) ↔
      ∃ v, RawValue v ∧ ¬ NonCanonical v ∧ b = v ++ rest := by
  constructor
  · rintro ⟨k, content, h⟩
    obtain ⟨head, hcode, rfl⟩ := (split_iff hb).mp h
    exact ⟨_, ⟨k, head, content, hcode.loose, rfl⟩, hcode.canonical, rfl⟩
  · rintro ⟨v, ⟨k, head, content, hcode, rfl⟩, hcanon, rfl⟩
    exact ⟨k, content, (split_iff hb).mpr ⟨head, hcode.strict hcanon, rfl⟩⟩

theorem countLoop_spec {rounds : ℕ} (hb : b.length < 2 ^ 63) (hr : b.length ≤ rounds) (i : ℕ) :
    (∃ e, countLoop rounds b i = some (.err e) ∧
      ¬ ∃ vs : List Bytes, vs.flatten = b ∧ ∀ v ∈ vs, RawValue v ∧ ¬ NonCanonical v) ∨
    ∃ vs : List Bytes, vs.flatten = b ∧ (∀ v ∈ vs, RawValue v ∧ ¬ NonCanonical v) ∧
      countLoop rounds b i = some (.ok (i + vs.length)) := by
  induction rounds generalizing b i with
  | zero =>
    have hnil : b = [] := length_eq_zero_iff.mp (by omega)
    subst hnil
    exact .inr ⟨[], rfl, forall_mem_nil _, rfl⟩
  | succ rounds ih =>
    cases b with
    | nil => exact .inr ⟨[], rfl, forall_mem_nil _, rfl⟩
    | cons c bs =>
      rcases readKind_spec hb with ⟨e, he⟩ | ⟨k, head, content, rest, hcode, heq, hok⟩
      · refine .inl ⟨e, by rw [countLoop, he], ?_⟩
        rintro ⟨vs, hvs, hall⟩
        cases vs with
        | nil => cases hvs
        | cons v vs =>
          -- the first value would have been parsed
          obtain ⟨⟨k, head, content, hcode, rfl⟩, hcanon⟩ := hall v mem_cons_self
          rw [flatten_cons] at hvs
          rw [← hvs] at hb he
          rw [readKind_of_code (hcode.strict hcanon) hb] at he
          cases he
      · have hv : RawValue (head ++ content) := ⟨k, head, content, hcode.loose, rfl⟩
        have hlen := congrArg length heq
        rw [length_append] at hlen
        have hpos : 0 < (head ++ content).length := length_pos_iff.mpr hv.ne_nil
        have hnext : (sliceFrom (c :: bs) (add64 head.length content.length) :
            Outcome StreamError Bytes) = .ok rest := by
          rw [length_append] at hlen
          rw [add64_of_lt (by omega), ← length_append, heq,
            sliceFrom_of_le (by simp), drop_left]
        have hstep : countLoop (rounds + 1) (c :: bs) i = countLoop rounds rest (i + 1) := by
          rw [countLoop, hok]
          dsimp only
          rw [hnext]
        rw [hstep, heq]
        rcases ih (b := rest) (by omega) (by omega) (i + 1) with
          ⟨e, he, hno⟩ | ⟨vs, hvs, hall, hcount⟩
        · refine .inl ⟨e, he, ?_⟩
          rintro ⟨vs, hvs, hall⟩
          cases vs with
          | nil => exact absurd (append_eq_nil_iff.mp hvs.symm).1 hv.ne_nil
          | cons v vs =>
            obtain ⟨hfirst, hall⟩ := forall_mem_cons.mp hall
            obtain ⟨-, hrest⟩ := hfirst.1.prefix_inj hv hvs
            exact hno ⟨vs, hrest, hall⟩
        · refine .inr ⟨(head ++ content) :: vs, ?_, ?_, ?_⟩
          · rw [flatten_cons, hvs]
          · exact forall_mem_cons.mpr ⟨⟨hv, hcode.canonical⟩, hall⟩
          · rw [hcount, length_cons]
            congr 2
            omega

theorem countValues_iff (hb : b.length < 2 ^ 63) (n : ℕ) : countValues b = some (.ok n) ↔
      ∃ vs : List Bytes, vs.flatten = b ∧ vs.length = n ∧ ∀ v ∈ vs, RawValue v ∧ ¬ NonCanonical v := by
  unfold countValues
  rcases countLoop_spec hb le_rfl 0 with ⟨e, he, hno⟩ | ⟨vs, hvs, hall, hcount⟩
  · rw [he]
    refine ⟨(fun h => by cases h), ?_⟩
    rintro ⟨vs, hvs, -, hall⟩
    exact absurd ⟨vs, hvs, hall⟩ hno
  · rw [hcount, Nat.zero_add, Option.some.injEq, Outcome.ok.injEq]
    constructor
    · intro h
      exact ⟨vs, hvs, h, hall⟩
    · rintro ⟨vs', hvs', rfl, hall'⟩
      rw [flatten_inj (fun v hv => (hall v hv).1) (fun v hv => (hall' v hv).1)
        (hvs.trans hvs'.symm)]

theorem countValues_ends (hb : b.length < 2 ^ 63) :
    ∃ r : Outcome StreamError ℕ, countValues b = some r ∧ r.Safe := by
  unfold countValues
  rcases countLoop_spec hb le_rfl 0 with ⟨e, he, -⟩ | ⟨vs, -, -, hcount⟩
  · exact ⟨_, he, trivial⟩
  · exact ⟨_, hcount, trivial⟩

def rawRun : ℕ → Stream → Option (List Bytes × Stream)
  | 0, s => some ([], s)
  | n + 1, s =>
    match s.raw with
    | (.error _, _) => none
    | (.ok v, s) =>
      match rawRun n s with
      | none => none
      | some (vs, s) => some (v :: vs, s)

theorem rawRun_inv {n : ℕ} {s s' : Stream} (hs : s.Ready) (h : rawRun n s = some (vs, s')) :
    vs.length = n ∧ (∀ v ∈ vs, RawValue v) ∧ Reads s vs.flatten s' := by
  induction n generalizing s vs with
  | zero =>
    cases h
    exact ⟨rfl, forall_mem_nil _, Reads.nil _ hs⟩
  | succ n ih =>
    rw [rawRun] at h
    cases hr : s.raw with
    | mk r t =>
      rw [hr] at h
      cases r with
      | error e => cases h
      | ok v =>
        obtain ⟨hv, hreads⟩ := raw_value hs hr
        dsimp only at h
        cases hrun : rawRun n t with
        | none =>
          rw [hrun] at h
          cases h
        | some p =>
          obtain ⟨ws, u⟩ := p
          rw [hrun] at h
          cases h
          obtain ⟨hlen, hall, hrest⟩ := ih (hreads.ready hs.bounded) hrun
          exact ⟨congrArg (· + 1) hlen, forall_mem_cons.mpr ⟨hv, hall⟩, hreads.trans hrest⟩

theorem rawRun_of_values {s : Stream} (hs : s.Ready)
    (hall : ∀ v ∈ vs, RawValue v) (h : s.Has vs.flatten) :
    ∃ s', rawRun vs.length s = some (vs, s') := by
  induction vs generalizing s with
  | nil => exact ⟨s, rfl⟩
  | cons v vs ih =>
    obtain ⟨hv, hall⟩ := forall_mem_cons.mp hall
    obtain ⟨hfirst, -⟩ := (Has.append_iff s v vs.flatten).mp h
    obtain ⟨t, ht, hreads⟩ := raw_of_value hs hv hfirst
    obtain ⟨u, hu⟩ := ih (hreads.ready hs.bounded) hall (hreads.has_rest h)
    exact ⟨u, by rw [length_cons, rawRun, ht]; dsimp only; rw [hu]⟩

theorem rawRun_fresh_iff {n : ℕ} : (∃ s, rawRun n (reset b 0) = some (vs, s) ∧ vs.flatten = b) ↔
      vs.flatten = b ∧ vs.length = n ∧ ∀ v ∈ vs, RawValue v := by
  constructor
  · rintro ⟨s, hs, hvs⟩
    obtain ⟨hlen, hall, -⟩ := rawRun_inv (reset_ready b 0) hs
    exact ⟨hvs, hlen, hall⟩
  · rintro ⟨rfl, rfl, hall⟩
    have hhas := fresh_has vs.flatten []
    rw [append_nil] at hhas
    obtain ⟨s, hs⟩ := rawRun_of_values (reset_ready _ 0) hall hhas
    exact ⟨s, hs, rfl⟩

/-- `Raw` and `Split` accept the same values at the front of `b`, and `CountValues` counts what
repeated calls of `Raw` return. -/
structure RawAgrees (b : Bytes) : Prop where
  succeeds : (∃ v s, (Stream.reset b 0).raw = (.ok v, s)) ↔
    ∃ k content rest, split b = .ok (k, content, rest)
  returned : ∀ {v s k content rest}, (Stream.reset b 0).raw = (.ok v, s) →
    split b = .ok (k, content, rest) → b = v ++ rest
  ends : ∃ r : Outcome StreamError ℕ, countValues b = some r ∧ r.Safe
  counts : ∀ n, countValues b = some (.ok n) ↔
    ∃ vs s, rawRun n (Stream.reset b 0) = some (vs, s) ∧ vs.flatten = b

theorem nonCanonical_take (h : b = v ++ rest) (hv : NonCanonical v) : NonCanonical (b.take 2) := by
  obtain ⟨c, hc, rfl⟩ := hv
  exact ⟨c, hc, by rw [h]; rfl⟩

theorem raw_agrees_iff (b : Bytes) (hb : b.length < 2 ^ 63) :
    RawAgrees b ↔ ¬ NonCanonical (b.take 2) ∧
      ∀ vs : List Bytes, vs.flatten = b → (∀ v ∈ vs, RawValue v) → ∀ v ∈ vs, ¬ NonCanonical v := by
  constructor
  · intro h
    refine ⟨fun hfirst => ?_, fun vs hvs hvall => ?_⟩
    · have hraw := raw_fresh_iff.mpr ⟨hfirst.rawValue, b.drop 2, (take_append_drop 2 b).symm⟩
      obtain ⟨k, content, rest, hsplit⟩ := h.succeeds.mp ⟨_, hraw⟩
      obtain ⟨v, hv, hcanon, heq⟩ := (split_value_iff hb).mp ⟨k, content, hsplit⟩
      have hsame : b.take 2 ++ b.drop 2 = v ++ rest := by rw [take_append_drop, heq]
      obtain ⟨hfv, -⟩ := hfirst.rawValue.prefix_inj hv hsame
      exact hcanon (hfv ▸ hfirst)
    · have hrun := rawRun_fresh_iff.mpr ⟨hvs, rfl, hvall⟩
      obtain ⟨ws, hws, -, hall⟩ := (countValues_iff hb _).mp ((h.counts _).mpr ⟨vs, hrun⟩)
      have hsame := flatten_inj hvall (fun v hv => (hall v hv).1) (hvs.trans hws.symm)
      subst hsame
      exact fun v hv => (hall v hv).2
  · rintro ⟨hfirst, hall⟩
    refine ⟨⟨?_, ?_⟩, ?_, countValues_ends hb, fun n => ?_⟩
    · rintro ⟨v, hraw⟩
      obtain ⟨hv, rest, heq⟩ := raw_fresh_iff.mp hraw
      obtain ⟨k, content, hsplit⟩ := (split_value_iff hb).mpr
        ⟨v, hv, fun hnon => hfirst (nonCanonical_take heq hnon), heq⟩
      exact ⟨k, content, rest, hsplit⟩
    · rintro ⟨k, content, rest, hsplit⟩
      obtain ⟨v, hv, -, heq⟩ := (split_value_iff hb).mp ⟨k, content, hsplit⟩
      exact ⟨v, raw_fresh_iff.mpr ⟨hv, rest, heq⟩⟩
    · intro v s k content rest hraw hsplit
      obtain ⟨hv, rest', heq⟩ := raw_fresh_iff.mp ⟨s, hraw⟩
      obtain ⟨w, hw, -, heq'⟩ := (split_value_iff hb).mp ⟨k, content, hsplit⟩
      obtain ⟨-, rfl⟩ := hv.prefix_inj hw (heq.symm.trans heq')
      exact heq
    · rw [countValues_iff hb]
      constructor
      · rintro ⟨vs, hvs, hlen, hvall⟩
        exact ⟨vs, rawRun_fresh_iff.mpr ⟨hvs, hlen, fun v hv => (hvall v hv).1⟩⟩
      · rintro ⟨vs, hrun⟩
        obtain ⟨hvs, hlen, hraw⟩ := rawRun_fresh_iff.mp hrun
        exact ⟨vs, hvs, hlen, fun v hv => ⟨hraw v hv, hall vs hvs hraw v hv⟩⟩

/-- `Raw` returns the byte 5 behind a header, which `Split` and `CountValues` reject. -/
theorem raw_accepts_lone_byte : (∃ s, (Stream.reset [0x81, 0x05] 0).raw = (.ok [0x81, 0x05], s)) ∧
      split [0x81, 0x05] = .err .canonSize ∧ countValues [0x81, 0x05] = some (.err .canonSize) ∧
      ¬ RawAgrees [0x81, 0x05] := by
  have hnon : NonCanonical [0x81, 0x05] := ⟨0x05, by decide, rfl⟩
  have hraw := raw_fresh_iff.mpr ⟨hnon.rawValue, [], rfl⟩
  have hsplit : split [0x81, 0x05] = .err .canonSize := by decide +kernel
  refine ⟨hraw, hsplit, by decide +kernel, fun h => ?_⟩
  obtain ⟨k, content, rest, hok⟩ := h.succeeds.mp ⟨_, hraw⟩
  rw [hsplit] at hok
  cases hok

theorem raw_agrees_pair : RawAgrees [0xC1, 0x80, 0x05] := by
  have hno : ∀ v : Bytes, 0x81 ∉ v → ¬ NonCanonical v := by
    rintro v hv ⟨c, -, rfl⟩
    exact hv mem_cons_self
  refine (raw_agrees_iff [0xC1, 0x80, 0x05] (by decide)).mpr ⟨hno _ (by decide), ?_⟩
  intro vs hvs _ v hv
  refine hno v fun hmem => ?_
  have hin : (0x81 : Byte) ∈ vs.flatten := mem_flatten.mpr ⟨v, hv, hmem⟩
  rw [hvs] at hin
  exact absurd hin (by decide)

end Fiscobcos.Rlp
