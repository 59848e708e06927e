import Fiscobcos.Rlp.Decode

/-! # Go types that RLP handles (rlp/typecache.go)

A struct type is its name, so that types may be recursive; `Decls` holds the declarations, each with
the fields that `structFields` generates. -/

namespace Fiscobcos.Rlp

open Fiscobcos.Numerals Fiscobcos.RlpFormat

inductive UintType where
  | uint
  | uint8
  | uint16
  | uint32
  | uint64
  | uintptr
deriving DecidableEq, Repr

/-- `uint` and `uintptr` have the 64 bits of the platform's word. -/
def UintType.bits : UintType → ℕ
  | .uint8 => 8
  | .uint16 => 16
  | .uint32 => 32
  | .uint | .uint64 | .uintptr => 64

def UintType.toString : UintType → String
  | .uint => "uint"
  | .uint8 => "uint8"
  | .uint16 => "uint16"
  | .uint32 => "uint32"
  | .uint64 => "uint64"
  | .uintptr => "uintptr"

inductive GoType where
  | uint (u : UintType)
  | bool
  | bigInt
  | string
  | slice (elem : GoType)
  | array (len : ℕ) (elem : GoType)
  | ptr (elem : GoType)
  | struct (name : String)
  | iface
deriving DecidableEq, Repr

namespace GoType

abbrev byte : GoType := .uint .uint8

def toString : GoType → String
  | .uint u => u.toString
  | .bool => "bool"
  | .bigInt => "big.Int"
  | .string => "string"
  | .slice e => "[]" ++ e.toString
  | .array n e => "[" ++ n.repr ++ "]" ++ e.toString
  | .ptr e => "*" ++ e.toString
  | .struct name => name
  | .iface => "interface {}"

end GoType

/-- The cases of `makeWriter` and `makeDecoder`, which agree on the types above. -/
inductive TypeCase where
  | bigIntPtr
  | bigInt
  | ptr (elem : GoType)
  | uint (u : UintType)
  | bool
  | string
  | byteSlice
  | byteArray (len : ℕ)
  | slice (elem : GoType)
  | array (len : ℕ) (elem : GoType)
  | struct (name : String)
  | iface

/-- `*big.Int` is tried before the other pointers, bytes before other elements. -/
def GoType.case : GoType → TypeCase
  | .ptr e => if e = .bigInt then .bigIntPtr else .ptr e
  | .bigInt => .bigInt
  | .uint u => .uint u
  | .bool => .bool
  | .string => .string
  | .slice e => if e = .byte then .byteSlice else .slice e
  | .array n e => if e = .byte then .byteArray n else .array n e
  | .struct name => .struct name
  | .iface => .iface

variable {e : GoType}

theorem case_ptr (h : e ≠ .bigInt) : (GoType.ptr e).case = .ptr e := if_neg h

theorem case_slice (h : e ≠ .byte) : (GoType.slice e).case = .slice e := if_neg h

theorem case_array (n : ℕ) (h : e ≠ .byte) : (GoType.array n e).case = .array n e :=
  if_neg h

inductive TagWord where
  | empty
  | ignore
  | nil
  | nilString
  | nilList
  | tail
  | other (text : String)
deriving DecidableEq, Repr

def TagWord.toString : TagWord → String
  | .empty => ""
  | .ignore => "-"
  | .nil => "nil"
  | .nilString => "nilString"
  | .nilList => "nilList"
  | .tail => "tail"
  | .other text => text

structure Field where
  name : String
  exported : Bool
  typ : GoType
  tag : List TagWord
deriving DecidableEq, Repr

structure FieldTags where
  nilOK : Bool
  nilKind : Kind
  tail : Bool
  ignored : Bool
deriving DecidableEq, Repr

def noTags : FieldTags := ⟨false, .byte, false, false⟩

inductive TagError where
  | structTag (tag typ field err : String)
  | unknown (tag typ field : String)
deriving DecidableEq, Repr

def TagError.message : TagError → String
  | .structTag tag typ field err =>
    "rlp: invalid struct tag " ++ tag.quote ++ " for " ++ typ ++ "." ++ field ++ " (" ++ err ++ ")"
  | .unknown tag typ field =>
    "rlp: unknown struct tag " ++ tag.quote ++ " on " ++ typ ++ "." ++ field

def isByteArray : GoType → Bool
  | .slice e => e = .byte
  | .array _ e => e = .byte
  | _ => false

def defaultNilKind (typ : GoType) : Kind :=
  match typ with
  | .uint _ | .string | .bool => .string
  | typ => if isByteArray typ then .string else .list

/-- The tags `nil`, `nilString` and `nilList`; `kind` gives the element type's kind of empty. -/
def parseNilTag (typ : String) (f : Field) (t : TagWord) (kind : GoType → Kind) (ts : FieldTags) :
    Except TagError FieldTags :=
  match f.typ with
  | .ptr e => .ok { ts with nilOK := true, nilKind := kind e }
  | _ => .error (.structTag t.toString typ f.name "field is not a pointer")

def parseTagWord (typ : String) (f : Field) (fi lastPublic : ℕ) (t : TagWord) (ts : FieldTags) :
    Except TagError FieldTags :=
  match t with
  | .empty => .ok ts
  | .ignore => .ok { ts with ignored := true }
  | .nil => parseNilTag typ f t defaultNilKind ts
  | .nilString => parseNilTag typ f t (fun _ => .string) ts
  | .nilList => parseNilTag typ f t (fun _ => .list) ts
  | .tail =>
    if fi ≠ lastPublic then .error (.structTag t.toString typ f.name "must be on last field")
    else
      match f.typ with
      | .slice _ => .ok { ts with tail := true }
      | _ => .error (.structTag t.toString typ f.name "field type is not slice")
  | .other text => .error (.unknown text typ f.name)

def parseTagWords (typ : String) (f : Field) (fi lastPublic : ℕ) :
    List TagWord → FieldTags → Except TagError FieldTags
  | [], ts => .ok ts
  | t :: words, ts =>
    match parseTagWord typ f fi lastPublic t ts with
    | .error err => .error err
    | .ok ts => parseTagWords typ f fi lastPublic words ts

def parseStructTag (typ : String) (f : Field) (fi lastPublic : ℕ) : Except TagError FieldTags :=
  parseTagWords typ f fi lastPublic f.tag noTags

def lastPublicLoop : List Field → ℕ → ℕ → ℕ
  | [], _, last => last
  | f :: fs, i, last => lastPublicLoop fs (i + 1) (if f.exported then i else last)

def lastPublicField (fs : List Field) : ℕ := lastPublicLoop fs 0 0

structure FieldInfo where
  name : String
  typ : GoType
  tags : FieldTags
deriving DecidableEq, Repr

def structFieldsLoop (typ : String) (lastPublic : ℕ) :
    List Field → ℕ → Except TagError (List FieldInfo)
  | [], _ => .ok []
  | f :: fs, i =>
    if f.exported then
      match parseStructTag typ f i lastPublic with
      | .error err => .error err
      | .ok ts =>
        if ts.ignored then structFieldsLoop typ lastPublic fs (i + 1)
        else
          match structFieldsLoop typ lastPublic fs (i + 1) with
          | .error err => .error err
          | .ok infos => .ok (⟨f.name, f.typ, ts⟩ :: infos)
    else structFieldsLoop typ lastPublic fs (i + 1)

def structFields (typ : String) (fs : List Field) : Except TagError (List FieldInfo) :=
  structFieldsLoop typ (lastPublicField fs) fs 0

/-- The struct types of a program, by name. A struct whose tags do not parse has no writer and no
decoder, so it cannot be declared here. -/
structure Decls where
  decl : String → List Field
  fields : String → List FieldInfo
  generated : ∀ name, structFields name (decl name) = .ok (fields name)

/-- Tags that `parseStructTag` can leave on a field of type `typ`. -/
structure FieldTags.Fit (ts : FieldTags) (typ : GoType) : Prop where
  nilPtr : ts.nilOK = true → (∃ e, typ = .ptr e) ∧ (ts.nilKind = .string ∨ ts.nilKind = .list)
  tailSlice : ts.tail = true → ∃ e, typ = .slice e

theorem noTags_fit (typ : GoType) : noTags.Fit typ := ⟨by simp [noTags], by simp [noTags]⟩

theorem defaultNilKind_cases (typ : GoType) :
    defaultNilKind typ = .string ∨ defaultNilKind typ = .list := by
  unfold defaultNilKind
  split
  · exact .inl rfl
  · exact .inl rfl
  · exact .inl rfl
  · split_ifs
    · exact .inl rfl
    · exact .inr rfl

variable {typ : String} {f : Field} {ts ts' : FieldTags}

theorem parseNilTag_fit {t : TagWord} {kind : GoType → Kind}
    (hkind : ∀ e, kind e = .string ∨ kind e = .list) (hfit : ts.Fit f.typ)
    (h : parseNilTag typ f t kind ts = .ok ts') : ts'.Fit f.typ ∧ ts'.tail = ts.tail := by
  unfold parseNilTag at h
  split at h
  · rename_i e he
    cases h
    exact ⟨⟨fun _ => ⟨⟨e, he⟩, hkind e⟩, hfit.tailSlice⟩, rfl⟩
  · cases h

variable {fi lastPublic : ℕ}

theorem parseTagWord_fit {t : TagWord}
    (hfit : ts.Fit f.typ) (h : parseTagWord typ f fi lastPublic t ts = .ok ts') :
    ts'.Fit f.typ ∧ (ts'.tail = true → ts.tail = true ∨ fi = lastPublic) := by
  cases t with
  | empty =>
    cases h
    exact ⟨hfit, .inl⟩
  | ignore =>
    cases h
    exact ⟨⟨hfit.nilPtr, hfit.tailSlice⟩, .inl⟩
  | nil =>
    obtain ⟨hf, ht⟩ := parseNilTag_fit defaultNilKind_cases hfit h
    exact ⟨hf, fun h' => .inl (ht ▸ h')⟩
  | nilString =>
    obtain ⟨hf, ht⟩ := parseNilTag_fit (fun _ => .inl rfl) hfit h
    exact ⟨hf, fun h' => .inl (ht ▸ h')⟩
  | nilList =>
    obtain ⟨hf, ht⟩ := parseNilTag_fit (fun _ => .inr rfl) hfit h
    exact ⟨hf, fun h' => .inl (ht ▸ h')⟩
  | tail =>
    simp only [parseTagWord] at h
    split_ifs at h with hlast
    split at h
    · rename_i e he
      cases h
      exact ⟨⟨hfit.nilPtr, fun _ => ⟨e, he⟩⟩, fun _ => .inr (by simpa using hlast)⟩
    · cases h
  | other text => cases h

theorem parseTagWords_fit {words : List TagWord} (hfit : ts.Fit f.typ)
    (h : parseTagWords typ f fi lastPublic words ts = .ok ts') :
    ts'.Fit f.typ ∧ (ts'.tail = true → ts.tail = true ∨ fi = lastPublic) := by
  induction words generalizing ts with
  | nil =>
    cases h
    exact ⟨hfit, .inl⟩
  | cons t words ih =>
    unfold parseTagWords at h
    split at h
    · cases h
    · rename_i ts₁ hts₁
      obtain ⟨hfit₁, htail₁⟩ := parseTagWord_fit hfit hts₁
      obtain ⟨hfit', htail'⟩ := ih hfit₁ h
      exact ⟨hfit', fun ht => (htail' ht).elim htail₁ .inr⟩

theorem parseStructTag_fit (h : parseStructTag typ f fi lastPublic = .ok ts) :
    ts.Fit f.typ ∧ (ts.tail = true → fi = lastPublic) := by
  obtain ⟨hfit', htail⟩ := parseTagWords_fit (noTags_fit f.typ) h
  exact ⟨hfit', fun ht => (htail ht).resolve_left (by decide)⟩

theorem lastPublicLoop_ge (fs : List Field) (i last : ℕ) (h : last ≤ i) :
    last ≤ lastPublicLoop fs i last := by
  induction fs generalizing i last with
  | nil => exact le_rfl
  | cons f fs ih =>
    unfold lastPublicLoop
    split_ifs
    · exact h.trans (ih (i + 1) i (by omega))
    · exact ih (i + 1) last (by omega)

theorem structFieldsLoop_spec {fs : List Field} {i last : ℕ}
    {infos : List FieldInfo} (hlast : lastPublicLoop fs i last = lastPublic) (hi : last ≤ i)
    (h : structFieldsLoop typ lastPublic fs i = .ok infos) :
    (∀ f ∈ infos, f.tags.Fit f.typ) ∧ infos.Pairwise (fun f _ => f.tags.tail = false) ∧
      (infos ≠ [] → i ≤ lastPublic) := by
  induction fs generalizing i last infos with
  | nil =>
    cases h
    simp
  | cons f fs ih =>
    unfold structFieldsLoop at h
    unfold lastPublicLoop at hlast
    by_cases hexp : f.exported = true
    · rw [if_pos hexp] at h hlast
      have hle : i ≤ lastPublic := hlast ▸ lastPublicLoop_ge fs (i + 1) i (by omega)
      split at h
      · cases h
      · rename_i ts hts
        split_ifs at h with hign
        · obtain ⟨hfit, hpw, -⟩ := ih hlast (by omega) h
          exact ⟨hfit, hpw, fun _ => hle⟩
        · split at h
          · cases h
          · rename_i rest hrest
            cases h
            obtain ⟨hfit, hpw, hlt⟩ := ih hlast (by omega) hrest
            obtain ⟨hfit', htail⟩ := parseStructTag_fit hts
            refine ⟨?_, List.pairwise_cons.mpr ⟨?_, hpw⟩, fun _ => hle⟩
            · rintro g (_ | ⟨_, hg⟩)
              · exact hfit'
              · exact hfit g hg
            · -- a field with the tail tag is the last exported one
              intro g hg
              have hge := hlt (List.ne_nil_of_mem hg)
              by_contra hne
              have := htail (by simpa using hne)
              omega
    · rw [if_neg hexp] at h hlast
      obtain ⟨hfit, hpw, hge⟩ := ih hlast (by omega) h
      exact ⟨hfit, hpw, fun hne => by have := hge hne; omega⟩

namespace Decls

theorem fields_fit (D : Decls) {name : String} {f : FieldInfo} (hf : f ∈ D.fields name) :
    f.tags.Fit f.typ :=
  (structFieldsLoop_spec rfl le_rfl (D.generated name)).1 f hf

theorem fields_tail (D : Decls) (name : String) :
    (D.fields name).Pairwise fun f _ => f.tags.tail = false :=
  (structFieldsLoop_spec rfl le_rfl (D.generated name)).2.1

end Decls

end Fiscobcos.Rlp
