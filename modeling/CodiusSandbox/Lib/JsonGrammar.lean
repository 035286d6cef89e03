import CodiusSandbox.Lib.Utf8Bytes
/-!
# The grammar of JSON

`Derives A item text`: by the grammar, `text` is the value (the elements, the members) `item`. The type
of the values is a parameter; `A` puts a value together from its parts. Text is bytes of UTF-8, and an
escape for U+0000 is not part of the grammar: the strings end at a NUL.
-/
namespace JsonGrammar

open String (utf8EncodeChar)
open Utf8 (nul encode)

/-! ## Bytes -/

abbrev quote : UInt8 := 34
abbrev comma : UInt8 := 44
abbrev minus : UInt8 := 45
abbrev point : UInt8 := 46
abbrev colon : UInt8 := 58
abbrev openBracket : UInt8 := 91
abbrev backslash : UInt8 := 92
abbrev closeBracket : UInt8 := 93
abbrev openBrace : UInt8 := 123
abbrev closeBrace : UInt8 := 125

/-- Tab, line feed, carriage return and space. -/
def IsSpace (b : UInt8) : Prop := b = 9 ∨ b = 10 ∨ b = 13 ∨ b = 32

def IsDigit (b : UInt8) : Prop := 48 ≤ b ∧ b ≤ 57

instance (b : UInt8) : Decidable (IsSpace b) := inferInstanceAs (Decidable (_ ∨ _))

instance (b : UInt8) : Decidable (IsDigit b) := inferInstanceAs (Decidable (_ ∧ _))

/-- Space, or none. -/
def Space (text : List UInt8) : Prop := ∀ b ∈ text, IsSpace b

theorem Space.nil : Space [] := by simp [Space]

theorem Space.append {a b : List UInt8} (ha : Space a) (hb : Space b) : Space (a ++ b) := by
  intro c hc
  rcases List.mem_append.1 hc with hc | hc
  · exact ha c hc
  · exact hb c hc

/-! ## Numbers -/

/-- Digits, or none. -/
def Digits (text : List UInt8) : Prop := ∀ b ∈ text, IsDigit b

inductive IntPart : List UInt8 → Prop
  | zero : IntPart [48]
  | digits {d : UInt8} {ds : List UInt8} (hd : IsDigit d) (h0 : d ≠ 48) (hds : Digits ds) : IntPart (d :: ds)

inductive Fraction : List UInt8 → Prop
  | none : Fraction []
  | digits {d : UInt8} {ds : List UInt8} (hd : IsDigit d) (hds : Digits ds) : Fraction (point :: d :: ds)

/-- A plus, a minus or none. -/
def Sign (text : List UInt8) : Prop := text = [] ∨ text = [43] ∨ text = [minus]

inductive Exponent : List UInt8 → Prop
  | none : Exponent []
  | digits {e d : UInt8} {sign ds : List UInt8} (he : e = 69 ∨ e = 101) (hsign : Sign sign) (hd : IsDigit d)
      (hds : Digits ds) : Exponent (e :: (sign ++ d :: ds))

inductive Number : List UInt8 → Prop
  | mk {sign int fraction exponent : List UInt8} (hsign : sign = [] ∨ sign = [minus]) (hint : IntPart int)
      (hfraction : Fraction fraction) (hexponent : Exponent exponent) :
      Number (sign ++ int ++ fraction ++ exponent)

/-! ## Strings -/

/-- What a backslash and `e` stand for. -/
def escaped (e : UInt8) : Option UInt8 :=
  if e = quote ∨ e = backslash ∨ e = 47 then some e
  else if e = 98 then some 8
  else if e = 102 then some 12
  else if e = 110 then some 10
  else if e = 114 then some 13
  else if e = 116 then some 9
  else none

def hexValue (b : UInt8) : Option Nat :=
  if 48 ≤ b ∧ b ≤ 57 then some (b.toNat - 48)
  else if 65 ≤ b ∧ b ≤ 70 then some (b.toNat - 55)
  else if 97 ≤ b ∧ b ≤ 102 then some (b.toNat - 87)
  else none

/-- Four hexadecimal digits. -/
inductive Hex : List UInt8 → Nat → Prop
  | mk {a b c d : UInt8} {i j k l : Nat} (ha : hexValue a = some i) (hb : hexValue b = some j)
      (hc : hexValue c = some k) (hd : hexValue d = some l) : Hex [a, b, c, d] (((i * 16 + j) * 16 + k) * 16 + l)

/-- The escape of a character by its number, of one beyond U+FFFF by its two surrogates. -/
inductive Unicode : List UInt8 → Char → Prop
  | one {h : List UInt8} {c : Char} (hh : Hex h c.toNat) (h0 : c ≠ nul) : Unicode (backslash :: 117 :: h) c
  | pair {h l : List UInt8} {hi lo : Nat} {c : Char} (hh : Hex h hi) (hl : Hex l lo) (hhi : 0xD800 ≤ hi ∧ hi ≤ 0xDBFF)
      (hlo : 0xDC00 ≤ lo ∧ lo ≤ 0xDFFF) (hc : c.toNat = 0x10000 + (hi - 0xD800) * 0x400 + (lo - 0xDC00)) :
      Unicode (backslash :: 117 :: (h ++ backslash :: 117 :: l)) c

/-- What may stand in a string as it is. -/
def Plain (c : Char) : Prop := 0x20 ≤ c.toNat ∧ c ≠ '"' ∧ c ≠ '\\'

/-- A piece of the text between the quotes, and the bytes it stands for. -/
inductive Piece : List UInt8 → List UInt8 → Prop
  | plain {c : Char} (hc : Plain c) : Piece (utf8EncodeChar c) (utf8EncodeChar c)
  | escape {e b : UInt8} (he : escaped e = some b) : Piece [backslash, e] [b]
  | unicode {u : List UInt8} {c : Char} (hu : Unicode u c) : Piece u (utf8EncodeChar c)

inductive Chars : List UInt8 → List UInt8 → Prop
  | nil : Chars [] []
  | cons {u b text bytes : List UInt8} (hp : Piece u b) (h : Chars text bytes) : Chars (u ++ text) (b ++ bytes)

/-! ## Values -/

/-- How values are put together. -/
structure Values (V : Type) where
  null : V
  bool : Bool → V
  string : List UInt8 → V
  /-- Of the text. -/
  number : List UInt8 → V
  array : List V → V
  object : List (List UInt8 × V) → V

inductive Item (V : Type) where
  | value (v : V)
  | elements (vs : List V)
  | members (ms : List (List UInt8 × V))

def nullText : List UInt8 := [110, 117, 108, 108]
def trueText : List UInt8 := [116, 114, 117, 101]
def falseText : List UInt8 := [102, 97, 108, 115, 101]

def boolText : Bool → List UInt8
  | true => trueText
  | false => falseText

variable {V : Type}

inductive Derives (A : Values V) : Item V → List UInt8 → Prop
  | null : Derives A (.value A.null) nullText
  | bool (b : Bool) : Derives A (.value (A.bool b)) (boolText b)
  | string {text bytes : List UInt8} (h : Chars text bytes) :
      Derives A (.value (A.string bytes)) (quote :: (text ++ [quote]))
  | number {token : List UInt8} (h : Number token) : Derives A (.value (A.number token)) token
  | emptyArray {space : List UInt8} (hs : Space space) :
      Derives A (.value (A.array [])) (openBracket :: (space ++ [closeBracket]))
  | array {space text : List UInt8} {vs : List V} (hs : Space space) (h : Derives A (.elements vs) text) :
      Derives A (.value (A.array vs)) (openBracket :: (space ++ text ++ [closeBracket]))
  | emptyObject {space : List UInt8} (hs : Space space) :
      Derives A (.value (A.object [])) (openBrace :: (space ++ [closeBrace]))
  | object {space text : List UInt8} {ms : List (List UInt8 × V)} (hs : Space space) (h : Derives A (.members ms) text) :
      Derives A (.value (A.object ms)) (openBrace :: (space ++ text ++ [closeBrace]))
  | lastElement {text space : List UInt8} {v : V} (h : Derives A (.value v) text) (hs : Space space) :
      Derives A (.elements [v]) (text ++ space)
  | element {text space space' rest : List UInt8} {v : V} {vs : List V} (h : Derives A (.value v) text)
      (hs : Space space) (hs' : Space space') (hr : Derives A (.elements vs) rest) :
      Derives A (.elements (v :: vs)) (text ++ space ++ comma :: (space' ++ rest))
  | lastMember {key k text space₁ space₂ space₃ : List UInt8} {v : V} (hk : Chars key k) (hs₁ : Space space₁)
      (hs₂ : Space space₂) (h : Derives A (.value v) text) (hs₃ : Space space₃) :
      Derives A (.members [(k, v)]) (quote :: (key ++ quote :: (space₁ ++ colon :: (space₂ ++ text ++ space₃))))
  | member {key k text rest space₁ space₂ space₃ space₄ : List UInt8} {v : V} {ms : List (List UInt8 × V)}
      (hk : Chars key k) (hs₁ : Space space₁) (hs₂ : Space space₂) (h : Derives A (.value v) text) (hs₃ : Space space₃)
      (hs₄ : Space space₄) (hr : Derives A (.members ms) rest) :
      Derives A (.members ((k, v) :: ms))
        (quote :: (key ++ quote :: (space₁ ++ colon :: (space₂ ++ text ++ space₃ ++ comma :: (space₄ ++ rest)))))

/-- The text of a value, with space around it. -/
inductive Text (A : Values V) (v : V) : List UInt8 → Prop
  | mk {space text space' : List UInt8} (hs : Space space) (h : Derives A (.value v) text) (hs' : Space space') :
      Text A v (space ++ text ++ space')

theorem Text.parts {A : Values V} {v : V} {bytes : List UInt8} (h : Text A v bytes) : ∃ space text space',
    bytes = space ++ text ++ space' ∧ Space space ∧ Derives A (.value v) text ∧ Space space' := by
  obtain ⟨hs, hd, hs'⟩ := h
  exact ⟨_, _, _, rfl, hs, hd, hs'⟩

/-- Space behind the elements or the members belongs to the last of them. -/
theorem Derives.append_space {A : Values V} {item : Item V} {text space : List UInt8} (h : Derives A item text)
    (hs : Space space) (hne : ∀ v, item ≠ .value v) : Derives A item (text ++ space) := by
  induction h with
  | lastElement h hs₁ ih =>
    rw [List.append_assoc]
    exact .lastElement h (hs₁.append hs)
  | element h hs₁ hs₂ hr ih ihr =>
    have hcons := Derives.element h hs₁ hs₂ (ihr (by simp))
    simpa using hcons
  | lastMember hk hs₁ hs₂ h hs₃ ih =>
    have hlast := Derives.lastMember hk hs₁ hs₂ h (hs₃.append hs)
    simpa using hlast
  | member hk hs₁ hs₂ h hs₃ hs₄ hr ih ihr =>
    have hcons := Derives.member hk hs₁ hs₂ h hs₃ hs₄ (ihr (by simp))
    simpa using hcons
  | _ => exact absurd rfl (hne _)

/-! ## What no text contains -/

theorem hexValue_lt {b : UInt8} {n : Nat} (h : hexValue b = some n) : n < 16 ∧ 48 ≤ b := by
  simp only [hexValue, UInt8.le_iff_toNat_le, UInt8.reduceToNat] at h ⊢
  split at h
  · rw [Option.some.injEq] at h
    omega
  split at h
  · rw [Option.some.injEq] at h
    omega
  split at h
  · rw [Option.some.injEq] at h
    omega
  · cases h

theorem Hex.lt {h : List UInt8} {n : Nat} (hh : Hex h n) : n < 0x10000 := by
  cases hh with
  | mk ha hb hc hd =>
    have := hexValue_lt ha
    have := hexValue_lt hb
    have := hexValue_lt hc
    have := hexValue_lt hd
    omega

theorem Hex.length_eq {h : List UInt8} {n : Nat} (hh : Hex h n) : h.length = 4 := by
  cases hh
  rfl

/-- Nothing below the space. -/
def Visible (text : List UInt8) : Prop := ∀ b ∈ text, 0x20 ≤ b

@[simp] theorem visible_nil : Visible [] := by simp [Visible]

@[simp] theorem visible_cons {b : UInt8} {text : List UInt8} : Visible (b :: text) ↔ 0x20 ≤ b ∧ Visible text := by
  simp [Visible]

@[simp] theorem visible_append {a b : List UInt8} : Visible (a ++ b) ↔ Visible a ∧ Visible b := by
  simp [Visible, or_imp, forall_and]

theorem Hex.visible {h : List UInt8} {n : Nat} (hh : Hex h n) : Visible h := by
  cases hh with
  | mk ha hb hc hd =>
    have hle {b : UInt8} {n : Nat} (h : hexValue b = some n) : 0x20 ≤ b := UInt8.le_trans (by decide) (hexValue_lt h).2
    simp [hle ha, hle hb, hle hc, hle hd]

theorem backslash_visible : 0x20 ≤ backslash := by decide

theorem Unicode.visible {u : List UInt8} {c : Char} (hu : Unicode u c) : Visible u := by
  cases hu with
  | one hh h0 => simp [backslash_visible, hh.visible]
  | pair hh hl hhi hlo hc => simp [backslash_visible, hh.visible, hl.visible]

theorem Unicode.ne_nul {u : List UInt8} {c : Char} (hu : Unicode u c) : c ≠ nul := by
  cases hu with
  | one hh h0 => exact h0
  | pair hh hl hhi hlo hc =>
    rintro rfl
    have hnul : nul.toNat = 0 := rfl
    omega

/-- A byte that stands for itself is the first of a plain character, unless it is one of these. -/
theorem plain_iff {c : Char} {b : UInt8} {bytes : List UInt8} (rest : List UInt8) (h : utf8EncodeChar c ++ rest = b :: bytes) :
    Plain c ↔ 0x20 ≤ b ∧ b ≠ quote ∧ b ≠ backslash := by
  have hb : 0x20 ≤ b ↔ 0x20 ≤ b.toNat := Iff.rfl
  have hquote : ('"' : Char).toNat = 34 := rfl
  have hbackslash : ('\\' : Char).toNat = 92 := rfl
  have hinj (d : Char) : c = d ↔ c.toNat = d.toNat := Char.toNat_inj.symm
  rw [Plain, hb, ne_eq, ne_eq, ne_eq, ne_eq, hinj, hinj, hquote, hbackslash, ← UInt8.toNat_inj, ← UInt8.toNat_inj]
  by_cases hascii : b.toNat ≤ 0x7F
  · rw [Utf8.toNat_of_ascii h hascii]
    rfl
  · have hnat : ¬ c.toNat ≤ 0x7F := by
      intro hle
      rw [Utf8.utf8EncodeChar_ascii hle] at h
      have hfirst := congrArg UInt8.toNat (List.cons.inj h).1
      rw [UInt8.toNat_ofNat'] at hfirst
      omega
    have h34 : quote.toNat = 34 := rfl
    have h92 : backslash.toNat = 92 := rfl
    omega

theorem Plain.visible {c : Char} (hc : Plain c) : Visible (utf8EncodeChar c) := fun b hb =>
  Utf8.le_of_mem_utf8EncodeChar (by decide) hc.1 b hb

/-- An escape is an ASCII character that is not NUL. -/
theorem escaped_eq_some {e b : UInt8} (h : escaped e = some b) : 0x20 ≤ e ∧ b ≠ 0 ∧ b.toNat ≤ 0x7F := by
  unfold escaped at h
  split at h
  · rename_i he
    obtain rfl := Option.some.inj h
    rcases he with rfl | rfl | rfl <;> decide
  iterate 5
    split at h
    · rename_i he
      obtain rfl := he
      obtain rfl := Option.some.inj h
      decide
  cases h

theorem Piece.visible {u b : List UInt8} (hp : Piece u b) : Visible u := by
  cases hp with
  | plain hc => exact hc.visible
  | escape he => simp [backslash_visible, (escaped_eq_some he).1]
  | unicode hu => exact hu.visible

/-- No piece is a quote. -/
theorem Piece.head {u b : List UInt8} (hp : Piece u b) : ∃ first rest, u = first :: rest ∧ first ≠ quote := by
  cases hp with
  | @plain c hc =>
    obtain ⟨first, inside, heq, -, -⟩ := Utf8.utf8EncodeChar_eq c
    exact ⟨first, inside, heq, ((plain_iff [] (by rw [List.append_nil, heq])).1 hc).2.1⟩
  | escape he => exact ⟨backslash, _, rfl, by decide⟩
  | unicode hu => cases hu <;> exact ⟨backslash, _, rfl, by decide⟩

theorem Piece.length_le {u b : List UInt8} (hp : Piece u b) : b.length ≤ 4 := by
  cases hp with
  | plain hc => simp [Char.utf8Size_le_four]
  | escape he => simp
  | unicode hu => simp [Char.utf8Size_le_four]

/-- A piece is a character of the string. -/
theorem Piece.char {u b : List UInt8} (hp : Piece u b) : ∃ c, c ≠ nul ∧ utf8EncodeChar c = b := by
  cases hp with
  | @plain c hc =>
    refine ⟨c, ?_, rfl⟩
    rintro rfl
    exact absurd hc.1 (by decide)
  | @escape e b he =>
    obtain ⟨-, h0, hle⟩ := escaped_eq_some he
    obtain ⟨c, hc⟩ := Utf8.CharBytes.exists_char (.one hle)
    refine ⟨c, ?_, hc⟩
    rintro rfl
    exact h0 (List.cons.inj hc).1.symm
  | @unicode u c hu => exact ⟨c, hu.ne_nul, rfl⟩

theorem Chars.visible {text bytes : List UInt8} (h : Chars text bytes) : Visible text := by
  induction h with
  | nil => exact visible_nil
  | cons hp h ih => exact visible_append.2 ⟨hp.visible, ih⟩

/-- A string is text without NUL. -/
theorem Chars.exists_encode {text bytes : List UInt8} (h : Chars text bytes) :
    ∃ cs, nul ∉ cs ∧ encode cs = bytes := by
  induction h with
  | nil => exact ⟨[], by simp, rfl⟩
  | cons hp h ih =>
    obtain ⟨c, hc, rfl⟩ := hp.char
    obtain ⟨cs, hcs, rfl⟩ := ih
    exact ⟨c :: cs, by simp [Ne.symm hc, hcs], rfl⟩

theorem Chars.noNul {text bytes : List UInt8} (h : Chars text bytes) : 0 ∉ bytes := by
  obtain ⟨cs, hcs, rfl⟩ := h.exists_encode
  rwa [Utf8.zero_mem_encode_iff]

theorem Number.visible {token : List UInt8} (h : Number token) : Visible token := by
  have hdigit {d : UInt8} (hd : IsDigit d) : 0x20 ≤ d := UInt8.le_trans (by decide) hd.1
  have hdigits {ds : List UInt8} (hds : Digits ds) : Visible ds := fun d hd => hdigit (hds d hd)
  have hminus : 0x20 ≤ minus := by decide
  have hpoint : 0x20 ≤ point := by decide
  obtain ⟨hsign, hint, hfraction, hexponent⟩ := h
  simp only [visible_append]
  refine ⟨⟨⟨?_, ?_⟩, ?_⟩, ?_⟩
  · rcases hsign with rfl | rfl <;> simp [hminus]
  · cases hint with
    | zero => simp
    | digits hd h0 hds => simp [hdigit hd, hdigits hds]
  · cases hfraction with
    | none => simp
    | digits hd hds => simp [hpoint, hdigit hd, hdigits hds]
  · cases hexponent with
    | none => simp
    | @digits e _ _ _ he hsign hd hds =>
      have he : 0x20 ≤ e := by rcases he with rfl | rfl <;> decide
      rcases hsign with rfl | rfl | rfl <;> simp [hminus, he, hdigit hd, hdigits hds]

theorem nullText_visible : Visible nullText := by
  simp only [nullText, visible_cons, visible_nil, and_true]
  decide

theorem boolText_visible (b : Bool) : Visible (boolText b) := by
  cases b
  · simp only [boolText, falseText, visible_cons, visible_nil, and_true]
    decide
  · simp only [boolText, trueText, visible_cons, visible_nil, and_true]
    decide

/-- Nothing but space below the space. -/
def Printed (text : List UInt8) : Prop := ∀ b ∈ text, IsSpace b ∨ 0x20 ≤ b

@[simp] theorem printed_nil : Printed [] := by simp [Printed]

@[simp] theorem printed_cons {b : UInt8} {text : List UInt8} :
    Printed (b :: text) ↔ (IsSpace b ∨ 0x20 ≤ b) ∧ Printed text := by
  simp [Printed]

@[simp] theorem printed_append {a b : List UInt8} : Printed (a ++ b) ↔ Printed a ∧ Printed b := by
  simp [Printed, or_imp, forall_and]

theorem Visible.printed {text : List UInt8} (h : Visible text) : Printed text := fun b hb => .inr (h b hb)

theorem Space.printed {text : List UInt8} (h : Space text) : Printed text := fun b hb => .inl (h b hb)

theorem Derives.printed {A : Values V} {item : Item V} {text : List UInt8} (h : Derives A item text) : Printed text := by
  have hpunct : 0x20 ≤ quote ∧ 0x20 ≤ comma ∧ 0x20 ≤ colon ∧ 0x20 ≤ openBracket ∧ 0x20 ≤ closeBracket ∧
      0x20 ≤ openBrace ∧ 0x20 ≤ closeBrace := by decide
  induction h with
  | null => exact nullText_visible.printed
  | bool b => exact (boolText_visible b).printed
  | string h => simp [hpunct, h.visible.printed]
  | number h => exact h.visible.printed
  | emptyArray hs => simp [hpunct, hs.printed]
  | array hs h ih => simp [hpunct, hs.printed, ih]
  | emptyObject hs => simp [hpunct, hs.printed]
  | object hs h ih => simp [hpunct, hs.printed, ih]
  | lastElement h hs ih => simp [ih, hs.printed]
  | element h hs hs' hr ih ihr => simp [hpunct, ih, ihr, hs.printed, hs'.printed]
  | lastMember hk hs₁ hs₂ h hs₃ ih => simp [hpunct, ih, hk.visible.printed, hs₁.printed, hs₂.printed, hs₃.printed]
  | member hk hs₁ hs₂ h hs₃ hs₄ hr ih ihr =>
    simp [hpunct, ih, ihr, hk.visible.printed, hs₁.printed, hs₂.printed, hs₃.printed, hs₄.printed]

theorem Printed.not_mem {text : List UInt8} {b : UInt8} (h : Printed text) (hs : ¬ IsSpace b) (hlt : b < 0x20) :
    b ∉ text := fun hb => (h b hb).elim hs fun hle => absurd hlt (UInt8.not_lt.2 hle)

theorem Text.printed {A : Values V} {v : V} {bytes : List UInt8} (h : Text A v bytes) : Printed bytes := by
  obtain ⟨hs, hd, hs'⟩ := h
  simp [hs.printed, hd.printed, hs'.printed]

theorem Printed.noNul {text : List UInt8} (h : Printed text) : 0 ∉ text := h.not_mem (by decide) (by decide)

/-! ## Where parts begin and end -/

/-- The first byte of a value. -/
def Starts (b : UInt8) : Prop :=
  b = 110 ∨ b = 116 ∨ b = 102 ∨ b = quote ∨ b = minus ∨ IsDigit b ∨ b = openBracket ∨ b = openBrace

/-- What may come behind a value in a text, the end of the text included. -/
def Delimited (rest : List UInt8) : Prop :=
  ∀ b ∈ rest.head?, b = 0 ∨ IsSpace b ∨ b = comma ∨ b = closeBracket ∨ b = closeBrace

theorem Number.starts {token : List UInt8} (h : Number token) : ∃ b rest, token = b :: rest ∧ (b = minus ∨ IsDigit b) := by
  obtain ⟨hsign, hint, -, -⟩ := h
  rcases hsign with rfl | rfl
  · cases hint with
    | zero => exact ⟨_, _, rfl, .inr (by decide)⟩
    | digits hd h0 hds => exact ⟨_, _, rfl, .inr hd⟩
  · exact ⟨_, _, rfl, .inl rfl⟩

theorem Derives.starts {A : Values V} {item : Item V} {text : List UInt8} (h : Derives A item text) :
    ∃ b rest, text = b :: rest ∧ Starts b := by
  induction h with
  | null => exact ⟨_, _, rfl, .inl rfl⟩
  | bool b =>
    cases b
    · exact ⟨_, _, rfl, .inr (.inr (.inl rfl))⟩
    · exact ⟨_, _, rfl, .inr (.inl rfl)⟩
  | string h => exact ⟨_, _, rfl, by simp [Starts]⟩
  | number h =>
    obtain ⟨b, rest, rfl, hb⟩ := h.starts
    refine ⟨b, rest, rfl, ?_⟩
    rcases hb with rfl | hb
    · simp [Starts]
    · simp [Starts, hb]
  | emptyArray hs => exact ⟨_, _, rfl, by simp [Starts]⟩
  | array hs h ih => exact ⟨_, _, rfl, by simp [Starts]⟩
  | emptyObject hs => exact ⟨_, _, rfl, by simp [Starts]⟩
  | object hs h ih => exact ⟨_, _, rfl, by simp [Starts]⟩
  | lastElement h hs ih =>
    obtain ⟨b, rest, rfl, hb⟩ := ih
    exact ⟨b, _, rfl, hb⟩
  | element h hs hs' hr ih ihr =>
    obtain ⟨b, rest, rfl, hb⟩ := ih
    exact ⟨b, _, rfl, hb⟩
  | lastMember hk hs₁ hs₂ h hs₃ ih => exact ⟨_, _, rfl, by simp [Starts]⟩
  | member hk hs₁ hs₂ h hs₃ hs₄ hr ih ihr => exact ⟨_, _, rfl, by simp [Starts]⟩

theorem Starts.not_space {b : UInt8} (h : Starts b) : ¬ IsSpace b := by
  rcases h with rfl | rfl | rfl | rfl | rfl | h | rfl | rfl
  case inr.inr.inr.inr.inr.inl =>
    rintro (rfl | rfl | rfl | rfl) <;> exact absurd h (by decide)
  all_goals decide

theorem delimited_cons {b : UInt8} {rest : List UInt8} : Delimited (b :: rest) ↔
    b = 0 ∨ IsSpace b ∨ b = comma ∨ b = closeBracket ∨ b = closeBrace := by
  simp [Delimited]

theorem Delimited.space {space rest : List UInt8} (hs : Space space) (h : Delimited rest) : Delimited (space ++ rest) := by
  cases space with
  | nil => exact h
  | cons b space => exact delimited_cons.2 (.inr (.inl (hs b (by simp))))

/-- A number does not go on behind its end. -/
theorem Delimited.ends {b : UInt8} {rest : List UInt8} (h : Delimited (b :: rest)) :
    ¬ IsDigit b ∧ b ≠ point ∧ b ≠ 69 ∧ b ≠ 101 := by
  rcases delimited_cons.1 h with rfl | (rfl | rfl | rfl | rfl) | rfl | rfl | rfl <;> decide

end JsonGrammar
