import CodiusSandbox.JsonParser
/-!
# What the parser of `json.c` reads

On a string, which has a NUL, no function of the parser reads behind the NUL or writes outside of its
buffer. Each accepts what the grammar derives and nothing else: `Reads` is what it may answer, and the
lemmas named `…_text` run it on a derived text.
-/
namespace CodiusSandbox.JsonText

open String (utf8EncodeChar)
open JsonGrammar Utf8 Wp

variable {s rest : Str} {b : UInt8} {out : Bool} {sb : SB} {α : Type}

/-- What `x` answers on `s`: it rejects, or accepts the front of `s` as `P` has it, up to the NUL at most. -/
def Reads (x : Read (Option α)) (P : Str → α → Prop) (s : Str) : Prop :=
  (∃ a text rest, x s = .ok (some a) rest ∧ s = text ++ rest ∧ 0 ∈ rest ∧ P text a) ∨ ∃ s', x s = .ok none s'

/-- The same of a function without `out`. -/
def Accepts (x : Read Bool) (P : Str → Prop) (s : Str) : Prop :=
  (∃ text rest, x s = .ok true rest ∧ s = text ++ rest ∧ 0 ∈ rest ∧ P text) ∨ ∃ s', x s = .ok false s'

/-! ## Bytes -/

theorem lift_ok {σ : Type} {x : Except ScanFault α} {a : α} (t : σ) (h : x = .ok a) : lift x t = .ok a t := by
  subst h
  rfl

theorem look_cons (b : UInt8) (s : Str) : look (b :: s) = .ok b (b :: s) := rfl

theorem step_cons (b : UInt8) (s : Str) : step (b :: s) = .ok () s := rfl

theorem next_cons (b : UInt8) (s : Str) : next (b :: s) = .ok b s := rfl

theorem exists_cons (h0 : 0 ∈ s) : ∃ b s', s = b :: s' ∧ (b = 0 ∨ 0 ∈ s') := by
  cases s with
  | nil => simp at h0
  | cons b s =>
    rcases List.mem_cons.1 h0 with h | h
    · exact ⟨b, s, rfl, .inl h.symm⟩
    · exact ⟨b, s, rfl, .inr h⟩

theorem isSpace_iff : isSpace b = true ↔ IsSpace b := by
  simp [isSpace, IsSpace, or_assoc]

theorem isDigit_iff : isDigit b = true ↔ IsDigit b := by
  simp [isDigit, IsDigit]

theorem skipWhile_text {p : UInt8 → Bool} {text : Str} (h : ∀ c ∈ text, p c = true) (hb : p b = false) (rest : Str) :
    skipWhile p (text ++ b :: rest) = .ok (b :: rest) := by
  induction text with
  | nil => rw [List.nil_append, skipWhile, hb, if_neg (by decide)]
  | cons c text ih =>
    rw [List.cons_append, skipWhile, if_pos (h c (by simp))]
    exact ih fun d hd => h d (by simp [hd])

/-- The skipped part and what follows. -/
theorem exists_skip (p : UInt8 → Bool) (hp : p 0 = false) (h0 : 0 ∈ s) :
    ∃ text b rest, s = text ++ b :: rest ∧ (∀ c ∈ text, p c = true) ∧ p b = false ∧ 0 ∈ b :: rest := by
  induction s with
  | nil => simp at h0
  | cons c s ih =>
    by_cases hc : p c = true
    · have hne : c ≠ 0 := by
        rintro rfl
        rw [hp] at hc
        cases hc
      obtain ⟨text, b, rest, rfl, htext, hb, h0'⟩ := ih ((List.mem_cons.1 h0).resolve_left (Ne.symm hne))
      exact ⟨c :: text, b, rest, rfl, by simpa [hc] using htext, hb, h0'⟩
    · exact ⟨[], c, s, rfl, by simp, by simpa using hc, h0⟩

theorem skipSpace_text {text : Str} (h : Space text) (hb : ¬ IsSpace b) (rest : Str) :
    skipSpace (text ++ b :: rest) = .ok () (b :: rest) := by
  have hskip := skipWhile_text (p := isSpace) (fun c hc => isSpace_iff.2 (h c hc))
    (by rwa [← Bool.not_eq_true, isSpace_iff]) rest
  rw [skipSpace, bind_get, bind_ok (lift_ok _ hskip)]
  rfl

theorem skipSpace_run (h0 : 0 ∈ s) : ∃ text b rest, s = text ++ b :: rest ∧ Space text ∧ ¬ IsSpace b ∧ 0 ∈ b :: rest ∧
    skipSpace s = .ok () (b :: rest) := by
  obtain ⟨text, b, rest, rfl, htext, hb, h0'⟩ := exists_skip isSpace (by decide) h0
  have hspace : Space text := fun c hc => isSpace_iff.1 (htext c hc)
  have hb' : ¬ IsSpace b := by rw [← isSpace_iff, hb]; decide
  exact ⟨text, b, rest, rfl, hspace, hb', h0', skipSpace_text hspace hb' rest⟩

theorem expectLiteral_text (literal rest : Str) : expectLiteral literal (literal ++ rest) = .ok true rest := by
  induction literal with
  | nil => rfl
  | cons c literal ih =>
    rw [List.cons_append, expectLiteral, bind_ok (next_cons c _), if_pos rfl]
    exact ih

theorem expectLiteral_run {literal : Str} (hlit : 0 ∉ literal) (h0 : 0 ∈ s) :
    Accepts (expectLiteral literal) (fun text => text = literal) s := by
  induction literal generalizing s with
  | nil => exact .inl ⟨[], s, rfl, rfl, h0, rfl⟩
  | cons c literal ih =>
    simp only [List.mem_cons, not_or] at hlit
    obtain ⟨b, s, rfl, hb⟩ := exists_cons h0
    by_cases hc : b = c
    · subst hc
      have hs : 0 ∈ s := hb.resolve_left (Ne.symm hlit.1)
      rcases ih hlit.2 hs with ⟨text, rest, hrun, rfl, hrest, rfl⟩ | ⟨s', hrun⟩
      · refine .inl ⟨b :: text, rest, ?_, rfl, hrest, rfl⟩
        rw [expectLiteral, bind_ok (next_cons b _), if_pos rfl, hrun]
      · refine .inr ⟨s', ?_⟩
        rw [expectLiteral, bind_ok (next_cons b _), if_pos rfl, hrun]
    · refine .inr ⟨s, ?_⟩
      rw [expectLiteral, bind_ok (next_cons b s), if_neg hc]
      rfl

/-! ## Numbers -/

theorem parseDigits_text {d : UInt8} {ds : Str} (hd : IsDigit d) (hds : Digits ds) (hb : ¬ IsDigit b) (rest : Str) :
    parseDigits (d :: (ds ++ b :: rest)) = .ok true (b :: rest) := by
  have hskip : skipWhile isDigit (d :: ds ++ b :: rest) = .ok (b :: rest) :=
    skipWhile_text (by simpa [isDigit_iff, hd, Digits] using hds) (by rwa [← Bool.not_eq_true, isDigit_iff]) rest
  rw [List.cons_append] at hskip
  rw [parseDigits, bind_ok (look_cons d _), if_pos (isDigit_iff.2 hd), bind_get, bind_ok (lift_ok _ hskip)]
  rfl

theorem parseDigits_run (h0 : 0 ∈ s) : Accepts parseDigits (fun text => ∃ d ds, text = d :: ds ∧ IsDigit d ∧ Digits ds) s := by
  obtain ⟨text, b, rest, rfl, htext, hb, h0'⟩ := exists_skip isDigit (by decide) h0
  have hb' : ¬ IsDigit b := by rw [← isDigit_iff, hb]; decide
  cases text with
  | nil =>
    refine .inr ⟨b :: rest, ?_⟩
    rw [List.nil_append, parseDigits, bind_ok (look_cons b _), if_neg (by rwa [isDigit_iff])]
    rfl
  | cons d ds =>
    have hd : IsDigit d := isDigit_iff.1 (htext d (by simp))
    have hds : Digits ds := fun c hc => isDigit_iff.1 (htext c (by simp [hc]))
    exact .inl ⟨d :: ds, b :: rest, parseDigits_text hd hds hb' rest, rfl, h0', d, ds, rfl, hd, hds⟩

theorem parseIntPart_run (h0 : 0 ∈ s) : Accepts parseIntPart IntPart s := by
  obtain ⟨b, s, rfl, hb⟩ := exists_cons h0
  rw [Accepts, parseIntPart, bind_ok (look_cons b s)]
  by_cases h48 : b = 48
  · subst h48
    rw [if_pos rfl]
    exact .inl ⟨[48], s, rfl, rfl, hb.resolve_left (by decide), .zero⟩
  · rw [if_neg h48]
    rcases parseDigits_run h0 with ⟨text, rest, hrun, htext, hrest, d, ds, rfl, hd, hds⟩ | hrun
    · obtain rfl : b = d := (List.cons.inj htext).1
      exact .inl ⟨b :: ds, rest, hrun, htext, hrest, .digits hd h48 hds⟩
    · exact .inr hrun

theorem parseFraction_run (h0 : 0 ∈ s) : Accepts parseFraction Fraction s := by
  obtain ⟨b, s, rfl, hb⟩ := exists_cons h0
  rw [Accepts, parseFraction, bind_ok (look_cons b s)]
  by_cases hpoint : b = point
  · subst hpoint
    rw [if_pos rfl, bind_ok (step_cons _ s)]
    rcases parseDigits_run (hb.resolve_left (by decide)) with ⟨text, rest, hrun, rfl, hrest, d, ds, rfl, hd, hds⟩ | hrun
    · exact .inl ⟨point :: d :: ds, rest, hrun, rfl, hrest, .digits hd hds⟩
    · exact .inr hrun
  · rw [if_neg hpoint]
    exact .inl ⟨[], b :: s, rfl, rfl, h0, .none⟩

theorem stepIf_cons (p : UInt8 → Bool) (b : UInt8) (s : Str) :
    stepIf p (b :: s) = .ok () (if p b then s else b :: s) := by
  rw [stepIf, bind_ok (look_cons b s)]
  by_cases hp : p b = true
  · rw [if_pos hp, if_pos hp]
    rfl
  · rw [if_neg hp, if_neg hp]
    rfl

theorem parseExponent_run (h0 : 0 ∈ s) : Accepts parseExponent Exponent s := by
  obtain ⟨b, s, rfl, hb⟩ := exists_cons h0
  rw [Accepts, parseExponent, bind_ok (look_cons b s)]
  by_cases he : b = 69 ∨ b = 101
  · have hs : 0 ∈ s := hb.resolve_left (by rintro rfl; revert he; decide)
    obtain ⟨c, s, rfl, hc⟩ := exists_cons hs
    rw [if_pos he, bind_ok (step_cons b _), bind_ok (stepIf_cons _ c s)]
    by_cases hsign : c = 43 ∨ c = minus
    · have hs' : 0 ∈ s := hc.resolve_left (by rintro rfl; revert hsign; decide)
      rw [if_pos (by simpa using hsign)]
      rcases parseDigits_run hs' with ⟨text, rest, hrun, rfl, hrest, d, ds, rfl, hd, hds⟩ | hrun
      · refine .inl ⟨b :: ([c] ++ d :: ds), rest, hrun, rfl, hrest, .digits he ?_ hd hds⟩
        rcases hsign with rfl | rfl
        · exact .inr (.inl rfl)
        · exact .inr (.inr rfl)
      · exact .inr hrun
    · rw [if_neg (by simpa using hsign)]
      rcases parseDigits_run hs with ⟨text, rest, hrun, htext, hrest, d, ds, rfl, hd, hds⟩ | hrun
      · refine .inl ⟨b :: ([] ++ d :: ds), rest, hrun, ?_, hrest, .digits he (.inl rfl) hd hds⟩
        rw [htext]
        rfl
      · exact .inr hrun
  · rw [if_neg he]
    exact .inl ⟨[], b :: s, rfl, rfl, h0, .none⟩

theorem parseNumber_run (lib : NumberLib) (out : Bool) (h0 : 0 ∈ s) :
    Reads (parseNumber lib out) (fun text num => Number text ∧ num = written out (lib.strtod s)) s := by
  have hsign : ∃ sign s', stepIf (· == minus) s = .ok () s' ∧ s = sign ++ s' ∧ 0 ∈ s' ∧ (sign = [] ∨ sign = [minus]) := by
    obtain ⟨b, s, rfl, hb⟩ := exists_cons h0
    by_cases hminus : b = minus
    · subst hminus
      exact ⟨[minus], s, stepIf_cons _ _ s, rfl, hb.resolve_left (by decide), .inr rfl⟩
    · refine ⟨[], b :: s, ?_, rfl, h0, .inl rfl⟩
      rw [stepIf_cons, if_neg (by simpa using hminus)]
  obtain ⟨sign, s₁, hrun₁, hs, h0₁, hsign⟩ := hsign
  rw [Reads, parseNumber, bind_get, bind_ok hrun₁]
  rcases parseIntPart_run h0₁ with ⟨int, s₂, hrun₂, rfl, h0₂, hint⟩ | ⟨s', hrun₂⟩
  · rw [bind_ok hrun₂, if_pos rfl]
    rcases parseFraction_run h0₂ with ⟨fraction, s₃, hrun₃, rfl, h0₃, hfraction⟩ | ⟨s', hrun₃⟩
    · rw [bind_ok hrun₃, if_pos rfl]
      rcases parseExponent_run h0₃ with ⟨exponent, s₄, hrun₄, rfl, h0₄, hexponent⟩ | ⟨s', hrun₄⟩
      · rw [bind_ok hrun₄, if_pos rfl]
        refine .inl ⟨_, _, s₄, rfl, ?_, h0₄, .mk hsign hint hfraction hexponent, rfl⟩
        simp only [hs, List.append_assoc]
      · rw [bind_ok hrun₄]
        exact .inr ⟨s', rfl⟩
    · rw [bind_ok hrun₃]
      exact .inr ⟨s', rfl⟩
  · rw [bind_ok hrun₂]
    exact .inr ⟨s', rfl⟩

/-- What ends a run of digits. -/
def NoDigit (s : Str) : Prop := ∃ b s', s = b :: s' ∧ ¬ IsDigit b

theorem parseIntPart_text {int : Str} (h : IntPart int) (hs : NoDigit s) : parseIntPart (int ++ s) = .ok true s := by
  obtain ⟨b, s, rfl, hb⟩ := hs
  cases h with
  | zero => rfl
  | digits hd h0 hds =>
    rw [List.cons_append, parseIntPart, bind_ok (look_cons _ _), if_neg h0]
    exact parseDigits_text hd hds hb s

theorem parseFraction_text {fraction : Str} (h : Fraction fraction) (hs : NoDigit s) (hpoint : s.head? ≠ some point) :
    parseFraction (fraction ++ s) = .ok true s := by
  obtain ⟨b, s, rfl, hb⟩ := hs
  cases h with
  | none =>
    have hne : b ≠ point := fun he => hpoint (by rw [he]; rfl)
    rw [List.nil_append, parseFraction, bind_ok (look_cons b s), if_neg hne]
    rfl
  | digits hd hds =>
    rw [List.cons_append, parseFraction, bind_ok (look_cons _ _), if_pos rfl, bind_ok (step_cons _ _), List.cons_append]
    exact parseDigits_text hd hds hb s

theorem parseExponent_text {exponent : Str} (h : Exponent exponent) (hb : ¬ IsDigit b) (he : b ≠ 69 ∧ b ≠ 101)
    (rest : Str) :
    parseExponent (exponent ++ b :: rest) = .ok true (b :: rest) := by
  cases h with
  | none =>
    rw [List.nil_append, parseExponent, bind_ok (look_cons b rest), if_neg (by simpa using he)]
    rfl
  | @digits e d sign ds he hsign hd hds =>
    have hdigits := parseDigits_text hd hds hb rest
    have hnosign : (d == 43 || d == minus) = false := by
      rw [Bool.or_eq_false_iff, beq_eq_false_iff_ne, beq_eq_false_iff_ne]
      constructor <;> (rintro rfl; revert hd; decide)
    rw [List.cons_append, parseExponent, bind_ok (look_cons e _), if_pos he, bind_ok (step_cons e _)]
    rcases hsign with rfl | rfl | rfl
    · rw [List.nil_append, List.cons_append, bind_ok (stepIf_cons _ d _), hnosign]
      exact hdigits
    · exact hdigits
    · exact hdigits

theorem exponent_starts {exponent : Str} (h : Exponent exponent) (hrest : Delimited (b :: rest)) :
    NoDigit (exponent ++ b :: rest) ∧ (exponent ++ b :: rest).head? ≠ some point := by
  cases h with
  | none => exact ⟨⟨b, rest, rfl, hrest.ends.1⟩, fun he => hrest.ends.2.1 (Option.some.inj he)⟩
  | @digits e d sign ds he hsign hd hds =>
    refine ⟨⟨e, _, rfl, ?_⟩, ?_⟩
    · rcases he with rfl | rfl <;> decide
    · rcases he with rfl | rfl <;> exact fun he => absurd (Option.some.inj he) (by decide)

theorem fraction_starts {fraction : Str} (h : Fraction fraction) (hs : NoDigit s) : NoDigit (fraction ++ s) := by
  cases h with
  | none => exact hs
  | digits hd hds => exact ⟨point, _, rfl, by decide⟩

theorem parseNumber_text {token : Str} (lib : NumberLib) (out : Bool) (h : Number token) (hrest : Delimited (b :: rest)) :
    parseNumber lib out (token ++ b :: rest) = .ok (some (written out (lib.strtod token))) (b :: rest) := by
  have hstrtod := lib.strtod_token token (b :: rest) h hrest
  obtain ⟨hsign, hint, hfraction, hexponent⟩ := h
  rename_i sign int fraction exponent
  obtain ⟨hexp₁, hexp₂⟩ := exponent_starts hexponent hrest
  have hrun₂ := parseIntPart_text hint (fraction_starts hfraction hexp₁)
  have hrun₃ := parseFraction_text hfraction hexp₁ hexp₂
  have hrun₄ := parseExponent_text hexponent hrest.ends.1 hrest.ends.2.2 rest
  have hrun₁ : stepIf (· == minus) (sign ++ (int ++ (fraction ++ (exponent ++ b :: rest)))) =
      .ok () (int ++ (fraction ++ (exponent ++ b :: rest))) := by
    rcases hsign with rfl | rfl
    · cases hint with
      | zero => rfl
      | @digits d ds hd h0 hds =>
        have hne : (d == minus) = false := by
          rw [beq_eq_false_iff_ne]
          rintro rfl
          revert hd
          decide
        rw [List.nil_append, List.cons_append, stepIf_cons, hne, if_neg (by decide)]
    · rfl
  rw [parseNumber, bind_get, hstrtod]
  simp only [List.append_assoc]
  rw [bind_ok hrun₁, bind_ok hrun₂, if_pos rfl, bind_ok hrun₃, if_pos rfl, bind_ok hrun₄, if_pos rfl]
  rfl

/-! ## Hexadecimal digits -/

theorem hexTmp_eq (c : UInt8) : hexTmp c = hexValue c := by
  have hsub {n : UInt8} (h : n ≤ c) : (c - n).toNat = c.toNat - n.toNat := UInt8.toNat_sub_of_le _ _ h
  unfold hexTmp hexValue
  split
  · rename_i h
    rw [hsub h.1]
    rfl
  split
  · rename_i h
    have hle : 65 ≤ c.toNat := h.1
    have h65 : (65 : UInt8).toNat = 65 := rfl
    rw [hsub h.1, h65]
    exact congrArg some (by omega)
  split
  · rename_i h
    have hle : 97 ≤ c.toNat := h.1
    have h97 : (97 : UInt8).toNat = 97 := rfl
    rw [hsub h.1, h97]
    exact congrArg some (by omega)
  · rfl

theorem parseHex16Loop_digit {c : UInt8} {i n ret : Nat} (hc : hexValue c = some i) (hret : ret < 2 ^ 12) (s : Str) :
    parseHex16Loop (n + 1) ret (c :: s) = parseHex16Loop n (ret * 16 + i) s := by
  have hi := (hexValue_lt hc).1
  have hnext : (ret <<< 4 + i) % 2 ^ 16 = ret * 16 + i := by
    rw [Nat.shiftLeft_eq]
    omega
  rw [parseHex16Loop, bind_ok (next_cons c s), hexTmp_eq, hc]
  dsimp only
  rw [hnext]

theorem parseHex16_text {h : Str} {n : Nat} (hh : Hex h n) (rest : Str) :
    parseHex16 (h ++ rest) = .ok (some n) rest := by
  cases hh with
  | mk ha hb hc hd =>
    have hi := (hexValue_lt ha).1
    have hj := (hexValue_lt hb).1
    have hk := (hexValue_lt hc).1
    simp only [List.cons_append, List.nil_append]
    rw [parseHex16, parseHex16Loop_digit ha (by omega), parseHex16Loop_digit hb (by omega),
      parseHex16Loop_digit hc (by omega), parseHex16Loop_digit hd (by omega), Nat.zero_mul, Nat.zero_add]
    rfl

/-- One digit: it is read, or what is there is rejected. -/
theorem parseHex16Loop_run (n : Nat) {ret : Nat} (hret : ret < 2 ^ 12) (h0 : 0 ∈ s) :
    (∃ c s' i, s = c :: s' ∧ hexValue c = some i ∧ 0 ∈ s' ∧ ret * 16 + i < 2 ^ 16 ∧
      parseHex16Loop (n + 1) ret s = parseHex16Loop n (ret * 16 + i) s') ∨
    ∃ s', parseHex16Loop (n + 1) ret s = .ok none s' := by
  obtain ⟨c, s, rfl, hc⟩ := exists_cons h0
  cases hx : hexValue c with
  | none =>
    refine .inr ⟨s, ?_⟩
    rw [parseHex16Loop, bind_ok (next_cons c s), hexTmp_eq, hx]
    rfl
  | some i =>
    have hi := (hexValue_lt hx).1
    have hne : c ≠ 0 := by
      rintro rfl
      cases hx
    exact .inl ⟨c, s, i, rfl, hx, hc.resolve_left hne, by omega, parseHex16Loop_digit hx hret s⟩

theorem parseHex16_run (h0 : 0 ∈ s) : Reads parseHex16 Hex s := by
  rw [Reads, parseHex16]
  rcases parseHex16Loop_run 3 (by decide : 0 < 2 ^ 12) h0 with ⟨a, s₁, i, rfl, ha, h₁, hlt₁, hrun₁⟩ | hfail
  · have hi := (hexValue_lt ha).1
    rcases parseHex16Loop_run 2 (by omega : 0 * 16 + i < 2 ^ 12) h₁ with ⟨b, s₂, j, rfl, hb, h₂, hlt₂, hrun₂⟩ | hfail
    · have hj := (hexValue_lt hb).1
      rcases parseHex16Loop_run 1 (by omega : (0 * 16 + i) * 16 + j < 2 ^ 12) h₂ with ⟨c, s₃, k, rfl, hc, h₃, hlt₃, hrun₃⟩ | hfail
      · have hk := (hexValue_lt hc).1
        rcases parseHex16Loop_run 0 (by omega : ((0 * 16 + i) * 16 + j) * 16 + k < 2 ^ 12) h₃ with ⟨d, s₄, l, rfl, hd, h₄, hlt₄, hrun₄⟩ | hfail
        · exact .inl ⟨_, [a, b, c, d], s₄, parseHex16_text (.mk ha hb hc hd) s₄, rfl, h₄, .mk ha hb hc hd⟩
        · exact .inr (by rwa [hrun₁, hrun₂, hrun₃])
      · exact .inr (by rwa [hrun₁, hrun₂])
    · exact .inr (by rwa [hrun₁])
  · exact .inr hfail

/-! ## Strings -/

/-- The buffer with more bytes in it. -/
def SB.with (sb : SB) (bytes : Str) : SB := { sb with bytes := sb.bytes ++ bytes }

theorem writeChar_run (c : Char) (hroom : sb.bytes.length + 4 ≤ sb.size) (s : Str) :
    writeChar sb c.toNat s = .ok (some (sb.with (utf8EncodeChar c))) s := by
  have hlen : (utf8EncodeChar c).length ≤ 4 := by
    rw [String.length_utf8EncodeChar]
    exact c.utf8Size_le_four
  rw [writeChar, bind_ok (lift_ok _ (utf8WriteChar_char c)), bind_ok (lift_ok _ (pushAll_ok (by omega)))]
  rfl

/-- What a turn of the loop answers: the buffer with the bytes of a piece. -/
def ReadsPiece (sb : SB) (text : Str) (sb' : SB) : Prop := ∃ bytes, Piece text bytes ∧ sb' = sb.with bytes

theorem parseUnicode_run (hroom : sb.bytes.length + 4 ≤ sb.size) (h0 : 0 ∈ s) :
    Reads (parseUnicode sb) (fun text sb' => ReadsPiece sb (backslash :: 117 :: text) sb') s := by
  rw [Reads, parseUnicode]
  rcases parseHex16_run h0 with ⟨uc, h, s₁, hrun₁, rfl, h0₁, hh⟩ | ⟨s', hfail⟩
  · rw [bind_ok hrun₁]
    dsimp only
    have huc := hh.lt
    by_cases hsurr : 0xD800 ≤ uc ∧ uc ≤ 0xDFFF
    · rw [if_pos hsurr]
      obtain ⟨a, s₂, rfl, ha⟩ := exists_cons h0₁
      rw [bind_ok (next_cons a s₂)]
      by_cases hslash : a = backslash
      · subst hslash
        obtain ⟨u, s₃, rfl, hu⟩ := exists_cons (ha.resolve_left (by decide))
        rw [if_neg (by simp), bind_ok (next_cons u s₃)]
        by_cases hu117 : u = 117
        · subst hu117
          rw [if_neg (by simp)]
          rcases parseHex16_run (hu.resolve_left (by decide)) with ⟨lc, l, s₄, hrun₄, rfl, h0₄, hl⟩ | ⟨s', hfail⟩
          · rw [bind_ok hrun₄]
            dsimp only
            by_cases hpair : (0xD800 ≤ uc ∧ uc ≤ 0xDBFF) ∧ 0xDC00 ≤ lc ∧ lc ≤ 0xDFFF
            · rw [fromSurrogatePair_eq hpair.1 hpair.2]
              dsimp only
              obtain ⟨c, hc⟩ := exists_toNat (n := 0x10000 + (uc - 0xD800) * 0x400 + (lc - 0xDC00))
                (by unfold Nat.isValidChar; omega)
              rw [← hc]
              refine .inl ⟨_, h ++ backslash :: 117 :: l, s₄, writeChar_run c hroom s₄, by simp, h0₄, utf8EncodeChar c, ?_, rfl⟩
              exact .unicode (.pair hh hl hpair.1 hpair.2 hc)
            · rw [fromSurrogatePair_none hpair]
              exact .inr ⟨s₄, rfl⟩
          · rw [bind_ok hfail]
            exact .inr ⟨s', rfl⟩
        · rw [if_pos hu117]
          exact .inr ⟨s₃, rfl⟩
      · rw [if_pos hslash]
        exact .inr ⟨s₂, rfl⟩
    · rw [if_neg hsurr]
      by_cases hz : uc = 0
      · rw [if_pos hz]
        exact .inr ⟨s₁, rfl⟩
      · rw [if_neg hz]
        obtain ⟨c, rfl⟩ := exists_toNat (n := uc) (by unfold Nat.isValidChar; omega)
        refine .inl ⟨_, h, s₁, writeChar_run c hroom s₁, rfl, h0₁, utf8EncodeChar c, .unicode (.one hh ?_), rfl⟩
        rintro rfl
        exact hz rfl
  · rw [bind_ok hfail]
    exact .inr ⟨s', rfl⟩

theorem parseUnicode_text {u : Str} {c : Char} (hu : Unicode u c) (hroom : sb.bytes.length + 4 ≤ sb.size) (rest : Str) :
    ∃ text, u = backslash :: 117 :: text ∧ parseUnicode sb (text ++ rest) = .ok (some (sb.with (utf8EncodeChar c))) rest := by
  cases hu with
  | @one h c hh h0 =>
    refine ⟨h, rfl, ?_⟩
    have hv := toNat_valid c
    have hlt := hh.lt
    have hne : c.toNat ≠ 0 := by
      intro hz
      exact h0 (by rw [← Char.ofNat_toNat c, hz]; rfl)
    rw [parseUnicode, bind_ok (parseHex16_text hh rest)]
    dsimp only
    rw [if_neg (by omega), if_neg hne]
    exact writeChar_run c hroom rest
  | @pair h l hi lo c hh hl hhi hlo hc =>
    refine ⟨h ++ backslash :: 117 :: l, rfl, ?_⟩
    rw [List.append_assoc, parseUnicode, bind_ok (parseHex16_text hh _)]
    dsimp only
    rw [if_pos (by omega), List.cons_append, List.cons_append, bind_ok (next_cons _ _), if_neg (by simp),
      bind_ok (next_cons _ _), if_neg (by simp), bind_ok (parseHex16_text hl rest)]
    dsimp only
    rw [fromSurrogatePair_eq hhi hlo, ← hc]
    exact writeChar_run c hroom rest

theorem push_with (hroom : sb.bytes.length + 4 ≤ sb.size) (c : UInt8) : sb.push c = .ok (sb.with [c]) :=
  push_ok (by omega) c

/-- The `switch` but for its case `'u'`. -/
theorem parseEscape_byte {e : UInt8} (he : e ≠ 117) (hroom : sb.bytes.length + 4 ≤ sb.size) (s : Str) :
    parseEscape sb (e :: s) = .ok ((escaped e).map fun b => sb.with [b]) s := by
  have hpush (b : UInt8) : lift (sb.push b) s = .ok (sb.with [b]) s := lift_ok s (push_with hroom b)
  rw [parseEscape, bind_ok (next_cons e s), if_neg he]
  unfold escaped
  split
  · rw [bind_ok (hpush e)]
    rfl
  split
  · rw [bind_ok (hpush 8)]
    rfl
  split
  · rw [bind_ok (hpush 12)]
    rfl
  split
  · rw [bind_ok (hpush 10)]
    rfl
  split
  · rw [bind_ok (hpush 13)]
    rfl
  split
  · rw [bind_ok (hpush 9)]
    rfl
  · rfl

theorem parseEscape_u (s : Str) : parseEscape sb (117 :: s) = parseUnicode sb s := rfl

theorem parseEscape_run (hroom : sb.bytes.length + 4 ≤ sb.size) (h0 : 0 ∈ s) :
    Reads (parseEscape sb) (fun text sb' => ReadsPiece sb (backslash :: text) sb') s := by
  obtain ⟨e, s, rfl, he⟩ := exists_cons h0
  by_cases hu : e = 117
  · subst hu
    rw [Reads, parseEscape_u]
    rcases parseUnicode_run hroom (he.resolve_left (by decide)) with ⟨sb', text, rest, hrun, rfl, hrest, hpiece⟩ | hfail
    · exact .inl ⟨sb', 117 :: text, rest, hrun, rfl, hrest, hpiece⟩
    · exact .inr hfail
  · rw [Reads, parseEscape_byte hu hroom]
    cases hesc : escaped e with
    | none => exact .inr ⟨s, rfl⟩
    | some b =>
      have hne : e ≠ 0 := by
        rintro rfl
        cases hesc
      exact .inl ⟨sb.with [b], [e], s, rfl, rfl, he.resolve_left hne, [b], .escape hesc, rfl⟩

theorem with_append (sb : SB) (a b : Str) : (sb.with a).with b = sb.with (a ++ b) := by
  simp [SB.with]

theorem copyBytes_run {text : Str} (hroom : sb.bytes.length + text.length ≤ sb.size) (rest : Str) :
    copyBytes text.length sb (text ++ rest) = .ok (sb.with text) rest := by
  induction text generalizing sb with
  | nil =>
    rw [SB.with, List.append_nil]
    rfl
  | cons c text ih =>
    rw [List.length_cons] at hroom
    have hpush : sb.push c = .ok (sb.with [c]) := push_ok (by omega) c
    have hroom' : (sb.with [c]).bytes.length + text.length ≤ (sb.with [c]).size := by
      simp only [SB.with, List.length_append, List.length_singleton]
      omega
    have hrun := ih hroom'
    rw [with_append] at hrun
    rw [List.length_cons, copyBytes, List.cons_append, bind_ok (next_cons c _), bind_ok (lift_ok _ hpush)]
    exact hrun

/-- A byte that stands for itself. -/
theorem parseCharacter_plain (sb : SB) (hslash : b ≠ backslash) (hlow : ¬ b ≤ 0x1F) (s : Str) :
    parseCharacter sb (b :: s) = (do
      let len ← lift (utf8ValidateCz (b :: s))
      if len = 0 then return none
      else return some (← copyBytes len sb)) (b :: s) := by
  rw [parseCharacter, bind_get, bind_ok (next_cons b s), if_neg hslash, if_neg hlow, bind_set]

theorem not_le_iff : ¬ b ≤ 0x1F ↔ 0x20 ≤ b := by
  simp only [UInt8.le_iff_toNat_le, UInt8.reduceToNat]
  omega

theorem parseCharacter_char {c : Char} (hroom : sb.bytes.length + 4 ≤ sb.size) (hc : Plain c) (rest : Str) :
    parseCharacter sb (utf8EncodeChar c ++ rest) = .ok (some (sb.with (utf8EncodeChar c))) rest := by
  have hlen : (utf8EncodeChar c).length ≤ 4 := by
    rw [String.length_utf8EncodeChar]
    exact c.utf8Size_le_four
  have hrun := utf8ValidateCz_encode c rest
  obtain ⟨b, inside, heq, -, -⟩ := utf8EncodeChar_eq c
  obtain ⟨hlow, -, hslash⟩ := (plain_iff rest (by rw [heq, List.cons_append])).1 hc
  have hplain := parseCharacter_plain sb hslash (not_le_iff.2 hlow) (inside ++ rest)
  rw [← List.cons_append, ← heq] at hplain
  rw [hplain, bind_ok (lift_ok _ hrun), if_neg (length_utf8EncodeChar_ne c), bind_ok (copyBytes_run (by omega) rest)]
  rfl

theorem parseCharacter_text {text bytes : Str} (hp : Piece text bytes) (hroom : sb.bytes.length + 4 ≤ sb.size)
    (rest : Str) : parseCharacter sb (text ++ rest) = .ok (some (sb.with bytes)) rest := by
  cases hp with
  | plain hc => exact parseCharacter_char hroom hc rest
  | @escape e b he =>
    have hu : e ≠ 117 := by
      rintro rfl
      cases he
    have hrun := parseEscape_byte hu hroom rest
    rw [he] at hrun
    rw [List.cons_append, List.cons_append, List.nil_append, parseCharacter, bind_get, bind_ok (next_cons _ _), if_pos rfl]
    exact hrun
  | unicode hu =>
    obtain ⟨text, rfl, hrun⟩ := parseUnicode_text hu hroom rest
    rw [List.cons_append, List.cons_append, parseCharacter, bind_get, bind_ok (next_cons _ _), if_pos rfl, parseEscape_u]
    exact hrun

theorem parseCharacter_run (hroom : sb.bytes.length + 4 ≤ sb.size) (h0 : 0 ∈ b :: s) (hquote : b ≠ quote) :
    Reads (parseCharacter sb) (ReadsPiece sb) (b :: s) := by
  by_cases hslash : b = backslash
  · subst hslash
    rw [Reads, parseCharacter, bind_get, bind_ok (next_cons _ _), if_pos rfl]
    have hs : 0 ∈ s := (List.mem_cons.1 h0).resolve_left (by decide)
    rcases parseEscape_run hroom hs with ⟨sb', text, rest, hrun, rfl, hrest, hpiece⟩ | hfail
    · exact .inl ⟨sb', backslash :: text, rest, hrun, rfl, hrest, hpiece⟩
    · exact .inr hfail
  by_cases hlow : b ≤ 0x1F
  · refine .inr ⟨s, ?_⟩
    rw [parseCharacter, bind_get, bind_ok (next_cons _ _), if_neg hslash, if_pos hlow]
    rfl
  · rcases utf8ValidateCz_run h0 with hz | ⟨bytes, rest, hbytes, heq, -⟩
    · refine .inr ⟨b :: s, ?_⟩
      rw [parseCharacter_plain sb hslash hlow, bind_ok (lift_ok _ hz), if_pos rfl]
      rfl
    · obtain ⟨c, rfl⟩ := charBytes_iff.1 hbytes
      have hc : Plain c := (plain_iff _ heq.symm).2 ⟨not_le_iff.1 hlow, hquote, hslash⟩
      have hnul := hc.visible.printed.noNul
      rw [heq] at h0 ⊢
      exact .inl ⟨_, _, rest, parseCharacter_char hroom hc rest, rfl, (List.mem_append.1 h0).resolve_left hnul, _, .plain hc, rfl⟩

/-- There is room for a character more. -/
def Ready (out : Bool) (sb : SB) : Prop := if out then sb.bytes.length + 4 < sb.size else sb = throwawayBuffer

theorem Ready.room (h : Ready out sb) : sb.bytes.length + 4 ≤ sb.size := by
  cases out with
  | true => exact Nat.le_of_lt h
  | false =>
    obtain rfl : sb = throwawayBuffer := h
    decide

theorem nextBuffer_run (h : out = true → sb.Valid) : ∃ sb', nextBuffer out sb = .ok sb' ∧ Ready out sb' ∧
    (out = true → sb'.bytes = sb.bytes) := by
  cases out with
  | true =>
    obtain ⟨size, hrun, hroom, -⟩ := sbNeed_run (h rfl) 4
    exact ⟨_, hrun, hroom, fun _ => rfl⟩
  | false => exact ⟨throwawayBuffer, rfl, rfl, fun h => by cases h⟩

theorem Ready.with_valid (h : Ready out sb) {bytes : Str} (hlen : bytes.length ≤ 4) : out = true → (sb.with bytes).Valid := by
  rintro rfl
  have hroom : sb.bytes.length + 4 < sb.size := h
  refine ⟨?_, ?_⟩ <;> simp only [SB.with, List.length_append] <;> omega

theorem parseStringLoop_text {fuel : Nat} {text bytes rest : Str} (h : Chars text bytes) (hsb : Ready out sb)
    (hfuel : (text ++ quote :: rest).length ≤ fuel) : ∃ sb', parseStringLoop out fuel sb (text ++ quote :: rest) =
      .ok (some sb') (quote :: rest) ∧ Ready out sb' ∧ (out = true → sb'.bytes = sb.bytes ++ bytes) := by
  induction h generalizing fuel sb with
  | nil =>
    obtain ⟨fuel, rfl⟩ : ∃ n, fuel = n + 1 := ⟨fuel - 1, by simp at hfuel; omega⟩
    refine ⟨sb, ?_, hsb, fun _ => by rw [List.append_nil]⟩
    rw [List.nil_append, parseStringLoop, bind_ok (look_cons _ _), if_pos rfl]
    rfl
  | @cons u b text bytes hp h ih =>
    obtain ⟨first, u', rfl, hfirst⟩ := hp.head
    obtain ⟨fuel, rfl⟩ : ∃ n, fuel = n + 1 := ⟨fuel - 1, by simp at hfuel; omega⟩
    obtain ⟨sb₁, hrun₁, hsb₁, hbytes₁⟩ := nextBuffer_run (hsb.with_valid hp.length_le)
    have hfuel' : (text ++ quote :: rest).length ≤ fuel := by
      simp only [List.length_append, List.length_cons] at hfuel ⊢
      omega
    obtain ⟨sb', hrun, hsb', hbytes⟩ := ih hsb₁ hfuel'
    refine ⟨sb', ?_, hsb', fun hout => ?_⟩
    · have hchar := parseCharacter_text hp hsb.room (text ++ quote :: rest)
      rw [List.append_assoc, List.cons_append, parseStringLoop, bind_ok (look_cons _ _), if_neg hfirst,
        ← List.cons_append, bind_ok hchar]
      dsimp only
      rw [bind_ok (lift_ok _ hrun₁)]
      exact hrun
    · rw [hbytes hout, hbytes₁ hout, SB.with, List.append_assoc]

theorem parseStringLoop_run {fuel : Nat} (hsb : Ready out sb) (h0 : 0 ∈ s) (hfuel : s.length ≤ fuel) :
    (∃ text bytes rest, s = text ++ quote :: rest ∧ Chars text bytes ∧ 0 ∈ rest) ∨
      ∃ s', parseStringLoop out fuel sb s = .ok none s' := by
  induction fuel generalizing s sb with
  | zero =>
    rw [List.length_eq_zero_iff.1 (Nat.le_zero.1 hfuel)] at h0
    simp at h0
  | succ fuel ih =>
    obtain ⟨b, s, rfl, hb⟩ := exists_cons h0
    by_cases hquote : b = quote
    · subst hquote
      exact .inl ⟨[], [], s, rfl, .nil, hb.resolve_left (by decide)⟩
    · rw [parseStringLoop, bind_ok (look_cons _ _), if_neg hquote]
      rcases parseCharacter_run hsb.room h0 hquote with ⟨sb₁, u, rest, hrun, hs, hrest, bytes, hp, rfl⟩ | ⟨s', hfail⟩
      · obtain ⟨sb₂, hrun₂, hsb₂, -⟩ := nextBuffer_run (hsb.with_valid hp.length_le)
        have hshort : rest.length ≤ fuel := by
          obtain ⟨first, u', rfl, -⟩ := hp.head
          have hlen := congrArg List.length hs
          simp only [List.length_cons, List.length_append] at hlen hfuel
          omega
        rw [bind_ok hrun]
        dsimp only
        rw [bind_ok (lift_ok _ hrun₂)]
        rcases ih hsb₂ hrest hshort with ⟨text, bytes', rest', rfl, h, h0'⟩ | hfail
        · exact .inl ⟨u ++ text, bytes ++ bytes', rest', by rw [hs, List.append_assoc], .cons hp h, h0'⟩
        · exact .inr hfail
      · rw [bind_ok hfail]
        exact .inr ⟨s', rfl⟩

theorem parseString_text {text bytes : Str} (out : Bool) (h : Chars text bytes) (rest : Str) :
    parseString out (quote :: (text ++ quote :: rest)) = .ok (some (written out bytes)) rest := by
  obtain ⟨sb₁, hrun₁, hsb₁, hbytes₁⟩ := nextBuffer_run fun _ : out = true => valid_sbInit
  obtain ⟨sb₂, hrun₂, hsb₂, hbytes₂⟩ := parseStringLoop_text h hsb₁ (Nat.le_refl (text ++ quote :: rest).length)
  rw [parseString, bind_ok (next_cons _ _), if_neg (by simp), bind_ok (lift_ok _ hrun₁), bind_get, bind_ok hrun₂]
  dsimp only
  rw [bind_ok (step_cons _ _)]
  cases out with
  | false => rfl
  | true =>
    have hbytes : sb₂.bytes = bytes := by rw [hbytes₂ rfl, hbytes₁ rfl]; rfl
    have hroom : sb₂.bytes.length + 4 < sb₂.size := hsb₂
    have hvalid : sb₂.Valid := ⟨by omega, by omega⟩
    have hfinish := sbFinish_run hvalid (by rw [hbytes]; exact h.noNul)
    rw [if_pos rfl, bind_ok (lift_ok _ hfinish), hbytes]
    rfl

theorem parseString_run (out : Bool) (h0 : 0 ∈ s) :
    Reads (parseString out)
      (fun text str => ∃ chars bytes, text = quote :: (chars ++ [quote]) ∧ Chars chars bytes ∧ str = written out bytes) s := by
  obtain ⟨b, s, rfl, hb⟩ := exists_cons h0
  by_cases hquote : b = quote
  · subst hquote
    obtain ⟨sb, hrun, hsb, -⟩ := nextBuffer_run fun _ : out = true => valid_sbInit
    rcases parseStringLoop_run hsb (hb.resolve_left (by decide)) (Nat.le_refl _) with
      ⟨text, bytes, rest, rfl, h, h0'⟩ | ⟨s', hfail⟩
    · exact .inl ⟨_, _, rest, parseString_text out h rest, by simp, h0', text, bytes, rfl, h, rfl⟩
    · refine .inr ⟨s', ?_⟩
      rw [parseString, bind_ok (next_cons _ _), if_neg (by simp), bind_ok (lift_ok _ hrun), bind_get, bind_ok hfail]
      rfl
  · refine .inr ⟨s, ?_⟩
    rw [parseString, bind_ok (next_cons _ _), if_pos hquote]
    rfl

end CodiusSandbox.JsonText
