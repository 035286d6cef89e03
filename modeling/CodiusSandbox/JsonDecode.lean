import CodiusSandbox.JsonNodes
/-!
# `json_decode` and `json_validate` against the grammar

`jsonValues lib` puts the values of `Json` together. What the grammar derives the parser accepts, and it
makes the nodes of its value (`ParsesItem`); on everything else it stays on the string, gives an answer and
takes its nodes back (`ValueAnswer`).
-/
namespace CodiusSandbox.JsonText

open JsonGrammar TreeHeap Wp

/-- Values as the nodes have them: a number is what `strtod` makes of its text. -/
def jsonValues (lib : NumberLib) : Values Json where
  null := .null
  bool := .bool
  string := .string
  number := fun token => .number (lib.strtod token)
  array := .array
  object := .object

section
variable {lib : NumberLib} {out : Bool} {h h₁ h₂ : Heap} {ret r : Option Ptr} {v : Json} {s rest text : Str}
  {fuel : Nat} {b c : UInt8} {done vs : List Json} {members ms : List (Str × Json)}

/-! ## What the grammar derives -/

def ParsesValue (lib : NumberLib) (out : Bool) (v : Json) (text : Str) : Prop :=
  ∀ ⦃fuel b rest h⦄, h.Fresh → Delimited (b :: rest) → 4 * (text ++ b :: rest).length ≤ fuel →
    ∃ r h', parseValue lib out fuel ⟨text ++ b :: rest, h⟩ = .ok (some r) ⟨b :: rest, h'⟩ ∧ Makes out (build v) h r h'

def ParsesElements (lib : NumberLib) (out : Bool) (vs : List Json) (text : Str) : Prop :=
  ∀ ⦃fuel rest h h₁ ret done⦄, h.Fresh → Makes out (build (.array done)) h ret h₁ →
    4 * (text ++ closeBracket :: rest).length < fuel → ∃ h',
      parseElements lib out fuel ret ⟨text ++ closeBracket :: rest, h₁⟩ = .ok (some ret) ⟨rest, h'⟩ ∧
        Makes out (build (.array (done ++ vs))) h ret h'

def ParsesMembers (lib : NumberLib) (out : Bool) (ms : List (Str × Json)) (text : Str) : Prop :=
  ∀ ⦃fuel rest h h₁ ret done⦄, h.Fresh → Makes out (build (.object done)) h ret h₁ →
    4 * (text ++ closeBrace :: rest).length < fuel → ∃ h',
      parseMembers lib out fuel ret ⟨text ++ closeBrace :: rest, h₁⟩ = .ok (some ret) ⟨rest, h'⟩ ∧
        Makes out (build (.object (done ++ ms))) h ret h'

/-- The parser accepts the text of the item, and makes its nodes. -/
def ParsesItem (lib : NumberLib) (out : Bool) : Item Json → Str → Prop
  | .value v => ParsesValue lib out v
  | .elements vs => ParsesElements lib out vs
  | .members ms => ParsesMembers lib out ms

theorem exists_succ {k n : Nat} (h : k < n) : ∃ m, n = m + 1 ∧ k ≤ m := ⟨n - 1, by omega, by omega⟩

theorem parseValue_look (lib : NumberLib) (out : Bool) (fuel : Nat) (c : UInt8) (s : Str) (h : Heap) :
    parseValue lib out (fuel + 1) ⟨c :: s, h⟩ =
      (if c = 110 then parseLiteral out nullText .null
      else if c = 102 then parseLiteral out falseText (.bool false)
      else if c = 116 then parseLiteral out trueText (.bool true)
      else if c = quote then parseStringValue out
      else if c = openBracket then parseArray lib out fuel
      else if c = openBrace then parseObject lib out fuel
      else parseNumberValue lib out) ⟨c :: s, h⟩ := by
  rw [parseValue, bind_ok (onText_ok (look_cons c s) h)]

theorem parseLiteral_text (out : Bool) (literal : Str) {contents : JsonContents} (hv : ∀ h, build v h = mknode contents h)
    (rest : Str) (h : Heap) : ∃ r h', parseLiteral out literal contents ⟨literal ++ rest, h⟩ = .ok (some r) ⟨rest, h'⟩ ∧
      Makes out (build v) h r h' := by
  obtain ⟨r, h', hrun, hm⟩ := mkOut_run hv out rest h
  refine ⟨r, h', ?_, hm⟩
  rw [parseLiteral, bind_ok (onText_ok (expectLiteral_text literal rest) h), if_pos rfl, bind_ok hrun]
  rfl

theorem parses_null : ParsesValue lib out .null nullText := by
  intro fuel b rest h hh hrest hfuel
  obtain ⟨fuel, rfl, -⟩ := exists_succ (k := 0) (n := fuel) (by simp at hfuel; omega)
  have hrun := parseValue_look lib out fuel 110 ([117, 108, 108] ++ b :: rest) h
  rw [if_pos rfl] at hrun
  obtain ⟨r, h', hlit, hm⟩ := parseLiteral_text out nullText (v := .null) (fun _ => rfl) (b :: rest) h
  exact ⟨r, h', hrun.trans hlit, hm⟩

theorem parses_string {chars bytes : Str} (hc : Chars chars bytes) :
    ParsesValue lib out (.string bytes) (quote :: (chars ++ [quote])) := by
  intro fuel b rest h hh hrest hfuel
  obtain ⟨fuel, rfl, -⟩ := exists_succ (k := 0) (n := fuel) (by simp at hfuel; omega)
  obtain ⟨r, h', hout, hm⟩ := mkOut_run (v := .string bytes) (fun _ => rfl) out (b :: rest) h
  refine ⟨r, h', ?_, hm⟩
  have hstring := onText_ok (parseString_text out hc (b :: rest)) h
  rw [List.cons_append, List.append_assoc, List.singleton_append, parseValue_look, if_neg (by decide),
    if_neg (by decide), if_neg (by decide), if_pos rfl, parseStringValue, bind_ok hstring]
  dsimp only
  rw [map_written, bind_ok hout]
  rfl

theorem parses_number {token : Str} (hn : Number token) :
    ParsesValue lib out (.number (lib.strtod token)) token := by
  intro fuel b rest h hh hrest hfuel
  obtain ⟨fuel, rfl, -⟩ := exists_succ (k := 0) (n := fuel) (by simp at hfuel; omega)
  obtain ⟨r, h', hout, hm⟩ := mkOut_run (v := .number (lib.strtod token)) (fun _ => rfl) out (b :: rest) h
  refine ⟨r, h', ?_, hm⟩
  have hnumber := onText_ok (parseNumber_text lib out hn hrest) h
  obtain ⟨c, token', rfl, hc⟩ := hn.starts
  have hne : c ≠ 110 ∧ c ≠ 102 ∧ c ≠ 116 ∧ c ≠ quote ∧ c ≠ openBracket ∧ c ≠ openBrace := by
    refine ⟨?_, ?_, ?_, ?_, ?_, ?_⟩ <;> (rintro rfl; revert hc; decide)
  rw [List.cons_append] at hnumber ⊢
  rw [parseValue_look, if_neg hne.1, if_neg hne.2.1, if_neg hne.2.2.1, if_neg hne.2.2.2.1, if_neg hne.2.2.2.2.1,
    if_neg hne.2.2.2.2.2, parseNumberValue, bind_ok hnumber]
  dsimp only
  rw [map_written, bind_ok hout]
  rfl

/-- Behind the opening bracket. -/
theorem parseArray_open (lib : NumberLib) (out : Bool) (fuel : Nat) {space : Str} (hs : Space space) (hc : ¬ IsSpace c) (rest : Str) (h : Heap) :
    ∃ ret h₁, parseArray lib out (fuel + 1) ⟨openBracket :: (space ++ c :: rest), h⟩ = (do
        if c = closeBracket then
          onText step
          return some ret
        else parseElements lib out fuel ret) ⟨c :: rest, h₁⟩ ∧ Makes out (build (.array [])) h ret h₁ := by
  obtain ⟨ret, h₁, hrun, hm⟩ := mkOut_run (v := .array []) (fun _ => rfl) out (openBracket :: (space ++ c :: rest)) h
  refine ⟨ret, h₁, ?_, hm⟩
  rw [parseArray, bind_ok hrun, bind_ok (onText_ok (next_cons _ _) h₁), if_neg (by simp),
    bind_ok (onText_ok (skipSpace_text hs hc rest) h₁), bind_ok (onText_ok (look_cons c rest) h₁)]

theorem parseObject_open (lib : NumberLib) (out : Bool) (fuel : Nat) {space : Str} (hs : Space space) (hc : ¬ IsSpace c) (rest : Str) (h : Heap) :
    ∃ ret h₁, parseObject lib out (fuel + 1) ⟨openBrace :: (space ++ c :: rest), h⟩ = (do
        if c = closeBrace then
          onText step
          return some ret
        else parseMembers lib out fuel ret) ⟨c :: rest, h₁⟩ ∧ Makes out (build (.object [])) h ret h₁ := by
  obtain ⟨ret, h₁, hrun, hm⟩ := mkOut_run (v := .object []) (fun _ => rfl) out (openBrace :: (space ++ c :: rest)) h
  refine ⟨ret, h₁, ?_, hm⟩
  rw [parseObject, bind_ok hrun, bind_ok (onText_ok (next_cons _ _) h₁), if_neg (by simp),
    bind_ok (onText_ok (skipSpace_text hs hc rest) h₁), bind_ok (onText_ok (look_cons c rest) h₁)]

/-- Behind an element. -/
theorem parseElements_value {space : Str} (hv : parseValue lib out fuel ⟨s, h⟩ = .ok (some r) ⟨space ++ c :: rest, h₁⟩)
    (hs : Space space) (hc : ¬ IsSpace c) (ha : addElement ret r ⟨c :: rest, h₁⟩ = .ok () ⟨c :: rest, h₂⟩) :
    parseElements lib out (fuel + 1) ret ⟨s, h⟩ = (do
      if c = closeBracket then
        onText step
        return some ret
      else if (← onText next) ≠ comma then failure ret
      else
        onText skipSpace
        parseElements lib out fuel ret) ⟨c :: rest, h₂⟩ := by
  rw [parseElements, bind_ok hv]
  dsimp only
  rw [bind_ok (onText_ok (skipSpace_text hs hc rest) h₁), bind_ok ha, bind_ok (onText_ok (look_cons c rest) h₂)]

/-- Behind a member. -/
theorem parseMembers_value {str : Option Str} {space space' space'' : Str} {d : UInt8} {rest' : Str}
    (hk : parseString out s = .ok (some str) (space ++ colon :: (space' ++ c :: rest)))
    (hs : Space space) (hs' : Space space') (hc : ¬ IsSpace c)
    (hv : parseValue lib out fuel ⟨c :: rest, h⟩ = .ok (some r) ⟨space'' ++ d :: rest', h₁⟩) (hs'' : Space space'')
    (hd : ¬ IsSpace d) (ha : addMember ret str r ⟨d :: rest', h₁⟩ = .ok () ⟨d :: rest', h₂⟩) :
    parseMembers lib out (fuel + 1) ret ⟨s, h⟩ = (do
      if d = closeBrace then
        onText step
        return some ret
      else if (← onText next) ≠ comma then failure ret
      else
        onText skipSpace
        parseMembers lib out fuel ret) ⟨d :: rest', h₂⟩ := by
  rw [parseMembers, bind_ok (onText_ok hk h)]
  dsimp only
  rw [bind_ok (onText_ok (skipSpace_text hs (by decide) _) h), bind_ok (onText_ok (next_cons _ _) h), if_neg (by simp),
    bind_ok (onText_ok (skipSpace_text hs' hc rest) h), bind_ok hv]
  dsimp only
  rw [bind_ok (onText_ok (skipSpace_text hs'' hd rest') h₁), bind_ok ha, bind_ok (onText_ok (look_cons d rest') h₂)]

theorem parses_emptyArray {space : Str} (hs : Space space) :
    ParsesValue lib out (.array []) (openBracket :: (space ++ [closeBracket])) := by
  intro fuel b rest h hh hrest hfuel
  obtain ⟨fuel, rfl, hle⟩ := exists_succ (k := 1) (n := fuel) (by simp at hfuel; omega)
  obtain ⟨fuel, rfl, -⟩ := exists_succ (k := 0) (n := fuel) (by omega)
  obtain ⟨ret, h₁, hrun, hm⟩ := parseArray_open lib out fuel (c := closeBracket) hs (by decide)
    (b :: rest) h
  refine ⟨ret, h₁, ?_, hm⟩
  rw [List.cons_append, List.append_assoc, List.singleton_append, parseValue_look, if_neg (by decide),
    if_neg (by decide), if_neg (by decide), if_neg (by decide), if_pos rfl, hrun, if_pos rfl,
    bind_ok (onText_ok (step_cons _ _) h₁)]
  rfl

theorem parses_array {space : Str} (hs : Space space) (hd : Derives (jsonValues lib) (.elements vs) text)
    (ih : ParsesElements lib out vs text) : ParsesValue lib out (.array vs) (openBracket :: (space ++ text ++ [closeBracket])) := by
  intro fuel b rest h hh hrest hfuel
  obtain ⟨c, text', rfl, hc⟩ := hd.starts
  obtain ⟨fuel, rfl, hle⟩ := exists_succ (k := 1) (n := fuel) (by simp at hfuel; omega)
  obtain ⟨fuel, rfl, -⟩ := exists_succ (k := 0) (n := fuel) (by omega)
  obtain ⟨ret, h₁, hrun, hm⟩ := parseArray_open lib out fuel hs hc.not_space
    (text' ++ closeBracket :: b :: rest) h
  have hfuel' : 4 * (c :: text' ++ closeBracket :: b :: rest).length < fuel := by
    simp only [List.length_append, List.length_cons, List.length_nil] at hfuel ⊢
    omega
  obtain ⟨h', hloop, hm'⟩ := ih hh hm hfuel'
  refine ⟨ret, h', ?_, hm'⟩
  have hne : c ≠ closeBracket := by
    rintro rfl
    revert hc
    unfold Starts
    decide
  have hfirst : openBracket :: (space ++ c :: text' ++ [closeBracket]) ++ b :: rest =
      openBracket :: (space ++ c :: (text' ++ closeBracket :: b :: rest)) := by simp
  rw [hfirst, parseValue_look, if_neg (by decide), if_neg (by decide), if_neg (by decide), if_neg (by decide),
    if_pos rfl, hrun, if_neg hne]
  exact hloop

theorem parses_emptyObject {space : Str} (hs : Space space) :
    ParsesValue lib out (.object []) (openBrace :: (space ++ [closeBrace])) := by
  intro fuel b rest h hh hrest hfuel
  obtain ⟨fuel, rfl, hle⟩ := exists_succ (k := 1) (n := fuel) (by simp at hfuel; omega)
  obtain ⟨fuel, rfl, -⟩ := exists_succ (k := 0) (n := fuel) (by omega)
  obtain ⟨ret, h₁, hrun, hm⟩ := parseObject_open lib out fuel (c := closeBrace) hs (by decide)
    (b :: rest) h
  refine ⟨ret, h₁, ?_, hm⟩
  rw [List.cons_append, List.append_assoc, List.singleton_append, parseValue_look, if_neg (by decide),
    if_neg (by decide), if_neg (by decide), if_neg (by decide), if_neg (by decide), if_pos rfl, hrun, if_pos rfl,
    bind_ok (onText_ok (step_cons _ _) h₁)]
  rfl

theorem parses_object {space : Str} (hs : Space space) (hd : Derives (jsonValues lib) (.members ms) text)
    (ih : ParsesMembers lib out ms text) : ParsesValue lib out (.object ms) (openBrace :: (space ++ text ++ [closeBrace])) := by
  intro fuel b rest h hh hrest hfuel
  obtain ⟨c, text', rfl, hc⟩ := hd.starts
  obtain ⟨fuel, rfl, hle⟩ := exists_succ (k := 1) (n := fuel) (by simp at hfuel; omega)
  obtain ⟨fuel, rfl, -⟩ := exists_succ (k := 0) (n := fuel) (by omega)
  obtain ⟨ret, h₁, hrun, hm⟩ := parseObject_open lib out fuel hs hc.not_space
    (text' ++ closeBrace :: b :: rest) h
  have hfuel' : 4 * (c :: text' ++ closeBrace :: b :: rest).length < fuel := by
    simp only [List.length_append, List.length_cons, List.length_nil] at hfuel ⊢
    omega
  obtain ⟨h', hloop, hm'⟩ := ih hh hm hfuel'
  refine ⟨ret, h', ?_, hm'⟩
  have hne : c ≠ closeBrace := by
    rintro rfl
    revert hc
    unfold Starts
    decide
  have hfirst : openBrace :: (space ++ c :: text' ++ [closeBrace]) ++ b :: rest =
      openBrace :: (space ++ c :: (text' ++ closeBrace :: b :: rest)) := by simp
  rw [hfirst, parseValue_look, if_neg (by decide), if_neg (by decide), if_neg (by decide), if_neg (by decide),
    if_neg (by decide), if_pos rfl, hrun, if_neg hne]
  exact hloop

/-- The byte behind space that is followed by `b`. -/
theorem space_cons {space rest : Str} (hs : Space space) (hb : Delimited (b :: rest)) :
    ∃ d rest', space ++ b :: rest = d :: rest' ∧ Delimited (d :: rest') := by
  have hdelim := hb.space hs
  cases space with
  | nil => exact ⟨b, rest, rfl, hdelim⟩
  | cons d space => exact ⟨d, space ++ b :: rest, rfl, hdelim⟩

/-- An element and the space behind it. -/
theorem parse_element {space : Str} (ih : ParsesValue lib out v text) (hs : Space space) (hc : ¬ IsSpace c)
    (hdelim : Delimited (c :: rest)) (hh : h.Fresh) (hm : Makes out (build (.array done)) h ret h₁)
    (hfuel : 4 * (text ++ space ++ c :: rest).length ≤ fuel) : ∃ h', Makes out (build (.array (done ++ [v]))) h ret h' ∧
      parseElements lib out (fuel + 1) ret ⟨text ++ space ++ c :: rest, h₁⟩ = (do
        if c = closeBracket then
          onText step
          return some ret
        else if (← onText next) ≠ comma then failure ret
        else
          onText skipSpace
          parseElements lib out fuel ret) ⟨c :: rest, h'⟩ := by
  rw [List.append_assoc] at hfuel ⊢
  obtain ⟨d, rest', hspace, hd⟩ := space_cons hs hdelim
  rw [hspace] at hfuel
  obtain ⟨r, h₂, hrun, hm₂⟩ := ih (hm.fresh hh) hd hfuel
  rw [← hspace] at hrun
  obtain ⟨h', hadd, hm'⟩ := hm.element hm₂ hh (c :: rest)
  exact ⟨h', hm', parseElements_value hrun hs hc hadd⟩

theorem parses_lastElement {space : Str} (ih : ParsesValue lib out v text) (hs : Space space) :
    ParsesElements lib out [v] (text ++ space) := by
  intro fuel rest h h₁ ret done hh hm hfuel
  obtain ⟨fuel, rfl, hle⟩ := exists_succ hfuel
  obtain ⟨h', hm', hrun⟩ := parse_element ih hs (by decide) (delimited_cons.2 (by simp)) hh hm hle
  refine ⟨h', ?_, hm'⟩
  rw [hrun, if_pos rfl, bind_ok (onText_ok (step_cons _ _) h')]
  rfl

theorem parses_element {space space' more : Str} (ih : ParsesValue lib out v text) (hs : Space space) (hs' : Space space')
    (hd : Derives (jsonValues lib) (.elements vs) more) (ihr : ParsesElements lib out vs more) :
    ParsesElements lib out (v :: vs) (text ++ space ++ comma :: (space' ++ more)) := by
  intro fuel rest h h₁ ret done hh hm hfuel
  obtain ⟨fuel, rfl, hle⟩ := exists_succ hfuel
  obtain ⟨c, more', rfl, hc⟩ := hd.starts
  have hfirst : text ++ space ++ comma :: (space' ++ c :: more') ++ closeBracket :: rest =
      text ++ space ++ comma :: (space' ++ c :: (more' ++ closeBracket :: rest)) := by simp
  rw [hfirst] at hle ⊢
  obtain ⟨h₂, hm₂, hrun⟩ := parse_element ih hs (by decide) (delimited_cons.2 (by simp)) hh hm hle
  have hfuel' : 4 * (c :: more' ++ closeBracket :: rest).length < fuel := by
    simp only [List.length_append, List.length_cons] at hle ⊢
    omega
  obtain ⟨h', hloop, hm'⟩ := ihr hh hm₂ hfuel'
  refine ⟨h', ?_, by rwa [List.append_assoc] at hm'⟩
  rw [hrun, if_neg (by decide), bind_ok (onText_ok (next_cons _ _) h₂), if_neg (by simp),
    bind_ok (onText_ok (skipSpace_text hs' hc.not_space _) h₂)]
  exact hloop

/-- A member and the space behind it. -/
theorem parse_member {key k space₁ space₂ space₃ : Str} (hk : Chars key k) (hs₁ : Space space₁) (hs₂ : Space space₂)
    (hd : Derives (jsonValues lib) (.value v) text) (ih : ParsesValue lib out v text) (hs₃ : Space space₃)
    (hc : ¬ IsSpace c) (hdelim : Delimited (c :: rest)) (hh : h.Fresh)
    (hm : Makes out (build (.object members)) h ret h₁)
    (hfuel : 4 * (quote :: (key ++ quote :: (space₁ ++ colon :: (space₂ ++ text ++ space₃ ++ c :: rest)))).length ≤ fuel) :
    ∃ h', Makes out (build (.object (members ++ [(k, v)]))) h ret h' ∧
      parseMembers lib out (fuel + 1) ret
        ⟨quote :: (key ++ quote :: (space₁ ++ colon :: (space₂ ++ text ++ space₃ ++ c :: rest))), h₁⟩ = (do
        if c = closeBrace then
          onText step
          return some ret
        else if (← onText next) ≠ comma then failure ret
        else
          onText skipSpace
          parseMembers lib out fuel ret) ⟨c :: rest, h'⟩ := by
  obtain ⟨d, rest', hspace, hd'⟩ := space_cons hs₃ hdelim
  obtain ⟨first, text', rfl, hfirst⟩ := hd.starts
  have hstring := parseString_text out hk (space₁ ++ colon :: (space₂ ++ first :: text' ++ space₃ ++ c :: rest))
  have hsplit : space₂ ++ first :: text' ++ space₃ ++ c :: rest = space₂ ++ first :: (text' ++ (space₃ ++ c :: rest)) := by
    simp
  rw [hsplit] at hstring hfuel ⊢
  rw [hspace] at hstring hfuel ⊢
  have hfuel' : 4 * (first :: text' ++ d :: rest').length ≤ fuel := by
    simp only [List.length_append, List.length_cons] at hfuel ⊢
    omega
  obtain ⟨r, h₂, hrun, hm₂⟩ := ih (hm.fresh hh) hd' hfuel'
  rw [← hspace] at hrun
  obtain ⟨h', hadd, hm'⟩ := hm.member hm₂ hh k (c :: rest)
  refine ⟨h', hm', parseMembers_value hstring hs₁ hs₂ hfirst.not_space ?_ hs₃ hc hadd⟩
  rw [← hrun, hspace]
  rfl

theorem parses_lastMember {key k space₁ space₂ space₃ : Str} (hk : Chars key k) (hs₁ : Space space₁) (hs₂ : Space space₂)
    (hd : Derives (jsonValues lib) (.value v) text) (ih : ParsesValue lib out v text) (hs₃ : Space space₃) :
    ParsesMembers lib out [(k, v)] (quote :: (key ++ quote :: (space₁ ++ colon :: (space₂ ++ text ++ space₃)))) := by
  intro fuel rest h h₁ ret done hh hm hfuel
  obtain ⟨fuel, rfl, hle⟩ := exists_succ hfuel
  have hfirst : quote :: (key ++ quote :: (space₁ ++ colon :: (space₂ ++ text ++ space₃))) ++ closeBrace :: rest =
      quote :: (key ++ quote :: (space₁ ++ colon :: (space₂ ++ text ++ space₃ ++ closeBrace :: rest))) := by simp
  rw [hfirst] at hle ⊢
  obtain ⟨h', hm', hrun⟩ := parse_member hk hs₁ hs₂ hd ih hs₃ (by decide) (delimited_cons.2 (by simp)) hh hm hle
  refine ⟨h', ?_, hm'⟩
  rw [hrun, if_pos rfl, bind_ok (onText_ok (step_cons _ _) h')]
  rfl

theorem parses_member {key k space₁ space₂ space₃ space₄ more : Str} (hk : Chars key k) (hs₁ : Space space₁)
    (hs₂ : Space space₂) (hd : Derives (jsonValues lib) (.value v) text) (ih : ParsesValue lib out v text)
    (hs₃ : Space space₃) (hs₄ : Space space₄) (hr : Derives (jsonValues lib) (.members ms) more)
    (ihr : ParsesMembers lib out ms more) : ParsesMembers lib out ((k, v) :: ms)
      (quote :: (key ++ quote :: (space₁ ++ colon :: (space₂ ++ text ++ space₃ ++ comma :: (space₄ ++ more))))) := by
  intro fuel rest h h₁ ret done hh hm hfuel
  obtain ⟨fuel, rfl, hle⟩ := exists_succ hfuel
  obtain ⟨c, more', rfl, hc⟩ := hr.starts
  have hfirst : quote :: (key ++ quote :: (space₁ ++ colon :: (space₂ ++ text ++ space₃ ++ comma :: (space₄ ++ c :: more')))) ++
        closeBrace :: rest =
      quote :: (key ++ quote :: (space₁ ++ colon :: (space₂ ++ text ++ space₃ ++
        comma :: (space₄ ++ c :: (more' ++ closeBrace :: rest))))) := by simp
  rw [hfirst] at hle ⊢
  obtain ⟨h₂, hm₂, hrun⟩ := parse_member hk hs₁ hs₂ hd ih hs₃ (by decide) (delimited_cons.2 (by simp)) hh hm hle
  have hfuel' : 4 * (c :: more' ++ closeBrace :: rest).length < fuel := by
    simp only [List.length_append, List.length_cons] at hle ⊢
    omega
  obtain ⟨h', hloop, hm'⟩ := ihr hh hm₂ hfuel'
  refine ⟨h', ?_, by rwa [List.append_assoc] at hm'⟩
  rw [hrun, if_neg (by decide), bind_ok (onText_ok (next_cons _ _) h₂), if_neg (by simp),
    bind_ok (onText_ok (skipSpace_text hs₄ hc.not_space _) h₂)]
  exact hloop

theorem parses_bool (b : Bool) : ParsesValue lib out (.bool b) (boolText b) := by
  intro fuel d rest h hh hrest hfuel
  obtain ⟨fuel, rfl, -⟩ := exists_succ (k := 0) (n := fuel) (by simp at hfuel; omega)
  obtain ⟨r, h', hlit, hm⟩ :=
    parseLiteral_text out (boolText b) (v := .bool b) (fun _ => rfl) (d :: rest) h
  refine ⟨r, h', ?_, hm⟩
  cases b with
  | false =>
    have hrun := parseValue_look lib out fuel 102 ([97, 108, 115, 101] ++ d :: rest) h
    rw [if_neg (by decide), if_pos rfl] at hrun
    exact hrun.trans hlit
  | true =>
    have hrun := parseValue_look lib out fuel 116 ([114, 117, 101] ++ d :: rest) h
    rw [if_neg (by decide), if_neg (by decide), if_pos rfl] at hrun
    exact hrun.trans hlit

theorem parses {item : Item Json} (h : Derives (jsonValues lib) item text) : ParsesItem lib out item text := by
  induction h with
  | null => exact parses_null
  | bool b => exact parses_bool b
  | string hc => exact parses_string hc
  | number hn => exact parses_number hn
  | emptyArray hs => exact parses_emptyArray hs
  | array hs hd ih => exact parses_array hs hd ih
  | emptyObject hs => exact parses_emptyObject hs
  | object hs hd ih => exact parses_object hs hd ih
  | lastElement hd hs ih => exact parses_lastElement ih hs
  | element hd hs hs' hr ih ihr => exact parses_element ih hs hs' hr ihr
  | lastMember hk hs₁ hs₂ hd hs₃ ih => exact parses_lastMember hk hs₁ hs₂ hd ih hs₃
  | member hk hs₁ hs₂ hd hs₃ hs₄ hr ih ihr => exact parses_member hk hs₁ hs₂ hd ih hs₃ hs₄ hr ihr

/-! ## Every string -/

/-- What `x` answers on a string: it accepts as `P` has it, or it rejects with the nodes as they were in `h₀`. -/
def Answers (out : Bool) (x : Scan (Option (Option Ptr))) (t : Scanner) (h₀ : Heap)
    (P : Option Ptr → Str → Heap → Prop) : Prop :=
  (∃ r rest h', x t = .ok (some r) ⟨rest, h'⟩ ∧ P r rest h') ∨ ∃ s' h', x t = .ok none ⟨s', h'⟩ ∧ Restored out h₀ h'

/-- The text of a value is read, if what follows does not lengthen a number. -/
def ReadsValue (lib : NumberLib) (out : Bool) (s : Str) (h : Heap) (r : Option Ptr) (rest : Str) (h' : Heap) : Prop :=
  ∃ text v, s = text ++ rest ∧ text ≠ [] ∧ 0 ∈ rest ∧ Makes out (build v) h r h' ∧
    (Delimited rest → Derives (jsonValues lib) (.value v) text)

def ReadsElements (lib : NumberLib) (out : Bool) (s : Str) (h : Heap) (done : List Json) (ret r : Option Ptr) (rest : Str)
    (h' : Heap) : Prop :=
  ∃ text vs, s = text ++ closeBracket :: rest ∧ 0 ∈ rest ∧ r = ret ∧ Makes out (build (.array (done ++ vs))) h ret h' ∧
    Derives (jsonValues lib) (.elements vs) text

def ReadsMembers (lib : NumberLib) (out : Bool) (s : Str) (h : Heap) (done : List (Str × Json)) (ret r : Option Ptr)
    (rest : Str) (h' : Heap) : Prop :=
  ∃ text ms, s = text ++ closeBrace :: rest ∧ 0 ∈ rest ∧ r = ret ∧ Makes out (build (.object (done ++ ms))) h ret h' ∧
    Derives (jsonValues lib) (.members ms) text

/-- The three at one fuel. -/
structure AnswersAll (lib : NumberLib) (out : Bool) (fuel : Nat) : Prop where
  value : ∀ s h, 0 ∈ s → h.Fresh → 4 * s.length ≤ fuel →
    Answers out (parseValue lib out fuel) ⟨s, h⟩ h (ReadsValue lib out s h)
  elements : ∀ s h h₁ ret done, 0 ∈ s → h.Fresh → Makes out (build (.array done)) h ret h₁ → 4 * s.length < fuel →
    Answers out (parseElements lib out fuel ret) ⟨s, h₁⟩ h (ReadsElements lib out s h done ret)
  members : ∀ s h h₁ ret done, 0 ∈ s → h.Fresh → Makes out (build (.object done)) h ret h₁ → 4 * s.length < fuel →
    Answers out (parseMembers lib out fuel ret) ⟨s, h₁⟩ h (ReadsMembers lib out s h done ret)

theorem parseLiteral_run {literal : Str} {contents : JsonContents} (h0 : 0 ∈ s) (hne : literal ≠ [])
    (hv : ∀ h, build v h = mknode contents h) (hd : Derives (jsonValues lib) (.value v) literal) (h : Heap) :
    Answers out (parseLiteral out literal contents) ⟨s, h⟩ h (ReadsValue lib out s h) := by
  rcases expectLiteral_run hd.printed.noNul h0 with ⟨text, rest, hrun, rfl, hrest, rfl⟩ | ⟨s', hfail⟩
  · obtain ⟨r, h', hrun', hm⟩ := parseLiteral_text out text hv rest h
    exact .inl ⟨r, rest, h', hrun', _, v, rfl, hne, hrest, hm, fun _ => hd⟩
  · refine .inr ⟨s', h, ?_, .refl out h⟩
    rw [parseLiteral, bind_ok (onText_ok hfail h)]
    rfl

theorem parseStringValue_run (h0 : 0 ∈ s) (h : Heap) :
    Answers out (parseStringValue out) ⟨s, h⟩ h (ReadsValue lib out s h) := by
  rw [Answers, parseStringValue]
  rcases parseString_run out h0 with ⟨str, text, rest, hrun, rfl, hrest, chars, bytes, rfl, hc, rfl⟩ | ⟨s', hfail⟩
  · obtain ⟨r, h', hout, hm⟩ := mkOut_run (v := .string bytes) (fun _ => rfl) out rest h
    refine .inl ⟨r, rest, h', ?_, _, .string bytes, rfl, by simp, hrest, hm, fun _ => .string hc⟩
    rw [bind_ok (onText_ok hrun h)]
    dsimp only
    rw [map_written, bind_ok hout]
    rfl
  · refine .inr ⟨s', h, ?_, .refl out h⟩
    rw [bind_ok (onText_ok hfail h)]
    rfl

theorem parseNumberValue_run (h0 : 0 ∈ s) (h : Heap) :
    Answers out (parseNumberValue lib out) ⟨s, h⟩ h (ReadsValue lib out s h) := by
  rw [Answers, parseNumberValue]
  rcases parseNumber_run lib out h0 with ⟨num, text, rest, hrun, rfl, hrest, hn, rfl⟩ | ⟨s', hfail⟩
  · obtain ⟨r, h', hout, hm⟩ := mkOut_run (v := .number (lib.strtod (text ++ rest))) (fun _ => rfl) out rest h
    obtain ⟨c, text', rfl, -⟩ := hn.starts
    refine .inl ⟨r, rest, h', ?_, _, _, rfl, by simp, hrest, hm, fun hdelim => ?_⟩
    · rw [bind_ok (onText_ok hrun h)]
      dsimp only
      rw [map_written, bind_ok hout]
      rfl
    · rw [lib.strtod_token _ _ hn hdelim]
      exact .number hn
  · refine .inr ⟨s', h, ?_, .refl out h⟩
    rw [bind_ok (onText_ok hfail h)]
    rfl

theorem parseArray_run (ih : ∀ n < fuel, AnswersAll lib out n) (h0 : 0 ∈ s) (hh : h.Fresh) (hfuel : 4 * s.length + 1 < fuel) :
    Answers out (parseArray lib out fuel) ⟨openBracket :: s, h⟩ h (ReadsValue lib out (openBracket :: s) h) := by
  obtain ⟨fuel, rfl, hle⟩ := exists_succ hfuel
  obtain ⟨space, c, rest, rfl, hs, hc, h0', -⟩ := skipSpace_run h0
  obtain ⟨ret, h₁, hrun, hm⟩ := parseArray_open lib out fuel hs hc rest h
  rw [Answers, hrun]
  by_cases hclose : c = closeBracket
  · subst hclose
    rw [if_pos rfl, bind_ok (onText_ok (step_cons _ _) h₁)]
    refine .inl ⟨ret, rest, h₁, rfl, openBracket :: (space ++ [closeBracket]), .array [], by simp, by simp, ?_, hm,
      fun _ => .emptyArray hs⟩
    exact (List.mem_cons.1 h0').resolve_left (by decide)
  · rw [if_neg hclose]
    rcases (ih fuel (Nat.lt_succ_self fuel)).elements (c :: rest) h h₁ ret [] h0' hh hm
      (by simp only [List.length_append, List.length_cons] at hle ⊢; omega) with
      ⟨r, rest', h', hloop, text, vs, htext, hrest', rfl, hm', hd⟩ | hfail
    · refine .inl ⟨r, rest', h', hloop, openBracket :: (space ++ text ++ [closeBracket]), .array vs, ?_, by simp, hrest', hm',
        fun _ => .array hs hd⟩
      rw [htext]
      simp
    · exact .inr hfail

theorem parseObject_run (ih : ∀ n < fuel, AnswersAll lib out n) (h0 : 0 ∈ s) (hh : h.Fresh) (hfuel : 4 * s.length + 1 < fuel) :
    Answers out (parseObject lib out fuel) ⟨openBrace :: s, h⟩ h (ReadsValue lib out (openBrace :: s) h) := by
  obtain ⟨fuel, rfl, hle⟩ := exists_succ hfuel
  obtain ⟨space, c, rest, rfl, hs, hc, h0', -⟩ := skipSpace_run h0
  obtain ⟨ret, h₁, hrun, hm⟩ := parseObject_open lib out fuel hs hc rest h
  rw [Answers, hrun]
  by_cases hclose : c = closeBrace
  · subst hclose
    rw [if_pos rfl, bind_ok (onText_ok (step_cons _ _) h₁)]
    refine .inl ⟨ret, rest, h₁, rfl, openBrace :: (space ++ [closeBrace]), .object [], by simp, by simp, ?_, hm,
      fun _ => .emptyObject hs⟩
    exact (List.mem_cons.1 h0').resolve_left (by decide)
  · rw [if_neg hclose]
    rcases (ih fuel (Nat.lt_succ_self fuel)).members (c :: rest) h h₁ ret [] h0' hh hm
      (by simp only [List.length_append, List.length_cons] at hle ⊢; omega) with
      ⟨r, rest', h', hloop, text, ms, htext, hrest', rfl, hm', hd⟩ | hfail
    · refine .inl ⟨r, rest', h', hloop, openBrace :: (space ++ text ++ [closeBrace]), .object ms, ?_, by simp, hrest', hm',
        fun _ => .object hs hd⟩
      rw [htext]
      simp
    · exact .inr hfail

theorem parseValue_run (ih : ∀ n < fuel, AnswersAll lib out n) (h0 : 0 ∈ s) (hh : h.Fresh) (hfuel : 4 * s.length ≤ fuel) :
    Answers out (parseValue lib out fuel) ⟨s, h⟩ h (ReadsValue lib out s h) := by
  obtain ⟨c, s, rfl, hc⟩ := exists_cons h0
  rw [List.length_cons] at hfuel
  obtain ⟨fuel, rfl, hle⟩ := exists_succ (k := 4 * s.length + 3) (n := fuel) (by omega)
  have hih : ∀ n < fuel, AnswersAll lib out n := fun n hn => ih n (Nat.lt_succ_of_lt hn)
  rw [Answers, parseValue_look]
  by_cases h110 : c = 110
  · rw [if_pos h110]
    exact parseLiteral_run h0 (by decide) (fun _ => rfl) .null h
  rw [if_neg h110]
  by_cases h102 : c = 102
  · rw [if_pos h102]
    exact parseLiteral_run h0 (by decide) (fun _ => rfl) (.bool false) h
  rw [if_neg h102]
  by_cases h116 : c = 116
  · rw [if_pos h116]
    exact parseLiteral_run h0 (by decide) (fun _ => rfl) (.bool true) h
  rw [if_neg h116]
  by_cases hquote : c = quote
  · rw [if_pos hquote]
    exact parseStringValue_run h0 h
  rw [if_neg hquote]
  by_cases hbracket : c = openBracket
  · subst hbracket
    rw [if_pos rfl]
    exact parseArray_run hih (hc.resolve_left (by decide)) hh (by omega)
  rw [if_neg hbracket]
  by_cases hbrace : c = openBrace
  · subst hbrace
    rw [if_pos rfl]
    exact parseObject_run hih (hc.resolve_left (by decide)) hh (by omega)
  rw [if_neg hbrace]
  exact parseNumberValue_run h0 h

theorem parseElements_run (ih : ∀ n < fuel, AnswersAll lib out n) (h0 : 0 ∈ s) (hh : h.Fresh)
    (hm : Makes out (build (.array done)) h ret h₁) (hfuel : 4 * s.length < fuel) :
    Answers out (parseElements lib out fuel ret) ⟨s, h₁⟩ h (ReadsElements lib out s h done ret) := by
  obtain ⟨fuel, rfl, hle⟩ := exists_succ hfuel
  have hnow := ih fuel (Nat.lt_succ_self fuel)
  rcases hnow.value s h₁ h0 (hm.fresh hh) hle with
    ⟨r, rest, h₂, hrun, text, v, rfl, hne, hrest, hm₂, hd⟩ | ⟨s', h', hfail, hr⟩
  · obtain ⟨space, c, rest, rfl, hs, hc, h0', -⟩ := skipSpace_run hrest
    obtain ⟨h₃, hadd, hm₃⟩ := hm.element hm₂ hh (c :: rest)
    rw [Answers, parseElements_value hrun hs hc hadd]
    by_cases hclose : c = closeBracket
    · subst hclose
      rw [if_pos rfl, bind_ok (onText_ok (step_cons _ _) h₃)]
      refine .inl ⟨ret, rest, h₃, rfl, text ++ space, [v], by simp, ?_, rfl, hm₃, ?_⟩
      · exact (List.mem_cons.1 h0').resolve_left (by decide)
      · exact .lastElement (hd (Delimited.space hs (delimited_cons.2 (by simp)))) hs
    rw [if_neg hclose, bind_ok (onText_ok (next_cons _ _) h₃)]
    by_cases hcomma : c = comma
    · subst hcomma
      have hrest' : 0 ∈ rest := (List.mem_cons.1 h0').resolve_left (by decide)
      obtain ⟨space', d, rest', rfl, hs', hd', h0'', hskip⟩ := skipSpace_run hrest'
      rw [if_neg (by simp), bind_ok (onText_ok hskip h₃)]
      rcases hnow.elements (d :: rest') h h₃ ret (done ++ [v]) h0'' hh hm₃
        (by simp only [List.length_append, List.length_cons] at hle ⊢; omega) with
        ⟨r', rest'', h', hloop, more, vs, hmore, hrest'', rfl, hm', hds⟩ | hfail
      · refine .inl ⟨r', rest'', h', hloop, text ++ space ++ comma :: (space' ++ more), v :: vs, ?_, hrest'', rfl, ?_, ?_⟩
        · rw [hmore]
          simp
        · rwa [List.append_assoc] at hm'
        · exact .element (hd (Delimited.space hs (delimited_cons.2 (by simp)))) hs hs' hds
      · exact .inr hfail
    · obtain ⟨h', hfail, hr⟩ := failure_run hm₃ hh (.refl out h₃) rest
      rw [if_pos hcomma]
      exact .inr ⟨rest, h', hfail, hr⟩
  · obtain ⟨h'', hfail', hr'⟩ := failure_run hm hh hr s'
    refine .inr ⟨s', h'', ?_, hr'⟩
    rw [parseElements, bind_ok hfail]
    exact hfail'

theorem parseMembers_run (ih : ∀ n < fuel, AnswersAll lib out n) (h0 : 0 ∈ s) (hh : h.Fresh)
    (hm : Makes out (build (.object members)) h ret h₁) (hfuel : 4 * s.length < fuel) :
    Answers out (parseMembers lib out fuel ret) ⟨s, h₁⟩ h (ReadsMembers lib out s h members ret) := by
  obtain ⟨fuel, rfl, hle⟩ := exists_succ hfuel
  have hnow := ih fuel (Nat.lt_succ_self fuel)
  have hgive (s' : Str) : ∃ h', failure ret ⟨s', h₁⟩ = .ok none ⟨s', h'⟩ ∧ Restored out h h' := failure_run hm hh (.refl out h₁) s'
  rcases parseString_run out h0 with ⟨str, text, s₁, hkey, rfl, h0₁, key, k, rfl, hk, rfl⟩ | ⟨s', hfail⟩
  · obtain ⟨space₁, b, s₂, rfl, hs₁, hb, h0₂, hskip₁⟩ := skipSpace_run h0₁
    by_cases hcolon : b = colon
    · subst hcolon
      obtain ⟨space₂, c, s₃, rfl, hs₂, hc, h0₃, hskip₂⟩ :=
        skipSpace_run ((List.mem_cons.1 h0₂).resolve_left (by decide))
      rcases hnow.value (c :: s₃) h₁ h0₃ (hm.fresh hh)
        (by simp only [List.length_append, List.length_cons] at hle ⊢; omega) with
        ⟨r, rest, h₂, hrun, text, v, htext, hne, hrest, hm₂, hd⟩ | ⟨s', h', hfail, hr⟩
      · obtain ⟨space₃, d, rest, rfl, hs₃, hd', h0₄, -⟩ := skipSpace_run hrest
        obtain ⟨h₃, hadd, hm₃⟩ := hm.member hm₂ hh k (d :: rest)
        rw [Answers, parseMembers_value hkey hs₁ hs₂ hc hrun hs₃ hd' hadd]
        by_cases hclose : d = closeBrace
        · subst hclose
          rw [if_pos rfl, bind_ok (onText_ok (step_cons _ _) h₃)]
          refine .inl ⟨ret, rest, h₃, rfl, quote :: (key ++ quote :: (space₁ ++ colon :: (space₂ ++ text ++ space₃))),
            [(k, v)], ?_, ?_, rfl, hm₃, ?_⟩
          · rw [htext]
            simp
          · exact (List.mem_cons.1 h0₄).resolve_left (by decide)
          · exact .lastMember hk hs₁ hs₂ (hd (Delimited.space hs₃ (delimited_cons.2 (by simp)))) hs₃
        rw [if_neg hclose, bind_ok (onText_ok (next_cons _ _) h₃)]
        by_cases hcomma : d = comma
        · subst hcomma
          obtain ⟨space₄, e, rest', rfl, hs₄, he, h0₅, hskip₄⟩ :=
            skipSpace_run ((List.mem_cons.1 h0₄).resolve_left (by decide))
          have hlen := congrArg List.length htext
          rw [if_neg (by simp), bind_ok (onText_ok hskip₄ h₃)]
          rcases hnow.members (e :: rest') h h₃ ret (members ++ [(k, v)]) h0₅ hh hm₃
            (by simp only [List.length_append, List.length_cons] at hle hlen ⊢; omega) with
            ⟨r', rest'', h', hloop, more, ms, hmore, hrest'', rfl, hm', hds⟩ | hfail
          · refine .inl ⟨r', rest'', h', hloop,
              quote :: (key ++ quote :: (space₁ ++ colon :: (space₂ ++ text ++ space₃ ++ comma :: (space₄ ++ more)))),
              (k, v) :: ms, ?_, hrest'', rfl, ?_, ?_⟩
            · rw [htext, hmore]
              simp
            · rwa [List.append_assoc] at hm'
            · exact .member hk hs₁ hs₂ (hd (Delimited.space hs₃ (delimited_cons.2 (by simp)))) hs₃ hs₄ hds
          · exact .inr hfail
        · obtain ⟨h', hfail, hr⟩ := failure_run hm₃ hh (.refl out h₃) rest
          rw [if_pos hcomma]
          exact .inr ⟨rest, h', hfail, hr⟩
      · obtain ⟨h'', hfail', hr'⟩ := failure_run hm hh hr s'
        refine .inr ⟨s', h'', ?_, hr'⟩
        rw [parseMembers, bind_ok (onText_ok hkey h₁)]
        dsimp only
        rw [bind_ok (onText_ok hskip₁ h₁), bind_ok (onText_ok (next_cons _ _) h₁), if_neg (by simp),
          bind_ok (onText_ok hskip₂ h₁), bind_ok hfail]
        exact hfail'
    · obtain ⟨h', hfail, hr⟩ := hgive s₂
      refine .inr ⟨s₂, h', ?_, hr⟩
      rw [parseMembers, bind_ok (onText_ok hkey h₁)]
      dsimp only
      rw [bind_ok (onText_ok hskip₁ h₁), bind_ok (onText_ok (next_cons _ _) h₁), if_pos hcolon]
      exact hfail
  · obtain ⟨h', hfail', hr⟩ := hgive s'
    refine .inr ⟨s', h', ?_, hr⟩
    rw [parseMembers, bind_ok (onText_ok hfail h₁)]
    exact hfail'

theorem answersAll (lib : NumberLib) (out : Bool) (fuel : Nat) : AnswersAll lib out fuel := by
  induction fuel using Nat.strongRecOn with
  | ind fuel ih =>
    exact ⟨fun s h h0 hh hf => parseValue_run ih h0 hh hf,
      fun s h h₁ ret done h0 hh hm hf => parseElements_run ih h0 hh hm hf,
      fun s h h₁ ret done h0 hh hm hf => parseMembers_run ih h0 hh hm hf⟩

/-! ## `json_decode` and `json_validate` -/

/-- A string in memory, and what lies behind its NUL. -/
structure CString where
  bytes : Str
  behind : Str
  noNul : 0 ∉ bytes

def CString.memory (json : CString) : Str := json.bytes ++ 0 :: json.behind

/-- What the parser reads of a JSON text. -/
theorem scan_text {json : CString} (hv : Text (jsonValues lib) v json.bytes) (hh : h.Fresh) (out : Bool) :
    ∃ s r h' s', skipSpace json.memory = .ok () s ∧
      parseValue lib out (parseFuel json.memory) ⟨s, h⟩ = .ok (some r) ⟨s', h'⟩ ∧
      skipSpace s' = .ok () (0 :: json.behind) ∧ Makes out (build v) h r h' := by
  obtain ⟨bytes, behind, h0⟩ := json
  obtain ⟨space, text, space', rfl, hs, hd, hs'⟩ := hv.parts
  obtain ⟨c, text', rfl, hc⟩ := hd.starts
  obtain ⟨d, rest, hrest, hdelim⟩ := space_cons hs' (delimited_cons.2 (.inl rfl) : Delimited (0 :: behind))
  have hmem : CString.memory ⟨space ++ c :: text' ++ space', behind, h0⟩ =
      space ++ c :: (text' ++ (space' ++ 0 :: behind)) := by simp [CString.memory]
  rw [hmem]
  have hfuel : 4 * (c :: text' ++ d :: rest).length ≤ parseFuel (space ++ c :: (text' ++ (space' ++ 0 :: behind))) := by
    rw [← hrest, parseFuel]
    simp only [List.length_append, List.length_cons]
    omega
  have hparses : ParsesValue lib out v (c :: text') := parses hd
  obtain ⟨r, h', hrun, hm⟩ := hparses hh hdelim hfuel
  rw [← hrest, List.cons_append] at hrun
  exact ⟨_, r, h', _, skipSpace_text hs hc.not_space _, hrun, skipSpace_text hs' (by decide) behind, hm⟩

/-- What the parser reads of a string. -/
theorem scan_run (lib : NumberLib) (json : CString) (hh : h.Fresh) (out : Bool) : ∃ s, skipSpace json.memory = .ok () s ∧
    Answers out (parseValue lib out (parseFuel json.memory)) ⟨s, h⟩ h fun r s' h' => ∃ v d rest,
      skipSpace s' = .ok () (d :: rest) ∧ Makes out (build v) h r h' ∧ (d = 0 → Text (jsonValues lib) v json.bytes) := by
  obtain ⟨bytes, behind, h0⟩ := json
  obtain ⟨space, c, s, hmem, hs, hc, hc0, hskip⟩ := skipSpace_run (s := bytes ++ 0 :: behind) (by simp)
  refine ⟨c :: s, hskip, ?_⟩
  rcases (answersAll lib out (parseFuel (bytes ++ 0 :: behind))).value (c :: s) h hc0 hh
    (by rw [parseFuel, hmem]; simp only [List.length_append]; omega) with
    ⟨r, rest, h', hrun, text, v, htext, hne, hrest, hm, hd⟩ | hfail
  · obtain ⟨space', d, rest, rfl, hs', hd', -, hskip'⟩ := skipSpace_run hrest
    refine .inl ⟨r, _, h', hrun, v, d, rest, hskip', hm, ?_⟩
    rintro rfl
    have hderives := hd (Delimited.space hs' (delimited_cons.2 (.inl rfl)))
    have hbytes : bytes = space ++ text ++ space' := by
      refine before_first_nul (b := behind) (d := rest) ?_ h0 ?_
      · rw [hmem, htext]
        simp
      · simp only [List.mem_append, not_or]
        exact ⟨⟨hs.printed.noNul, hderives.printed.noNul⟩, hs'.printed.noNul⟩
    exact hbytes ▸ .mk hs hderives hs'
  · exact .inr hfail

theorem jsonDecode_text (json : CString) (hv : Text (jsonValues lib) v json.bytes) (hh : h.Fresh) :
    ∃ p h', jsonDecode lib ⟨json.memory, h⟩ = .ok (some p) ⟨0 :: json.behind, h'⟩ ∧ build v h = .ok p h' := by
  obtain ⟨s, r, h', s', hskip, hrun, hskip', p, rfl, hbuild⟩ := scan_text hv hh true
  refine ⟨p, h', ?_, hbuild⟩
  rw [jsonDecode, bind_get]
  dsimp only
  rw [bind_ok (onText_ok hskip h), bind_ok hrun]
  dsimp only
  rw [bind_ok (onText_ok hskip' h'), bind_ok (onText_ok (look_cons 0 _) h'), if_neg (by simp)]
  rfl

/-- `json_decode` answers every string, with the tree of a JSON text or with null and no node more. -/
theorem jsonDecode_run (lib : NumberLib) (json : CString) (hh : h.Fresh) :
    (∃ v p t, jsonDecode lib ⟨json.memory, h⟩ = .ok (some p) t ∧ Text (jsonValues lib) v json.bytes ∧
      build v h = .ok p t.heap) ∨
    ∃ t, jsonDecode lib ⟨json.memory, h⟩ = .ok none t ∧ Restored true h t.heap := by
  obtain ⟨s, hskip, hanswer⟩ := scan_run lib json hh true
  rw [jsonDecode, bind_get]
  dsimp only
  rw [bind_ok (onText_ok hskip h)]
  rcases hanswer with ⟨r, s', h', hrun, v, d, rest, hskip', hm, hv⟩ | ⟨s', h', hfail, hr⟩
  · rw [bind_ok hrun]
    dsimp only
    rw [bind_ok (onText_ok hskip' h'), bind_ok (onText_ok (look_cons d rest) h')]
    by_cases hz : d = 0
    · obtain ⟨p, rfl, hbuild⟩ := hm
      rw [if_neg (not_not.2 hz)]
      exact .inl ⟨v, p, _, rfl, hv hz, hbuild⟩
    · obtain ⟨h'', hdelete, hr⟩ := hm.delete hh (.refl true h')
      rw [if_pos hz, bind_ok (onNodes_ok hdelete _)]
      exact .inr ⟨_, rfl, hr⟩
  · rw [bind_ok hfail]
    exact .inr ⟨_, rfl, hr⟩

/-- The value that is read from the tree that was built. -/
theorem readValue_build {p : Ptr} (hrun : build v h = .ok p h') (hh : h.Fresh) : readValue h'.next p h' = .ok v h' := by
  obtain ⟨q, cells, h₁, hrun', hf, hb⟩ := build_run v h hh
  obtain ⟨rfl, rfl⟩ := EStateM.Result.ok.inj (hrun.symm.trans hrun')
  cases readValue_forest hf h'.next (Forest.length_le hf (Forest.lt_next hf hb.fresh)) with
  | cons hread _ => exact hread.1

/-- What was built has one value. -/
theorem build_injective {v' : Json} {p : Ptr} (hv : build v h = .ok p h') (hv' : build v' h = .ok p h') (hh : h.Fresh) :
    v = v' := by
  have hread := readValue_build hv hh
  rw [readValue_build hv' hh] at hread
  exact (EStateM.Result.ok.inj hread).1.symm

/-- A text has one value. -/
theorem text_unique {v' : Json} {json : CString} (hv : Text (jsonValues lib) v json.bytes)
    (hv' : Text (jsonValues lib) v' json.bytes) : v = v' := by
  have hh : Heap.empty.Fresh := fun _ _ => rfl
  obtain ⟨p, h', hrun, hbuild⟩ := jsonDecode_text _ hv hh
  obtain ⟨p', h'', hrun', hbuild'⟩ := jsonDecode_text _ hv' hh
  obtain ⟨hp, ht⟩ := EStateM.Result.ok.inj (hrun.symm.trans hrun')
  obtain rfl := Option.some.inj hp
  obtain rfl := (Scanner.mk.inj ht).2
  exact build_injective hbuild hbuild' hh

theorem jsonDecode_iff (lib : NumberLib) (json : CString) (hh : h.Fresh) : Text (jsonValues lib) v json.bytes ↔
    ∃ p t, jsonDecode lib ⟨json.memory, h⟩ = .ok (some p) t ∧ build v h = .ok p t.heap := by
  constructor
  · intro hv
    obtain ⟨p, h', hrun, hbuild⟩ := jsonDecode_text _ hv hh
    exact ⟨p, _, hrun, hbuild⟩
  · rintro ⟨p, t, hrun, hbuild⟩
    rcases jsonDecode_run lib json hh with ⟨v', p', t', hrun', hv', hbuild'⟩ | ⟨t', hrun', -⟩
    · obtain ⟨hp, rfl⟩ := EStateM.Result.ok.inj (hrun.symm.trans hrun')
      obtain rfl := Option.some.inj hp
      rwa [build_injective hbuild hbuild' hh]
    · rw [hrun] at hrun'
      cases hrun'

/-- `json_validate` accepts the texts of the grammar, and touches no node. -/
theorem jsonValidate_run (lib : NumberLib) (json : CString) (hh : h.Fresh) : ∃ b s, jsonValidate lib ⟨json.memory, h⟩ =
    .ok b ⟨s, h⟩ ∧ (b = true ↔ ∃ v, Text (jsonValues lib) v json.bytes) := by
  obtain ⟨s, hskip, hanswer⟩ := scan_run lib json hh false
  rw [jsonValidate, bind_get]
  dsimp only
  rw [bind_ok (onText_ok hskip h)]
  rcases hanswer with ⟨r, s', h', hrun, v, d, rest, hskip', ⟨-, rfl⟩, hv⟩ | ⟨s', h', hfail, hr⟩
  · rw [bind_ok hrun]
    dsimp only
    rw [bind_ok (onText_ok hskip' h'), bind_ok (onText_ok (look_cons d rest) h')]
    by_cases hz : d = 0
    · rw [if_neg (not_not.2 hz)]
      exact ⟨true, _, rfl, by simpa using ⟨v, hv hz⟩⟩
    · rw [if_pos hz]
      refine ⟨false, _, rfl, by simp, fun ⟨v', hv'⟩ => ?_⟩
      obtain ⟨_, _, _, _, hskip₁, hrun₁, hskip₂, -⟩ := scan_text hv' hh false
      obtain ⟨-, rfl⟩ := EStateM.Result.ok.inj (hskip.symm.trans hskip₁)
      obtain ⟨-, ht⟩ := EStateM.Result.ok.inj (hrun.symm.trans hrun₁)
      obtain ⟨rfl, -⟩ := Scanner.mk.inj ht
      obtain ⟨-, hd⟩ := EStateM.Result.ok.inj (hskip'.symm.trans hskip₂)
      exact absurd (List.cons.inj hd).1 hz
  · obtain rfl := hr.same rfl
    rw [bind_ok hfail]
    refine ⟨false, _, rfl, by simp, fun ⟨v', hv'⟩ => ?_⟩
    obtain ⟨_, _, _, _, hskip₁, hrun₁, -, -⟩ := scan_text hv' hh false
    obtain ⟨-, rfl⟩ := EStateM.Result.ok.inj (hskip.symm.trans hskip₁)
    rw [hfail] at hrun₁
    cases (EStateM.Result.ok.inj hrun₁).1

/-- As in the C library for `1` and `1.0`. -/
def oneLib : NumberLib where
  strtod s := if s.head? = some 49 then 0x3FF0000000000000 else 0
  sprintf16g num := if num = 0x3FF0000000000000 then [49] else [48]
  strtod_token := by
    intro token rest hnumber _
    obtain ⟨b, rest', rfl, -⟩ := hnumber.starts
    rfl
  sprintf16g_noNul := by
    intro num
    split <;> decide
  sprintf16g_fits := by
    intro num
    split <;> decide

/-- `[1]` -/
def oneText : CString := ⟨[91, 49, 93], [], by decide⟩

/-- `json_decode` answers every string without leaving it: with the tree of a text, or with null for what is no
text, and then with the nodes as they were. -/
theorem jsonDecode_answers (lib : NumberLib) (json : CString) (hh : h.Fresh) :
    (∃ v p t, jsonDecode lib ⟨json.memory, h⟩ = .ok (some p) t ∧ Text (jsonValues lib) v json.bytes ∧
      build v h = .ok p t.heap) ∨
    ∃ t, jsonDecode lib ⟨json.memory, h⟩ = .ok none t ∧ t.heap.nodes = h.nodes ∧
      ∀ v, ¬ Text (jsonValues lib) v json.bytes := by
  rcases jsonDecode_run lib json hh with hsome | ⟨t, hrun, hr⟩
  · exact .inl hsome
  · refine .inr ⟨t, hrun, hr.nodes, fun v hv => ?_⟩
    obtain ⟨p, h', hrun', -⟩ := jsonDecode_text _ hv hh
    rw [hrun] at hrun'
    cases hrun'

theorem jsonDecode_answers_one :
    (∃ v p t, jsonDecode oneLib ⟨oneText.memory, .empty⟩ = .ok (some p) t ∧ Text (jsonValues oneLib) v oneText.bytes ∧
      build v .empty = .ok p t.heap) ∨
    ∃ t, jsonDecode oneLib ⟨oneText.memory, .empty⟩ = .ok none t ∧ t.heap.nodes = Heap.empty.nodes ∧
      ∀ v, ¬ Text (jsonValues oneLib) v oneText.bytes := jsonDecode_answers oneLib oneText fun _ _ => rfl

/-- `json_validate` accepts what `json_decode` does, without a node. -/
theorem jsonValidate_iff_decode (lib : NumberLib) (json : CString) (hh : h.Fresh) : ∃ b s,
    jsonValidate lib ⟨json.memory, h⟩ = .ok b ⟨s, h⟩ ∧
    (b = true ↔ ∃ p t, jsonDecode lib ⟨json.memory, h⟩ = .ok (some p) t) := by
  obtain ⟨b, s, hrun, hb⟩ := jsonValidate_run lib json hh
  refine ⟨b, s, hrun, hb.trans ⟨?_, ?_⟩⟩
  · rintro ⟨v, hv⟩
    obtain ⟨p, h', hdecode, -⟩ := jsonDecode_text _ hv hh
    exact ⟨p, _, hdecode⟩
  · rintro ⟨p, t, hdecode⟩
    rcases jsonDecode_run lib json hh with ⟨v, -, -, -, hv, -⟩ | ⟨t', hnone, -⟩
    · exact ⟨v, hv⟩
    · rw [hdecode] at hnone
      cases hnone

theorem jsonValidate_iff_decode_one : ∃ b s, jsonValidate oneLib ⟨oneText.memory, .empty⟩ = .ok b ⟨s, .empty⟩ ∧
    (b = true ↔ ∃ p t, jsonDecode oneLib ⟨oneText.memory, .empty⟩ = .ok (some p) t) :=
  jsonValidate_iff_decode oneLib oneText fun _ _ => rfl

end

end CodiusSandbox.JsonText
