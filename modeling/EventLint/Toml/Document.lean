import EventLint.Toml.Scalar
import EventLint.Toml.Value

/-!
# Documents of TOML

A document is a list of pairs, and of headers with the pairs under them.
-/

namespace EventLint.Toml

open Lexeme

/-- What is left of a list of lexemes after some of them were read. -/
abbrev Rest (ts : List Lexeme) := { rest : List Lexeme // rest.length < ts.length }

namespace Reader

def isBlank : Lexeme → Bool
  | blank _ => true
  | _ => false

/-- Blanks, and line breaks where they do not matter. -/
def isSpace : Lexeme → Bool
  | blank _ => true
  | newline => true
  | _ => false

def skipBlanks (ts : List Lexeme) : List Lexeme :=
  ts.dropWhile isBlank

def skipSpace (ts : List Lexeme) : List Lexeme :=
  ts.dropWhile isSpace

theorem length_skipBlanks_le (ts : List Lexeme) : (skipBlanks ts).length ≤ ts.length :=
  (List.dropWhile_sublist _).length_le

theorem length_skipSpace_le (ts : List Lexeme) : (skipSpace ts).length ≤ ts.length :=
  (List.dropWhile_sublist _).length_le

/-! ## Keys -/

def isKeyChar (c : Char) : Bool :=
  c.isAlphanum || c = '_' || c = '-'

def keyPart? : Lexeme → Option Text
  | quoted text => some text
  | bare text => if text.all isKeyChar then some text else none
  | _ => none

/-- A key, part by part. Blanks may stand around its dots. -/
def key? (ts : List Lexeme) : Option (List Text × List Lexeme) :=
  match ts with
  | [] => none
  | t :: rest =>
    match keyPart? t with
    | none => none
    | some part =>
      match _h : skipBlanks rest with
      | dot :: after =>
        (key? (skipBlanks after)).map fun (parts, left) => (part :: parts, left)
      | _ => some ([part], rest)
termination_by ts.length
decreasing_by
  have h₁ := length_skipBlanks_le rest
  have h₂ := length_skipBlanks_le after
  rw [_h, List.length_cons] at h₁
  rw [List.length_cons]
  omega

theorem length_lt_of_key? {ts rest : List Lexeme} {parts : List Text}
    (h : key? ts = some (parts, rest)) : rest.length < ts.length := by
  fun_induction key? ts generalizing parts rest with
  | case1 => cases h
  | case2 => cases h
  | case3 t ts' part hp after ha ih =>
    obtain ⟨⟨p, left⟩, hk, he⟩ := Option.map_eq_some_iff.1 h
    have hr : left = rest := congrArg Prod.snd he
    have h₀ := ih (hr ▸ hk)
    have h₁ := length_skipBlanks_le ts'
    have h₂ := length_skipBlanks_le after
    simp only [ha, List.length_cons] at h₁ ⊢
    omega
  | case4 => cases h; simp

/-! ## Values -/

/-- The bare text that lexemes side by side make up, and what follows. -/
def bareText : List Lexeme → Text × List Lexeme
  | bare text :: ts => let (more, rest) := bareText ts; (text ++ more, rest)
  | dot :: ts => let (more, rest) := bareText ts; ('.' :: more, rest)
  | ts => ([], ts)

/-- A bare value. A blank may stand between a date and a time. -/
def bareValue? (ts : List Lexeme) : Option (Value × List Lexeme) :=
  let (text, rest) := bareText ts
  let (whole, left) : Text × List Lexeme :=
    match rest with
    | blank [' '] :: bare time :: after =>
      if Scalar.isDate text ∧ (time.head?.any Scalar.isDecimal) then
        let (more, left) := bareText (bare time :: after)
        (text ++ ' ' :: more, left)
      else (text, rest)
    | _ => (text, rest)
  if whole = "true".toList then some (.boolean true, left)
  else if whole = "false".toList then some (.boolean false, left)
  else if Scalar.isInteger whole || Scalar.isFloat whole || Scalar.isMoment whole then
    some (.scalar, left)
  else none

mutual

def value? (ts : List Lexeme) : Option (Value × Rest ts) :=
  match ts with
  | [] => none
  | quoted text :: rest => some (.string text, ⟨rest, by simp⟩)
  | multiline text :: rest => some (.string text, ⟨rest, by simp⟩)
  | openBracket :: rest =>
    match items? rest with
    | none => none
    | some (items, ⟨after, h⟩) =>
      some (.array items, ⟨after, by simp only [List.length_cons]; omega⟩)
  | openBrace :: rest =>
    match pairs? rest with
    | none => none
    | some (pairs, ⟨after, h⟩) =>
      match Entries.assignAll [] pairs with
      | none => none
      | some entries =>
        some (.table .inline entries, ⟨after, by simp only [List.length_cons]; omega⟩)
  | t :: rest =>
    match bareValue? (t :: rest) with
    | none => none
    | some (value, after) =>
      if h : after.length < (t :: rest).length then some (value, ⟨after, h⟩) else none
termination_by (ts.length, 0)

/-- The items of an array after its opening bracket. Commas stand between them, and one may stand
after the last. -/
def items? (ts : List Lexeme) : Option (List Value × Rest ts) :=
  match hs : skipSpace ts with
  | [] => none
  | closeBracket :: rest =>
    some ([], ⟨rest, by
      have h₁ := length_skipSpace_le ts
      rw [hs, List.length_cons] at h₁
      omega⟩)
  | t :: rest =>
    match value? (t :: rest) with
    | none => none
    | some (value, ⟨after, h⟩) =>
      match ha : skipSpace after with
      | comma :: more =>
        match items? more with
        | none => none
        | some (values, ⟨left, hl⟩) =>
          some (value :: values, ⟨left, by
            have h₁ := length_skipSpace_le ts
            have h₂ := length_skipSpace_le after
            rw [hs] at h₁
            rw [ha, List.length_cons] at h₂
            omega⟩)
      | closeBracket :: left =>
        some ([value], ⟨left, by
          have h₁ := length_skipSpace_le ts
          have h₂ := length_skipSpace_le after
          rw [hs] at h₁
          rw [ha, List.length_cons] at h₂
          omega⟩)
      | _ => none
termination_by (ts.length, 1)
decreasing_by
  · have h₁ := length_skipSpace_le ts
    rw [hs] at h₁
    simp only [Prod.lex_def, List.length_cons] at h₁ ⊢
    omega
  · have h₁ := length_skipSpace_le ts
    have h₂ := length_skipSpace_le after
    rw [hs] at h₁
    rw [ha] at h₂
    simp only [Prod.lex_def, List.length_cons] at h h₁ h₂ ⊢
    omega

/-- The pairs of a table after its opening brace, with commas like the items of an array. -/
def pairs? (ts : List Lexeme) : Option (List (List Text × Value) × Rest ts) :=
  match hs : skipSpace ts with
  | [] => none
  | closeBrace :: rest =>
    some ([], ⟨rest, by
      have h₁ := length_skipSpace_le ts
      rw [hs, List.length_cons] at h₁
      omega⟩)
  | t :: rest =>
    match hk : key? (t :: rest) with
    | none => none
    | some (key, keyed) =>
      match he : skipBlanks keyed with
      | equals :: valued =>
        match value? (skipBlanks valued) with
        | none => none
        | some (value, ⟨after, h⟩) =>
          match ha : skipSpace after with
          | comma :: more =>
            match pairs? more with
            | none => none
            | some (pairs, ⟨left, hl⟩) =>
              some ((key, value) :: pairs, ⟨left, by
                have h₁ := length_skipSpace_le ts
                have h₂ := length_skipSpace_le after
                have h₃ := length_skipBlanks_le keyed
                have h₄ := length_skipBlanks_le valued
                have h₅ := length_lt_of_key? hk
                rw [hs] at h₁
                rw [ha, List.length_cons] at h₂
                rw [he, List.length_cons] at h₃
                omega⟩)
          | closeBrace :: left =>
            some ([(key, value)], ⟨left, by
              have h₁ := length_skipSpace_le ts
              have h₂ := length_skipSpace_le after
              have h₃ := length_skipBlanks_le keyed
              have h₄ := length_skipBlanks_le valued
              have h₅ := length_lt_of_key? hk
              rw [hs] at h₁
              rw [ha, List.length_cons] at h₂
              rw [he, List.length_cons] at h₃
              omega⟩)
          | _ => none
      | _ => none
termination_by (ts.length, 1)
decreasing_by
  · have h₁ := length_skipSpace_le ts
    have h₃ := length_skipBlanks_le keyed
    have h₄ := length_skipBlanks_le valued
    have h₅ := length_lt_of_key? hk
    rw [hs] at h₁
    rw [he] at h₃
    simp only [Prod.lex_def, List.length_cons] at h₁ h₃ h₅ ⊢
    omega
  · have h₁ := length_skipSpace_le ts
    have h₂ := length_skipSpace_le after
    have h₃ := length_skipBlanks_le keyed
    have h₄ := length_skipBlanks_le valued
    have h₅ := length_lt_of_key? hk
    rw [hs] at h₁
    rw [ha] at h₂
    rw [he] at h₃
    simp only [Prod.lex_def, List.length_cons] at h h₁ h₂ h₃ h₅ ⊢
    omega

end

/-! ## Lines -/

inductive Line where
  | pair (key : List Text) (value : Value)
  | header (isRow : Bool) (key : List Text)

def lineEnd? (ts : List Lexeme) : Option (List Lexeme) :=
  match skipBlanks ts with
  | [] => some []
  | newline :: rest => some rest
  | _ => none

def header? (isRow : Bool) (ts : List Lexeme) : Option (Line × List Lexeme) := do
  let (key, rest) ← key? (skipBlanks ts)
  match skipBlanks rest, isRow with
  | closeBracket :: closeBracket :: after, true => return (.header true key, ← lineEnd? after)
  | closeBracket :: after, false => return (.header false key, ← lineEnd? after)
  | _, _ => none

/-- The first line that holds something, and what follows it. -/
def line? (ts : List Lexeme) : Option (Line × List Lexeme) :=
  match ts with
  | openBracket :: openBracket :: rest => header? true rest
  | openBracket :: rest => header? false rest
  | _ => do
    let (key, rest) ← key? ts
    match skipBlanks rest with
    | equals :: valued =>
      let (value, ⟨after, _⟩) ← value? (skipBlanks valued)
      return (.pair key value, ← lineEnd? after)
    | _ => none

/-- All lines. Each takes at least one lexeme. -/
def lines? (ts : List Lexeme) : Option (List Line) :=
  if (skipSpace ts).isEmpty then some []
  else
    match line? (skipSpace ts) with
    | none => none
    | some (line, rest) =>
      if rest.length < ts.length then (lines? rest).map (line :: ·) else none
termination_by ts.length

end Reader

structure Section where
  isRow : Bool
  key : List Text
  pairs : List (List Text × Value) := []

/-- The pairs before the first header, and the sections. -/
def sections : List Reader.Line → List (List Text × Value) × List Section
  | [] => ([], [])
  | .pair key value :: lines =>
    let (pairs, rest) := sections lines
    ((key, value) :: pairs, rest)
  | .header isRow key :: lines =>
    let (pairs, rest) := sections lines
    ([], ⟨isRow, key, pairs⟩ :: rest)

def read? (text : Text) : Option Entries := do
  let lines ← Reader.lines? (← Lexeme.scan? text)
  let (pairs, rest) := sections lines
  rest.foldlM (fun entries s => entries.addSection s.isRow s.pairs s.key)
    (← Entries.assignAll [] pairs)

end EventLint.Toml
