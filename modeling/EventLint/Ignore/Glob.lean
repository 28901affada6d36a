import EventLint.Text.Basic

/-!
# Glob patterns

Patterns over the bytes of a path, in which a slash is matched by a slash or a double star only.
`?` matches one byte, `*` any number of them, `[...]` one of a class, `{a,b}` either of the two;
a double star between slashes matches folders.
-/

namespace EventLint.Glob

inductive Piece where
  | byte (byte : UInt8)
  | any
  | star
  /-- Folders that the path may start with. -/
  | leading
  /-- A slash and all that follows it. -/
  | below
  /-- A slash, and folders that may follow it. -/
  | between
  | oneOf (negated : Bool) (ranges : List (UInt8 × UInt8))
deriving DecidableEq, Repr

/-- A pattern without choices. -/
abbrev Plain := List Piece

def slash : UInt8 := 0x2F

/-- What is left after dropping some of the bytes with a property that the list starts with. -/
def suffixesWhile (p : UInt8 → Bool) : List UInt8 → List (List UInt8)
  | [] => [[]]
  | b :: bs => (b :: bs) :: if p b then suffixesWhile p bs else []

def afterSlashes : List UInt8 → List (List UInt8)
  | [] => []
  | b :: bs => if b = slash then bs :: afterSlashes bs else afterSlashes bs

def Plain.fits : Plain → List UInt8 → Bool
  | [], bs => bs.isEmpty
  | .byte a :: ps, b :: bs => a = b && fits ps bs
  | .any :: ps, b :: bs => b != slash && fits ps bs
  | .star :: ps, bs => (suffixesWhile (· != slash) bs).any (fits ps)
  | .leading :: ps, bs => fits ps bs || (afterSlashes bs).any (fits ps)
  | .below :: ps, b :: bs => b = slash && (suffixesWhile (fun _ => true) bs).any (fits ps)
  | .between :: ps, b :: bs => b = slash && (fits ps bs || (afterSlashes bs).any (fits ps))
  | .oneOf negated ranges :: ps, b :: bs =>
    (ranges.any fun (lo, hi) => lo ≤ b && b ≤ hi) != negated && fits ps bs
  | _ :: _, [] => false

/-! ## Reading a pattern without choices -/

def bytesOf (c : Char) : List UInt8 :=
  (String.ofList [c]).toUTF8.toList

/-- The text of a class up to its closing bracket, and what follows that. A bracket that comes
first belongs to the class. -/
def classBody (first : Bool) : Text → Option (Text × Text)
  | [] => none
  | c :: cs =>
    if c = ']' ∧ !first then some ([], cs)
    else (classBody false cs).map fun (body, rest) => (c :: body, rest)

theorem length_lt_of_classBody {first : Bool} {cs body rest : Text}
    (h : classBody first cs = some (body, rest)) : rest.length < cs.length := by
  induction cs generalizing first body with
  | nil => simp [classBody] at h
  | cons c cs ih =>
    simp only [classBody] at h
    split at h
    · cases h
      simp
    · obtain ⟨⟨b, r⟩, hb, he⟩ := Option.map_eq_some_iff.1 h
      have hr : r = rest := congrArg Prod.snd he
      have := ih (hr ▸ hb)
      rw [List.length_cons]
      omega

/-- The ranges that a class lists. A dash stands for itself at either end, and a range must not
run backwards. -/
def classRanges (ranges : List (Char × Char)) : Text → Option (List (Char × Char))
  | [] => some ranges
  | ['-'] => some (ranges ++ [('-', '-')])
  | '-' :: c :: cs =>
    match ranges.getLast? with
    | none => classRanges [('-', '-')] (c :: cs)
    | some (lo, _) => if c < lo then none else classRanges (ranges.dropLast ++ [(lo, c)]) cs
  | c :: cs => classRanges (ranges ++ [(c, c)]) cs

/-- A range of characters in bytes: of its ends the last and the first byte span it, and their
other bytes stand alone. -/
def byteRanges : Char × Char → List (UInt8 × UInt8)
  | (lo, hi) =>
    if lo = hi then (bytesOf lo).map fun b => (b, b)
    else
      match (bytesOf lo).getLast?, bytesOf hi with
      | some a, b :: bs =>
        ((bytesOf lo).dropLast.map fun x => (x, x)) ++ (a, b) :: bs.map fun x => (x, x)
      | _, _ => []

/-- The class that a text after an opening bracket starts with, and what follows it. -/
def class? (cs : Text) : Option (Piece × Text) :=
  let (negated, inner) : Bool × Text :=
    match cs with
    | '!' :: rest => (true, rest)
    | '^' :: rest => (true, rest)
    | rest => (false, rest)
  match classBody true inner with
  | none => none
  | some (body, rest) => do
    let ranges ← classRanges [] body
    return (.oneOf negated (ranges.flatMap byteRanges), rest)

theorem length_lt_of_class? {cs rest : Text} {piece : Piece}
    (h : class? cs = some (piece, rest)) : rest.length < cs.length := by
  unfold class? at h
  have key : ∀ inner : Text, inner.length ≤ cs.length → ∀ negated : Bool,
      (match classBody true inner with
        | none => none
        | some (body, rest) => do
          let ranges ← classRanges [] body
          return (Piece.oneOf negated (ranges.flatMap byteRanges), rest)) = some (piece, rest) →
      rest.length < cs.length := by
    intro inner hle negated hm
    cases hb : classBody true inner with
    | none => simp [hb] at hm
    | some br =>
      obtain ⟨body, r⟩ := br
      simp only [hb] at hm
      cases hr : classRanges [] body with
      | none => simp [hr] at hm
      | some ranges =>
        simp only [hr, Option.bind_eq_bind, Option.bind_some, Option.pure_def,
          Option.some.injEq, Prod.mk.injEq] at hm
        have := length_lt_of_classBody hb
        rw [← hm.2]
        omega
  split at h
  rename_i negated inner heq
  refine key inner ?_ negated h
  split at heq <;> (cases heq; simp)

/-- Puts the piece for a double star in place of the slash before it. After folders or after a
slash with all that follows it, a double star adds nothing. -/
def widen (pieces : Plain) (piece : Piece) : Plain :=
  match pieces with
  | .leading :: ps => .leading :: ps
  | .below :: ps => .below :: ps
  | _ :: ps => piece :: ps
  | [] => [piece]

/-- Reads a pattern; the pieces before it come in reverse, and `afterSlash` says that a slash
stands right before it. -/
def readFrom (pieces : Plain) (afterSlash : Bool) (cs : Text) : Option Plain :=
  match cs with
  | [] => some pieces.reverse
  | '*' :: '*' :: rest =>
    match pieces, rest with
    | [], [] => some [.leading]
    | [], '/' :: rest' => readFrom [.leading] true rest'
    | _, [] =>
      if afterSlash then some (widen pieces .below).reverse
      else some (.star :: .star :: pieces).reverse
    | _, '/' :: rest' =>
      if afterSlash then readFrom (widen pieces .between) true rest'
      else readFrom (.star :: .star :: pieces) false ('/' :: rest')
    | _, rest => readFrom (.star :: .star :: pieces) false rest
  | '*' :: rest => readFrom (.star :: pieces) false rest
  | '?' :: rest => readFrom (.any :: pieces) false rest
  | '[' :: rest =>
    match _h : class? rest with
    | none => none
    | some (piece, rest') => readFrom (piece :: pieces) false rest'
  | '\\' :: c :: rest => readFrom ((bytesOf c).reverse.map .byte ++ pieces) (c = '/') rest
  | ['\\'] => none
  | c :: rest => readFrom ((bytesOf c).reverse.map .byte ++ pieces) (c = '/') rest
termination_by cs.length
decreasing_by
  all_goals simp_wf
  all_goals try omega
  have shorter := length_lt_of_class? _h
  omega

/-! ## Choices -/

inductive Mode where
  | plain
  | escaped
  /-- After the opening bracket of a class. -/
  | opened
  /-- In a class, with the characters that come first passed or not. -/
  | inClass (first : Bool)

/-- The choices of one pair of braces: those that are complete, and the beginnings of the one at
hand. -/
structure Choices where
  done : List Text := []
  current : List Text := [[]]

def Choices.add (ch : Choices) (c : Char) : Choices :=
  { ch with current := ch.current.map (· ++ [c]) }

def Choices.all (ch : Choices) : List Text :=
  match (ch.done ++ ch.current).filter (· ≠ []) with
  | [] => [[]]
  | texts => texts

/-- The texts that a pattern with braces stands for. The braces must be in pairs. -/
def expandFrom (top : Choices) (outer : List Choices) (mode : Mode) :
    Text → Option (List Text)
  | [] => if outer.isEmpty then some top.current else none
  | c :: cs =>
    match mode with
    | .escaped => expandFrom (top.add c) outer .plain cs
    | .opened =>
      if c = '!' ∨ c = '^' then expandFrom (top.add c) outer (.inClass true) cs
      else expandFrom (top.add c) outer (.inClass false) cs
    | .inClass first =>
      expandFrom (top.add c) outer (if c = ']' ∧ !first then .plain else .inClass false) cs
    | .plain =>
      match c with
      | '\\' => expandFrom (top.add c) outer .escaped cs
      | '[' => expandFrom (top.add c) outer .opened cs
      | '\x7b' => expandFrom {} (top :: outer) .plain cs
      | ',' =>
        if outer.isEmpty then expandFrom (top.add c) outer .plain cs
        else expandFrom { done := top.done ++ top.current } outer .plain cs
      | '\x7d' =>
        match outer with
        | [] => none
        | o :: outer' =>
          expandFrom { o with current := o.current.flatMap fun b => top.all.map (b ++ ·) }
            outer' .plain cs
      | _ => expandFrom (top.add c) outer .plain cs

/-- The patterns without choices that a glob stands for, or nothing if it cannot be read. -/
def read? (pattern : Text) : Option (List Plain) := do
  let texts ← expandFrom {} [] .plain pattern
  texts.mapM (readFrom [] false)

/-- A path fits a glob. A double star alone is fit by every path. -/
def fits (glob : List Plain) (path : List UInt8) : Bool :=
  glob.any fun p => p = [.leading] || p.fits path

end EventLint.Glob
