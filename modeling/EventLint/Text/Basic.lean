/-!
# Text and byte offsets

Source text is a list of characters. Positions in it are byte offsets of its UTF-8 form, so the
width of a piece of text is the sum of the widths of its characters.
-/

namespace EventLint

/-- Source text, and everything cut from it. -/
abbrev Text := List Char

namespace Text

/-- How many bytes the UTF-8 form of a text takes. -/
def byteSize : Text → Nat
  | [] => 0
  | c :: cs => c.utf8Size + byteSize cs

@[simp] theorem byteSize_nil : byteSize [] = 0 := rfl

@[simp] theorem byteSize_cons (c : Char) (cs : Text) :
    byteSize (c :: cs) = c.utf8Size + byteSize cs := rfl

@[simp] theorem byteSize_append (a b : Text) : byteSize (a ++ b) = byteSize a + byteSize b := by
  induction a with
  | nil => simp
  | cons c cs ih => simp [ih, Nat.add_assoc]

/-- The text before byte `n` and the text from it on. There is no such cut if `n` lies inside a
character or past the end. -/
def splitAtByte (n : Nat) (cs : Text) : Option (Text × Text) :=
  match n, cs with
  | 0, cs => some ([], cs)
  | _ + 1, [] => none
  | n + 1, c :: cs =>
    if c.utf8Size ≤ n + 1 then
      (splitAtByte (n + 1 - c.utf8Size) cs).map fun (before, after) => (c :: before, after)
    else none

theorem append_of_splitAtByte {n : Nat} {cs before after : Text}
    (h : splitAtByte n cs = some (before, after)) :
    before ++ after = cs ∧ byteSize before = n := by
  induction cs generalizing n before after with
  | nil => cases n with
    | zero => simp_all [splitAtByte]
    | succ n => simp [splitAtByte] at h
  | cons c cs ih => cases n with
    | zero => simp_all [splitAtByte]
    | succ n =>
      simp only [splitAtByte] at h
      split at h
      · rename_i hc
        obtain ⟨⟨b, a⟩, hs, he⟩ := Option.map_eq_some_iff.1 h
        obtain ⟨rfl, rfl⟩ := Prod.mk.inj he
        have hi := ih hs
        simp only [List.cons_append, hi.1, byteSize_cons, hi.2, true_and]
        omega
      · cases h

/-- The text between two byte offsets, if both fall between characters and in order. -/
def slice (start stop : Nat) (cs : Text) : Option Text := do
  let (_, after) ← splitAtByte start cs
  let (between, _) ← if start ≤ stop then splitAtByte (stop - start) after else none
  return between

/-- The text before byte `n`, and all of it if there is no such cut. -/
def takeBytes (n : Nat) (cs : Text) : Text :=
  match splitAtByte n cs with
  | some (before, _) => before
  | none => cs

/-- The text from byte `n` on, and nothing if there is no such cut. -/
def dropBytes (n : Nat) (cs : Text) : Text :=
  match splitAtByte n cs with
  | some (_, after) => after
  | none => []

end Text

end EventLint
