import EventLint.Proofs.Placement

/-!
# Tokens do not look past their end

How far a token reaches is decided by its own characters and by whether the next ones could go on
with it. Main statement: a token stays the same if what follows it is replaced by text that cannot
go on with it either.
-/

namespace EventLint

open Text

/-! ## 1. Characters that go on with nothing -/

namespace Text

/-- A character that goes on with a word. -/
def isWordPart (c : Char) : Bool :=
  c = '_' || isAlphanumeric c

theorem toNat_lt_of_isAlpha {c : Char} (h : c.isAlpha = true) : c.toNat < 0x80 := by
  unfold Char.isAlpha Char.isUpper Char.isLower at h
  simp only [Bool.or_eq_true, Bool.and_eq_true, decide_eq_true_eq] at h
  have hn : c.toNat = c.val.toNat := rfl
  rcases h with ⟨-, h⟩ | ⟨-, h⟩
  · have : c.val.toNat ≤ 90 := h
    omega
  · have : c.val.toNat ≤ 122 := h
    omega

theorem isAlphabetic_of_isAlpha {c : Char} (h : c.isAlpha = true) : isAlphabetic c = true := by
  rw [isAlphabetic, if_pos (toNat_lt_of_isAlpha h), h]

theorem isWordPart_of_isAlpha {c : Char} (h : c.isAlpha = true) : isWordPart c = true := by
  rw [isWordPart, isAlphanumeric, isAlphabetic_of_isAlpha h, Bool.true_or, Bool.or_true]

/-- The code points of the blank characters. -/
def blankPoints : List Nat :=
  [0x20, 0x09, 0x0A, 0x0B, 0x0C, 0x0D, 0x85, 0xA0, 0x1680, 0x2000, 0x2001, 0x2002, 0x2003, 0x2004,
   0x2005, 0x2006, 0x2007, 0x2008, 0x2009, 0x200A, 0x2028, 0x2029, 0x202F, 0x205F, 0x3000]

theorem mem_blankPoints {c : Char} (h : isBlank c = true) : c.toNat ∈ blankPoints := by
  simp only [isBlank, Bool.or_eq_true, Bool.and_eq_true, beq_iff_eq, decide_eq_true_eq] at h
  simp only [blankPoints, List.mem_cons, List.not_mem_nil, or_false]
  omega

/-- No blank goes on with a word. -/
theorem isWordPart_of_isBlank {c : Char} (h : isBlank c = true) : isWordPart c = false := by
  have hpoints : ∀ n ∈ blankPoints, isWordPart (Char.ofNat n) = false := by decide +kernel
  have hc := hpoints c.toNat (mem_blankPoints h)
  rwa [Char.ofNat_toNat] at hc

end Text

/-- The character starts trivia or a word. -/
def isCalm (c : Char) : Bool :=
  isBlank c || c = '/' || c = '#' || c.isAlpha

/-- What `y` follows may be followed by `y'`, which starts with trivia, or with a letter if `y` does
so too. -/
structure Follows (y y' : Text) : Prop where
  calm : ∀ c ∈ y'.head?, isCalm c = true
  alpha : ∀ c ∈ y'.head?, c.isAlpha = true → ∃ d ∈ y.head?, d.isAlpha = true

theorem isAlpha_of_isCalm {c : Char} (h : isCalm c = true) (hw : isWordPart c = true) :
    c.isAlpha = true := by
  simp only [isCalm, Bool.or_eq_true, decide_eq_true_eq] at h
  rcases h with ((h | rfl) | rfl) | h
  · rw [isWordPart_of_isBlank h] at hw
    cases hw
  · exact absurd hw (by decide)
  · exact absurd hw (by decide)
  · exact h

section

variable {y y' : Text}

theorem Follows.ne (h : Follows y y') {c d : Char} (hc : c ∈ y'.head?) (hd : isCalm d = false) :
    c ≠ d := by
  rintro rfl
  rw [h.calm c hc] at hd
  cases hd

/-- If `y'` goes on with a word, `y` did so. -/
theorem Follows.wordPart (h : Follows y y') {c : Char} (hc : c ∈ y'.head?)
    (hw : isWordPart c = true) : ∃ d ∈ y.head?, d.isAlpha = true :=
  h.alpha c hc (isAlpha_of_isCalm (h.calm c hc) hw)

theorem Follows.of_head {c : Char} (hc : y'.head? = some c) (h : isCalm c = true)
    (ha : c.isAlpha = false) : Follows y y' := by
  have heq : ∀ d ∈ y'.head?, d = c := fun d hd => Option.some.inj (Eq.trans (Eq.symm hd) hc)
  refine ⟨fun d hd => ?_, fun d hd halpha => ?_⟩
  · rwa [heq d hd]
  · rw [heq d hd, ha] at halpha
    cases halpha

theorem Follows.head_ne (h : Follows y y') {d : Char} (hd : isCalm d = false) :
    y'.head? ≠ some d :=
  fun he => h.ne he hd rfl

end

/-! ## 2. Words and numbers -/

namespace Token

theorem wordExtent_cons (c : Char) (cs : Text) :
    wordExtent (c :: cs) = if isWordPart c then 1 + wordExtent cs else 0 := rfl

theorem wordExtent_le (cs : Text) : wordExtent cs ≤ cs.length := by
  induction cs with
  | nil => exact Nat.le_refl 0
  | cons c cs ih =>
    rw [wordExtent_cons, List.length_cons]
    split <;> omega

theorem wordExtent_pos {y : Text} {d : Char} (hd : d ∈ y.head?) (h : isWordPart d = true) :
    0 < wordExtent y := by
  obtain ⟨y, rfl⟩ := List.head?_eq_some_iff.1 hd
  rw [wordExtent_cons, if_pos h]
  omega

section

variable {x y y' : Text}

theorem wordExtent_append (hf : Follows y y') (h : wordExtent (x ++ y) ≤ x.length) :
    wordExtent (x ++ y') = wordExtent (x ++ y) := by
  induction x with
  | nil =>
    have h0 : wordExtent y = 0 := Nat.le_zero.1 h
    rw [List.nil_append, List.nil_append, h0]
    cases y' with
    | nil => rfl
    | cons c y' =>
      rw [wordExtent_cons, if_neg]
      intro hc
      obtain ⟨d, hd, hda⟩ := hf.wordPart rfl hc
      have := wordExtent_pos hd (isWordPart_of_isAlpha hda)
      omega
  | cons c x ih =>
    rw [List.cons_append, wordExtent_cons, List.length_cons] at h
    rw [List.cons_append, List.cons_append, wordExtent_cons, wordExtent_cons]
    split at h
    · rw [ih (by omega)]
    · rename_i hc
      rw [if_neg hc, if_neg hc]

end

end Token

namespace Literal

/-- A character that goes on with a number, before `cs`. -/
def isNumberPart (c : Char) (cs : Text) : Bool :=
  c = '_' || c.isAlphanum || (c = '.' && cs.head?.any Char.isDigit)

theorem numberExtent_cons (c : Char) (cs : Text) :
    numberExtent (c :: cs) = if isNumberPart c cs then 1 + numberExtent cs else 0 := rfl

theorem numberExtent_le (cs : Text) : numberExtent cs ≤ cs.length := by
  induction cs with
  | nil => exact Nat.le_refl 0
  | cons c cs ih =>
    rw [numberExtent_cons, List.length_cons]
    split <;> omega

theorem isCalm_of_isDigit {c : Char} (h : c.isDigit = true) : isCalm c = false := by
  have hpoints : ∀ n < 58, 48 ≤ n → isCalm (Char.ofNat n) = false := by decide
  simp only [Char.isDigit, Bool.and_eq_true, decide_eq_true_eq] at h
  have h1 : 48 ≤ c.toNat := h.1
  have h2 : c.toNat ≤ 57 := h.2
  have hc := hpoints c.toNat (by omega) h1
  rwa [Char.ofNat_toNat] at hc

theorem numberExtent_pos {y : Text} {d : Char} (hd : d ∈ y.head?) (h : d.isAlphanum = true) :
    0 < numberExtent y := by
  obtain ⟨y, rfl⟩ := List.head?_eq_some_iff.1 hd
  rw [numberExtent_cons, isNumberPart, h, Bool.or_true, Bool.true_or, if_pos rfl]
  omega

section

variable {x y y' : Text}

theorem any_isDigit_of_follows (hf : Follows y y') : y'.head?.any Char.isDigit = false := by
  cases hc : y'.head? with
  | none => rfl
  | some c =>
    rw [Option.any_some, Bool.eq_false_iff]
    intro hd
    exact hf.ne hc (isCalm_of_isDigit hd) rfl

theorem numberExtent_append (hf : Follows y y') (h : numberExtent (x ++ y) ≤ x.length) :
    numberExtent (x ++ y') = numberExtent (x ++ y) := by
  induction x with
  | nil =>
    have h0 : numberExtent y = 0 := Nat.le_zero.1 h
    rw [List.nil_append, List.nil_append, h0]
    cases y' with
    | nil => rfl
    | cons c y' =>
      rw [numberExtent_cons, if_neg]
      intro hc
      have hcalm := hf.calm c rfl
      simp only [isNumberPart, Bool.or_eq_true, Bool.and_eq_true, decide_eq_true_eq] at hc
      rcases hc with (rfl | hc) | hc
      · exact absurd hcalm (by decide)
      · have hca : c.isAlpha = true := by
          rw [Char.isAlphanum, Bool.or_eq_true] at hc
          rcases hc with hc | hc
          · exact hc
          · rw [isCalm_of_isDigit hc] at hcalm
            cases hcalm
        obtain ⟨d, hd, hda⟩ := hf.alpha c rfl hca
        have := numberExtent_pos hd (by rw [Char.isAlphanum, hda]; rfl)
        omega
      · rw [hc.1] at hcalm
        exact absurd hcalm (by decide)
  | cons c x ih =>
    rw [List.cons_append, numberExtent_cons, List.length_cons] at h
    rw [List.cons_append, List.cons_append, numberExtent_cons, numberExtent_cons]
    have hpart : isNumberPart c (x ++ y') = isNumberPart c (x ++ y) := by
      cases x with
      | nil =>
        -- a digit after the point would have been taken
        have hy : (c = '.' && y.head?.any Char.isDigit) = false := by
          rw [Bool.eq_false_iff]
          intro hp
          rw [Bool.and_eq_true] at hp
          obtain ⟨d, hd, hdd⟩ := (Option.any_eq_true _ _).1 hp.2
          have := numberExtent_pos hd (by rw [Char.isAlphanum, hdd, Bool.or_true])
          rw [List.nil_append, isNumberPart, hp.1, hp.2, Bool.and_self, Bool.or_true,
            if_pos rfl] at h
          simp only [List.length_nil] at h
          omega
        rw [List.nil_append, List.nil_append, isNumberPart, isNumberPart, hy,
          any_isDigit_of_follows hf, Bool.and_false]
      | cons d x => rfl
    rw [hpart]
    split at h
    · rw [ih (by omega)]
    · rename_i hc
      rw [if_neg hc, if_neg hc]

end

/-! ## 3. Strings

Inside a literal the scan goes from state to state and stops after some character. A character may
be judged by the next one as well. -/

section

variable {σ : Type}

/-- How many characters are taken from the state `s` on: through the first that has no next
state. -/
def run (next : σ → Char → Option Char → Option σ) : σ → Text → Nat
  | _, [] => 0
  | s, c :: cs =>
    match next s c cs.head? with
    | none => 1
    | some s' => 1 + run next s' cs

variable {next : σ → Char → Option Char → Option σ}

theorem run_le (s : σ) (cs : Text) : run next s cs ≤ cs.length := by
  induction cs generalizing s with
  | nil => exact Nat.le_refl 0
  | cons c cs ih =>
    rw [run, List.length_cons]
    split
    · omega
    · rename_i s' _
      have := ih s'
      omega

theorem run_pos (s : σ) {cs : Text} (h : cs ≠ []) : 0 < run next s cs := by
  obtain ⟨c, cs, rfl⟩ := List.exists_cons_of_ne_nil h
  rw [run]
  split <;> omega

/-- A scan that stops in front of `y` stops there in front of `y'` too, unless the next character
decides. -/
theorem run_append {x y y' : Text}
    (hstop : ∀ s c ahead, next s c ahead = none → next s c y'.head? = none) (s : σ)
    (h : run next s (x ++ y) ≤ x.length) (hy : y = [] → run next s (x ++ y) < x.length) :
    run next s (x ++ y') = run next s (x ++ y) := by
  induction x generalizing s with
  | nil =>
    by_cases hnil : y = []
    · exact absurd (hy hnil) (Nat.not_lt_zero _)
    · have : 0 < run next s y := run_pos s hnil
      rw [List.nil_append, List.length_nil] at h
      omega
  | cons c x ih =>
    rw [List.cons_append, run, List.length_cons] at h hy
    rw [List.cons_append, List.cons_append, run, run]
    cases x with
    | nil =>
      rw [List.nil_append] at h hy ⊢
      cases hn : next s c y.head? with
      | none => rw [List.nil_append, hstop s c _ hn, hn]
      | some s' =>
        -- the scan would have gone on into `y`
        rw [hn] at h hy
        dsimp only at h hy
        rw [List.length_nil] at h hy
        by_cases hnil : y = []
        · have := hy hnil
          omega
        · have : 0 < run next s' y := run_pos s' hnil
          omega
    | cons d x =>
      rw [show (d :: x ++ y').head? = (d :: x ++ y).head? from rfl]
      cases hn : next s c (d :: x ++ y).head? with
      | none => rfl
      | some s' =>
        rw [hn] at h hy
        dsimp only at h hy ⊢
        rw [ih s' (by omega) (fun hnil => by have := hy hnil; omega)]

end

/-- From character to character of a literal with escapes; `escaped` keeps the next one from
closing it. -/
def escapedNext (quote : Char) (escaped : Bool) (c : Char) (_ : Option Char) : Option Bool :=
  if escaped then some false
  else if c = '\\' then some true
  else if c = quote || c = '\n' then none
  else some false

theorem escapedExtent_eq (quote : Char) (cs : Text) :
    escapedExtent quote cs = run (escapedNext quote) false cs := by
  have hne : ∀ {c : Char} {cs : Text}, (c = '\\' → cs = [] → False) →
      (∀ d ds, c = '\\' → cs = d :: ds → False) → c ≠ '\\' := by
    intro c cs hnil hcons hc
    cases cs with
    | nil => exact hnil hc rfl
    | cons d ds => exact hcons d ds hc rfl
  fun_induction escapedExtent quote cs with
  | case1 => rfl
  | case2 => rfl
  | case3 d cs ih => grind [run, escapedNext]
  | case4 c cs h1 h2 hc =>
    have := hne h1 h2
    grind [run, escapedNext]
  | case5 c cs h1 h2 hc ih =>
    have := hne h1 h2
    grind [run, escapedNext]

def verbatimNext (paired : Bool) (c : Char) (ahead : Option Char) : Option Bool :=
  if paired then some false
  else if c = '"' then if ahead = some '"' then some true else none
  else some false

theorem verbatimExtent_eq (cs : Text) : verbatimExtent cs = run verbatimNext false cs := by
  fun_induction verbatimExtent cs with
  | case1 => rfl
  | case2 cs ih => grind [run, verbatimNext]
  | case3 cs h =>
    have hne : cs.head? ≠ some '"' := fun hh => by
      obtain ⟨rest, rfl⟩ := List.head?_eq_some_iff.1 hh
      exact h rest rfl rfl
    grind [run, verbatimNext]
  | case4 c cs _ hc ih => grind [run, verbatimNext]

def rawNext (quotes seen : Nat) (c : Char) (_ : Option Char) : Option Nat :=
  if c = '"' then if seen + 1 = quotes then none else some (seen + 1) else some 0

theorem rawExtent_eq (quotes seen : Nat) (cs : Text) :
    rawExtent quotes seen cs = run (rawNext quotes) seen cs := by
  fun_induction rawExtent quotes seen cs <;> grind [run, rawNext]

def interpolatedNext (verbatim : Bool) (place : Place) (c : Char) (ahead : Option Char) :
    Option Place :=
  match place with
  | .skip next => some next
  | .text =>
    if c = '"' then if verbatim && ahead = some '"' then some (.skip .text) else none
    else if c = '\\' && !verbatim then some (.skip .text)
    else if c = '\n' && !verbatim then none
    else if c = '\x7b' then if ahead = some '\x7b' then some (.skip .text) else some (.hole 0)
    else some .text
  | .hole depth =>
    if c = '"' then some (.nested depth)
    else if c = '\\' && !verbatim then some (.skip (.hole depth))
    else if c = '\x7b' then some (.hole (depth + 1))
    else if c = '\x7d' then some (if depth = 0 then .text else .hole (depth - 1))
    else some (.hole depth)
  | .nested depth =>
    if c = '\\' then some (.skip (.nested depth))
    else if c = '"' || c = '\n' then some (.hole depth)
    else some (.nested depth)

theorem interpolatedExtent_eq (verbatim : Bool) (place : Place) (cs : Text) :
    interpolatedExtent verbatim place cs = run (interpolatedNext verbatim) place cs := by
  fun_induction interpolatedExtent verbatim place cs <;> grind [run, interpolatedNext]

/-! ## 4. String literals as a whole -/

/-- How many double quotes stand first. -/
def quotes (cs : Text) : Nat :=
  (cs.takeWhile (· = '"')).length

/-- A string literal that is not raw, after its first double quote. -/
def plainExtent (marks body : Text) : Nat :=
  if marks.contains '$' then run (interpolatedNext (marks.contains '@')) .text body
  else if marks.contains '@' then run verbatimNext false body
  else run (escapedNext '"') false body

theorem stringExtent_eq (marks body : Text) :
    stringExtent marks body =
      if 2 ≤ quotes body then
        quotes body + run (rawNext (quotes body + 1)) 0 (body.drop (quotes body))
      else plainExtent marks body := by
  rw [stringExtent, rawExtent_eq, interpolatedExtent_eq, verbatimExtent_eq, escapedExtent_eq]
  rfl

theorem quotes_le (cs : Text) : quotes cs ≤ cs.length :=
  (List.takeWhile_prefix _).length_le

theorem stringExtent_le (marks body : Text) : stringExtent marks body ≤ body.length := by
  have hq := quotes_le body
  rw [stringExtent_eq]
  split
  · have hr : run (rawNext (quotes body + 1)) 0 (body.drop (quotes body)) ≤ _ := run_le _ _
    rw [List.length_drop] at hr
    omega
  · unfold plainExtent
    split
    · exact run_le _ _
    · split <;> exact run_le _ _

section

variable {x y y' : Text}

theorem quotes_append (x y : Text) :
    quotes (x ++ y) = if quotes x = x.length then x.length + quotes y else quotes x := by
  rw [quotes, List.takeWhile_append]
  change (if quotes x = x.length then _ else _ : Text).length = _
  split
  · rw [List.length_append]
    rfl
  · rfl

theorem quotes_eq_zero (h : y.head? ≠ some '"') : quotes y = 0 := by
  cases y with
  | nil => rfl
  | cons c y =>
    rw [quotes, List.takeWhile_cons, if_neg]
    · rfl
    · intro hc
      exact h (by rw [of_decide_eq_true hc]; rfl)

theorem plainExtent_append (marks : Text) (hq : y'.head? ≠ some '"')
    (h : plainExtent marks (x ++ y) ≤ x.length)
    (hy : y = [] → plainExtent marks (x ++ y) < x.length) :
    plainExtent marks (x ++ y') = plainExtent marks (x ++ y) := by
  unfold plainExtent at h hy ⊢
  split
  · rename_i hm
    rw [if_pos hm] at h hy
    -- a hole or a string inside it never ends with a quote of `y'`
    refine run_append (fun s c ahead hn => ?_) _ h hy
    cases s with
    | text => grind [interpolatedNext]
    | hole depth => grind [interpolatedNext]
    | nested depth => grind [interpolatedNext]
    | skip next => cases hn
  · rename_i hm
    rw [if_neg hm] at h hy
    split
    · rename_i ha
      rw [if_pos ha] at h hy
      refine run_append (fun s c ahead hn => ?_) _ h hy
      grind [verbatimNext]
    · rename_i ha
      rw [if_neg ha] at h hy
      exact run_append (fun s c ahead hn => show escapedNext '"' s c y'.head? = none from hn) _ h hy

theorem stringExtent_append (marks : Text) (hq : y'.head? ≠ some '"')
    (h : stringExtent marks (x ++ y) ≤ x.length)
    (hy : y = [] → stringExtent marks (x ++ y) < x.length) :
    stringExtent marks (x ++ y') = stringExtent marks (x ++ y) := by
  rw [stringExtent_eq] at h hy
  rw [stringExtent_eq, stringExtent_eq, quotes_append, quotes_append, quotes_eq_zero hq]
  rw [quotes_append] at h hy
  by_cases hx : quotes x = x.length
  · rw [if_pos hx] at h hy
    rw [if_pos hx, if_pos hx]
    by_cases h2 : 2 ≤ x.length + quotes y
    · -- a raw string would reach into `y`
      rw [if_pos h2] at h hy
      by_cases hnil : y = []
      · have := hy hnil
        omega
      · have hz : quotes y = 0 := by omega
        rw [hz, Nat.add_zero, List.drop_left] at h
        have : 0 < run (rawNext (x.length + 1)) 0 y := run_pos 0 hnil
        omega
    · rw [if_neg h2] at h hy
      rw [if_neg h2, if_neg (by omega)]
      exact plainExtent_append marks hq h hy
  · rw [if_neg hx] at h hy
    rw [if_neg hx, if_neg hx]
    have hle := quotes_le x
    split
    · rename_i h2
      rw [if_pos h2] at h hy
      rw [List.drop_append_of_le_length hle] at h hy ⊢
      rw [List.drop_append_of_le_length hle]
      have hlen : (x.drop (quotes x)).length = x.length - quotes x := List.length_drop
      have hrun : run (rawNext (quotes x + 1)) 0 (x.drop (quotes x) ++ y') =
          run (rawNext (quotes x + 1)) 0 (x.drop (quotes x) ++ y) :=
        run_append (fun s c ahead => show rawNext (quotes x + 1) s c ahead = none → _ from id) 0
          (by omega) (fun hnil => by have := hy hnil; omega)
      rw [hrun]
    · rename_i h2
      rw [if_neg h2] at h hy
      exact plainExtent_append marks hq h hy

/-- A string literal after its marks, if a double quote stands there. -/
def quotedExtent? (marks : Text) : Text → Option Nat
  | [] => none
  | c :: body => if c = '"' then some (marks.length + stringExtent marks body) else none

theorem quotedExtent?_of_ne {cs : Text} (marks : Text) (h : cs.head? ≠ some '"') :
    quotedExtent? marks cs = none := by
  cases cs with
  | nil => rfl
  | cons c cs =>
    rw [quotedExtent?, if_neg]
    rintro rfl
    exact h rfl

theorem stringExtent?_eq (cs : Text) :
    stringExtent? cs = quotedExtent? (cs.takeWhile isStringMark) (cs.dropWhile isStringMark) := by
  unfold stringExtent?
  dsimp only
  split
  · rename_i body hd
    rw [hd]
    rfl
  · rename_i hd
    refine (quotedExtent?_of_ne _ fun hh => ?_).symm
    obtain ⟨body, hb⟩ := List.head?_eq_some_iff.1 hh
    exact hd body hb

theorem stringExtent?_le {c : Char} {cs : Text} {n : Nat} (h : stringExtent? (c :: cs) = some n) :
    n ≤ cs.length := by
  have hlen := congrArg List.length
    (List.takeWhile_append_dropWhile (p := isStringMark) (l := c :: cs))
  rw [List.length_append, List.length_cons] at hlen
  rw [stringExtent?_eq] at h
  cases hd : (c :: cs).dropWhile isStringMark with
  | nil =>
    rw [hd] at h
    cases h
  | cons d body =>
    rw [hd, quotedExtent?] at h
    rw [hd, List.length_cons] at hlen
    split at h
    · have hle := stringExtent_le ((c :: cs).takeWhile isStringMark) body
      have hn := Option.some.inj h
      omega
    · cases h

theorem dropWhile_of_follows (hf : Follows y y') : y'.dropWhile isStringMark = y' := by
  cases y' with
  | nil => rfl
  | cons c y' =>
    rw [List.dropWhile_cons_of_neg]
    intro hm
    simp only [isStringMark, Bool.or_eq_true, decide_eq_true_eq] at hm
    rcases hm with rfl | rfl
    · exact hf.ne (c := '@') rfl (by decide) rfl
    · exact hf.ne (c := '$') rfl (by decide) rfl

/-- A string literal that ends in front of `y` ends there in front of `y'`; where there is none,
`y'` makes none. -/
theorem stringExtent?_append {c : Char} (hf : Follows y y')
    (h : ∀ n ∈ stringExtent? (c :: x ++ y), n ≤ x.length ∧ (y = [] → n < x.length)) :
    stringExtent? (c :: x ++ y') = stringExtent? (c :: x ++ y) := by
  have hq : y'.head? ≠ some '"' := hf.head_ne (by decide)
  generalize hz : c :: x = z at h ⊢
  have hlen : x.length + 1 = z.length := by
    rw [← hz]
    rfl
  have hcut := congrArg List.length (List.takeWhile_append_dropWhile (p := isStringMark) (l := z))
  rw [List.length_append] at hcut
  rw [stringExtent?_eq] at h
  rw [stringExtent?_eq, stringExtent?_eq]
  simp only [List.takeWhile_append, List.dropWhile_append, List.isEmpty_iff] at h ⊢
  cases hd : z.dropWhile isStringMark with
  | nil =>
    -- nothing but marks, so a double quote would stand in `y`
    rw [hd, List.length_nil] at hcut
    have hall : (z.takeWhile isStringMark).length = z.length := by omega
    rw [hd] at h
    simp only [if_true, hall] at h ⊢
    rw [dropWhile_of_follows hf, quotedExtent?_of_ne _ hq]
    cases hyd : y.dropWhile isStringMark with
    | nil => rfl
    | cons d body =>
      rw [hyd, quotedExtent?] at h
      rw [quotedExtent?]
      split
      · rename_i hdq
        rw [if_pos hdq] at h
        have hn := (h _ rfl).1
        rw [List.length_append] at hn
        omega
      · rfl
  | cons d z' =>
    rw [hd, List.length_cons] at hcut
    have hall : (z.takeWhile isStringMark).length ≠ z.length := by omega
    rw [hd] at h
    simp only [reduceCtorEq, if_false, hall, List.cons_append, quotedExtent?] at h ⊢
    split
    · rename_i hdq
      rw [if_pos hdq] at h
      obtain ⟨hle, hlt⟩ := h _ rfl
      have hs := stringExtent_append (x := z') (y := y) (z.takeWhile isStringMark) hq (by omega)
        (fun hnil => by have := hlt hnil; omega)
      rw [hs]
    · rfl

end

end Literal

/-! ## 5. Tokens -/

/-- Words and marks, which end neither in a blank nor in a slash. -/
def TokenKind.isClean : TokenKind → Bool
  | numericLiteral | stringLiteral | charLiteral | operator | error => false
  | _ => true

namespace Token

open Literal

/-- The first element that is found stays the first if fewer are accepted. -/
theorem find?_eq_of_imp {α : Type} {l : List α} {p q : α → Bool}
    (himp : ∀ a ∈ l, q a = true → p a = true) (hq : ∀ a, l.find? p = some a → q a = true) :
    l.find? q = l.find? p := by
  cases hp : l.find? p with
  | none =>
    rw [List.find?_eq_none] at hp ⊢
    exact fun a ha hqa => hp a ha (himp a ha hqa)
  | some a =>
    have hqa := hq a hp
    obtain ⟨-, as, bs, rfl, has⟩ := List.find?_eq_some_iff_append.1 hp
    refine List.find?_eq_some_iff_append.2 ⟨hqa, as, bs, rfl, fun b hb => ?_⟩
    have hpb := has b hb
    rw [Bool.not_eq_true'] at hpb ⊢
    refine Bool.eq_false_iff.2 fun hqb => ?_
    rw [himp b (List.mem_append_left _ hb) hqb] at hpb
    cases hpb

/-- No sign goes on with a calm character. -/
theorem isCalm_of_mem_operators {sign : String} {kind : TokenKind} (h : (sign, kind) ∈ operators)
    {d : Char} (hd : d ∈ sign.toList.tail) : isCalm d = false := by
  have hall : (operators.all fun e => e.1.toList.tail.all fun d => !isCalm d) = true := by decide
  exact Bool.not_eq_true' _ ▸ List.all_eq_true.1 (List.all_eq_true.1 hall _ h) d hd

section

variable {c : Char} {x y y' : Text}

theorem prefix_of_isPrefixOf {sign : String} {kind : TokenKind} (h : (sign, kind) ∈ operators)
    (hf : Follows y y') (hp : sign.toList.isPrefixOf (c :: (x ++ y')) = true) :
    sign.toList <+: c :: x := by
  have hp : sign.toList <+: c :: x ++ y' := List.isPrefixOf_iff_prefix.1 hp
  refine List.prefix_of_prefix_length_le hp (List.prefix_append _ _)
    (Nat.le_of_not_lt fun hlt => ?_)
  -- otherwise the sign goes on with the first character of `y'`
  obtain ⟨tail, htail⟩ := hp
  obtain ⟨rest, hrest⟩ : ∃ rest, sign.toList = c :: x ++ rest := by
    have hpre : c :: x <+: sign.toList := by
      refine List.prefix_of_prefix_length_le (List.prefix_append (c :: x) y') ?_ (Nat.le_of_lt hlt)
      exact ⟨tail, htail⟩
    obtain ⟨rest, hr⟩ := hpre
    exact ⟨rest, hr.symm⟩
  have hy' : rest ++ tail = y' := by
    rw [hrest, List.append_assoc] at htail
    exact List.append_cancel_left htail
  cases rest with
  | nil =>
    rw [hrest, List.append_nil] at hlt
    omega
  | cons d rest =>
    have hmem : d ∈ sign.toList.tail := by
      rw [hrest]
      simp
    exact hf.ne (c := d) (by rw [← hy']; rfl) (isCalm_of_mem_operators h hmem) rfl

theorem symbol_append (hf : Follows y y') (h : (symbol c (x ++ y)).2 ≤ x.length) :
    symbol c (x ++ y') = symbol c (x ++ y) := by
  have hfind : operators.find? (fun e => e.1.toList.isPrefixOf (c :: (x ++ y'))) =
      operators.find? (fun e => e.1.toList.isPrefixOf (c :: (x ++ y))) := by
    refine find?_eq_of_imp (fun e he hp => ?_) fun e he => ?_
    · exact List.isPrefixOf_iff_prefix.2
        ((prefix_of_isPrefixOf he hf hp).trans (List.prefix_append (c :: x) y))
    · have hpre := List.find?_some he
      have hp : e.1.toList <+: c :: x ++ y := List.isPrefixOf_iff_prefix.1 hpre
      have hlen : e.1.toList.length - 1 ≤ x.length := by
        unfold symbol at h
        rw [he] at h
        exact h
      refine List.isPrefixOf_iff_prefix.2 (List.IsPrefix.trans ?_ (List.prefix_append (c :: x) y'))
      exact List.prefix_of_prefix_length_le hp (List.prefix_append _ _) (by
        rw [List.length_cons]
        omega)
  unfold symbol
  rw [hfind]

theorem symbol_le (c : Char) (cs : Text) : (symbol c cs).2 ≤ cs.length := by
  unfold symbol
  split
  · rename_i sign kind hf
    have hp := List.find?_some hf
    dsimp only at hp
    have hle := (List.isPrefixOf_iff_prefix.1 hp).length_le
    rw [List.length_cons] at hle
    dsimp only
    omega
  · exact Nat.zero_le _

/-- A letter or an underscore, which make a name after `@`. -/
def startsName (d : Char) : Bool :=
  d = '_' || d.isAlpha

theorem lexeme_eq (c : Char) (cs : Text) :
    lexeme c cs =
      if c = '@' && cs.head?.any startsName then (.ident, wordExtent cs)
      else if c = '_' || isAlphabetic c then
        (wordKind (c :: cs.take (wordExtent cs)), wordExtent cs)
      else if c.isDigit || (c = '.' && cs.head?.any Char.isDigit) then
        (.numericLiteral, numberExtent cs)
      else
        match stringExtent? (c :: cs) with
        | some n => (.stringLiteral, n)
        | none => if c = '\'' then (.charLiteral, escapedExtent '\'' cs) else symbol c cs := rfl

theorem lexeme_le (c : Char) (cs : Text) : (lexeme c cs).2 ≤ cs.length := by
  rw [lexeme_eq]
  split
  · exact wordExtent_le cs
  · split
    · exact wordExtent_le cs
    · split
      · exact numberExtent_le cs
      · split
        · rename_i n hn
          exact stringExtent?_le hn
        · split
          · rw [escapedExtent_eq]
            exact run_le _ _
          · exact symbol_le c cs

theorem isWordPart_of_startsName {d : Char} (h : startsName d = true) : isWordPart d = true := by
  simp only [startsName, Bool.or_eq_true, decide_eq_true_eq] at h
  rcases h with rfl | h
  · rfl
  · exact isWordPart_of_isAlpha h

theorem any_startsName_of_follows (hf : Follows y y') (h : y.head?.any startsName = false) :
    y'.head?.any startsName = false := by
  refine Bool.eq_false_iff.2 fun hs => ?_
  obtain ⟨d, hd, hds⟩ := (Option.any_eq_true _ _).1 hs
  simp only [startsName, Bool.or_eq_true, decide_eq_true_eq] at hds
  rcases hds with rfl | hds
  · exact hf.ne hd (by decide) rfl
  · obtain ⟨e, he, hea⟩ := hf.alpha d hd hds
    rw [he, Option.any_some, startsName, hea, Bool.or_true] at h
    cases h

/-- Whether `@` quotes a name does not depend on what follows the token. -/
theorem quotesName_append {k : TokenKind} {m : Nat} (hf : Follows y y')
    (h : lexeme c (x ++ y) = (k, m)) (hm : m ≤ x.length) :
    (c = '@' && (x ++ y').head?.any startsName) = (c = '@' && (x ++ y).head?.any startsName) := by
  cases x with
  | cons d x => rfl
  | nil =>
    rw [List.nil_append, List.nil_append]
    cases hat : decide (c = '@') with
    | false => rfl
    | true =>
      -- a name in front of `y` would be part of the token
      have hy : y.head?.any startsName = false := by
        refine Bool.eq_false_iff.2 fun hs => ?_
        obtain ⟨d, hd, hds⟩ := (Option.any_eq_true _ _).1 hs
        have hpos := wordExtent_pos hd (isWordPart_of_startsName hds)
        rw [List.nil_append, lexeme_eq, hat, hs, Bool.and_self, if_pos rfl] at h
        have hmw := (Prod.mk.inj h).2
        rw [List.length_nil] at hm
        omega
      rw [hy, any_startsName_of_follows hf hy]

/-- Nor does whether a point starts a number. -/
theorem startsNumber_append {k : TokenKind} {m : Nat} (hf : Follows y y')
    (h : lexeme c (x ++ y) = (k, m)) (hm : m ≤ x.length) :
    (c.isDigit || (c = '.' && (x ++ y').head?.any Char.isDigit)) =
      (c.isDigit || (c = '.' && (x ++ y).head?.any Char.isDigit)) := by
  cases x with
  | cons d x => rfl
  | nil =>
    by_cases hc : c = '.'
    · subst hc
      -- a digit in front of `y` would be part of the token
      have hy : y.head?.any Char.isDigit = false := by
        refine Bool.eq_false_iff.2 fun hs => ?_
        obtain ⟨d, hd, hdd⟩ := (Option.any_eq_true _ _).1 hs
        have hpos := numberExtent_pos hd (by rw [Char.isAlphanum, hdd, Bool.or_true])
        rw [List.nil_append, lexeme_eq, if_neg (by simp), if_neg (by decide), hs,
          if_pos (by decide)] at h
        have hmn := (Prod.mk.inj h).2
        rw [List.length_nil] at hm
        omega
      rw [List.nil_append, List.nil_append, any_isDigit_of_follows hf, hy]
    · rw [decide_eq_false hc, Bool.false_and, Bool.false_and]

/-- A token that ends in front of `y` ends there in front of `y'`, and is of the same kind. -/
theorem lexeme_append {k : TokenKind} {m : Nat} (hf : Follows y y')
    (h : lexeme c (x ++ y) = (k, m)) (hm : m ≤ x.length)
    (hy : y = [] → m = x.length → k.isClean = true) : lexeme c (x ++ y') = (k, m) := by
  -- each test that `lexeme` makes in turn has the same answer in front of `y'`
  have hname := quotesName_append hf h hm
  have hnumber := startsNumber_append hf h hm
  have hlt : k.isClean = false → y = [] → m < x.length := by
    intro hk hnil
    refine Nat.lt_of_le_of_ne hm fun he => ?_
    rw [hy hnil he] at hk
    cases hk
  rw [lexeme_eq] at h ⊢
  rw [hname]
  by_cases hat : (c = '@' && (x ++ y).head?.any startsName) = true
  · rw [if_pos hat] at h ⊢
    obtain ⟨rfl, rfl⟩ := Prod.mk.inj h
    rw [wordExtent_append hf hm]
  rw [if_neg hat] at h ⊢
  by_cases hw : (c = '_' || isAlphabetic c) = true
  · rw [if_pos hw] at h ⊢
    obtain ⟨rfl, rfl⟩ := Prod.mk.inj h
    rw [wordExtent_append hf hm, List.take_append_of_le_length hm, List.take_append_of_le_length hm]
  rw [if_neg hw] at h ⊢
  rw [hnumber]
  by_cases hn : (c.isDigit || (c = '.' && (x ++ y).head?.any Char.isDigit)) = true
  · rw [if_pos hn] at h ⊢
    obtain ⟨rfl, rfl⟩ := Prod.mk.inj h
    rw [numberExtent_append hf hm]
  rw [if_neg hn] at h ⊢
  -- a string may be left open only if more of `x` follows
  have hstring : stringExtent? (c :: (x ++ y')) = stringExtent? (c :: (x ++ y)) := by
    refine stringExtent?_append hf fun n hs => ?_
    rw [show stringExtent? (c :: (x ++ y)) = some n from hs] at h
    obtain ⟨rfl, rfl⟩ := Prod.mk.inj h
    exact ⟨hm, hlt rfl⟩
  rw [hstring]
  cases hs : stringExtent? (c :: (x ++ y)) with
  | some n =>
    rw [hs] at h
    exact h
  | none =>
    rw [hs] at h
    dsimp only at h ⊢
    by_cases hc : c = '\''
    · rw [if_pos hc] at h ⊢
      obtain ⟨rfl, rfl⟩ := Prod.mk.inj h
      rw [escapedExtent_eq] at hm hlt ⊢
      rw [escapedExtent_eq]
      have hrun : run (escapedNext '\'') false (x ++ y') = run (escapedNext '\'') false (x ++ y) :=
        run_append (fun s c ahead => show escapedNext '\'' s c ahead = none → _ from id) false hm
          (hlt rfl)
      rw [hrun]
    · rw [if_neg hc] at h ⊢
      rw [symbol_append hf (by rw [h]; exact hm), h]

end

/-! ## 6. How words and marks end -/

/-- A character that is neither blank nor a slash. -/
def isSolid (c : Char) : Bool :=
  !isBlank c && c ≠ '/'

theorem isSolid_of_isWordPart {c : Char} (h : isWordPart c = true) : isSolid c = true := by
  rw [isSolid, Bool.and_eq_true, Bool.not_eq_true', decide_eq_true_eq]
  refine ⟨Bool.eq_false_iff.2 fun hb => ?_, ?_⟩
  · rw [isWordPart_of_isBlank hb] at h
    cases h
  · rintro rfl
    exact absurd h (by decide)

theorem isWordPart_of_mem_take {cs : Text} {d : Char} (h : d ∈ cs.take (wordExtent cs)) :
    isWordPart d = true := by
  induction cs with
  | nil => cases h
  | cons c cs ih =>
    rw [wordExtent_cons] at h
    split at h
    · rename_i hc
      rw [Nat.add_comm 1, List.take_succ_cons] at h
      rcases List.mem_cons.1 h with rfl | h
      · exact hc
      · exact ih h
    · cases h

theorem isSolid_of_punctuationKind {c : Char} (h : (punctuationKind c).isClean = true) :
    isSolid c = true := by
  have hpoints : ∀ n ∈ blankPoints, (punctuationKind (Char.ofNat n)).isClean = false := by
    decide +kernel
  rw [isSolid, Bool.and_eq_true, Bool.not_eq_true', decide_eq_true_eq]
  refine ⟨Bool.eq_false_iff.2 fun hb => ?_, ?_⟩
  · have hc := hpoints c.toNat (mem_blankPoints hb)
    rw [Char.ofNat_toNat, h] at hc
    cases hc
  · rintro rfl
    exact absurd h (by decide)

theorem isSolid_of_mem_operators {sign : String} {kind : TokenKind} {d : Char}
    (h : (sign, kind) ∈ operators) (hd : sign.toList.getLast? = some d) : isSolid d = true := by
  have hall : ∀ e ∈ operators, e.1.toList.getLast?.all isSolid = true := by decide
  have hs := hall _ h
  rwa [hd] at hs

theorem punctuationKind_ne_ident (c : Char) : punctuationKind c ≠ .ident := by
  simp only [punctuationKind, apply_ite (· ≠ TokenKind.ident)]
  simp

/-- An identifier starts with `@`, an underscore or a letter and goes on as a word. -/
theorem ident_of_lexeme {c : Char} {cs : Text} {m : Nat} (h : lexeme c cs = (.ident, m)) :
    m = wordExtent cs ∧ ((c = '@' ∧ cs.head?.any startsName = true) ∨
      ((c = '_' || isAlphabetic c) = true ∧ wordKind (c :: cs.take m) = .ident)) := by
  rw [lexeme_eq] at h
  split at h
  · rename_i hat
    rw [Bool.and_eq_true, decide_eq_true_eq] at hat
    exact ⟨(Prod.mk.inj h).2.symm, Or.inl hat⟩
  · split at h
    · rename_i hw
      obtain ⟨hk, rfl⟩ := Prod.mk.inj h
      exact ⟨rfl, Or.inr ⟨hw, hk⟩⟩
    · split at h
      · cases h
      · split at h
        · cases h
        · split at h
          · cases h
          · -- no mark is an identifier
            have hsigns : ∀ e ∈ operators, e.2 ≠ .ident := by decide
            unfold symbol at h
            split at h
            · rename_i sign kind hf
              exact absurd (Prod.mk.inj h).1 (hsigns _ (List.mem_of_find?_eq_some hf))
            · exact absurd (Prod.mk.inj h).1 (punctuationKind_ne_ident c)

theorem isWordPart_of_ident {c d : Char} {cs : Text} {m : Nat} (h : lexeme c cs = (.ident, m))
    (hd : d ∈ c :: cs.take m) : d = '@' ∨ isWordPart d = true := by
  obtain ⟨rfl, hc⟩ := ident_of_lexeme h
  rcases List.mem_cons.1 hd with rfl | hd
  · refine hc.imp And.left fun hw => ?_
    rw [isWordPart, isAlphanumeric, ← Bool.or_assoc, hw.1, Bool.true_or]
  · exact Or.inr (isWordPart_of_mem_take hd)

theorem isSolid_of_lexeme {c d : Char} {cs : Text} {k : TokenKind} {m : Nat}
    (h : lexeme c cs = (k, m)) (hk : k.isClean = true)
    (hd : (c :: cs.take m).getLast? = some d) : isSolid d = true := by
  have hmem := List.mem_of_getLast? hd
  -- along the tests of `lexeme`: numbers, strings and characters are not clean
  rw [lexeme_eq] at h
  split at h
  · rename_i hat
    obtain ⟨rfl, rfl⟩ := Prod.mk.inj h
    rcases List.mem_cons.1 hmem with rfl | hmem
    · rw [Bool.and_eq_true, decide_eq_true_eq] at hat
      rw [hat.1]
      decide
    · exact isSolid_of_isWordPart (isWordPart_of_mem_take hmem)
  · split at h
    · rename_i hw
      obtain ⟨rfl, rfl⟩ := Prod.mk.inj h
      rcases List.mem_cons.1 hmem with rfl | hmem
      · refine isSolid_of_isWordPart ?_
        rw [isWordPart, isAlphanumeric, ← Bool.or_assoc, hw, Bool.true_or]
      · exact isSolid_of_isWordPart (isWordPart_of_mem_take hmem)
    · split at h
      · obtain ⟨rfl, rfl⟩ := Prod.mk.inj h
        cases hk
      · split at h
        · obtain ⟨rfl, rfl⟩ := Prod.mk.inj h
          cases hk
        · split at h
          · obtain ⟨rfl, rfl⟩ := Prod.mk.inj h
            cases hk
          · unfold symbol at h
            split at h
            · rename_i sign kind hf
              obtain ⟨rfl, rfl⟩ := Prod.mk.inj h
              have hp := List.find?_some hf
              dsimp only at hp
              have hsign := List.prefix_iff_eq_take.1 (List.isPrefixOf_iff_prefix.1 hp)
              have hmem := List.mem_of_find?_eq_some hf
              -- an operator is not empty, and its last sign is solid
              have hne : ∀ e ∈ operators, e.1.toList.length ≠ 0 := by decide
              obtain ⟨n, hn⟩ := Nat.exists_eq_succ_of_ne_zero (hne _ hmem)
              refine isSolid_of_mem_operators hmem ?_
              rw [hsign, ← hd, hn, List.take_succ_cons, Nat.succ_sub_one]
            · obtain ⟨rfl, rfl⟩ := Prod.mk.inj h
              rw [List.take_zero] at hmem
              rw [List.mem_singleton.1 hmem]
              exact isSolid_of_punctuationKind hk

end Token

end EventLint
