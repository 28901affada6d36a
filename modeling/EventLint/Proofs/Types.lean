import EventLint.Tree.TypeName
import Mathlib.Data.List.Basic

/-!
# How types are read

The functions that read types call each other and stop where nothing was read. Something always is,
so they satisfy plain equations, and what holds of all shorter lists of tokens may be assumed when
it is proved of a list.
-/

namespace EventLint.Tree

/-! ## 1. The first token decides -/

/-- A tuple: a parenthesis and what it encloses. -/
def tupleOf (opening : Token) (ts : List Token) : Tree :=
  node .tupleType ((opening :: ts.take (closingExtent 1 ts)).map leaf)

/-- The names joined to `owner`. -/
def nameTail (owner : Tree) (ts : List Token) : Tree × List Token :=
  match ts with
  | joint :: first :: after =>
    if joinsNames joint && first.kind = .ident then nameChain (some (owner, joint)) first after
    else (owner, ts)
  | _ => (owner, ts)

theorem typeName?_nil : typeName? [] = none := by
  rw [typeName?]

theorem typeName?_of_ident {t : Token} (rest : List Token) (ht : t.kind = .ident) :
    typeName? (t :: rest) =
      some (typeMarks (nameChain none t rest).1 (nameChain none t rest).2) := by
  rw [typeName?, if_pos ht]

theorem typeName?_of_lparen {t : Token} (rest : List Token) (ht : t.kind = .lparen) :
    typeName? (t :: rest) =
      let name := nameTail (tupleOf t rest) (rest.drop (closingExtent 1 rest))
      some (typeMarks name.1 name.2) := by
  rw [typeName?, if_neg (by rw [ht]; decide), if_pos ht]
  dsimp only
  split
  · rename_i joint first after heq
    rw [heq, nameTail]
    split <;> rfl
  · rename_i heq
    rw [nameTail]
    · rfl
    · exact heq

theorem typeName?_of_ne {t : Token} (rest : List Token) (hi : t.kind ≠ .ident)
    (hp : t.kind ≠ .lparen) : typeName? (t :: rest) = none := by
  rw [typeName?, if_neg hi, if_neg hp]

/-! ## 2. Something is read -/

theorem typeMarks_rest_le (type : Tree) (ts : List Token) :
    (typeMarks type ts).2.length ≤ ts.length := by
  fun_induction typeMarks type ts with
  | case1 => exact Nat.le_refl _
  | case2 type t rest _ ih => exact Nat.le_succ_of_le ih
  | case3 type t rest _ _ n ih =>
    rw [List.length_drop] at ih
    rw [List.length_cons]
    omega
  | case4 => exact Nat.le_refl _

theorem rest_le_of_typeMarks {name type : Tree} {ts rest : List Token}
    (h : some (typeMarks name ts) = some (type, rest)) : rest.length ≤ ts.length := by
  have hle := typeMarks_rest_le name ts
  rw [Option.some.inj h] at hle
  exact hle

/-- What is left is shorter, along the calls of the four functions. -/
theorem types_rest_le :
    (∀ ts type rest, typeName? ts = some (type, rest) → rest.length < ts.length) ∧
    (∀ left first ts, (nameChain left first ts).2.length ≤ ts.length) ∧
    (∀ name ts, (simpleName name ts).2.length ≤ ts.length) ∧
    (∀ ts args rest, typeArguments? ts = some (args, rest) → rest.length < ts.length) := by
  apply typeName?.mutual_induct
    (fun ts => ∀ type rest, typeName? ts = some (type, rest) → rest.length < ts.length)
    (fun left first ts => (nameChain left first ts).2.length ≤ ts.length)
    (fun name ts => (simpleName name ts).2.length ≤ ts.length)
    (fun ts => ∀ args rest, typeArguments? ts = some (args, rest) → rest.length < ts.length)
  case case1 =>
    intro type rest h
    rw [typeName?_nil] at h
    cases h
  case case2 =>
    intro t rest ht name after _ ih type rest' h
    rw [typeName?_of_ident rest ht] at h
    exact Nat.lt_succ_of_le (Nat.le_trans (rest_le_of_typeMarks h) ih)
  case case3 =>
    intro t rest _ hp n tuple joint first after hd hlt hj name after' _ ih type rest' h
    rw [typeName?_of_lparen rest hp, hd, nameTail, if_pos hj] at h
    have hle : rest'.length ≤ after.length := Nat.le_trans (rest_le_of_typeMarks h) ih
    rw [List.length_cons]
    omega
  case case4 =>
    intro t rest _ hp n joint first after hd _ hj type rest' h
    rw [typeName?_of_lparen rest hp, hd, nameTail, if_neg hj, ← hd] at h
    have hle := rest_le_of_typeMarks h
    rw [List.length_drop] at hle
    rw [List.length_cons]
    omega
  case case5 =>
    intro t rest _ hp n hd type rest' h
    rw [typeName?_of_lparen rest hp, nameTail] at h
    · have hle := rest_le_of_typeMarks h
      rw [List.length_drop] at hle
      rw [List.length_cons]
      omega
    · exact hd
  case case6 =>
    intro t rest hi hp type rest' h
    rw [typeName?_of_ne rest hi hp] at h
    cases h
  -- the other cases follow from the calls, whose rests are shorter by hypothesis
  all_goals intros
  all_goals first
    | grind [nameChain]
    | grind [simpleName]
    | grind [typeArguments?]

theorem simpleName_rest_le (name : Token) (ts : List Token) :
    (simpleName name ts).2.length ≤ ts.length :=
  types_rest_le.2.2.1 name ts

theorem typeName?_rest_lt {ts rest : List Token} {type : Tree}
    (h : typeName? ts = some (type, rest)) : rest.length < ts.length :=
  types_rest_le.1 ts type rest h

/-! ## 3. Plain equations -/

theorem nameChain_eq (left : Option (Tree × Token)) (first : Token) (ts : List Token) :
    nameChain left first ts =
      nameTail (qualified left (simpleName first ts).1) (simpleName first ts).2 := by
  have hle := simpleName_rest_le first ts
  rw [nameChain]
  rcases hs : simpleName first ts with ⟨name, rest⟩
  rw [hs] at hle
  dsimp only at hle ⊢
  split
  · rename_i joint next after
    rw [List.length_cons, List.length_cons] at hle
    rw [nameTail]
    simp only [Bool.and_eq_true, decide_eq_true_eq, show after.length < ts.length by omega,
      and_true]
  · rename_i h
    rw [nameTail]
    exact h

theorem nameTail_cons {owner : Tree} {joint first : Token} {after : List Token}
    (h : (joinsNames joint && first.kind = .ident) = true) :
    nameTail owner (joint :: first :: after) =
      nameTail (node .qualifiedName [owner, leaf joint, (simpleName first after).1])
        (simpleName first after).2 := by
  rw [nameTail, if_pos h, nameChain_eq]
  rfl

theorem typeArguments?_eq (ts : List Token) :
    typeArguments? ts =
      match typeName? ts with
      | none => none
      | some (_, []) => none
      | some (type, t :: after) =>
        if t.kind = .gt then some ([type, leaf t], after)
        else if t.kind = .comma then
          (typeArguments? after).map fun r => (type :: leaf t :: r.1, r.2)
        else none := by
  rw [typeArguments?]
  rcases h : typeName? ts with _ | ⟨type, _ | ⟨t, after⟩⟩
  · rfl
  · rfl
  · have hlt := typeName?_rest_lt h
    rw [List.length_cons] at hlt
    simp only [show after.length < ts.length by omega, and_true]
    split
    · rfl
    · split
      · cases typeArguments? after <;> rfl
      · rfl

/-- What holds of a list if it holds of all shorter ones holds of every list. -/
theorem shorter_induction {motive : List Token → Prop}
    (step : ∀ ts, (∀ us : List Token, us.length < ts.length → motive us) → motive ts)
    (ts : List Token) : motive ts := by
  induction hl : ts.length using Nat.strongRecOn generalizing ts with
  | ind l ih =>
    subst hl
    exact step ts fun us hus => ih us.length hus us rfl

/-! ## 4. One induction for the readers of types -/

/-- Relations between the tokens in front, what is read from them and the tokens left, kept by each
step of the four functions: `T` for types, `N` for the names joined to an owner, `S` for a name
whose first token is taken, `A` for type arguments behind their bracket. -/
structure TypeSteps (T : List Token → Tree → List Token → Prop)
    (N : Tree → List Token → Tree → List Token → Prop)
    (S : Token → List Token → Tree → List Token → Prop)
    (A : List Token → List Tree → List Token → Prop) : Prop where
  named {t : Token} {ts us rest : List Token} {first name : Tree} : t.kind = .ident →
    S t ts first us → N first us name rest →
      T (t :: ts) (typeMarks name rest).1 (typeMarks name rest).2
  tuple {t : Token} {ts rest : List Token} {name : Tree} : t.kind = .lparen →
    N (tupleOf t ts) (ts.drop (closingExtent 1 ts)) name rest →
      T (t :: ts) (typeMarks name rest).1 (typeMarks name rest).2
  stop (owner : Tree) (ts : List Token) : N owner ts owner ts
  join {owner next name : Tree} {joint first : Token} {after us rest : List Token} :
    joinsNames joint = true → first.kind = .ident → S first after next us →
      N (node .qualifiedName [owner, leaf joint, next]) us name rest →
        N owner (joint :: first :: after) name rest
  plain (name : Token) (ts : List Token) : S name ts (node .identifierName [leaf name]) ts
  generic {name t : Token} {ts rest : List Token} {args : List Tree} : t.kind = .lt →
    A ts args rest →
      S name (t :: ts) (node .genericName [leaf name, node .typeArgumentList (leaf t :: args)]) rest
  last {t : Token} {ts rest : List Token} {type : Tree} : t.kind = .gt → T ts type (t :: rest) →
    A ts [type, leaf t] rest
  more {t : Token} {ts after rest : List Token} {type : Tree} {args : List Tree} :
    t.kind = .comma → T ts type (t :: after) → A after args rest →
      A ts (type :: leaf t :: args) rest

namespace TypeSteps

variable {T : List Token → Tree → List Token → Prop}
  {N : Tree → List Token → Tree → List Token → Prop}
  {S : Token → List Token → Tree → List Token → Prop}
  {A : List Token → List Tree → List Token → Prop}

/-- What steps keep holds of everything that is read. -/
theorem all (steps : TypeSteps T N S A) (ts : List Token) :
    (∀ type rest, typeName? ts = some (type, rest) → T ts type rest) ∧
    (∀ owner, N owner ts (nameTail owner ts).1 (nameTail owner ts).2) ∧
    (∀ name, S name ts (simpleName name ts).1 (simpleName name ts).2) ∧
    (∀ args rest, typeArguments? ts = some (args, rest) → A ts args rest) := by
  -- all calls are on shorter lists but one: arguments start with a type at the same tokens, so the
  -- type comes first
  induction ts using shorter_induction with
  | step ts ih =>
    have htype : ∀ type rest, typeName? ts = some (type, rest) → T ts type rest := by
      intro type rest h
      cases ts with
      | nil =>
        rw [typeName?_nil] at h
        cases h
      | cons t ts =>
        have hlt : ts.length < (t :: ts).length := Nat.lt_succ_self _
        by_cases hi : t.kind = .ident
        · rw [typeName?_of_ident ts hi, nameChain_eq] at h
          obtain ⟨rfl, rfl⟩ := Prod.mk.inj (Option.some.inj h)
          refine steps.named hi ((ih ts hlt).2.2.1 t) ((ih _ ?_).2.1 _)
          exact Nat.lt_of_le_of_lt (simpleName_rest_le t ts) hlt
        · by_cases hp : t.kind = .lparen
          · rw [typeName?_of_lparen ts hp] at h
            obtain ⟨rfl, rfl⟩ := Prod.mk.inj (Option.some.inj h)
            refine steps.tuple hp ((ih _ ?_).2.1 _)
            rw [List.length_drop]
            omega
          · rw [typeName?_of_ne ts hi hp] at h
            cases h
    refine ⟨htype, ?_, ?_, ?_⟩
    · intro owner
      rcases ts with _ | ⟨joint, _ | ⟨first, after⟩⟩
      · exact steps.stop owner []
      · exact steps.stop owner [joint]
      · have hlt : after.length < (joint :: first :: after).length := by
          rw [List.length_cons, List.length_cons]
          omega
        by_cases hj : (joinsNames joint && first.kind = .ident) = true
        · rw [nameTail_cons hj]
          rw [Bool.and_eq_true, decide_eq_true_eq] at hj
          refine steps.join hj.1 hj.2 ((ih after hlt).2.2.1 first) ((ih _ ?_).2.1 _)
          exact Nat.lt_of_le_of_lt (simpleName_rest_le first after) hlt
        · rw [nameTail, if_neg hj]
          exact steps.stop owner _
    · intro name
      cases ts with
      | nil =>
        rw [simpleName]
        exact steps.plain name []
      | cons t ts =>
        rw [simpleName]
        split
        · rename_i ht
          cases hargs : typeArguments? ts with
          | none => exact steps.plain name _
          | some r => exact steps.generic ht ((ih ts (Nat.lt_succ_self _)).2.2.2 r.1 r.2 hargs)
        · exact steps.plain name _
    · intro args rest h
      rw [typeArguments?_eq] at h
      rcases ht : typeName? ts with _ | ⟨type, _ | ⟨t, after⟩⟩
      · rw [ht] at h
        cases h
      · rw [ht] at h
        cases h
      · have hlt := typeName?_rest_lt ht
        rw [List.length_cons] at hlt
        rw [ht] at h
        dsimp only at h
        split at h
        · rename_i hg
          obtain ⟨rfl, rfl⟩ := Prod.mk.inj (Option.some.inj h)
          exact steps.last hg (htype _ _ ht)
        · split at h
          · rename_i hc
            obtain ⟨r, hr, he⟩ := Option.map_eq_some_iff.1 h
            obtain ⟨rfl, rfl⟩ := Prod.mk.inj he
            exact steps.more hc (htype _ _ ht) ((ih after (by omega)).2.2.2 r.1 r.2 hr)
          · cases h

theorem typeName? (steps : TypeSteps T N S A) {ts rest : List Token} {type : Tree}
    (h : Tree.typeName? ts = some (type, rest)) : T ts type rest :=
  (steps.all ts).1 type rest h

theorem nameTail (steps : TypeSteps T N S A) (owner : Tree) (ts : List Token) :
    N owner ts (Tree.nameTail owner ts).1 (Tree.nameTail owner ts).2 :=
  (steps.all ts).2.1 owner

theorem simpleName (steps : TypeSteps T N S A) (name : Token) (ts : List Token) :
    S name ts (Tree.simpleName name ts).1 (Tree.simpleName name ts).2 :=
  (steps.all ts).2.2.1 name

theorem typeArguments? (steps : TypeSteps T N S A) {ts rest : List Token} {args : List Tree}
    (h : Tree.typeArguments? ts = some (args, rest)) : A ts args rest :=
  (steps.all ts).2.2.2 args rest h

end TypeSteps

end EventLint.Tree
