import EventLint.Proofs.Opening

/-!
# Reading does not look at places

The reader of trees looks at the kinds and the texts of tokens and at nothing else. A relabelling
changes where tokens stand and what stands in front of them. Main statement: the tree of relabelled
tokens is the relabelled tree.
-/

namespace EventLint

/-! ## 1. Relabellings -/

/-- A change of tokens that keeps their kinds and their texts. -/
structure Relabelling where
  apply : Token → Token
  kind_apply : ∀ t, (apply t).kind = t.kind
  text_apply : ∀ t, (apply t).text = t.text

attribute [simp] Relabelling.kind_apply Relabelling.text_apply

namespace Tree

mutual

/-- The tree with other tokens as its leaves. -/
def map (f : Relabelling) : Tree → Tree
  | leaf t => leaf (f.apply t)
  | node k cs => node k (mapAll f cs)

def mapAll (f : Relabelling) : List Tree → List Tree
  | [] => []
  | c :: cs => c.map f :: mapAll f cs

end

variable (f : Relabelling)

@[simp] theorem map_leaf (t : Token) : (leaf t).map f = leaf (f.apply t) := by
  rw [map]

theorem mapAll_eq (cs : List Tree) : mapAll f cs = cs.map (map f) := by
  induction cs with
  | nil => rw [mapAll, List.map_nil]
  | cons c cs ih => rw [mapAll, List.map_cons, ih]

@[simp] theorem map_node (k : NodeKind) (cs : List Tree) :
    (node k cs).map f = node k (cs.map (map f)) := by
  rw [map, mapAll_eq]

/-- Trees that were read and the tokens that are left, relabelled. -/
def relabelled (r : List Tree × List Token) : List Tree × List Token :=
  (r.1.map (map f), r.2.map f.apply)

/-- A tree that was read and the tokens that are left, relabelled. -/
def relabelledOne (r : Tree × List Token) : Tree × List Token :=
  (r.1.map f, r.2.map f.apply)

@[simp] theorem relabelled_mk (ts : List Tree) (us : List Token) :
    relabelled f (ts, us) = (ts.map (map f), us.map f.apply) := rfl

@[simp] theorem relabelledOne_mk (t : Tree) (us : List Token) :
    relabelledOne f (t, us) = (t.map f, us.map f.apply) := rfl

@[simp] theorem relabelled_fst (r : List Tree × List Token) :
    (relabelled f r).1 = r.1.map (map f) := rfl

@[simp] theorem relabelled_snd (r : List Tree × List Token) :
    (relabelled f r).2 = r.2.map f.apply := rfl

@[simp] theorem relabelledOne_fst (r : Tree × List Token) : (relabelledOne f r).1 = r.1.map f := rfl

@[simp] theorem relabelledOne_snd (r : Tree × List Token) :
    (relabelledOne f r).2 = r.2.map f.apply := rfl

@[simp] theorem map_comp_leaf : map f ∘ leaf = leaf ∘ f.apply :=
  funext fun t => map_leaf f t

/-! ## 2. Runs of tokens -/

@[simp] theorem isWord_apply (t : Token) (words : List String) :
    (f.apply t).isWord words = t.isWord words := by
  simp [Token.isWord]

@[simp] theorem nextIs_map (k : TokenKind) (ts : List Token) :
    nextIs k (ts.map f.apply) = nextIs k ts := by
  cases ts <;> simp [nextIs]

@[simp] theorem closingExtent_map (d : Nat) (ts : List Token) :
    closingExtent d (ts.map f.apply) = closingExtent d ts := by
  fun_induction closingExtent d ts <;> simp_all [closingExtent]

@[simp] theorem optional_map (k : TokenKind) (ts : List Token) :
    optional k (ts.map f.apply) = relabelled f (optional k ts) := by
  cases ts with
  | nil => simp [optional]
  | cons t ts => by_cases h : t.kind = k <;> simp [optional, h]

@[simp] theorem attributes_map (ts : List Token) :
    attributes (ts.map f.apply) = relabelled f (attributes ts) := by
  induction ts using shorter_induction with
  | step ts ih =>
    cases ts with
    | nil => simp [attributes]
    | cons t ts =>
      by_cases ht : t.kind = .lbracket
      · have hrest := ih (ts.drop (closingExtent 1 ts)) (by grind)
        rw [List.map_cons, attributes_of_lbracket _ (by simpa), attributes_of_lbracket ts ht]
        simp [hrest, ← List.map_drop]
      · rw [List.map_cons, attributes_of_ne _ (by simpa), attributes_of_ne ts ht]
        simp

@[simp] theorem modifierExtent_map (ts : List Token) :
    modifierExtent (ts.map f.apply) = modifierExtent ts := by
  induction ts with
  | nil => rfl
  | cons t ts ih =>
    simp only [List.map_cons, modifierExtent, f.kind_apply, isWord_apply, List.head?_map,
      Option.any_map, ih]

@[simp] theorem modifiers_map (ts : List Token) :
    modifiers (ts.map f.apply) = relabelled f (modifiers ts) := by
  rw [modifiers_eq, modifiers_eq, modifierExtent_map]
  split <;> simp

@[simp] theorem leading_map (ts : List Token) :
    leading (ts.map f.apply) = relabelled f (leading ts) := by
  simp [leading]

@[simp] theorem opaqueExtent_map {continues : Token → Bool}
    (hc : ∀ t, continues (f.apply t) = continues t) (ts : List Token) :
    opaqueExtent continues (ts.map f.apply) = opaqueExtent continues ts := by
  induction ts using shorter_induction with
  | step ts ih =>
    cases ts with
    | nil => simp [opaqueExtent]
    | cons t ts =>
      rw [List.map_cons]
      rcases kind_cases t.kind with h | h | h | h | h
      · rw [opaqueExtent_of_semicolon _ _ (by simpa), opaqueExtent_of_semicolon _ _ h]
      · rw [opaqueExtent_of_rbrace _ _ (by simpa), opaqueExtent_of_rbrace _ _ h]
      · rw [opaqueExtent_of_group _ _ (by simpa), opaqueExtent_of_group _ _ h, closingExtent_map,
          ← List.map_drop, ih _ (by grind)]
      · rw [opaqueExtent_of_lbrace _ _ (by simpa), opaqueExtent_of_lbrace _ _ h, closingExtent_map,
          ← List.map_drop, ih _ (by grind), nextIs_map, List.head?_map, Option.any_map]
        simp only [hc]
      · rw [opaqueExtent_of_plain _ _ (by simpa), opaqueExtent_of_plain _ _ h, ih _ (by simp)]

@[simp] theorem memberExtent_map (ts : List Token) :
    memberExtent (ts.map f.apply) = memberExtent ts :=
  opaqueExtent_map f (fun t => by simp) ts

@[simp] theorem statementExtent_map (ts : List Token) :
    statementExtent (ts.map f.apply) = statementExtent ts :=
  opaqueExtent_map f (fun t => by simp) ts

@[simp] theorem qualifierExtent_map :
    ∀ ts : List Token, qualifierExtent (ts.map f.apply) = qualifierExtent ts
  | [] => rfl
  | [_] => rfl
  | a :: b :: ts => by simp [qualifierExtent, qualifierExtent_map ts]

@[simp] theorem qualifier_map (n : Nat) (ts : List Token) :
    qualifier n (ts.map f.apply) = (qualifier n ts).map (map f) := by
  rw [qualifier, qualifier]
  split <;> simp

/-! ## 3. Types -/

theorem typeMarks_map (type : Tree) (ts : List Token) :
    typeMarks (type.map f) (ts.map f.apply) = relabelledOne f (typeMarks type ts) := by
  fun_induction typeMarks type ts with
  | case1 type => simp [typeMarks]
  | case2 type t rest ht ih =>
    rw [← ih, List.map_cons, typeMarks, if_pos (by simpa)]
    simp
  | case3 type t rest hq ht n ih =>
    rw [← ih, List.map_cons, typeMarks, if_neg (by simpa), if_pos (by simpa using ht),
      closingExtent_map]
    simp [n]
  | case4 type t rest hq ht =>
    rw [List.map_cons, typeMarks, if_neg (by simpa), if_neg (by simpa using ht)]
    simp

@[simp] theorem joinsNames_apply (t : Token) : joinsNames (f.apply t) = joinsNames t := by
  simp [joinsNames]

theorem tupleOf_map (t : Token) (ts : List Token) :
    tupleOf (f.apply t) (ts.map f.apply) = (tupleOf t ts).map f := by
  simp [tupleOf]

/-- The four functions that read types read the same of relabelled tokens. -/
structure TypesMap (ts : List Token) : Prop where
  typeName? : typeName? (ts.map f.apply) = (Tree.typeName? ts).map (relabelledOne f)
  simpleName : ∀ name, simpleName (f.apply name) (ts.map f.apply) =
    relabelledOne f (Tree.simpleName name ts)
  nameTail : ∀ owner, nameTail (owner.map f) (ts.map f.apply) =
    relabelledOne f (Tree.nameTail owner ts)
  typeArguments? : typeArguments? (ts.map f.apply) =
    (Tree.typeArguments? ts).map (relabelled f)

section

-- the readers look at kinds only, which relabelling keeps
variable {f} {ts : List Token} (ih : ∀ us : List Token, us.length < ts.length → TypesMap f us)

include ih

theorem nameTail_relabelled (owner : Tree) :
    nameTail (owner.map f) (ts.map f.apply) = relabelledOne f (nameTail owner ts) := by
  rcases ts with _ | ⟨joint, _ | ⟨first, after⟩⟩
  · rfl
  · rfl
  · by_cases hj : (joinsNames joint && first.kind = .ident) = true
    · have hname := (ih after (by grind)).simpleName first
      have hle := simpleName_rest_le first after
      rw [List.map_cons, List.map_cons, nameTail_cons (by simpa using hj), nameTail_cons hj,
        hname, relabelledOne_fst, relabelledOne_snd, ← (ih _ (by grind)).nameTail]
      simp
    · rw [List.map_cons, List.map_cons, nameTail, if_neg (by simpa using hj), nameTail,
        if_neg hj]
      rfl

theorem simpleName_relabelled (name : Token) :
    simpleName (f.apply name) (ts.map f.apply) = relabelledOne f (simpleName name ts) := by
  cases ts with
  | nil => simp [simpleName]
  | cons t rest =>
    by_cases ht : t.kind = .lt
    · have hargs := (ih rest (by simp)).typeArguments?
      rw [List.map_cons, simpleName, if_pos (by simpa), hargs, simpleName, if_pos ht]
      cases typeArguments? rest <;> simp
    · rw [List.map_cons, simpleName, if_neg (by simpa), simpleName, if_neg ht]
      simp

theorem typeName?_relabelled :
    typeName? (ts.map f.apply) = (typeName? ts).map (relabelledOne f) := by
  cases ts with
  | nil => rw [List.map_nil, typeName?_nil]; rfl
  | cons t rest =>
    rw [List.map_cons]
    by_cases hi : t.kind = .ident
    · have hfirst := (ih rest (by simp)).simpleName t
      have hle := simpleName_rest_le t rest
      rw [typeName?_of_ident _ (by simpa), typeName?_of_ident rest hi, nameChain_eq,
        nameChain_eq, hfirst, relabelledOne_fst, relabelledOne_snd, qualified, qualified,
        (ih _ (by grind)).nameTail, relabelledOne_fst, relabelledOne_snd, typeMarks_map]
      rfl
    · by_cases hp : t.kind = .lparen
      · rw [typeName?_of_lparen _ (by simpa), typeName?_of_lparen rest hp, tupleOf_map,
          closingExtent_map, ← List.map_drop, (ih _ (by grind)).nameTail]
        dsimp only
        rw [relabelledOne_fst, relabelledOne_snd, typeMarks_map]
        rfl
      · rw [typeName?_of_ne _ (by simpa) (by simpa), typeName?_of_ne rest hi hp]
        rfl

theorem typeArguments?_relabelled :
    typeArguments? (ts.map f.apply) = (typeArguments? ts).map (relabelled f) := by
  rw [typeArguments?_eq, typeArguments?_eq, typeName?_relabelled ih]
  rcases htype : typeName? ts with _ | ⟨type, _ | ⟨t, after⟩⟩
  · rfl
  · rfl
  · have hlt := typeName?_rest_lt htype
    have hmore := (ih after (by rw [List.length_cons] at hlt; omega)).typeArguments?
    simp only [Option.map_some, relabelledOne_mk, List.map_cons, f.kind_apply, hmore]
    split
    · simp
    · split
      · cases typeArguments? after <;> simp
      · rfl

end

theorem typesMap (ts : List Token) : TypesMap f ts := by
  induction ts using shorter_induction with
  | step ts ih =>
    exact ⟨typeName?_relabelled ih, simpleName_relabelled ih, nameTail_relabelled ih,
      typeArguments?_relabelled ih⟩

theorem typeName?_map (ts : List Token) :
    typeName? (ts.map f.apply) = (typeName? ts).map (relabelledOne f) :=
  (typesMap f ts).typeName?

/-! ## 4. Expressions and statements -/

@[simp] theorem expressionExtent_map (stop : TokenKind → Bool) (d : Nat) (ts : List Token) :
    expressionExtent stop d (ts.map f.apply) = expressionExtent stop d ts := by
  induction ts generalizing d with
  | nil => rfl
  | cons t ts ih => simp only [List.map_cons, expressionExtent, f.kind_apply, ih]

@[simp] theorem isMemberTail_map :
    ∀ ts : List Token, isMemberTail (ts.map f.apply) = isMemberTail ts
  | [] => rfl
  | [_] => rfl
  | a :: b :: ts => by simp [isMemberTail, isMemberTail_map ts]

@[simp] theorem expressionKind_map :
    ∀ ts : List Token, expressionKind (ts.map f.apply) = expressionKind ts
  | [] => rfl
  | [t] => by simp [expressionKind]
  | t :: u :: ts => by
    have htail := isMemberTail_map f (u :: ts)
    rw [List.map_cons] at htail
    simp [expressionKind, htail]

@[simp] theorem expression_map (ts : List Token) :
    expression (ts.map f.apply) = (expression ts).map (map f) := by
  cases ts with
  | nil => rfl
  | cons t ts =>
    have hkind := expressionKind_map f (t :: ts)
    rw [List.map_cons] at hkind
    simp [expression, hkind]

@[simp] theorem assignment_map (ts : List Token) :
    assignment (ts.map f.apply) = relabelled f (assignment ts) := by
  simp only [assignment, expressionExtent_map, ← List.map_take, ← List.map_drop, expression_map]
  cases ts.drop (expressionExtent (fun k => k = .semicolon || k.isAssignment) 0 ts) with
  | nil => rfl
  | cons t rest =>
    simp only [List.map_cons, f.kind_apply, expressionExtent_map, ← List.map_take, ← List.map_drop,
      expression_map]
    split <;> simp

@[simp] theorem declaresLocal_map (named : Bool) (ts : List Token) :
    declaresLocal named (ts.map f.apply) = declaresLocal named ts := by
  induction ts generalizing named with
  | nil => rfl
  | cons t ts ih => simp only [List.map_cons, declaresLocal, f.kind_apply, ih]

@[simp] theorem isOpaqueStatement_map (t : Token) (rest : List Token) :
    isOpaqueStatement (f.apply t) (rest.map f.apply) = isOpaqueStatement t rest := by
  have hlocal := declaresLocal_map f false (t :: rest)
  rw [List.map_cons] at hlocal
  simp only [isOpaqueStatement, f.kind_apply, isWord_apply, hlocal]

@[simp] theorem simpleStatement_map (t : Token) (rest : List Token) :
    simpleStatement (f.apply t) (rest.map f.apply) = relabelledOne f (simpleStatement t rest) := by
  have hextent := statementExtent_map f (t :: rest)
  have hvalue := assignment_map f (t :: rest)
  rw [List.map_cons] at hextent hvalue
  simp only [simpleStatement, f.kind_apply, expressionExtent_map, ← List.map_take,
    ← List.map_drop, expression_map, optional_map, isOpaqueStatement_map, hextent, hvalue,
    relabelled_fst, relabelled_snd]
  split
  · simp
  · split
    · simp
    · rw [← List.map_append]
      cases (assignment (t :: rest)).1 ++ (optional .semicolon (assignment (t :: rest)).2).1 <;>
        simp

@[simp] theorem closeBlock_map (t : Token) (inner : List Tree × List Token) :
    closeBlock (f.apply t) (relabelled f inner) = relabelledOne f (closeBlock t inner) := by
  simp [closeBlock]

@[simp] theorem statements_map (ts : List Token) :
    statements (ts.map f.apply) = relabelled f (statements ts) := by
  induction ts using shorter_induction with
  | step ts ih =>
    cases ts with
    | nil => rw [List.map_nil, statements_nil]; rfl
    | cons t rest =>
      by_cases hc : t.kind = .rbrace
      · rw [List.map_cons, statements_of_rbrace _ (by simpa), statements_of_rbrace rest hc]
        rfl
      · -- a block is read by `statements` again, on fewer tokens
        have hfirst : statement (f.apply t) (rest.map f.apply) =
            relabelledOne f (statement t rest) := by
          simp only [statement, block, f.kind_apply, ih rest (by simp), closeBlock_map,
            simpleStatement_map]
          split <;> rfl
        have hlt := (reads_statement t rest).rest_lt
        rw [List.map_cons, statements_cons _ (by simpa), statements_cons rest hc, hfirst,
          relabelledOne_snd, ih _ hlt]
        simp

@[simp] theorem block_map (t : Token) (rest : List Token) :
    block (f.apply t) (rest.map f.apply) = relabelledOne f (block t rest) := by
  rw [block, block, statements_map, closeBlock_map]

@[simp] theorem arrowClause_map (t : Token) (rest : List Token) :
    arrowClause (f.apply t) (rest.map f.apply) = relabelledOne f (arrowClause t rest) := by
  simp [arrowClause]

@[simp] theorem body_map (ts : List Token) :
    body (ts.map f.apply) = relabelled f (body ts) := by
  cases ts with
  | nil => rfl
  | cons t rest =>
    simp only [List.map_cons, body, f.kind_apply, block_map, arrowClause_map, relabelledOne_snd,
      optional_map, relabelledOne_fst, relabelled_fst, relabelled_snd]
    split <;> simp

/-! ## 5. Members -/

@[simp] theorem declarator_map (name : Token) (ts : List Token) :
    declarator (f.apply name) (ts.map f.apply) = relabelledOne f (declarator name ts) := by
  cases ts with
  | nil => simp [declarator]
  | cons t rest =>
    simp only [List.map_cons, declarator, f.kind_apply, expressionExtent_map, ← List.map_take,
      ← List.map_drop, expression_map]
    split <;> simp

@[simp] theorem declarators_map (ts : List Token) :
    declarators (ts.map f.apply) = relabelled f (declarators ts) := by
  induction ts using shorter_induction with
  | step ts ih =>
    cases ts with
    | nil => rw [List.map_nil, declarators]; rfl
    | cons t rest =>
      by_cases hi : t.kind = .ident
      · have hle := declarator_rest_le t rest
        rw [List.map_cons, declarators_of_ident _ (by simpa), declarators_of_ident rest hi,
          declarator_map, relabelledOne_fst, relabelledOne_snd]
        -- a comma behind the name leads to the next one
        cases hd : (declarator t rest).2 with
        | nil => rfl
        | cons comma after =>
          rw [hd, List.length_cons] at hle
          have hmore := ih after (by rw [List.length_cons]; omega)
          simp only [List.map_cons, f.kind_apply, hmore]
          split <;> simp
      · rw [List.map_cons, declarators_of_ne _ (by simpa), declarators_of_ne rest hi]
        rfl

@[simp] theorem accessor_map (t : Token) (rest : List Token) :
    accessor (f.apply t) (rest.map f.apply) = relabelledOne f (accessor t rest) := by
  have hlead := leading_map f (t :: rest)
  rw [List.map_cons] at hlead
  simp only [accessor, hlead, relabelled_fst, relabelled_snd, optional_map, body_map,
    ← List.map_append]
  cases (leading (t :: rest)).1 ++ (optional .ident (leading (t :: rest)).2).1 ++
    (body (optional .ident (leading (t :: rest)).2).2).1 <;> simp

@[simp] theorem accessors_map (ts : List Token) :
    accessors (ts.map f.apply) = relabelled f (accessors ts) := by
  induction ts using shorter_induction with
  | step ts ih =>
    cases ts with
    | nil => rw [List.map_nil, accessors]; rfl
    | cons t rest =>
      by_cases hc : t.kind = .rbrace
      · rw [List.map_cons, accessors_of_rbrace _ (by simpa), accessors_of_rbrace rest hc]
        rfl
      · have hlt := (reads_accessor t rest).rest_lt
        rw [List.map_cons, accessors_cons _ (by simpa), accessors_cons rest hc, accessor_map,
          relabelledOne_snd, ih _ hlt]
        simp

@[simp] theorem accessorList_map (t : Token) (rest : List Token) :
    accessorList (f.apply t) (rest.map f.apply) = relabelledOne f (accessorList t rest) := by
  simp [accessorList]

theorem accessorHead?_map (ts : List Token) :
    accessorHead? (ts.map f.apply) =
      (accessorHead? ts).map fun r => (f.apply r.1, f.apply r.2.1, r.2.2.map f.apply) := by
  simp only [accessorHead?, qualifierExtent_map, ← List.map_drop]
  rcases ts.drop (qualifierExtent ts) with _ | ⟨name, _ | ⟨opening, after⟩⟩
  · rfl
  · rfl
  · simp only [List.map_cons, f.kind_apply]
    split <;> rfl

theorem fieldEvent_map (lead : List Tree) (keyword : Token) (type : Tree) (ts : List Token) :
    fieldEvent (lead.map (map f)) (f.apply keyword) (type.map f) (ts.map f.apply) =
      relabelledOne f (fieldEvent lead keyword type ts) := by
  simp only [fieldEvent, declarators_map, relabelled_fst, relabelled_snd, nextIs_map, optional_map,
    memberExtent_map]
  split <;> simp

@[simp] theorem event_map (lead : List Tree) (keyword : Token) (ts : List Token) :
    event (lead.map (map f)) (f.apply keyword) (ts.map f.apply) =
      relabelledOne f (event lead keyword ts) := by
  rw [event_eq, event_eq, typeName?_map]
  rcases typeName? ts with _ | ⟨type, rest⟩
  · simp
  · simp only [Option.map_some, relabelledOne_mk, accessorHead?_map]
    rcases accessorHead? rest with _ | ⟨name, opening, after⟩
    · exact fieldEvent_map f lead keyword type rest
    · simp

@[simp] theorem parameterModifierExtent_map (ts : List Token) :
    parameterModifierExtent (ts.map f.apply) = parameterModifierExtent ts := by
  induction ts with
  | nil => rfl
  | cons t ts ih =>
    simp only [List.map_cons, parameterModifierExtent, f.kind_apply, isWord_apply, ih]

@[simp] theorem typedName_map (ts : List Token) :
    typedName (ts.map f.apply) = relabelled f (typedName ts) := by
  rw [typedName, typedName, typeName?_map]
  rcases typeName? ts with _ | ⟨type, _ | ⟨name, rest⟩⟩
  · rfl
  · rfl
  · simp only [Option.map_some, relabelledOne_mk, List.map_cons, f.kind_apply]
    split <;> simp

@[simp] theorem parameter_map (ts : List Token) :
    parameter (ts.map f.apply) = relabelled f (parameter ts) := by
  simp only [parameter, attributes_map, relabelled_fst, relabelled_snd, parameterModifierExtent_map,
    ← List.map_take, ← List.map_drop, typedName_map, expressionExtent_map, expression_map,
    List.map_map, ← map_comp_leaf]
  rw [← List.map_map, ← List.map_append, ← List.map_append, ← List.map_append]
  generalize (attributes ts).1 ++ _ ++ _ ++ _ = parts
  cases parts <;> simp

@[simp] theorem parameters_map (ts : List Token) :
    parameters (ts.map f.apply) = relabelled f (parameters ts) := by
  induction ts using shorter_induction with
  | step ts ih =>
    by_cases he : (ts.isEmpty || nextIs .rparen ts) = true
    · rw [parameters_of_end (by simpa using he), parameters_of_end he]
      rfl
    · have hle := (reads_parameter ts).rest_le
      rw [parameters_cons (by simpa using he), parameters_cons he, parameter_map, relabelled_fst,
        relabelled_snd]
      -- what stands behind a parameter is shorter, a comma taken off it
      cases hp : (parameter ts).2 with
      | nil => rfl
      | cons comma after =>
        rw [hp, List.length_cons] at hle
        have hmore := ih after (by omega)
        simp only [List.map_cons, f.kind_apply, hmore]
        split <;> simp

@[simp] theorem parameterList_map (t : Token) (rest : List Token) :
    parameterList (f.apply t) (rest.map f.apply) = relabelledOne f (parameterList t rest) := by
  simp [parameterList]

@[simp] theorem angleExtent_map (d : Nat) (ts : List Token) :
    angleExtent d (ts.map f.apply) = angleExtent d ts := by
  fun_induction angleExtent d ts <;> simp_all [angleExtent]

@[simp] theorem opensParameters_map (ts : List Token) :
    opensParameters (ts.map f.apply) = opensParameters ts := by
  rw [opensParameters, opensParameters, ← List.map_tail, angleExtent_map, ← List.map_drop,
    nextIs_map, nextIs_map, nextIs_map]

/-- A test that looks at kinds and texts cuts relabelled tokens at the same place. -/
theorem cut_map {p : Token → Bool} (hp : ∀ t, p (f.apply t) = p t) (ts : List Token) :
    (ts.map f.apply).takeWhile p = (ts.takeWhile p).map f.apply ∧
      (ts.map f.apply).dropWhile p = (ts.dropWhile p).map f.apply := by
  rw [List.takeWhile_map, List.dropWhile_map, show p ∘ f.apply = p from funext hp]
  exact ⟨rfl, rfl⟩

@[simp] theorem typeParameters_map (ts : List Token) :
    typeParameters (ts.map f.apply) = relabelled f (typeParameters ts) := by
  obtain ⟨htake, hdrop⟩ := cut_map f (p := fun t => t.kind ≠ .lparen) (fun t => by simp) ts
  simp only [typeParameters, nextIs_map, htake, hdrop]
  split <;> simp

@[simp] theorem methodRest_map (ts : List Token) :
    methodRest (ts.map f.apply) = relabelled f (methodRest ts) := by
  cases ts with
  | nil => rfl
  | cons t rest =>
    obtain ⟨htake, hdrop⟩ := cut_map f (p := isConstraintToken)
      (fun t => by simp [isConstraintToken]) (parameterList t rest).2
    simp [methodRest, htake, hdrop]

theorem methodHead?_map (ts : List Token) :
    methodHead? (ts.map f.apply) =
      (methodHead? ts).map fun r => (f.apply r.1, r.2.map f.apply) := by
  simp only [methodHead?, qualifierExtent_map, ← List.map_drop]
  cases ts.drop (qualifierExtent ts) with
  | nil => rfl
  | cons name after =>
    simp only [List.map_cons, f.kind_apply, opensParameters_map]
    split <;> rfl

theorem method?_map (ts : List Token) :
    method? (ts.map f.apply) = (method? ts).map (relabelled f) := by
  rw [method?_eq, method?_eq, typeName?_map]
  rcases typeName? ts with _ | ⟨type, rest⟩
  · rfl
  · simp only [Option.map_some, relabelledOne_mk, methodHead?_map]
    rcases methodHead? rest with _ | ⟨name, after⟩
    · rfl
    · simp

/-! ## 6. Declarations -/

@[simp] theorem throughSemicolon_map (ts : List Token) :
    throughSemicolon (ts.map f.apply) = throughSemicolon ts := by
  induction ts with
  | nil => rfl
  | cons t ts ih => simp only [List.map_cons, throughSemicolon, f.kind_apply, ih]

@[simp] theorem typeKind?_map (t : Token) (rest : List Token) :
    typeKind? (f.apply t) (rest.map f.apply) = typeKind? t rest := by
  simp only [typeKind?, f.kind_apply, isWord_apply, nextIs_map]

@[simp] theorem headerExtent_map (ts : List Token) :
    headerExtent (ts.map f.apply) = headerExtent ts := by
  induction ts using shorter_induction with
  | step ts ih =>
    cases ts with
    | nil => rfl
    | cons t ts =>
      have hstop : t.kind = .lbrace ∨ t.kind = .semicolon ∨ t.kind = .rbrace →
          headerExtent ((t :: ts).map f.apply) = headerExtent (t :: ts) := by
        intro h
        rw [List.map_cons, headerExtent_of_stop _ (by simpa), headerExtent_of_stop _ h]
      rcases kind_cases t.kind with h | h | h | h | h
      · exact hstop (Or.inr (Or.inl h))
      · exact hstop (Or.inr (Or.inr h))
      · rw [List.map_cons, headerExtent_of_group _ (by simpa), headerExtent_of_group _ h,
          closingExtent_map, ← List.map_drop, ih _ (by grind)]
      · exact hstop (Or.inl h)
      · rw [List.map_cons, headerExtent_of_plain _ (by simpa), headerExtent_of_plain _ h,
          ih _ (by simp)]

/-- The start of a declaration, relabelled. -/
def Opening.map : Opening → Opening
  | .whole tree rest => .whole (tree.map f) (rest.map f.apply)
  | .container kind parts scope rest =>
    .container kind (parts.map (Tree.map f)) scope (rest.map f.apply)

theorem openNamespace_map (t : Token) (ts : List Token) :
    openNamespace (f.apply t) (ts.map f.apply) = (openNamespace t ts).map f := by
  obtain ⟨htake, hdrop⟩ := cut_map f (p := isNamePart) (fun t => by simp [isNamePart]) ts
  simp only [openNamespace, htake, hdrop]
  cases ts.dropWhile isNamePart with
  | nil => simp [Opening.map]
  | cons u rest =>
    simp only [List.map_cons, f.kind_apply]
    split
    · simp [Opening.map]
    · split <;> simp [Opening.map]

theorem openType_map (kind : NodeKind) (lead : List Tree) (t : Token) (ts : List Token) :
    openType kind (lead.map (map f)) (f.apply t) (ts.map f.apply) =
      (openType kind lead t ts).map f := by
  simp only [openType, headerExtent_map, ← List.map_drop, ← List.map_take]
  cases ts.drop (headerExtent ts) with
  | nil => simp [Opening.map]
  | cons u rest =>
    have hclose := optional_map f .semicolon (u :: rest)
    rw [List.map_cons] at hclose
    simp only [List.map_cons, f.kind_apply, closingExtent_map, hclose, ← List.map_drop,
      ← List.map_take, optional_map]
    split
    · simp [Opening.map]
    · split <;> simp [Opening.map]

theorem member_map (lead : List Tree) (ts : List Token) :
    member (lead.map (map f)) (ts.map f.apply) = (member lead ts).map f := by
  have hextent : otherExtent (lead.map (map f)) (ts.map f.apply) = otherExtent lead ts := by
    simp [otherExtent]
  have hmethod := method?_map f ts
  cases ts with
  | nil => simp [member, Opening.map]
  | cons t rest =>
    simp only [List.map_cons] at hextent hmethod ⊢
    simp only [member, f.kind_apply, event_map, typeKind?_map, hmethod, hextent]
    split
    · rfl
    · cases typeKind? t rest with
      | some kind => exact openType_map f kind lead t rest
      | none =>
        cases method? (t :: rest) with
        | some r => simp [Opening.map]
        | none => simp [Opening.map, ← List.map_cons, ← List.map_take, ← List.map_drop]

theorem openDeclaration_map (scope : Scope) (t : Token) (rest : List Token) :
    openDeclaration scope (f.apply t) (rest.map f.apply) =
      (openDeclaration scope t rest).map f := by
  have hlead := leading_map f (t :: rest)
  rw [List.map_cons] at hlead
  simp only [openDeclaration, f.kind_apply, nextIs_map, throughSemicolon_map, openNamespace_map,
    openMember_eq, hlead, relabelled_fst, relabelled_snd, member_map]
  split
  · simp [Opening.map]
  · split
    · rfl
    · split
      · simp [Opening.map]
      · rfl

theorem closeContainer_map (kind : NodeKind) (parts : List Tree) (scope : Scope)
    (inner : List Tree × List Token) :
    closeContainer kind (parts.map (map f)) scope (relabelled f inner) =
      relabelledOne f (closeContainer kind parts scope inner) := by
  cases scope <;> simp [closeContainer]

theorem declarations_map (scope : Scope) (ts : List Token) :
    declarations scope (ts.map f.apply) = relabelled f (declarations scope ts) := by
  induction ts using shorter_induction generalizing scope with
  | step ts ih =>
    cases ts with
    | nil => rw [List.map_nil, declarations_nil]; rfl
    | cons t rest =>
      cases he : scope.endsAt t.kind with
      | true =>
        rw [List.map_cons, declarations_of_endsAt _ (by simpa), declarations_of_endsAt rest he]
        rfl
      | false =>
        -- a container reads its members from the tokens behind its opening
        have hfirst : declaration scope (f.apply t) (rest.map f.apply) =
            relabelledOne f (declaration scope t rest) := by
          rw [declaration, declaration, openDeclaration_map]
          cases ho : openDeclaration scope t rest with
          | whole tree after => rfl
          | container kind parts inner after =>
            have hle := openDeclaration_rest_le ho
            dsimp only [Opening.map]
            rw [ih after (by rw [List.length_cons]; omega), closeContainer_map]
        have hlt := (declares_declaration scope t rest).rest_lt
        rw [List.map_cons, declarations_cons _ (by simpa), declarations_cons rest he, hfirst,
          relabelledOne_snd, ih _ hlt]
        simp

/-- The tree of relabelled tokens is the relabelled tree. -/
theorem ofTokens_map (ts : List Token) : ofTokens (ts.map f.apply) = (ofTokens ts).map f := by
  simp [ofTokens, declarations_map]

end Tree

end EventLint
