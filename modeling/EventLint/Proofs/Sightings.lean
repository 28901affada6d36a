import EventLint.Proofs.Layout
import EventLint.Proofs.Reported

/-!
# Events as they are seen

A few things decide whether an event is reported and under which name: its rule, its line, how often
it says `virtual` and whether an interface is around it. Main statements: these depend on the kinds,
the texts and the lines of the tokens alone, and the diagnostics of a text are those of the events
that they decide for, in order.
-/

namespace EventLint

/-! ## 1. Sightings -/

/-- What decides whether an event is reported. -/
structure Sighting where
  rule : Rule
  name : Text
  line : Nat
  /-- How often its modifiers say `virtual`. -/
  virtuals : Nat
  /-- An interface is around it. -/
  hidden : Bool
deriving DecidableEq, Repr

namespace Sighting

/-- One `virtual` less. -/
def less (s : Sighting) : Sighting :=
  { s with virtuals := s.virtuals - 1 }

/-- The event further down. -/
def lower (n : Nat) (s : Sighting) : Sighting :=
  { s with line := s.line + n }

/-- The event is not to be reported, virtual or not. -/
def isSilent (settings : Settings) (suppressed : Suppression.Lines) (s : Sighting) : Bool :=
  s.hidden || (suppressed.suppresses s.line s.rule.id.toList || settings.ignores s.rule.id)

def isReported (settings : Settings) (suppressed : Suppression.Lines) (s : Sighting) : Bool :=
  0 < s.virtuals && !s.isSilent settings suppressed

/-- What is seen of the face of an event, where `line` numbers the lines. -/
def ofFace (line : Nat → Nat) (hidden : Bool) (face : Rule × Token × List Token) : Sighting where
  rule := face.1
  name := face.2.1.text
  line := line face.2.1.start
  virtuals := face.2.2.countP (·.kind = .keyword .virtualKw)
  hidden := hidden

end Sighting

def Event.sighting (line : Nat → Nat) (hidden : Bool) (e : Event) : Sighting :=
  .ofFace line hidden e.face

theorem Event.isVirtual_iff_virtuals (line : Nat → Nat) (hidden : Bool) (e : Event) :
    e.isVirtual = true ↔ 0 < (e.sighting line hidden).virtuals := by
  rw [isVirtual, modifier?, List.find?_isSome]
  exact List.countP_pos_iff.symm

/-- A relabelling that puts the line of a token in the place of its start. -/
def Relabelling.lined (line : Nat → Nat) : Relabelling where
  apply t := { t with leading := [], start := line t.start }
  kind_apply _ := rfl
  text_apply _ := rfl

namespace Tree

/-- What is seen of an event member, tagged with whether an interface is around it. -/
def sighting? (line : Nat → Nat) (x : Bool × Tree) : Option Sighting :=
  (Event.ofTree? x.2).map (Event.sighting line x.1)

/-! ## 2. What sightings depend on -/

section

variable (f : Relabelling)

/-- An event member with other tokens. -/
def mapTagged (x : Bool × Tree) : Bool × Tree :=
  (x.1, x.2.map f)

mutual

theorem taggedEvents_map (hidden : Bool) :
    ∀ t : Tree, (t.map f).taggedEvents hidden = (t.taggedEvents hidden).map (mapTagged f)
  | leaf _ => by rw [map_leaf, taggedEvents, taggedEvents, List.map_nil]
  | node k cs => by
    rw [map_node, taggedEvents, taggedEvents]
    split
    · rw [List.map_singleton, mapTagged, map_node]
    · exact taggedEventsAll_map _ cs

theorem taggedEventsAll_map (hidden : Bool) : ∀ cs : List Tree,
    taggedEventsAll hidden (cs.map (map f)) = (taggedEventsAll hidden cs).map (mapTagged f)
  | [] => by rw [List.map_nil, taggedEventsAll, List.map_nil]
  | c :: cs => by
    rw [List.map_cons, taggedEventsAll, taggedEventsAll, List.map_append, taggedEvents_map,
      taggedEventsAll_map]

end

theorem afterClose_map (s : Scope) (ts : List Token) :
    afterClose s (ts.map f.apply) = (afterClose s ts).map f.apply := by
  cases s <;> simp [afterClose, optional_map]

theorem taggedFrom_map (ls : List Level) (ts : List Token) :
    taggedFrom ls (ts.map f.apply) = (taggedFrom ls ts).map (mapTagged f) := by
  induction ls generalizing ts with
  | nil => rfl
  | cons l ls ih =>
    rw [taggedFrom, taggedFrom, declarations_map, relabelled_fst, relabelled_snd,
      taggedEventsAll_map, afterClose_map, ih, List.map_append]

end

theorem sighting?_lined (line : Nat → Nat) (x : Bool × Tree) :
    sighting? id (mapTagged (.lined line) x) = sighting? line x := by
  have hface : Event.sighting id x.1 = Sighting.ofFace id x.1 ∘ Event.face := rfl
  rw [sighting?, sighting?, mapTagged, hface, ← Option.map_map, Event.face_ofTree?_map,
    Option.map_map]
  refine congrArg (Option.map · (Event.ofTree? x.2)) (funext fun e => ?_)
  simp only [Function.comp_apply, Event.sighting, Event.face, Sighting.ofFace, List.countP_map]
  rfl

/-- Tokens that show the same on the same lines have the same events to be seen. -/
theorem sightings_of_lined {ts us : List Token} {line line' : Nat → Nat}
    (h : ts.map (Relabelling.lined line).apply = us.map (Relabelling.lined line').apply)
    (ls : List Level) :
    (taggedFrom ls ts).filterMap (sighting? line) =
      (taggedFrom ls us).filterMap (sighting? line') := by
  have hlined : ∀ (line : Nat → Nat) (ts : List Token),
      (taggedFrom ls (ts.map (Relabelling.lined line).apply)).filterMap (sighting? id) =
        (taggedFrom ls ts).filterMap (sighting? line) := fun line ts => by
    rw [taggedFrom_map, List.filterMap_map]
    exact List.filterMap_congr fun x _ => sighting?_lined line x
  rw [← hlined line, ← hlined line', h]

/-- The lines of the tokens further down are those of the events. -/
theorem sightings_lower (line : Nat → Nat) (n : Nat) (xs : List (Bool × Tree)) :
    xs.filterMap (sighting? fun offset => line offset + n) =
      (xs.filterMap (sighting? line)).map (Sighting.lower n) := by
  rw [List.map_filterMap]
  refine List.filterMap_congr fun x _ => ?_
  rw [sighting?, sighting?, Option.map_map]
  rfl

/-! ## 3. What is reported -/

mutual

theorem fst_of_mem_taggedEvents : ∀ (t : Tree) {x : Bool × Tree}, x ∈ t.taggedEvents true →
    x.1 = true
  | leaf _, _, h => by
    rw [taggedEvents] at h
    cases h
  | node k cs, _, h => by
    rw [taggedEvents] at h
    split at h
    · rw [List.mem_singleton.1 h]
    · rw [Bool.true_or] at h
      exact fst_of_mem_taggedEventsAll cs h

theorem fst_of_mem_taggedEventsAll : ∀ (cs : List Tree) {x : Bool × Tree},
    x ∈ taggedEventsAll true cs → x.1 = true
  | [], _, h => by
    rw [taggedEventsAll] at h
    cases h
  | c :: cs, _, h => by
    rw [taggedEventsAll, List.mem_append] at h
    exact h.elim (fst_of_mem_taggedEvents c) (fst_of_mem_taggedEventsAll cs)

end

/-- The event of a member that is virtual and outside interfaces. -/
def virtualEvent? (x : Bool × Tree) : Option Event :=
  if x.1 then none else (Event.ofTree? x.2).filter Event.isVirtual

mutual

theorem filterMap_virtualEvent? :
    ∀ t : Tree, (t.taggedEvents false).filterMap virtualEvent? = t.virtualEvents
  | leaf _ => by rw [taggedEvents, virtualEvents, List.filterMap_nil]
  | node k cs => by
    rw [taggedEvents, virtualEvents, Bool.false_or]
    split
    · rw [List.filterMap_cons, List.filterMap_nil, virtualEvent?]
      cases (Event.ofTree? (node k cs)).filter Event.isVirtual <;> rfl
    · split
      · rename_i hk
        refine List.filterMap_eq_nil_iff.2 fun x hx => ?_
        rw [decide_eq_true hk] at hx
        rw [virtualEvent?, fst_of_mem_taggedEventsAll cs hx, if_pos rfl]
      · rename_i hk
        rw [decide_eq_false hk]
        exact filterMap_virtualEvent?All cs

theorem filterMap_virtualEvent?All :
    ∀ cs : List Tree, (taggedEventsAll false cs).filterMap virtualEvent? = virtualEventsAll cs
  | [] => by rw [taggedEventsAll, virtualEventsAll, List.filterMap_nil]
  | c :: cs => by
    rw [taggedEventsAll, virtualEventsAll, List.filterMap_append, filterMap_virtualEvent?,
      filterMap_virtualEvent?All]

end

end Tree

namespace Document

open EventLint.Tree Token

/-- The event members of a text, tagged with whether an interface is around them. -/
def members (text : Text) : List (Bool × Tree) :=
  (ofTokens (scan text)).taggedEvents false

/-- What is seen of an event member of a text. -/
def sightingIn? (text : Text) : Bool × Tree → Option Sighting :=
  sighting? (LineIndex.ofText text).line

/-- The event of a member of a text if it is reported. -/
def reportedIn? (settings : Settings) (text : Text) (x : Bool × Tree) : Option Event :=
  (Event.ofTree? x.2).filter fun e =>
    (e.sighting (LineIndex.ofText text).line x.1).isReported settings (Suppression.ofText text)

theorem isReported_sighting (settings : Settings) (file : String) (text : Text) (hidden : Bool)
    (e : Event) :
    (e.sighting (LineIndex.ofText text).line hidden).isReported settings (Suppression.ofText text) =
      (e.isVirtual && (!hidden && (ofText text).keeps settings file e)) := by
  have hvirtual : decide (0 < (e.sighting (LineIndex.ofText text).line hidden).virtuals) =
      e.isVirtual := by
    rw [Bool.eq_iff_iff, decide_eq_true_eq]
    exact (e.isVirtual_iff_virtuals _ hidden).symm
  rw [Sighting.isReported, hvirtual, Sighting.isSilent, Bool.not_or, Bool.not_or]
  rfl

/-- A virtual event outside interfaces is reported if its diagnostic is kept. -/
theorem reportedIn?_eq (settings : Settings) (file : String) (text : Text) (x : Bool × Tree) :
    reportedIn? settings text x =
      (virtualEvent? x).filter ((ofText text).keeps settings file) := by
  rw [reportedIn?, virtualEvent?]
  simp only [isReported_sighting settings file]
  cases Event.ofTree? x.2 with
  | none => split <;> rfl
  | some e => cases x.1 <;> cases hv : e.isVirtual <;> simp [Option.filter, hv]

/-- The diagnostics of a text are those of the members that are reported, in order. -/
theorem diagnostics_members (settings : Settings) (file : String) (text : Text) :
    (ofText text).diagnostics settings file =
      ((members text).filterMap (reportedIn? settings text)).map fun e =>
        e.diagnostic settings.messages file (ofText text).lineIndex := by
  rw [diagnostics_eq_map_filter]
  refine congrArg (List.map _) ?_
  show ((ofTokens (scan text)).virtualEvents).filter _ = _
  rw [← filterMap_virtualEvent?, List.filter_filterMap]
  exact List.filterMap_congr fun x _ => (reportedIn?_eq settings file text x).symm

end Document

end EventLint
