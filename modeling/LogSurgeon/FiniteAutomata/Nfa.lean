import LogSurgeon.FiniteAutomata.RegexAST

/-!
# The tagged NFA

`Nfa` and its operations are those of `Nfa.hpp` and `NfaState.hpp`, and
`RegexAST.addToNfa` is the `add_to_nfa` of every node class.  A pointer to a
state is the index of the state in `states`, which is also its id.

The source builds a sub-automaton from the current root of the NFA to an end
state that the caller supplies.  The root is a field of the NFA that the nodes
set and restore, so the model keeps it as a field too.

The flag `multi_valued` of a tag operation is left out, since only the
serialisation reads it, and with it the argument `descendent_of_repetition`,
which does nothing else.  The interval tree is left out because a byte state
has none.
-/

namespace LogSurgeon

/-! ## Tag operations and states -/

inductive TagOperationType where
  | set
  | negate
deriving DecidableEq, Repr

/-- An operation on a tag. -/
structure TagOperation where
  tagId : Nat
  type : TagOperationType
deriving DecidableEq, Repr

/-- A transition without input, with the operations that it performs. -/
structure NfaSpontaneousTransition where
  tagOps : List TagOperation
  destState : Nat
deriving DecidableEq, Repr

/-- A state.  `byteTransitions` lists the pairs of a byte and a target in the
order in which they were pushed to the 256 vectors of the source. -/
structure NfaState where
  id : Nat
  accepting : Bool := false
  matchingVariableId : Nat := 0
  spontaneousTransitions : List NfaSpontaneousTransition := []
  byteTransitions : List (Nat × Nat) := []
deriving DecidableEq, Repr

namespace NfaState

def addSpontaneousTransition (s : NfaState) (tagOps : List TagOperation) (destState : Nat) :
    NfaState :=
  { s with spontaneousTransitions := s.spontaneousTransitions ++ [⟨tagOps, destState⟩] }

/-- The transitions of `add_interval`.  Code points that are no byte get
none. -/
def addInterval (s : NfaState) (interval : Range) (destState : Nat) : NfaState :=
  let bound := min interval.2 (cSizeOfByte - 1)
  { s with
    byteTransitions := s.byteTransitions ++
      (List.range' interval.1 (bound + 1 - interval.1)).map (·, destState) }

/-- The targets of the byte, in the order in which they were added. -/
def getByteTransitions (s : NfaState) (byte : Nat) : List Nat :=
  (s.byteTransitions.filter (·.1 = byte)).map (·.2)

end NfaState

/-! ## The NFA -/

/-- The states, the tags of the captures, the current root, and the number of
tags in use. -/
structure Nfa where
  states : List NfaState
  captureToTagIdPair : List (Capture × (Nat × Nat))
  root : Nat
  numTags : Nat
deriving DecidableEq, Repr

namespace Nfa

/-- The state behind a pointer. -/
def state? (nfa : Nfa) (p : Nat) : Option NfaState := nfa.states[p]?

def setRoot (nfa : Nfa) (root : Nat) : Nfa := { nfa with root := root }

/-- Changes the state behind a pointer. -/
def modifyState (nfa : Nfa) (p : Nat) (f : NfaState → NfaState) : Nfa :=
  { nfa with states := nfa.states.modify p f }

/-- Appends a state made from its id.  The result holds a pointer to it. -/
def pushState (nfa : Nfa) (make : Nat → NfaState) : Nfa × Nat :=
  ({ nfa with states := nfa.states ++ [make nfa.states.length] }, nfa.states.length)

def newState (nfa : Nfa) : Nfa × Nat := nfa.pushState fun id => { id := id }

def newAcceptingState (nfa : Nfa) (matchingVariableId : Nat) : Nfa × Nat :=
  nfa.pushState fun id =>
    { id := id, accepting := true, matchingVariableId := matchingVariableId }

/-- The start tag and the end tag of a capture, made on first use. -/
def getOrCreateCaptureTagPair (nfa : Nfa) (capture : Capture) : Nfa × (Nat × Nat) :=
  match nfa.captureToTagIdPair.lookup capture with
  | some pair => (nfa, pair)
  | none =>
    let pair := (nfa.numTags, nfa.numTags + 1)
    ({ nfa with
        captureToTagIdPair := nfa.captureToTagIdPair ++ [(capture, pair)]
        numTags := nfa.numTags + 2 }, pair)

/-- The tags of the captures, in order. -/
def captureTags (nfa : Nfa) : List Capture → Nfa × List Nat
  | [] => (nfa, [])
  | capture :: captures =>
    let (nfa, pair) := nfa.getOrCreateCaptureTagPair capture
    let (nfa, tags) := nfa.captureTags captures
    (nfa, pair.1 :: pair.2 :: tags)

/-- A new state that negates the tags of `captures` on its way to
`destState`. -/
def newStateFromNegativeCaptures (nfa : Nfa) (captures : List Capture) (destState : Nat) :
    Nfa × Nat :=
  let (nfa, tags) := nfa.captureTags captures
  nfa.pushState fun id =>
    { id := id, spontaneousTransitions := [⟨tags.map (⟨·, .negate⟩), destState⟩] }

/-- The start state and the end state of a capture.  The root sets the start
tag on its way to the start state, and the end state sets the end tag on its
way to `destState`. -/
def newStartAndEndStatesFromPositiveCapture (nfa : Nfa) (capture : Capture)
    (destState : Nat) : Nfa × (Nat × Nat) :=
  let (nfa, pair) := nfa.getOrCreateCaptureTagPair capture
  let (nfa, startState) := nfa.newState
  let nfa := nfa.modifyState nfa.root (·.addSpontaneousTransition [⟨pair.1, .set⟩] startState)
  let (nfa, endState) := nfa.pushState fun id =>
    { id := id, spontaneousTransitions := [⟨[⟨pair.2, .set⟩], destState⟩] }
  (nfa, (startState, endState))

/-- Adds a transition without tag operations from the root. -/
def addRootSpontaneousTransition (nfa : Nfa) (destState : Nat) : Nfa :=
  nfa.modifyState nfa.root (·.addSpontaneousTransition [] destState)

def addRootInterval (nfa : Nfa) (interval : Range) (destState : Nat) : Nfa :=
  nfa.modifyState nfa.root (·.addInterval interval destState)

/-- `add_to_nfa_with_negative_captures`, given the negative captures and the
`add_to_nfa` of the node. -/
def addWithNegativeCaptures (neg : List Capture) (add : Nfa → Nat → Nfa)
    (nfa : Nfa) (endState : Nat) : Nfa :=
  if neg = [] then add nfa endState
  else
    let (nfa, state) := nfa.newStateFromNegativeCaptures neg endState
    add nfa state

/-- Adds `count` copies in sequence.  Every copy ends in a new state that
becomes the root. -/
def addCopies (add : Nfa → Nat → Nfa) : Nat → Nfa → Nfa
  | 0, nfa => nfa
  | count + 1, nfa =>
    let (nfa, intermediateState) := nfa.newState
    addCopies add count ((add nfa intermediateState).setRoot intermediateState)

/-- Adds `count` copies in sequence, each of which may also end in
`endState`. -/
def addOptionalCopies (add : Nfa → Nat → Nfa) (endState : Nat) : Nat → Nfa → Nfa
  | 0, nfa => nfa
  | count + 1, nfa =>
    let nfa := add nfa endState
    let (nfa, intermediateState) := nfa.newState
    addOptionalCopies add endState count
      ((add nfa intermediateState).setRoot intermediateState)

/-- `RegexASTMultiplication::add_to_nfa`, given the `add_to_nfa` of the
operand with its negative captures. -/
def addMultiplication (add : Nfa → Nat → Nfa) (min max : Nat) (nfa : Nfa) (endState : Nat) :
    Nfa :=
  let savedRoot := nfa.root
  let nfa :=
    if min = 0 then nfa.addRootSpontaneousTransition endState
    else add (addCopies add (min - 1) nfa) endState
  let nfa :=
    if max = 0 then add (nfa.setRoot endState) endState
    else if min < max then
      let nfa := if min = 0 then nfa else addCopies add 1 nfa
      add (addOptionalCopies add endState (max - (min + 1)) nfa) endState
    else nfa
  nfa.setRoot savedRoot

end Nfa

/-- `add_to_nfa` of every node class. -/
def RegexAST.addToNfa : RegexAST → Nfa → Nat → Nfa
  | empty _, nfa, endState => nfa.addRootSpontaneousTransition endState
  | literal _ c, nfa, endState => nfa.addRootInterval (c, c) endState
  | group _ g, nfa, endState =>
    g.transitionRanges.foldl (fun nfa range => nfa.addRootInterval range endState) nfa
  | or _ l r, nfa, endState =>
    let nfa := Nfa.addWithNegativeCaptures l.negativeCaptures l.addToNfa nfa endState
    Nfa.addWithNegativeCaptures r.negativeCaptures r.addToNfa nfa endState
  | cat _ l r, nfa, endState =>
    let savedRoot := nfa.root
    let (nfa, intermediateState) := nfa.newState
    let nfa := Nfa.addWithNegativeCaptures l.negativeCaptures l.addToNfa nfa intermediateState
    let nfa := nfa.setRoot intermediateState
    let nfa := Nfa.addWithNegativeCaptures r.negativeCaptures r.addToNfa nfa endState
    nfa.setRoot savedRoot
  | multiplication _ r min max, nfa, endState =>
    Nfa.addMultiplication (Nfa.addWithNegativeCaptures r.negativeCaptures r.addToNfa)
      min max nfa endState
  | capture _ r c, nfa, destState =>
    let (nfa, captureStates) := nfa.newStartAndEndStatesFromPositiveCapture c destState
    let initialRoot := nfa.root
    let nfa := nfa.setRoot captureStates.1
    let nfa := Nfa.addWithNegativeCaptures r.negativeCaptures r.addToNfa nfa captureStates.2
    nfa.setRoot initialRoot

def RegexAST.addToNfaWithNegativeCaptures (r : RegexAST) : Nfa → Nat → Nfa :=
  Nfa.addWithNegativeCaptures r.negativeCaptures r.addToNfa

/-! ## Lexical rules -/

/-- A rule of the schema: the id of its variable and its regular expression. -/
structure LexicalRule where
  variableId : Nat
  regex : RegexAST
deriving DecidableEq, Repr

namespace LexicalRule

def getCaptures (rule : LexicalRule) : List Capture := rule.regex.subtreePositiveCaptures

def addToNfa (rule : LexicalRule) (nfa : Nfa) : Nfa :=
  let (nfa, endState) := nfa.newAcceptingState rule.variableId
  rule.regex.addToNfaWithNegativeCaptures nfa endState

end LexicalRule

namespace Nfa

/-- The NFA with its first state and no rule. -/
def initial : Nfa :=
  { states := [{ id := 0 }], captureToTagIdPair := [], root := 0, numTags := 0 }

/-- The constructor of the NFA. -/
def ofRules (rules : List LexicalRule) : Nfa :=
  rules.foldl (fun nfa rule => rule.addToNfa nfa) initial

/-- The accepting state that `ofRules` creates for rule `i`. -/
def acceptingStateOf (rules : List LexicalRule) (i : Nat) : Nat :=
  (ofRules (rules.take i)).states.length

end Nfa

end LogSurgeon
