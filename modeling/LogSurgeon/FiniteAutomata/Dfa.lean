import LogSurgeon.FiniteAutomata.DeterminizationConfiguration
import LogSurgeon.FiniteAutomata.RegisterHandler

/-!
# The DFA

`generate` is the worklist of `Dfa.hpp` that turns the tagged NFA into a DFA.
The state of a set of configurations is the index of the state in `states`.

* `getTransitions` follows the bytes out of a set, and gives the tags with
  operations new registers, one for each tag and explored set.
* `tryGetMapping` looks for a renaming of registers that sends every
  configuration of a set to one of an existing set.
* `createOrGetDfaState` uses such a set in place of the new one.

`reassign_transition_reg_ops` visits an unordered map, whose order is the
parameter `regMapOrder`.  The worklist need not end, so `generate` takes a
number of steps and is `none` when they are used up.
-/

namespace LogSurgeon

open Lib

/-! ## States -/

structure DfaTransition where
  regOps : List RegisterOperation
  destState : Nat
deriving DecidableEq

/-- A state.  `bytesTransition` holds the bytes that have a transition. -/
structure DfaState where
  matchingVariableIds : List Nat := []
  acceptingOps : List RegisterOperation := []
  bytesTransition : OrderedMap Nat DfaTransition := OrderedMap.empty
deriving DecidableEq

namespace DfaState

def addMatchingVariableId (s : DfaState) (variableId : Nat) : DfaState :=
  { s with matchingVariableIds := s.matchingVariableIds ++ [variableId] }

def isAccepting (s : DfaState) : Bool := s.matchingVariableIds ≠ []

def addByteTransition (s : DfaState) (byte : Nat) (transition : DfaTransition) : DfaState :=
  { s with bytesTransition := s.bytesTransition.insertOrAssign byte transition }

def addAcceptingOp (s : DfaState) (regOp : RegisterOperation) : DfaState :=
  { s with acceptingOps := s.acceptingOps ++ [regOp] }

def getTransition (s : DfaState) (byte : Nat) : Option DfaTransition :=
  s.bytesTransition.find? byte

end DfaState

structure Dfa where
  states : List DfaState
  tagIdToFinalRegId : OrderedMap Nat Nat
  regHandler : RegisterHandler

namespace Dfa

def state? (dfa : Dfa) (p : Nat) : Option DfaState := dfa.states[p]?

def getRoot (_ : Dfa) : Nat := 0

/-! ## Registers -/

/-- The tags with an operation in the explored set, and the register that each
was given. -/
abbrev TagIdWithOpToRegId := OrderedMap Nat Nat

/-- What `assign_transition_reg_ops` changes: the registers, the register of
each tag with an operation, and the operations collected so far. -/
structure Assignment where
  regHandler : RegisterHandler
  tagIdWithOpToRegId : TagIdWithOpToRegId
  regOps : List RegisterOperation := []

namespace Assignment

/-- The register of a tag with an operation, added on first use. -/
def getOrAddRegister (st : Assignment) (tagId : Nat) : Assignment × Nat :=
  match st.tagIdWithOpToRegId.find? tagId with
  | some regId => (st, regId)
  | none =>
    let (regHandler, regId) := st.regHandler.addRegister
    ({ st with
        regHandler := regHandler
        tagIdWithOpToRegId := st.tagIdWithOpToRegId.insertOrAssign tagId regId }, regId)

/-- Adds the operation on the register, unless the register has one. -/
def addRegOp (st : Assignment) (regId : Nat) (type : TagOperationType) : Assignment :=
  if st.regOps.any (·.regId = regId) then st
  else
    match type with
    | .set => { st with regOps := st.regOps ++ [.createSetOperation regId] }
    | .negate => { st with regOps := st.regOps ++ [.createNegateOperation regId] }

/-- The body of the loop over the tags. -/
def assignTag (st : Assignment × DeterminizationConfiguration) (tagId : Nat) :
    Assignment × DeterminizationConfiguration :=
  match st.2.getTagHistory tagId with
  | some tagOp =>
    let (assignment, regId) := st.1.getOrAddRegister tagId
    (assignment.addRegOp regId tagOp.type, st.2.setRegId tagId regId)
  | none => st

/-- The loop over the tags. -/
def assignTags (numTags : Nat) (st : Assignment) (config : DeterminizationConfiguration) :
    Assignment × DeterminizationConfiguration :=
  (List.range numTags).foldl assignTag (st, config)

/-- The loop over the configurations. -/
def assignConfigurations (numTags : Nat) (st : Assignment)
    (closure : List DeterminizationConfiguration) (newClosure : ConfigurationSet) :
    Assignment × ConfigurationSet :=
  closure.foldl
    (fun st config =>
      let (assignment, config) := st.1.assignTags numTags config
      (assignment, st.2.insert config))
    (st, newClosure)

/-- Gives the tags in the histories of the closure their registers. -/
def assignTransitionRegOps (numTags : Nat) (st : Assignment) (closure : ConfigurationSet) :
    Assignment × ConfigurationSet :=
  ({ st with regOps := [] } : Assignment).assignConfigurations numTags closure.toList
    OrderedSet.empty

end Assignment

/-! ## Transitions of a set of configurations -/

abbrev AsciiTransitionsMap := OrderedMap Nat (List RegisterOperation × ConfigurationSet)

/-- The operations of the byte with the new ones that it does not have. -/
def addRegOps (byteRegOps newRegOps : List RegisterOperation) : List RegisterOperation :=
  newRegOps.foldl
    (fun byteRegOps newRegOp =>
      if newRegOp ∈ byteRegOps then byteRegOps else byteRegOps ++ [newRegOp])
    byteRegOps

/-- Adds the operations and the configurations to those of the byte. -/
def addAsciiTransition (asciiTransitionsMap : AsciiTransitionsMap) (byte : Nat)
    (newRegOps : List RegisterOperation) (closure : ConfigurationSet) : AsciiTransitionsMap :=
  match asciiTransitionsMap.find? byte with
  | some (byteRegOps, configSet) =>
    asciiTransitionsMap.insertOrAssign byte
      (addRegOps byteRegOps newRegOps, configSet.insertAll closure.toList)
  | none => asciiTransitionsMap.insertOrAssign byte (newRegOps, closure)

/-- The configurations, bytes and next NFA states in the order of the three
loops of `get_transitions`. -/
def transitionSteps (nfa : Nfa) (configSet : ConfigurationSet) :
    List (DeterminizationConfiguration × Nat × Nat) :=
  configSet.toList.flatMap fun configuration =>
    match nfa.state? configuration.nfaState with
    | some nfaState =>
      (List.range cSizeOfByte).flatMap fun byte =>
        (nfaState.getByteTransitions byte).map fun next => (configuration, byte, next)
    | none => []

/-- The configuration behind a byte, before its closure. -/
def nextConfiguration (configuration : DeterminizationConfiguration) (nextNfaState : Nat) :
    DeterminizationConfiguration where
  nfaState := nextNfaState
  tagIdToRegIds := configuration.tagIdToRegIds
  history := configuration.lookahead
  lookahead := []

/-- The body of the loops of `get_transitions`. -/
def transitionStep (nfa : Nfa) (fuel numTags : Nat) (st : Assignment × AsciiTransitionsMap)
    (step : DeterminizationConfiguration × Nat × Nat) :
    Option (Assignment × AsciiTransitionsMap) := do
  let closure ← (nextConfiguration step.1 step.2.2).spontaneousClosure nfa fuel
  let (assignment, closure) := st.1.assignTransitionRegOps numTags closure
  some (assignment, addAsciiTransition st.2 step.2.1 assignment.regOps closure)

/-- The transitions of the set, and the register handler with the registers
that were added. -/
def getTransitions (nfa : Nfa) (fuel numTags : Nat) (regHandler : RegisterHandler)
    (configSet : ConfigurationSet) : Option (RegisterHandler × AsciiTransitionsMap) := do
  let (assignment, asciiTransitionsMap) ←
    (transitionSteps nfa configSet).foldlM (transitionStep nfa fuel numTags)
      (({ regHandler := regHandler, tagIdWithOpToRegId := OrderedMap.empty } : Assignment),
        OrderedMap.empty)
  some (assignment.regHandler, asciiTransitionsMap)

/-! ## Mappings between sets -/

/-- The renaming of registers that is being built, in both directions. -/
structure RegMaps where
  lhsToRhs : List (Nat × Nat) := []
  rhsToLhs : List (Nat × Nat) := []
deriving DecidableEq

/-- Maps one register to another, unless one of them is mapped already.  If
they are mapped to each other nothing changes, and otherwise there is no
mapping. -/
def RegMaps.match (maps : RegMaps) (lhsRegId rhsRegId : Nat) : Option RegMaps :=
  match maps.lhsToRhs.lookup lhsRegId, maps.rhsToLhs.lookup rhsRegId with
  | none, none =>
    some { lhsToRhs := maps.lhsToRhs ++ [(lhsRegId, rhsRegId)]
           rhsToLhs := maps.rhsToLhs ++ [(rhsRegId, lhsRegId)] }
  | some rhs, some lhs => if rhs = rhsRegId ∧ lhs = lhsRegId then some maps else none
  | _, _ => none

/-- The loop over the tags of `configLhs`.  Every configuration has a register
for every tag, so `at` does not throw. -/
def matchRegisters (configLhs configRhs : DeterminizationConfiguration) :
    List (Nat × Nat) → RegMaps → Option RegMaps
  | [], maps => some maps
  | (tagId, lhsRegId) :: tags, maps =>
    if (configLhs.getTagLookahead tagId).isSome then
      matchRegisters configLhs configRhs tags maps
    else
      match configRhs.tagIdToRegIds.find? tagId with
      | some rhsRegId =>
        match maps.match lhsRegId rhsRegId with
        | some maps => matchRegisters configLhs configRhs tags maps
        | none => none
      | none => none

/-- `configLhs` and `configRhs` have the same NFA state and lookahead. -/
def Comparable (configLhs configRhs : DeterminizationConfiguration) : Prop :=
  configLhs.nfaState = configRhs.nfaState ∧ configLhs.lookahead = configRhs.lookahead

instance : DecidableRel Comparable := fun _ _ => inferInstanceAs (Decidable (_ ∧ _))

/-- The loop over `lhs`.  Only the first comparable configuration of `rhs` is
tried. -/
def matchConfigurations (rhs : ConfigurationSet) :
    List DeterminizationConfiguration → RegMaps → Option RegMaps
  | [], maps => some maps
  | configLhs :: lhs, maps =>
    match rhs.toList.find? fun configRhs => Comparable configLhs configRhs with
    | some configRhs =>
      match matchRegisters configLhs configRhs configLhs.tagIdToRegIds.toList maps with
      | some maps => matchConfigurations rhs lhs maps
      | none => none
    | none => none

/-- A renaming of registers that sends every configuration of `lhs` to one of
`rhs`. -/
def tryGetMapping (lhs rhs : ConfigurationSet) : Option (List (Nat × Nat)) :=
  if lhs.size ≠ rhs.size then none
  else (matchConfigurations rhs lhs.toList {}).map (·.lhsToRhs)

/-! ## Creating states -/

/-- The operation of `new_state` on the final register of a tag. -/
def acceptingOp (config : DeterminizationConfiguration) (tagId finalRegId : Nat) :
    Option RegisterOperation :=
  match config.getTagLookahead tagId with
  | some tagOp =>
    match tagOp.type with
    | .set => some (.createSetOperation finalRegId)
    | .negate => some (.createNegateOperation finalRegId)
  | none => (config.tagIdToRegIds.find? tagId).map (.createCopyOperation finalRegId)

/-- The variable and the operations that an accepting configuration adds. -/
def addConfiguration (nfa : Nfa) (tagIdToFinalRegId : OrderedMap Nat Nat) (s : DfaState)
    (config : DeterminizationConfiguration) : DfaState :=
  match nfa.state? config.nfaState with
  | some nfaState =>
    if nfaState.accepting then
      (tagIdToFinalRegId.toList.filterMap fun tag => acceptingOp config tag.1 tag.2).foldl
        (·.addAcceptingOp) (s.addMatchingVariableId nfaState.matchingVariableId)
    else s
  | none => s

/-- The state that `new_state` makes for a set. -/
def newState (nfa : Nfa) (tagIdToFinalRegId : OrderedMap Nat Nat)
    (configSet : ConfigurationSet) : DfaState :=
  configSet.toList.foldl (addConfiguration nfa tagIdToFinalRegId) {}

/-- The DFA under construction, the states of the sets, and the sets that are
still to be explored. -/
structure Determinization where
  dfa : Dfa
  dfaStates : OrderedMap ConfigurationSet Nat
  unexploredSets : List ConfigurationSet

namespace Determinization

/-- The state of the set, and the renaming when an existing set takes its
place. -/
def createOrGetDfaState (nfa : Nfa) (g : Determinization) (configSet : ConfigurationSet) :
    Determinization × Nat × Option (List (Nat × Nat)) :=
  match g.dfaStates.find? configSet with
  | some dfaState => (g, dfaState, none)
  | none =>
    match g.dfaStates.toList.findSome? fun entry =>
        (tryGetMapping configSet entry.1).map fun regMap => (entry.2, regMap) with
    | some (dfaState, regMap) => (g, dfaState, some regMap)
    | none =>
      let dfaState := g.dfa.states.length
      ({ dfa := { g.dfa with
            states := g.dfa.states ++ [newState nfa g.dfa.tagIdToFinalRegId configSet] }
         dfaStates := g.dfaStates.insertOrAssign configSet dfaState
         unexploredSets := g.unexploredSets ++ [configSet] }, dfaState, none)

/-- Moves the first operation on the old register to the new one, or else adds
a copy. -/
def reassignRegOp (regOps : List RegisterOperation) (entry : Nat × Nat) :
    List RegisterOperation :=
  if entry.1 = entry.2 then regOps
  else
    match regOps.findIdx? (·.regId = entry.1) with
    | some i => regOps.modify i (·.setRegId entry.2)
    | none => regOps ++ [.createCopyOperation entry.2 entry.1]

def reassignTransitionRegOps (regMap : List (Nat × Nat)) (regOps : List RegisterOperation) :
    List RegisterOperation :=
  regMap.foldl reassignRegOp regOps

/-- The body of the loop over the transitions of an explored set. -/
def addTransition (nfa : Nfa) (regMapOrder : List (Nat × Nat) → List (Nat × Nat))
    (source : Nat) (g : Determinization)
    (transition : Nat × List RegisterOperation × ConfigurationSet) : Determinization :=
  let (g, destState, optionalRegMap) := g.createOrGetDfaState nfa transition.2.2
  let regOps :=
    match optionalRegMap with
    | some regMap => reassignTransitionRegOps (regMapOrder regMap) transition.2.1
    | none => transition.2.1
  { g with
    dfa := { g.dfa with
      states := g.dfa.states.modify source
        (·.addByteTransition transition.1 ⟨regOps, destState⟩) } }

/-- The body of the worklist loop for the set at the front of the queue. -/
def explore (nfa : Nfa) (regMapOrder : List (Nat × Nat) → List (Nat × Nat)) (fuel : Nat)
    (g : Determinization) (configSet : ConfigurationSet) : Option Determinization := do
  let source ← g.dfaStates.find? configSet
  let (regHandler, transitions) ←
    getTransitions nfa fuel nfa.numTags g.dfa.regHandler configSet
  some (transitions.toList.foldl (addTransition nfa regMapOrder source)
    { g with dfa := { g.dfa with regHandler := regHandler } })

/-- The worklist loop, for at most `steps` sets. -/
def loop (nfa : Nfa) (regMapOrder : List (Nat × Nat) → List (Nat × Nat)) (fuel : Nat) :
    Nat → Determinization → Option Determinization
  | steps, g =>
    match g.unexploredSets, steps with
    | [], _ => some g
    | _ :: _, 0 => none
    | configSet :: unexploredSets, steps + 1 => do
      let g ← explore nfa regMapOrder fuel { g with unexploredSets := unexploredSets } configSet
      loop nfa regMapOrder fuel steps g

end Determinization

/-! ## Generation -/

/-- The registers that the tags start with. -/
def tagIdToInitialRegId (numTags : Nat) : OrderedMap Nat Nat :=
  (List.range numTags).foldl (fun map i => map.insert i i) OrderedMap.empty

/-- The registers that hold the tags of a match. -/
def initialTagIdToFinalRegId (numTags : Nat) : OrderedMap Nat Nat :=
  (List.range numTags).foldl (fun map i => map.insert i (numTags + i)) OrderedMap.empty

def initialConfiguration (nfa : Nfa) : DeterminizationConfiguration where
  nfaState := nfa.root
  tagIdToRegIds := tagIdToInitialRegId nfa.numTags
  history := []
  lookahead := []

/-- The DFA without states. -/
def initialDfa (nfa : Nfa) : Dfa where
  states := []
  tagIdToFinalRegId := initialTagIdToFinalRegId nfa.numTags
  regHandler := RegisterHandler.new.addRegisters (2 * nfa.numTags)

/-- The worklist before its first step. -/
def initialDeterminization (nfa : Nfa) (configSet : ConfigurationSet) : Determinization :=
  (Determinization.createOrGetDfaState nfa
    { dfa := initialDfa nfa, dfaStates := OrderedMap.empty, unexploredSets := [] } configSet).1

/-- The worklist at its end, after at most `fuel` sets. -/
def determinize (nfa : Nfa) (regMapOrder : List (Nat × Nat) → List (Nat × Nat)) (fuel : Nat) :
    Option Determinization := do
  let configSet ← (initialConfiguration nfa).spontaneousClosure nfa fuel
  Determinization.loop nfa regMapOrder fuel fuel (initialDeterminization nfa configSet)

/-- The DFA of an NFA, if its generation ends. -/
def generate (nfa : Nfa) (regMapOrder : List (Nat × Nat) → List (Nat × Nat)) (fuel : Nat) :
    Option Dfa :=
  (determinize nfa regMapOrder fuel).map (·.dfa)

end Dfa

end LogSurgeon
