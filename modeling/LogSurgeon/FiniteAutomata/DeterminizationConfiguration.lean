import LogSurgeon.FiniteAutomata.Nfa
import LogSurgeon.Lib.OrderedSet

/-!
# Configurations of the determinization

A configuration is a state of the NFA together with the registers of the tags,
the tag operations of the last step (the history) and those since the last
byte (the lookahead).  This is `DeterminizationConfiguration.hpp`.

`spontaneousClosure` runs the worklist of the source.  It need not end, since a
loop of spontaneous transitions can lengthen the lookahead for ever, so it
takes a number of steps and is `none` when they are used up.
-/

namespace LogSurgeon

open Lib
open Std (TransOrd LawfulEqOrd TransCmp LawfulEqCmp)

/-! ## The order of the configurations -/

namespace TagOperation

/-- The value of the enumeration. -/
def typeIndex (op : TagOperation) : Nat :=
  match op.type with
  | .set => 0
  | .negate => 1

/-- Tag operations compare by the tag, then by the type. -/
instance : Ord TagOperation := ⟨compareLex (compareOn tagId) (compareOn typeIndex)⟩

instance : TransOrd TagOperation :=
  inferInstanceAs (TransCmp (compareLex (compareOn tagId) (compareOn typeIndex)))

instance : LawfulEqOrd TagOperation where
  compare_self {a} := @Std.ReflCmp.compare_self _
    (compareLex (compareOn tagId) (compareOn typeIndex)) _ a
  eq_of_compare {a b} h := by
    obtain ⟨htag, htype⟩ := Ordering.then_eq_eq.1 h
    have htag : a.tagId = b.tagId := LawfulEqCmp.eq_of_compare htag
    have htype : a.typeIndex = b.typeIndex := LawfulEqCmp.eq_of_compare htype
    obtain ⟨_, ta⟩ := a
    obtain ⟨_, tb⟩ := b
    cases ta <;> cases tb <;> simp_all [typeIndex]

end TagOperation

/-- A configuration.  `nfaState` is the id of the state. -/
structure DeterminizationConfiguration where
  nfaState : Nat
  tagIdToRegIds : OrderedMap Nat Nat
  history : List TagOperation
  lookahead : List TagOperation
deriving DecidableEq

namespace DeterminizationConfiguration

/-- Configurations compare by the state, the registers, the history and the
lookahead, in this order. -/
def compareConfigurations :
    DeterminizationConfiguration → DeterminizationConfiguration → Ordering :=
  compareLex (compareOn nfaState) (compareLex (compareOn tagIdToRegIds)
    (compareLex (compareOn history) (compareOn lookahead)))

instance : Ord DeterminizationConfiguration := ⟨compareConfigurations⟩

instance : TransOrd DeterminizationConfiguration :=
  inferInstanceAs (TransCmp (compareLex (compareOn nfaState) (compareLex
    (compareOn tagIdToRegIds) (compareLex (compareOn history) (compareOn lookahead)))))

instance : LawfulEqOrd DeterminizationConfiguration where
  compare_self {a} := @Std.ReflCmp.compare_self _ (compareLex (compareOn nfaState) (compareLex
    (compareOn tagIdToRegIds) (compareLex (compareOn history) (compareOn lookahead)))) _ a
  eq_of_compare {a b} h := by
    obtain ⟨hstate, h⟩ := Ordering.then_eq_eq.1 h
    obtain ⟨hregs, h⟩ := Ordering.then_eq_eq.1 h
    obtain ⟨hhistory, hlookahead⟩ := Ordering.then_eq_eq.1 h
    have hstate : a.nfaState = b.nfaState := LawfulEqCmp.eq_of_compare hstate
    have hregs : a.tagIdToRegIds = b.tagIdToRegIds := LawfulEqCmp.eq_of_compare hregs
    have hhistory : a.history = b.history := LawfulEqCmp.eq_of_compare hhistory
    have hlookahead : a.lookahead = b.lookahead := LawfulEqCmp.eq_of_compare hlookahead
    cases a
    cases b
    simp_all

/-! ## Operations -/

def childConfigurationWithNewState (config : DeterminizationConfiguration)
    (newNfaState : Nat) : DeterminizationConfiguration :=
  { config with nfaState := newNfaState }

def childConfigurationWithNewStateAndTag (config : DeterminizationConfiguration)
    (newNfaState : Nat) (tagOp : TagOperation) : DeterminizationConfiguration :=
  { config with nfaState := newNfaState, lookahead := config.lookahead ++ [tagOp] }

def setRegId (config : DeterminizationConfiguration) (tagId regId : Nat) :
    DeterminizationConfiguration :=
  { config with tagIdToRegIds := config.tagIdToRegIds.insertOrAssign tagId regId }

/-- The first operation of the history on the tag. -/
def getTagHistory (config : DeterminizationConfiguration) (tagId : Nat) :
    Option TagOperation :=
  config.history.find? (·.tagId = tagId)

/-- The first operation of the lookahead on the tag. -/
def getTagLookahead (config : DeterminizationConfiguration) (tagId : Nat) :
    Option TagOperation :=
  config.lookahead.find? (·.tagId = tagId)

/-- The configuration behind a spontaneous transition. -/
def childOf (config : DeterminizationConfiguration)
    (transition : NfaSpontaneousTransition) : DeterminizationConfiguration :=
  transition.tagOps.foldl
    (fun child tagOp => child.childConfigurationWithNewStateAndTag transition.destState tagOp)
    (config.childConfigurationWithNewState transition.destState)

/-- The configurations behind the spontaneous transitions, in their order. -/
def children (nfa : Nfa) (config : DeterminizationConfiguration) :
    List DeterminizationConfiguration :=
  match nfa.state? config.nfaState with
  | some state => state.spontaneousTransitions.map config.childOf
  | none => []

/-- The stack with the configurations behind the spontaneous transitions pushed
in their order.  The head of the list is the top. -/
def updateReachableConfigs (nfa : Nfa) (config : DeterminizationConfiguration)
    (unexploredStack : List DeterminizationConfiguration) :
    List DeterminizationConfiguration :=
  (config.children nfa).reverse ++ unexploredStack

end DeterminizationConfiguration

abbrev ConfigurationSet := OrderedSet DeterminizationConfiguration

namespace DeterminizationConfiguration

/-- The loop of `spontaneous_closure`, for at most `fuel` steps. -/
def closureLoop (nfa : Nfa) : Nat → List DeterminizationConfiguration → ConfigurationSet →
    Option ConfigurationSet
  | _, [], reachableSet => some reachableSet
  | 0, _ :: _, _ => none
  | fuel + 1, config :: unexploredStack, reachableSet =>
    if reachableSet.contains config then closureLoop nfa fuel unexploredStack reachableSet
    else
      closureLoop nfa fuel (config.updateReachableConfigs nfa unexploredStack)
        (reachableSet.insert config)

/-- The configurations that spontaneous transitions lead to. -/
def spontaneousClosure (nfa : Nfa) (fuel : Nat) (config : DeterminizationConfiguration) :
    Option ConfigurationSet :=
  closureLoop nfa fuel [config] OrderedSet.empty

end DeterminizationConfiguration

end LogSurgeon
