import PatternAutomata.Automaton.Basic
import PatternAutomata.Text.DotText
import PatternAutomata.Text.JsonText

/-!
# Renderings of an automaton

Four texts that show an automaton.  States are ordered by number and transitions are those of
`listing`.

* `Automaton.description` — over several lines, with the names of the states;
* `Automaton.summary` — on one line, with the numbers of the states and without the transitions;
* `Automaton.json` — as a JSON object;
* `Automaton.graph` — as a directed graph in the DOT language.
-/

namespace PatternAutomata

namespace Automaton

/-! ### Plain texts -/

/-- The names of the given states in square brackets. -/
def nameList (A : Automaton) (states : SortedSet State) : Text :=
  '[' :: joined ", ".toList (states.toList.map A.name) ++ [']']

/-- A transition as one line. -/
def transitionLine (A : Automaton) (t : Transition) : Text :=
  "    ".toList ++ A.name t.source ++ " --".toList ++ t.label.text ++ "--> ".toList
    ++ A.name t.target

/-- The automaton over several lines. -/
def description (A : Automaton) : Text :=
  joined ['\n'] <|
    [A.kind.text ++ " \x7b".toList,
      "  alphabet: \x7b".toList
        ++ joined ", ".toList (A.alphabet.toList.map fun c => [c]) ++ ['\x7d'],
      "  states: ".toList ++ A.nameList A.states,
      "  start state: ".toList ++ A.name A.start,
      "  accepting states: ".toList ++ A.nameList A.accepting,
      "  transitions:".toList]
    ++ A.listing.map A.transitionLine
    ++ [['\x7d']]

/-- Items in round brackets; a single item has a comma after it. -/
def tuple : List Text → Text
  | [item] => '(' :: item ++ [',', ')']
  | items => '(' :: joined ", ".toList items ++ [')']

/-- The numbers of the given states in round brackets. -/
def numbers (states : SortedSet State) : Text := tuple (states.toList.map decimal)

/-- The automaton on one line. -/
def summary (A : Automaton) : Text :=
  A.kind.text ++ "(states=".toList ++ numbers A.states
    ++ ", symbols=[".toList ++ joined ", ".toList (A.alphabet.toList.map fun c => [c])
    ++ "], start_state=".toList ++ decimal A.start
    ++ ", accept_states=".toList ++ numbers A.accepting ++ [')']

/-! ### JSON -/

/-- The numbers of the given states as an array. -/
def jsonStates (states : SortedSet State) : Text :=
  JsonText.array (states.toList.map JsonText.number)

/-- A transition as an array of its source, the sign of its label, and its end. -/
def jsonTransition (t : Transition) : Text :=
  JsonText.array [JsonText.number t.source, JsonText.string t.label.text, JsonText.number t.target]

/-- The automaton as a JSON object. -/
def json (A : Automaton) : Text :=
  JsonText.object
    [("kind".toList, JsonText.string A.kind.text),
      ("states".toList, jsonStates A.states),
      ("symbols".toList, JsonText.array (A.alphabet.toList.map fun c => JsonText.string [c])),
      ("start_state".toList, JsonText.number A.start),
      ("accepting_states".toList, jsonStates A.accepting),
      ("transitions".toList, JsonText.array (A.listing.map jsonTransition))]

/-! ### Graphs -/

/-- A statement on a line of its own: what it is about, and attributes with their values. -/
def statement (subject : Text) (attributes : List (Text × Text)) : Text :=
  '\t' :: subject ++ " [".toList
    ++ joined [' '] (attributes.map fun a => a.1 ++ '=' :: DotText.identifier a.2) ++ [']']

/-- The title of the graph: the kind and the names of the states. -/
def graphTitle (A : Automaton) : Text :=
  A.kind.text ++ ' ' :: joined ", ".toList (A.states.toList.map A.name)

/-- The statement of a state. -/
def stateStatement (A : Automaton) (q : State) : Text :=
  statement (decimal q)
    [("label".toList, A.name q),
      ("color".toList, if q = A.start then "green".toList else []),
      ("shape".toList, if q ∈ A.accepting then "doublecircle".toList else "circle".toList),
      ("style".toList, "filled".toList)]

/-- An edge from one node to another. -/
def edge (source target : Text) : Text := source ++ " -> ".toList ++ target

/-- The statement of a transition. -/
def transitionStatement (t : Transition) : Text :=
  statement (edge (decimal t.source) (decimal t.target))
    [("label".toList, t.label.text),
      if t.label.isNone then ("style".toList, "dotted".toList)
      else ("color".toList, "black".toList)]

/-- The lines of the graph. -/
def graphLines (A : Automaton) : List Text :=
  ["digraph ".toList ++ DotText.identifier A.graphTitle ++ " \x7b".toList,
    statement "graph".toList [("rankdir".toList, "LR".toList)],
    statement "node".toList [("fontname".toList, "verdana".toList)],
    statement "edge".toList [("fontname".toList, "verdana".toList)]]
  ++ A.states.toList.map A.stateStatement
  ++ A.listing.map transitionStatement
  ++ [statement "start".toList [("shape".toList, "none".toList)],
    statement (edge "start".toList (decimal A.start)) [("arrowhead".toList, "vee".toList)],
    ['\x7d']]

/-- The automaton as a graph in the DOT language. -/
def graph (A : Automaton) : Text := A.graphLines.flatMap fun line => line ++ ['\n']

end Automaton

end PatternAutomata
