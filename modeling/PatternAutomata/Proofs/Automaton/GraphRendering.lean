import PatternAutomata.Automaton.Render
import PatternAutomata.Proofs.Text.DotReading

/-!
# Reading a graph back

The text of the graph of an automaton is read as this graph if none of its transitions is labelled
with a backslash.  The statement of such a transition is not: its quotation mark counts as one that
belongs to the label, and what follows is taken into the label as well.

* `Subject.text`, `Statement.line`, `Graph.text` — how graphs are written;
* `Statement.Readable`, `lexemes_line`, `lexemes_lines` — lines that are read as they are meant;
* `Statement.Garbled`, `garbled_of_backslash`, `readable_of_lexemes_lines` — lines that are not;
* `reads_text_iff` — when a whole graph is read back;
* `Automaton.drawing`, `graph_eq_text` — the graph of an automaton, and that it is what is rendered;
* `readsStatement_transitionStatement_iff` — when the statement of a transition is read back;
* `reads_graph_iff` — when the graph of an automaton is.
-/

namespace PatternAutomata

namespace DotText

variable {d : Char} {rest : Text} {ls : List Lexeme} {ss : List Statement}

/-! ### Writing -/

def Subject.text : Subject → Text
  | .defaults keyword => keyword
  | .node name => name
  | .edge source target => Automaton.edge source target

/-- An attribute with its value. -/
def attributeText (a : Text × Text) : Text := a.1 ++ '=' :: identifier a.2

/-- A statement on a line of its own. -/
def Statement.line (s : Statement) : Text := Automaton.statement s.subject.text s.attributes

/-- The lines of several statements. -/
def linesOf (ss : List Statement) : Text := ss.flatMap fun s => s.line ++ ['\n']

/-- A graph as a text. -/
def Graph.text (g : Graph) : Text :=
  ("digraph ".toList ++ identifier g.title ++ " \x7b".toList ++ ['\n']) ++
    linesOf g.statements ++ ['\x7d', '\n']

/-! ### Lines that are read as they are meant -/

/-- A text that is its own identifier. -/
structure Bare (t : Text) : Prop where
  identifier_eq : identifier t = t
  sayable : Sayable t

instance (t : Text) : Decidable (Bare t) :=
  decidable_of_iff (identifier t = t ∧ Sayable t)
    ⟨fun h => ⟨h.1, h.2⟩, fun h => ⟨h.identifier_eq, h.sayable⟩⟩

theorem bare_decimal (n : Int) : Bare (decimal n) :=
  ⟨identifier_decimal n, (mild_decimal n).sayable⟩

def Subject.Readable : Subject → Prop
  | .defaults keyword => isWord keyword = true ∧ isKeyword keyword = true
  | .node name => Bare name
  | .edge source target => Bare source ∧ Bare target

/-- A statement about things that are written as they are, with values that their identifiers stand
for. -/
structure Statement.Readable (s : Statement) : Prop where
  subject : s.subject.Readable
  attributes : ∀ a ∈ s.attributes, Bare a.1 ∧ Sayable a.2

theorem Bare.lexemes_append {t : Text} (h : Bare t) (hd : Parts d) :
    lexemes (t ++ d :: rest) = emit [.name t] (lexemes (d :: rest)) := by
  have read : lexemes (identifier t ++ d :: rest) = _ := lexemes_identifier h.sayable hd
  rwa [h.identifier_eq] at read

theorem parts_blank : Parts ' ' := ⟨rfl, by decide⟩

theorem lexemes_subject {subject : Subject} (h : subject.Readable) (hd : Parts d) :
    lexemes (subject.text ++ d :: rest) = emit subject.lexemes (lexemes (d :: rest)) := by
  cases subject with
  | defaults keyword =>
    show lexemes (keyword ++ d :: rest) = _
    rw [lexemes_word h.1 hd, wordLexeme, if_pos h.2]
    rfl
  | node name => exact Bare.lexemes_append h hd
  | edge source target =>
    have shape : (Subject.edge source target).text ++ d :: rest =
        source ++ ' ' :: '-' :: '>' :: ' ' :: (target ++ d :: rest) := by
      simp [Subject.text, Automaton.edge]
    rw [shape, h.1.lexemes_append parts_blank, lexemes_blank (by decide), lexemes_arrow,
      lexemes_blank (by decide), h.2.lexemes_append hd, emit_emit, emit_emit]
    rfl

theorem lexemes_attribute {a : Text × Text} (h : Bare a.1 ∧ Sayable a.2) (hd : Parts d) :
    lexemes (attributeText a ++ d :: rest) = emit (attributeLexemes a) (lexemes (d :: rest)) := by
  rw [attributeText, List.append_assoc, List.cons_append, h.1.lexemes_append ⟨rfl, by decide⟩,
    lexemes_mark (by decide) (by decide), lexemes_identifier h.2 hd, emit_emit, emit_emit]
  rfl

theorem lexemes_attributes {as : List (Text × Text)} (h : ∀ a ∈ as, Bare a.1 ∧ Sayable a.2) :
    lexemes (joined [' '] (as.map attributeText) ++ ']' :: rest) =
      emit (as.flatMap attributeLexemes ++ [.mark ']']) (lexemes rest) := by
  have closing : lexemes (']' :: rest) = emit [.mark ']'] (lexemes rest) :=
    lexemes_mark (by decide) (by decide)
  match as with
  | [] => exact closing
  | [a] =>
    rw [List.map_singleton, joined, List.flatMap_singleton,
      lexemes_attribute (h a List.mem_cons_self) ⟨rfl, by decide⟩, closing, emit_emit]
  | a :: b :: as =>
    have shape : joined [' '] ((a :: b :: as).map attributeText) ++ ']' :: rest =
        attributeText a ++ ' ' :: (joined [' '] ((b :: as).map attributeText) ++ ']' :: rest) := by
      simp [joined]
    rw [shape, lexemes_attribute (h a List.mem_cons_self) parts_blank, lexemes_blank (by decide),
      lexemes_attributes fun x hx => h x (List.mem_cons_of_mem a hx), emit_emit,
      ← List.append_assoc, ← List.flatMap_cons]

/-- What a line starts with. -/
theorem lexemes_statement {subject : Subject} (h : subject.Readable) (as : List (Text × Text)) :
    lexemes (Automaton.statement subject.text as ++ rest) =
      emit (subject.lexemes ++ [.mark '['])
        (lexemes (joined [' '] (as.map attributeText) ++ ']' :: rest)) := by
  have shape : Automaton.statement subject.text as ++ rest = '\t' :: (subject.text ++ ' ' :: '[' ::
      (joined [' '] (as.map attributeText) ++ ']' :: rest)) := by
    simp [Automaton.statement]
    rfl
  rw [shape, lexemes_blank (by decide), lexemes_subject h parts_blank, lexemes_blank (by decide),
    lexemes_mark (by decide) (by decide), emit_emit]

/-- A readable statement is read as it is meant. -/
theorem lexemes_line {s : Statement} (h : s.Readable) :
    lexemes (s.line ++ rest) = emit s.lexemes (lexemes rest) := by
  rw [Statement.line, lexemes_statement h.subject, lexemes_attributes h.attributes, emit_emit,
    Statement.lexemes]
  simp only [List.append_assoc, List.cons_append, List.nil_append]

theorem lexemes_lines (h : ∀ s ∈ ss, s.Readable) :
    lexemes (linesOf ss ++ rest) = emit (ss.flatMap Statement.lexemes) (lexemes rest) := by
  induction ss with
  | nil => exact (emit_nil _).symm
  | cons s ss ih =>
    have shape : linesOf (s :: ss) ++ rest = s.line ++ '\n' :: (linesOf ss ++ rest) := by
      simp [linesOf]
    rw [shape, lexemes_line (h s List.mem_cons_self), lexemes_blank (by decide),
      ih fun s hs => h s (List.mem_cons_of_mem _ hs), emit_emit, List.flatMap_cons]

/-! ### A line that is not -/

/-- A statement that is not read as it is meant, whatever follows. -/
def Statement.Garbled (s : Statement) : Prop :=
  ∀ (rest : Text) (ls : List Lexeme), DotText.lexemes (s.line ++ rest) ≠ some (s.lexemes ++ ls)

/-- The identifier of the backslash is read as a text that starts with a quotation mark and goes on
behind it. -/
theorem lexemes_identifier_backslash :
    lexemes (identifier [backslash] ++ rest) = lexFrom (.string [doubleQuote] false) rest := by
  have quoted : identifier [backslash] = [doubleQuote, backslash, doubleQuote] := by decide
  rw [quoted]
  show lexFrom .between (doubleQuote :: backslash :: doubleQuote :: rest) = _
  rw [lexFrom_of_next_mode (.string [] false) rfl,
    lexFrom_of_next_mode (.string [] true) rfl,
    lexFrom_of_next_mode (.string [doubleQuote] false) rfl]

theorem garbled_of_backslash {subject : Subject} {key : Text} {as : List (Text × Text)}
    (h : subject.Readable) (hk : Bare key) :
    Statement.Garbled ⟨subject, (key, [backslash]) :: as⟩ := by
  intro rest ls read
  obtain ⟨more, shape⟩ : ∃ more,
      joined [' '] (((key, [backslash]) :: as).map attributeText) ++ ']' :: rest =
        key ++ '=' :: (identifier [backslash] ++ more) := by
    rw [List.map_cons, JsonText.joined_cons, attributeText]
    exact ⟨_, by simp only [List.append_assoc, List.cons_append]; rfl⟩
  -- the lexemes in front of the label are as they are meant
  have front : (Statement.lexemes ⟨subject, (key, [backslash]) :: as⟩) ++ ls =
      subject.lexemes ++ [.mark '['] ++ [.name key] ++ [.mark '='] ++
        (.name [backslash] :: (as.flatMap attributeLexemes ++ .mark ']' :: ls)) := by
    simp [Statement.lexemes, attributeLexemes]
  rw [Statement.line, lexemes_statement h, shape, hk.lexemes_append ⟨rfl, by decide⟩,
    lexemes_mark (by decide) (by decide), lexemes_identifier_backslash, emit_emit, emit_emit,
    front] at read
  obtain ⟨v, ks, label⟩ := exists_of_lexFrom_string (emit_cancel read)
  have first : backslash = doubleQuote :=
    (List.cons.inj (Lexeme.name.inj (List.cons.inj label).1)).1
  exact absurd first (by decide)

/-- If lines that are readable or garbled are read as they are meant, all are readable. -/
theorem readable_of_lexemes_lines (each : ∀ s ∈ ss, s.Readable ∨ s.Garbled)
    (h : lexemes (linesOf ss ++ rest) = some (ss.flatMap Statement.lexemes ++ ls)) :
    ∀ s ∈ ss, s.Readable := by
  induction ss with
  | nil => exact fun s hs => absurd hs List.not_mem_nil
  | cons s ss ih =>
    have shape : linesOf (s :: ss) ++ rest = s.line ++ '\n' :: (linesOf ss ++ rest) := by
      simp [linesOf]
    rw [shape, List.flatMap_cons, List.append_assoc] at h
    rcases each s List.mem_cons_self with readable | garbled
    · rw [lexemes_line readable, lexemes_blank (by decide)] at h
      intro t ht
      rcases List.mem_cons.1 ht with rfl | ht
      · exact readable
      · exact ih (fun t ht => each t (List.mem_cons_of_mem s ht)) (emit_cancel h) t ht
    · exact absurd h (garbled _ _)

/-! ### Whole graphs -/

/-- A graph whose title and statements are readable is read back. -/
theorem lexemes_text (g : Graph) (title : Sayable g.title) :
    lexemes g.text = emit [.keyword "digraph".toList, .name g.title, .mark '\x7b']
      (lexemes (linesOf g.statements ++ ['\x7d', '\n'])) := by
  have shape : g.text = "digraph".toList ++ ' ' :: (identifier g.title ++ ' ' :: '\x7b' :: '\n' ::
      (linesOf g.statements ++ ['\x7d', '\n'])) := by
    have word : "digraph ".toList = "digraph".toList ++ [' '] := by decide
    have brace : " \x7b".toList = [' ', '\x7b'] := by decide
    unfold Graph.text
    rw [word, brace]
    simp only [List.append_assoc, List.cons_append, List.nil_append]
  rw [shape, lexemes_word (by decide) parts_blank, lexemes_blank (by decide),
    lexemes_identifier title parts_blank, lexemes_blank (by decide),
    lexemes_mark (by decide) (by decide), lexemes_blank (by decide), emit_emit, emit_emit]
  rfl

/-- A graph with readable or garbled statements is read back exactly if all are readable. -/
theorem reads_text_iff {g : Graph} (title : Sayable g.title)
    (each : ∀ s ∈ g.statements, s.Readable ∨ s.Garbled) :
    Reads g.text g ↔ ∀ s ∈ g.statements, s.Readable := by
  have closing : lexemes ['\x7d', '\n'] = some [.mark '\x7d'] := by
    rw [lexemes_mark (by decide) (by decide), lexemes_blank (by decide)]
    rfl
  unfold Reads
  rw [lexemes_text g title]
  constructor
  · intro read
    exact readable_of_lexemes_lines each (emit_cancel read)
  · intro readable
    rw [lexemes_lines readable, closing]
    rfl

end DotText

/-! ### The graph of an automaton -/

open DotText

variable {t : Transition}

theorem bare_label : Bare "label".toList := by decide

/-- A transition as an edge with its label, dotted if it reads nothing. -/
def Transition.drawing (t : Transition) : Statement where
  subject := .edge (decimal t.source) (decimal t.target)
  attributes :=
    [("label".toList, t.label.text),
      if t.label.isNone then ("style".toList, "dotted".toList)
      else ("color".toList, "black".toList)]

theorem Transition.readable_drawing (h : t.label ≠ some backslash) : t.drawing.Readable where
  subject := ⟨bare_decimal t.source, bare_decimal t.target⟩
  attributes := by
    have sign : t.label.sign ≠ backslash := by
      unfold Label.sign
      cases label : t.label with
      | none => decide
      | some c =>
        rw [label] at h
        exact fun same => h (congrArg some same)
    refine List.forall_mem_cons.2 ⟨⟨bare_label, sayable_singleton_iff.2 sign⟩,
      List.forall_mem_singleton.2 ?_⟩
    cases t.label.isNone <;> decide

theorem Transition.garbled_drawing (h : t.label = some backslash) : t.drawing.Garbled := by
  have label : t.label.text = [backslash] := by
    rw [h]
    rfl
  unfold drawing
  rw [label]
  exact garbled_of_backslash ⟨bare_decimal t.source, bare_decimal t.target⟩ bare_label

namespace Automaton

variable {A : Automaton}

/-- A state as a node with its name, green if it is the start, in two circles if it accepts. -/
def stateDrawing (A : Automaton) (q : State) : Statement where
  subject := .node (decimal q)
  attributes :=
    [("label".toList, A.name q),
      ("color".toList, if q = A.start then "green".toList else []),
      ("shape".toList, if q ∈ A.accepting then "doublecircle".toList else "circle".toList),
      ("style".toList, "filled".toList)]

/-- What is drawn before the states. -/
def settings : List Statement :=
  [⟨.defaults "graph".toList, [("rankdir".toList, "LR".toList)]⟩,
    ⟨.defaults "node".toList, [("fontname".toList, "verdana".toList)]⟩,
    ⟨.defaults "edge".toList, [("fontname".toList, "verdana".toList)]⟩]

/-- An arrow from nowhere to the start. -/
def startDrawing (A : Automaton) : List Statement :=
  [⟨.node "start".toList, [("shape".toList, "none".toList)]⟩,
    ⟨.edge "start".toList (decimal A.start), [("arrowhead".toList, "vee".toList)]⟩]

/-- The graph of an automaton. -/
def drawing (A : Automaton) : Graph where
  title := A.graphTitle
  statements := settings ++ A.states.toList.map A.stateDrawing ++
    A.listing.map Transition.drawing ++ A.startDrawing

/-- The rendering as a graph is the text of the graph. -/
theorem graph_eq_text (A : Automaton) : A.graph = A.drawing.text := by
  have lines : A.graphLines = ["digraph ".toList ++ identifier A.graphTitle ++ " \x7b".toList] ++
      A.drawing.statements.map Statement.line ++ [['\x7d']] := by
    unfold graphLines drawing settings startDrawing
    simp only [List.map_append, List.map_map, List.map_cons, List.map_nil, List.cons_append,
      List.nil_append, List.append_assoc]
    rfl
  unfold graph
  rw [lines, List.flatMap_append, List.flatMap_append, List.flatMap_singleton,
    List.flatMap_singleton, List.flatMap_map]
  rfl

/-- The names of the states have nothing in them that could be misread. -/
def NamedMildly (A : Automaton) : Prop := ∀ q ∈ A.states, Mild (A.name q)

theorem NamedMildly.sayable_title (h : A.NamedMildly) : Sayable A.drawing.title := by
  have kind : Mild A.kind.text := by
    cases A.kind <;> decide
  have names : ∀ u ∈ A.states.toList.map A.name, Mild u := by
    intro u hu
    obtain ⟨q, hq, rfl⟩ := List.mem_map.1 hu
    exact h q hq
  show Sayable (A.kind.text ++ ([' '] ++ joined ", ".toList (A.states.toList.map A.name)))
  exact (mild_append kind (mild_append (by decide) (mild_joined (by decide) names))).sayable

theorem NamedMildly.readable_stateDrawing (h : A.NamedMildly) {q : State} (hq : q ∈ A.states) :
    (A.stateDrawing q).Readable where
  subject := bare_decimal q
  attributes := by
    refine List.forall_mem_cons.2 ⟨⟨bare_label, (h q hq).sayable⟩, List.forall_mem_cons.2 ⟨?_,
      List.forall_mem_cons.2 ⟨?_, List.forall_mem_singleton.2 (by decide)⟩⟩⟩
    · split <;> decide
    · split <;> decide

theorem readable_settings : ∀ s ∈ settings, s.Readable := by
  have setting : ∀ keyword key value : Text, isWord keyword = true ∧ isKeyword keyword = true →
      Bare key ∧ Sayable value → Statement.Readable ⟨.defaults keyword, [(key, value)]⟩ :=
    fun keyword key value hk ha => ⟨hk, List.forall_mem_singleton.2 ha⟩
  refine List.forall_mem_cons.2 ⟨setting _ _ _ (by decide) (by decide),
    List.forall_mem_cons.2 ⟨setting _ _ _ (by decide) (by decide),
      List.forall_mem_singleton.2 (setting _ _ _ (by decide) (by decide))⟩⟩

theorem readable_startDrawing (A : Automaton) : ∀ s ∈ A.startDrawing, s.Readable := by
  have start : Bare "start".toList := by decide
  refine List.forall_mem_cons.2 ⟨⟨start, List.forall_mem_singleton.2 (by decide)⟩,
    List.forall_mem_singleton.2
      ⟨⟨start, bare_decimal A.start⟩, List.forall_mem_singleton.2 (by decide)⟩⟩

/-! ### When it is read back -/

/-- The statement of a transition is read as its drawing exactly if its label is not the
backslash. -/
theorem readsStatement_transitionStatement_iff (t : Transition) :
    ReadsStatement (transitionStatement t) t.drawing ↔ t.label ≠ some backslash := by
  have whole : transitionStatement t = t.drawing.line ++ [] := (List.append_nil _).symm
  have all : t.drawing.lexemes = t.drawing.lexemes ++ [] := (List.append_nil _).symm
  unfold ReadsStatement
  rw [whole]
  constructor
  · intro read label
    rw [all] at read
    exact t.garbled_drawing label _ _ read
  · intro other
    rw [lexemes_line (t.readable_drawing other), all]
    rfl

/-- The graph of an automaton is read back exactly if no transition is labelled with the
backslash. -/
theorem reads_graph_iff (h : A.NamedMildly) :
    Reads A.graph A.drawing ↔ ∀ t ∈ A.listing, t.label ≠ some backslash := by
  have statements : ∀ P : Statement → Prop, (∀ s ∈ A.drawing.statements, P s) ↔
      (∀ s ∈ settings, P s) ∧ (∀ q ∈ A.states.toList, P (A.stateDrawing q)) ∧
        (∀ t ∈ A.listing, P t.drawing) ∧ ∀ s ∈ A.startDrawing, P s := by
    intro P
    simp only [drawing, List.forall_mem_append, List.forall_mem_map, and_assoc]
  have states : ∀ q ∈ A.states.toList, (A.stateDrawing q).Readable :=
    fun q hq => h.readable_stateDrawing hq
  rw [graph_eq_text, reads_text_iff h.sayable_title, statements]
  · constructor
    · rintro ⟨_, _, transitions, _⟩ t ht label
      have read : lexemes (t.drawing.line ++ []) = _ := lexemes_line (transitions t ht)
      exact t.garbled_drawing label [] [] read
    · intro other
      exact ⟨readable_settings, states, fun t ht => t.readable_drawing (other t ht),
        A.readable_startDrawing⟩
  · refine (statements _).2 ⟨fun s hs => Or.inl (readable_settings s hs),
      fun q hq => Or.inl (states q hq), ?_, fun s hs => Or.inl (A.readable_startDrawing s hs)⟩
    intro t _
    by_cases label : t.label = some backslash
    · exact Or.inr (t.garbled_drawing label)
    · exact Or.inl (t.readable_drawing label)

end Automaton

end PatternAutomata
