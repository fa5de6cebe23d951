import PatternAutomata.Proofs.Text.Legibility
import PatternAutomata.Text.DotText

/-!
# Reading the DOT language

A graph in the DOT language is a sequence of lexemes: words and numerals, texts in double quotes,
arrows and punctuation.  In quotes a backslash and a quotation mark stand for a quotation mark, and
the first quotation mark without a backslash in front is the end; everything else stands for itself.
Angle brackets and comments are left out here: nothing is read from them.

* `Lexeme`, `Mode`, `lexFrom`, `lexemes` — the lexemes of a text, read character by character;
* `Statement`, `Graph`, with `lexemes` — graphs, and the lexemes that the grammar gives for them;
* `Reads`, `Reads.unique` — a text is read as a graph, and as one only;
* `lexemes_word`, `lexemes_numeral`, `lexemes_inQuotes` — the three forms of an identifier;
* `Sayable`, `lexemes_identifier` — the identifier of such a text is read as the text;
* `sayable_singleton_iff` — every character but the backslash is such a text;
* `Mild`, `Mild.sayable` — so is every text without backslashes, line feeds and angle brackets;
* `mild_decimal`, `identifier_decimal` — an integer is such a text, and its own identifier.
-/

namespace PatternAutomata

namespace DotText

/-! ### Lexemes -/

/-- A lexeme: an identifier with the text that it stands for, a keyword, an arrow, or a mark of
punctuation. -/
inductive Lexeme where
  | name (t : Text)
  | keyword (t : Text)
  | arrow
  | mark (c : Char)
  deriving DecidableEq

/-- What has been read of a lexeme: nothing, a word, a minus sign, a point with a sign or without, a
numeral before its point, one with its point, or a text after its quotation mark.  The flag tells
whether its last backslash has not been taken into the text yet. -/
inductive Mode where
  | between
  | word (t : Text)
  | dash
  | point (t : Text)
  | whole (t : Text)
  | fraction (t : Text)
  | string (t : Text) (pending : Bool)

/-- Whether a word can start with a character. -/
def opensWord (c : Char) : Bool := isWordStart c || decide (0x80 ≤ c.toNat)

/-- Whether a word can go on with a character. -/
def inWord (c : Char) : Bool := opensWord c || c.isDigit

/-- A word as a lexeme. -/
def wordLexeme (t : Text) : Lexeme := if isKeyword t then .keyword t else .name t

/-- The characters between lexemes. -/
def blanks : List Char := [' ', '\t', '\n', '\r']

/-- The marks of punctuation. -/
def marks : List Char := "\x7b\x7d[]=;,".toList

/-- The first character of a lexeme, or one between two of them. -/
def opened (c : Char) : Option (List Lexeme × Mode) :=
  if c ∈ blanks then some ([], .between)
  else if c ∈ marks then some ([.mark c], .between)
  else if c = doubleQuote then some ([], .string [] false)
  else if c = '-' then some ([], .dash)
  else if c = '.' then some ([], .point ['.'])
  else if c.isDigit then some ([], .whole [c])
  else if opensWord c then some ([], .word [c])
  else none

/-- A lexeme ends in front of a character. -/
def endedBy (l : Lexeme) (c : Char) : Option (List Lexeme × Mode) :=
  (opened c).map fun r => (l :: r.1, r.2)

/-- The next character: the lexemes that it completes, and what has been read then. -/
def next : Mode → Char → Option (List Lexeme × Mode)
  | .between, c => opened c
  | .word t, c => if inWord c then some ([], .word (t ++ [c])) else endedBy (wordLexeme t) c
  | .dash, c =>
    if c = '>' then some ([.arrow], .between)
    else if c = '.' then some ([], .point ['-', '.'])
    else if c.isDigit then some ([], .whole ['-', c])
    else none
  | .point t, c => if c.isDigit then some ([], .fraction (t ++ [c])) else none
  | .whole t, c =>
    if c.isDigit then some ([], .whole (t ++ [c]))
    else if c = '.' then some ([], .fraction (t ++ ['.']))
    else endedBy (.name t) c
  | .fraction t, c =>
    if c.isDigit then some ([], .fraction (t ++ [c])) else endedBy (.name t) c
  | .string t false, c =>
    if c = doubleQuote then some ([.name t], .between)
    else if c = backslash then some ([], .string t true)
    else some ([], .string (t ++ [c]) false)
  | .string t true, c =>
    if c = doubleQuote then some ([], .string (t ++ [doubleQuote]) false)
    else if c = backslash then some ([], .string (t ++ [backslash]) true)
    else some ([], .string (t ++ [backslash, c]) false)

/-- The lexemes that the end of the text completes. -/
def atEnd : Mode → Option (List Lexeme)
  | .between => some []
  | .word t => some [wordLexeme t]
  | .whole t => some [.name t]
  | .fraction t => some [.name t]
  | _ => none

/-- Puts lexemes in front of those that are read afterwards. -/
def emit (ls : List Lexeme) (after : Option (List Lexeme)) : Option (List Lexeme) :=
  after.map (ls ++ ·)

/-- The lexemes of the rest of a text. -/
def lexFrom : Mode → Text → Option (List Lexeme)
  | m, [] => atEnd m
  | m, c :: rest => (next m c).bind fun r => emit r.1 (lexFrom r.2 rest)

/-- The lexemes of a text. -/
def lexemes (t : Text) : Option (List Lexeme) := lexFrom .between t

/-! ### Graphs -/

/-- What a statement is about: all nodes or edges or the graph itself, a node, or an edge. -/
inductive Subject where
  | defaults (keyword : Text)
  | node (name : Text)
  | edge (source target : Text)
  deriving DecidableEq

/-- A statement gives attributes and their values. -/
structure Statement where
  subject : Subject
  attributes : List (Text × Text)
  deriving DecidableEq

/-- A directed graph with a title. -/
structure Graph where
  title : Text
  statements : List Statement
  deriving DecidableEq

def Subject.lexemes : Subject → List Lexeme
  | .defaults keyword => [.keyword keyword]
  | .node name => [.name name]
  | .edge source target => [.name source, .arrow, .name target]

def attributeLexemes (a : Text × Text) : List Lexeme := [.name a.1, .mark '=', .name a.2]

/-- A statement as the grammar has it. -/
def Statement.lexemes (s : Statement) : List Lexeme :=
  s.subject.lexemes ++ .mark '[' :: s.attributes.flatMap attributeLexemes ++ [.mark ']']

/-- A graph as the grammar has it. -/
def Graph.lexemes (g : Graph) : List Lexeme :=
  .keyword "digraph".toList :: .name g.title :: .mark '\x7b' ::
    g.statements.flatMap Statement.lexemes ++ [.mark '\x7d']

/-- A text is read as a statement. -/
def ReadsStatement (t : Text) (s : Statement) : Prop := lexemes t = some s.lexemes

/-- A text is read as a graph. -/
def Reads (t : Text) (g : Graph) : Prop := lexemes t = some g.lexemes

/-! ### A text is read as one graph only -/

variable {c d : Char} {t u rest : Text} {m : Mode} {l : Lexeme} {ls ks : List Lexeme}

theorem attributes_cancel {as bs : List (Text × Text)}
    (h : as.flatMap attributeLexemes ++ .mark ']' :: ls =
      bs.flatMap attributeLexemes ++ .mark ']' :: ks) : as = bs ∧ ls = ks := by
  induction as generalizing bs with
  | nil =>
    cases bs with
    | nil => exact ⟨rfl, (List.cons.inj h).2⟩
    | cons b bs => cases (List.cons.inj h).1
  | cons a as ih =>
    cases bs with
    | nil => cases (List.cons.inj h).1
    | cons b bs =>
      obtain ⟨key, value⟩ := a
      obtain ⟨key', value'⟩ := b
      simp only [List.flatMap_cons, attributeLexemes, List.cons_append, List.nil_append,
        List.cons.injEq, Lexeme.name.injEq, true_and] at h
      obtain ⟨rfl, rfl, tail⟩ := h
      obtain ⟨rfl, rfl⟩ := ih tail
      exact ⟨rfl, rfl⟩

theorem Subject.lexemes_cancel {a b : Subject}
    (h : a.lexemes ++ .mark '[' :: ls = b.lexemes ++ .mark '[' :: ks) : a = b ∧ ls = ks := by
  cases a <;> cases b <;>
    simp only [lexemes, List.cons_append, List.nil_append, List.cons.injEq, Lexeme.name.injEq,
      Lexeme.keyword.injEq, reduceCtorEq, true_and, false_and, and_false] at h
  · exact ⟨congrArg _ h.1, h.2⟩
  · exact ⟨congrArg _ h.1, h.2⟩
  · obtain ⟨rfl, rfl, tail⟩ := h
    exact ⟨rfl, tail⟩

theorem Statement.lexemes_cancel {a b : Statement} (h : a.lexemes ++ ls = b.lexemes ++ ks) :
    a = b ∧ ls = ks := by
  obtain ⟨subject, attributes⟩ := a
  obtain ⟨subject', attributes'⟩ := b
  simp only [lexemes, List.append_assoc, List.cons_append, List.nil_append] at h
  obtain ⟨rfl, tail⟩ := Subject.lexemes_cancel h
  obtain ⟨rfl, rest⟩ := attributes_cancel tail
  exact ⟨rfl, rest⟩

/-- No statement starts like the end of a graph. -/
theorem Statement.exists_lexemes_eq (s : Statement) (c : Char) :
    ∃ l ls, s.lexemes = l :: ls ∧ l ≠ .mark c := by
  obtain ⟨subject, attributes⟩ := s
  cases subject with
  | defaults keyword => exact ⟨_, _, rfl, nofun⟩
  | node name => exact ⟨_, _, rfl, nofun⟩
  | edge source target => exact ⟨_, _, rfl, nofun⟩

theorem statements_cancel {as bs : List Statement}
    (h : as.flatMap Statement.lexemes ++ .mark '\x7d' :: ls =
      bs.flatMap Statement.lexemes ++ .mark '\x7d' :: ks) : as = bs ∧ ls = ks := by
  -- the end of one graph does not stand in the middle of the other
  have ended : ∀ {s : Statement} {ss : List Statement} {ls ks : List Lexeme},
      .mark '\x7d' :: ls ≠ (s :: ss).flatMap Statement.lexemes ++ .mark '\x7d' :: ks := by
    intro s ss ls ks h
    obtain ⟨l, more, eq, other⟩ := s.exists_lexemes_eq '\x7d'
    rw [List.flatMap_cons, eq] at h
    exact other (List.cons.inj h).1.symm
  induction as generalizing bs with
  | nil =>
    cases bs with
    | nil => exact ⟨rfl, (List.cons.inj h).2⟩
    | cons b bs => exact absurd h ended
  | cons a as ih =>
    cases bs with
    | nil => exact absurd h.symm ended
    | cons b bs =>
      rw [List.flatMap_cons, List.flatMap_cons, List.append_assoc, List.append_assoc] at h
      obtain ⟨rfl, tail⟩ := Statement.lexemes_cancel h
      obtain ⟨rfl, rest⟩ := ih tail
      exact ⟨rfl, rest⟩

theorem ReadsStatement.unique {a b : Statement} (ha : ReadsStatement t a)
    (hb : ReadsStatement t b) : a = b := by
  have same : a.lexemes ++ [] = b.lexemes ++ [] := by
    rw [List.append_nil, List.append_nil]
    exact Option.some.inj (ha.symm.trans hb)
  exact (Statement.lexemes_cancel same).1

/-- A text is read as one graph at most. -/
theorem Reads.unique {g h : Graph} (hg : Reads t g) (hh : Reads t h) : g = h := by
  obtain ⟨title, statements⟩ := g
  obtain ⟨title', statements'⟩ := h
  have same := Option.some.inj (hg.symm.trans hh)
  simp only [Graph.lexemes, List.cons_append, List.cons.injEq, Lexeme.name.injEq, true_and] at same
  obtain ⟨rfl, tail⟩ := same
  obtain ⟨rfl, _⟩ := statements_cancel tail
  rfl

/-! ### Reading lexeme by lexeme -/

theorem emit_emit (ls ks : List Lexeme) (after : Option (List Lexeme)) :
    emit ls (emit ks after) = emit (ls ++ ks) after := by
  cases after with
  | none => rfl
  | some more => exact congrArg some (List.append_assoc ls ks more).symm

theorem emit_nil (after : Option (List Lexeme)) : emit [] after = after := by
  cases after <;> rfl

theorem emit_cancel {after : Option (List Lexeme)} (h : emit ls after = some (ls ++ ks)) :
    after = some ks := by
  cases after with
  | none => cases h
  | some more => rw [List.append_cancel_left (Option.some.inj h)]

theorem lexFrom_cons (m : Mode) (c : Char) (rest : Text) :
    lexFrom m (c :: rest) = (next m c).bind fun r => emit r.1 (lexFrom r.2 rest) := rfl

theorem lexFrom_of_next (h : next m c = some (ls, .between)) :
    lexFrom m (c :: rest) = emit ls (lexemes rest) := by
  rw [lexFrom_cons, h]
  rfl

/-- A character that goes on a lexeme. -/
theorem lexFrom_of_next_mode (n : Mode) (h : next m c = some ([], n)) :
    lexFrom m (c :: rest) = lexFrom n rest := by
  rw [lexFrom_cons, h]
  exact emit_nil _

/-- A character in front of which a lexeme ends. -/
theorem lexFrom_of_endedBy (h : next m d = endedBy l d) :
    lexFrom m (d :: rest) = emit [l] (lexemes (d :: rest)) := by
  rw [lexFrom_cons, h, lexemes, lexFrom_cons]
  show ((opened d).map _).bind _ = emit [l] ((opened d).bind _)
  cases opened d with
  | none => rfl
  | some r => exact (emit_emit [l] r.1 _).symm

theorem lexemes_blank (h : c ∈ blanks) : lexemes (c :: rest) = lexemes rest := by
  refine lexFrom_of_next_mode _ ?_
  show opened c = _
  rw [opened, if_pos h]

theorem lexemes_mark (blank : c ∉ blanks) (h : c ∈ marks) :
    lexemes (c :: rest) = emit [.mark c] (lexemes rest) := by
  refine lexFrom_of_next ?_
  show opened c = _
  rw [opened, if_neg blank, if_pos h]

theorem lexemes_arrow : lexemes ('-' :: '>' :: rest) = emit [.arrow] (lexemes rest) :=
  (lexFrom_of_next_mode (.dash) rfl).trans (lexFrom_of_next rfl)

/-- A character with which no word and no numeral goes on. -/
def Parts (d : Char) : Prop := inWord d = false ∧ d ≠ '.'

/-! ### Words and numerals -/

theorem isDigit_eq_false_of_inWord (h : inWord d = false) : d.isDigit = false :=
  (Bool.or_eq_false_iff.1 h).2

/-- The rest of a word. -/
theorem lexFrom_inWord (ht : ∀ c ∈ t, inWord c = true) (hd : Parts d) :
    lexFrom (.word u) (t ++ d :: rest) = emit [wordLexeme (u ++ t)] (lexemes (d :: rest)) := by
  induction t generalizing u with
  | nil =>
    rw [List.nil_append, List.append_nil]
    refine lexFrom_of_endedBy ?_
    rw [next, hd.1]
    rfl
  | cons c t ih =>
    rw [List.cons_append, lexFrom_of_next_mode (.word (u ++ [c])), ih, List.append_assoc,
      List.singleton_append]
    · exact fun c hc => ht c (List.mem_cons_of_mem _ hc)
    · rw [next, ht c List.mem_cons_self]
      rfl

/-- The rest of a numeral with a point. -/
theorem lexFrom_inFraction (ht : ∀ c ∈ t, c.isDigit = true) (hd : Parts d) :
    lexFrom (.fraction u) (t ++ d :: rest) = emit [.name (u ++ t)] (lexemes (d :: rest)) := by
  induction t generalizing u with
  | nil =>
    rw [List.nil_append, List.append_nil]
    refine lexFrom_of_endedBy ?_
    rw [next, isDigit_eq_false_of_inWord hd.1]
    rfl
  | cons c t ih =>
    rw [List.cons_append, lexFrom_of_next_mode (.fraction (u ++ [c])), ih, List.append_assoc,
      List.singleton_append]
    · exact fun c hc => ht c (List.mem_cons_of_mem _ hc)
    · rw [next, ht c List.mem_cons_self]
      rfl

/-- More digits of a numeral in front of its point. -/
theorem lexFrom_inWhole (ht : ∀ c ∈ t, c.isDigit = true) :
    lexFrom (.whole u) (t ++ rest) = lexFrom (.whole (u ++ t)) rest := by
  induction t generalizing u with
  | nil => rw [List.nil_append, List.append_nil]
  | cons c t ih =>
    rw [List.cons_append, lexFrom_of_next_mode (.whole (u ++ [c])), ih, List.append_assoc,
      List.singleton_append]
    · exact fun c hc => ht c (List.mem_cons_of_mem _ hc)
    · rw [next, ht c List.mem_cons_self]
      rfl

theorem toNat_le_of_isDigit (h : c.isDigit = true) : c.toNat ≤ 57 := by
  simp only [Char.isDigit, Bool.and_eq_true, decide_eq_true_eq, UInt32.le_iff_toNat_le] at h
  exact h.2

theorem le_toNat_of_isAlpha (h : c.isAlpha = true) : 65 ≤ c.toNat := by
  rcases Bool.or_eq_true_iff.1 h with upper | lower
  · exact UInt32.le_iff_toNat_le.1 (of_decide_eq_true upper).1
  · have above := of_decide_eq_true (Bool.and_eq_true_iff.1 lower).1
    have : 97 ≤ c.toNat := UInt32.le_iff_toNat_le.1 above
    omega

/-- No digit can start a word. -/
theorem isDigit_eq_false_of_opensWord (h : opensWord c = true) : c.isDigit = false := by
  rw [Bool.eq_false_iff]
  intro digit
  have low := toNat_le_of_isDigit digit
  simp only [opensWord, isWordStart, Bool.or_eq_true, decide_eq_true_eq] at h
  rcases h with (alpha | rfl) | high
  · have := le_toNat_of_isAlpha alpha
    omega
  · exact absurd digit (by decide)
  · omega

/-- The characters that start no word and no digits of a numeral. -/
def signs : List Char := blanks ++ marks ++ [doubleQuote, '-', '.']

theorem opened_of_not_mem_signs (h : c ∉ signs) : opened c =
    if c.isDigit then some ([], .whole [c])
    else if opensWord c then some ([], .word [c])
    else none := by
  simp only [signs, List.mem_append, List.mem_cons, List.not_mem_nil, or_false, not_or] at h
  obtain ⟨⟨blank, mark⟩, quote, dash, point⟩ := h
  rw [opened, if_neg blank, if_neg mark, if_neg quote, if_neg dash, if_neg point]

theorem opened_of_isDigit (h : c.isDigit = true) : opened c = some ([], .whole [c]) := by
  have other : signs.any Char.isDigit = false := by decide
  rw [opened_of_not_mem_signs, if_pos h]
  exact fun mem => List.any_eq_false.1 other c mem h

theorem opened_of_opensWord (h : opensWord c = true) : opened c = some ([], .word [c]) := by
  have other : signs.any opensWord = false := by decide
  rw [opened_of_not_mem_signs, isDigit_eq_false_of_opensWord h, if_neg Bool.false_ne_true, if_pos h]
  exact fun mem => List.any_eq_false.1 other c mem h

/-- A word is read as it stands. -/
theorem lexemes_word (ht : isWord t = true) (hd : Parts d) :
    lexemes (t ++ d :: rest) = emit [wordLexeme t] (lexemes (d :: rest)) := by
  cases t with
  | nil => cases ht
  | cons c t =>
    obtain ⟨first, more⟩ := Bool.and_eq_true_iff.1 ht
    have opens : opensWord c = true := by rw [opensWord, first, Bool.true_or]
    have inside : ∀ c ∈ t, inWord c = true := by
      intro c hc
      have plain := List.all_eq_true.1 more c hc
      rw [Bool.or_eq_true] at plain
      rw [inWord, opensWord, Bool.or_eq_true, Bool.or_eq_true]
      exact plain.imp_left Or.inl
    rw [List.cons_append, lexemes, lexFrom_of_next_mode (.word [c]), lexFrom_inWord inside hd]
    · rfl
    · exact opened_of_opensWord opens

/-- A numeral without sign has digits before its point, or is all digits, or has digits after its
point. -/
theorem exists_of_isUnsigned (h : isUnsigned t = true) :
    ∃ w, (∀ c ∈ w, c.isDigit = true) ∧ (t = w ∧ w ≠ [] ∨
      ∃ f, (∀ c ∈ f, c.isDigit = true) ∧ t = w ++ '.' :: f ∧ (w = [] → f ≠ [])) := by
  have parts := List.takeWhile_append_dropWhile (p := Char.isDigit) (l := t)
  have digits : ∀ c ∈ t.takeWhile Char.isDigit, c.isDigit = true :=
    List.all_eq_true.1 List.all_takeWhile
  refine ⟨t.takeWhile Char.isDigit, digits, ?_⟩
  unfold isUnsigned at h
  cases after : t.dropWhile Char.isDigit with
  | nil =>
    rw [after, List.append_nil] at parts
    rw [after] at h
    refine Or.inl ⟨parts.symm, ?_⟩
    rw [parts]
    rintro rfl
    cases h
  | cons c f =>
    rw [after] at h parts
    simp only [Bool.and_eq_true, decide_eq_true_eq, List.all_eq_true, Bool.not_eq_true',
      Bool.and_eq_false_iff, List.isEmpty_eq_false_iff] at h
    obtain ⟨⟨rfl, fraction⟩, some⟩ := h
    exact Or.inr ⟨f, fraction, parts.symm, fun none => some.resolve_left fun h => h none⟩

/-- A numeral without sign is read as it stands, with what has been read in front of it. -/
theorem lexFrom_unsigned (digit : ∀ c, c.isDigit = true → next m c = some ([], .whole (u ++ [c])))
    (point : next m '.' = some ([], .point (u ++ ['.']))) (ht : isUnsigned t = true)
    (hd : Parts d) :
    lexFrom m (t ++ d :: rest) = emit [.name (u ++ t)] (lexemes (d :: rest)) := by
  obtain ⟨w, whole, shape⟩ := exists_of_isUnsigned ht
  -- the digits in front of the point
  have front : w ≠ [] → ∀ r, lexFrom m (w ++ r) = lexFrom (.whole (u ++ w)) r := by
    intro some r
    cases w with
    | nil => exact absurd rfl some
    | cons c w =>
      rw [List.cons_append, lexFrom_of_next_mode _ (digit c (whole c List.mem_cons_self)),
        lexFrom_inWhole fun c hc => whole c (List.mem_cons_of_mem _ hc), List.append_assoc,
        List.singleton_append]
  rcases shape with ⟨rfl, some⟩ | ⟨f, fraction, rfl, some⟩
  · rw [front some]
    refine lexFrom_of_endedBy ?_
    rw [next, isDigit_eq_false_of_inWord hd.1, if_neg Bool.false_ne_true, if_neg hd.2]
  · rw [List.append_assoc, List.cons_append]
    by_cases none : w = []
    · subst none
      cases f with
      | nil => exact absurd rfl (some rfl)
      | cons c f =>
        have first : next (.point (u ++ ['.'])) c = .some ([], .fraction (u ++ ['.'] ++ [c])) := by
          rw [next, fraction c List.mem_cons_self]
          rfl
        rw [List.nil_append, lexFrom_of_next_mode _ point, List.cons_append,
          lexFrom_of_next_mode _ first,
          lexFrom_inFraction (fun c hc => fraction c (List.mem_cons_of_mem _ hc)) hd]
        simp only [List.append_assoc, List.cons_append, List.nil_append]
    · rw [front none, lexFrom_of_next_mode (.fraction (u ++ w ++ ['.'])) rfl,
        lexFrom_inFraction fraction hd]
      simp only [List.append_assoc, List.cons_append, List.nil_append]

/-- A numeral is read as it stands. -/
theorem lexemes_numeral (ht : isNumeral t = true) (hd : Parts d) :
    lexemes (t ++ d :: rest) = emit [.name t] (lexemes (d :: rest)) := by
  unfold isNumeral at ht
  split at ht
  · next t =>
    have negative : ∀ c, c.isDigit = true → next .dash c = some ([], .whole (['-'] ++ [c])) := by
      intro c hc
      have arrow : c ≠ '>' := by
        rintro rfl
        exact absurd hc (by decide)
      have point : c ≠ '.' := by
        rintro rfl
        exact absurd hc (by decide)
      rw [next, if_neg arrow, if_neg point, if_pos hc]
      rfl
    rw [List.cons_append, lexemes, lexFrom_of_next_mode (.dash) rfl]
    exact lexFrom_unsigned negative rfl ht hd
  · exact lexFrom_unsigned (u := []) (fun c hc => opened_of_isDigit hc) rfl ht hd

/-! ### Texts in quotes -/

/-- A text without backslashes is read up to its quotation mark. -/
theorem lexFrom_escapeQuotes (ht : backslash ∉ t) :
    lexFrom (.string u false) (escapeQuotes false t ++ doubleQuote :: rest) =
      emit [.name (u ++ t)] (lexemes rest) := by
  induction t generalizing u with
  | nil =>
    rw [List.append_nil]
    exact lexFrom_of_next rfl
  | cons c t ih =>
    rw [List.mem_cons, not_or] at ht
    have other : c ≠ backslash := Ne.symm ht.1
    rw [escapeQuotes, if_neg other]
    by_cases quote : c = doubleQuote
    · rw [if_pos ⟨quote, rfl⟩, List.cons_append, List.cons_append,
        lexFrom_of_next_mode (.string u true) rfl,
        lexFrom_of_next_mode (.string (u ++ [doubleQuote]) false) rfl, ih ht.2, quote,
        List.append_assoc, List.singleton_append]
    · have goes : next (.string u false) c = some ([], .string (u ++ [c]) false) := by
        rw [next, if_neg quote, if_neg other]
      rw [if_neg fun h => quote h.1, List.cons_append, lexFrom_of_next_mode _ goes, ih ht.2,
        List.append_assoc, List.singleton_append]

theorem lexemes_inQuotes (ht : backslash ∉ t) :
    lexemes (inQuotes t ++ rest) = emit [.name t] (lexemes rest) := by
  rw [inQuotes, List.append_assoc, List.cons_append, lexemes,
    lexFrom_of_next_mode (.string [] false) rfl]
  exact lexFrom_escapeQuotes ht

/-- Reading on, a text in quotes ends or keeps its first character. -/
theorem next_string (c : Char) (u : Text) (pending : Bool) (d : Char) :
    next (.string (c :: u) pending) d = some ([.name (c :: u)], .between) ∨
      ∃ v pending', next (.string (c :: u) pending) d = some ([], .string (c :: v) pending') := by
  cases pending with
  | false =>
    rw [next]
    split
    · exact Or.inl rfl
    · split
      · exact Or.inr ⟨u, true, rfl⟩
      · exact Or.inr ⟨u ++ [d], false, rfl⟩
  | true =>
    right
    rw [next]
    split
    · exact ⟨u ++ [doubleQuote], false, rfl⟩
    · split
      · exact ⟨u ++ [backslash], true, rfl⟩
      · exact ⟨u ++ [backslash, d], false, rfl⟩

/-- Whatever else is read of a text in quotes, its first character stays. -/
theorem exists_of_lexFrom_string {pending : Bool}
    (h : lexFrom (.string (c :: u) pending) t = some ls) : ∃ v ks, ls = .name (c :: v) :: ks := by
  induction t generalizing u pending with
  | nil => cases h
  | cons d t ih =>
    rcases next_string c u pending d with ends | ⟨v, pending', goes⟩
    · rw [lexFrom_of_next ends] at h
      obtain ⟨ks, _, rfl⟩ := Option.map_eq_some_iff.1 h
      exact ⟨u, ks, rfl⟩
    · rw [lexFrom_of_next_mode _ goes] at h
      exact ih h

/-! ### Identifiers -/

/-- A text that its identifier stands for: without backslashes, not written in angle brackets, and
without a line feed at its end that would be lost. -/
structure Sayable (t : Text) : Prop where
  no_backslash : backslash ∉ t
  not_bracketed : isBracketed (withoutFinalBreak t) = false
  kept : withoutFinalBreak t = t ∨
    isWord (withoutFinalBreak t) = false ∧ isNumeral (withoutFinalBreak t) = false

instance (t : Text) : Decidable (Sayable t) :=
  decidable_of_iff (backslash ∉ t ∧ isBracketed (withoutFinalBreak t) = false ∧
      (withoutFinalBreak t = t ∨
        isWord (withoutFinalBreak t) = false ∧ isNumeral (withoutFinalBreak t) = false))
    ⟨fun h => ⟨h.1, h.2.1, h.2.2⟩, fun h => ⟨h.no_backslash, h.not_bracketed, h.kept⟩⟩

/-- The identifier of a text is read as the text. -/
theorem lexemes_identifier (ht : Sayable t) (hd : Parts d) :
    lexemes (identifier t ++ d :: rest) = emit [.name t] (lexemes (d :: rest)) := by
  unfold identifier
  simp only [ht.not_bracketed, Bool.false_eq_true, if_false]
  split
  · next bare =>
    obtain ⟨form, free⟩ := Bool.and_eq_true_iff.1 bare
    have same : withoutFinalBreak t = t := by
      refine ht.kept.resolve_right fun quoted => ?_
      rw [quoted.1, quoted.2] at form
      cases form
    rw [same, Bool.or_eq_true] at form
    rcases form with word | numeral
    · rw [lexemes_word word hd, wordLexeme, if_neg (by simpa using free)]
    · exact lexemes_numeral numeral hd
  · exact lexemes_inQuotes ht.no_backslash

/-- A character is read as itself unless it is the backslash. -/
theorem sayable_singleton_iff : Sayable [c] ↔ c ≠ backslash := by
  constructor
  · rintro h rfl
    exact h.no_backslash List.mem_cons_self
  · intro other
    by_cases feed : c = '\n'
    · subst feed
      exact ⟨by decide, rfl, Or.inr ⟨rfl, rfl⟩⟩
    · have kept : withoutFinalBreak [c] = [c] := by
        rw [withoutFinalBreak, List.getLast?_singleton, if_neg]
        exact fun same => feed (Option.some.inj same)
      refine ⟨?_, ?_, Or.inl kept⟩
      · rw [List.mem_singleton]
        exact Ne.symm other
      · rw [kept]
        unfold isBracketed
        split
        · next same =>
          rw [(List.cons.inj same).2.symm]
          rfl
        · rfl

/-- A text without backslashes, line feeds and angle brackets that open. -/
def Mild (t : Text) : Prop := ∀ c ∈ t, c ≠ backslash ∧ c ≠ '\n' ∧ c ≠ '<'

instance (t : Text) : Decidable (Mild t) := List.decidableBAll _ t

theorem mild_append (ht : Mild t) (hu : Mild u) : Mild (t ++ u) := List.forall_mem_append.2 ⟨ht, hu⟩

theorem mild_joined {l : List Text} (ht : Mild t) (hl : ∀ u ∈ l, Mild u) : Mild (joined t l) := by
  cases l with
  | nil => exact fun c hc => absurd hc List.not_mem_nil
  | cons u l =>
    rw [JsonText.joined_cons]
    refine mild_append (hl u List.mem_cons_self) ?_
    intro c hc
    obtain ⟨v, hv, hc⟩ := List.mem_flatMap.1 hc
    exact mild_append ht (hl v (List.mem_cons_of_mem u hv)) c hc

theorem Mild.withoutFinalBreak_eq (ht : Mild t) : withoutFinalBreak t = t := by
  rw [withoutFinalBreak, if_neg]
  intro last
  exact (ht '\n' (List.mem_of_getLast? last)).2.1 rfl

theorem Mild.isBracketed_eq_false (ht : Mild t) : isBracketed t = false := by
  unfold isBracketed
  split
  · exact absurd rfl (ht '<' List.mem_cons_self).2.2
  · rfl

theorem Mild.sayable (ht : Mild t) : Sayable t where
  no_backslash := fun mem => (ht _ mem).1 rfl
  not_bracketed := by
    rw [ht.withoutFinalBreak_eq]
    exact ht.isBracketed_eq_false
  kept := Or.inl ht.withoutFinalBreak_eq

/-! ### Integers -/

theorem mild_decimal (n : Int) : Mild (decimal n) := by
  intro c hc
  have number := JsonText.inNumber_of_mem_decimal hc
  refine ⟨?_, ?_, ?_⟩ <;>
    · rintro rfl
      exact absurd number (by decide)

theorem isUnsigned_digits (n : Nat) : isUnsigned (digits n) = true := by
  have rest : (digits n).dropWhile Char.isDigit = [] := by
    rw [← List.append_nil (digits n),
      List.dropWhile_append_of_pos fun c hc => isDigit_of_mem_digits hc]
    rfl
  have some : digits n ≠ [] := Nat.toDigits_ne_nil
  rw [isUnsigned, rest]
  simpa using some

theorem isNumeral_decimal (n : Int) : isNumeral (decimal n) = true := by
  unfold decimal
  split
  · exact isUnsigned_digits n.natAbs
  · unfold isNumeral
    split
    · next t minus =>
      have digit : '-' ∈ digits n.natAbs := by
        rw [minus]
        exact List.mem_cons_self
      exact absurd (isDigit_of_mem_digits digit) (by decide)
    · exact isUnsigned_digits n.natAbs

theorem toLower_of_inNumber (h : JsonText.inNumber c = true) : c.toLower = c := by
  rw [JsonText.inNumber, Bool.or_eq_true, decide_eq_true_eq] at h
  rcases h with digit | rfl
  · have low := toNat_le_of_isDigit digit
    refine dif_neg ?_
    rintro ⟨above, _⟩
    have : 65 ≤ c.toNat := UInt32.le_iff_toNat_le.1 above
    omega
  · rfl

/-- No keyword has a digit or a minus sign in it. -/
theorem isKeyword_decimal (n : Int) : isKeyword (decimal n) = false := by
  have letters : keywords.any (·.any JsonText.inNumber) = false := by decide
  obtain ⟨c, t, eq⟩ := List.exists_cons_of_ne_nil (decimal_ne_nil n)
  have mem : c ∈ decimal n := by
    rw [eq]
    exact List.mem_cons_self
  have number := JsonText.inNumber_of_mem_decimal mem
  rw [isKeyword, decide_eq_false_iff_not]
  intro keyword
  refine List.any_eq_false.1 letters _ keyword (List.any_eq_true.2 ⟨_, List.mem_map_of_mem mem, ?_⟩)
  rw [toLower_of_inNumber number, number]

/-- An integer is its own identifier. -/
theorem identifier_decimal (n : Int) : identifier (decimal n) = decimal n := by
  unfold identifier
  simp only [(mild_decimal n).withoutFinalBreak_eq, (mild_decimal n).isBracketed_eq_false,
    isNumeral_decimal, isKeyword_decimal, Bool.or_true, Bool.not_false, Bool.and_self,
    Bool.false_eq_true, if_false, if_true]

end DotText

end PatternAutomata
