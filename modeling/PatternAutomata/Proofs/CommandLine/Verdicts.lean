import PatternAutomata.Proofs.CommandLine.Calls
import PatternAutomata.Proofs.Compilation.Meaning
import PatternAutomata.Proofs.Data.Distinct
import PatternAutomata.Proofs.Text.Legibility

/-!
# What the command reports

The command rejects a text that is no pattern and writes nothing then.  Otherwise it writes an
object with a member for each of the texts that it is asked about, in the order of their first
places, which says whether the pattern denotes the text.  So the form, and whether a text comes from
an option or from a line of the file, make no difference.

* `Judges` — verdicts on texts; `Judges.eq` — there is only one list of them;
* `writeVerdicts`, `writeVerdicts_injective` — how they are written, and that this tells them;
* `judges_verdictsOf`, `report_eq` — the verdicts of an automaton, and the report on them;
* `Writes`, `writes_ofStop_writing` — a text is written, or nothing is;
* `MadeBy.rejects`, `MadeBy.reports`, `MadeBy.runCommand_congr` — the outcome of a call;
* `asked_eq_of_lines` — texts as options and as lines of the file;
* `command_reports_verdicts` — the command as a whole.
-/

namespace PatternAutomata

variable {A B : Automaton} {p : Text} {texts : List Text} {s : Surroundings}

/-! ### Verdicts -/

/-- Verdicts on the given texts: each of them at its first place, and whether the pattern denotes
it. -/
structure Judges (p : Text) (texts : List Text) (verdicts : List (Text × Bool)) : Prop where
  mem_iff : ∀ t, t ∈ verdicts.map Prod.fst ↔ t ∈ texts
  ordered : (verdicts.map Prod.fst).Pairwise (FirstBefore texts)
  verdict : ∀ t b, (t, b) ∈ verdicts → (b = true ↔ Denotes p t)

theorem Judges.keys_eq {verdicts : List (Text × Bool)} (h : Judges p texts verdicts) :
    verdicts.map Prod.fst = distinct texts := by
  have apart : ∀ {t u : Text}, FirstBefore texts t u → ¬ FirstBefore texts u t := fun before =>
    Nat.lt_asymm before
  have nodup : (verdicts.map Prod.fst).Nodup := by
    refine h.ordered.imp ?_
    rintro t _ before rfl
    exact apart before before
  -- two lists of the same texts in one strict order
  have perm : (verdicts.map Prod.fst).Perm (distinct texts) :=
    (List.perm_ext_iff_of_nodup nodup (nodup_distinct texts)).2 fun t =>
      (h.mem_iff t).trans mem_distinct.symm
  exact perm.eq_of_pairwise (fun _ _ _ _ before after => absurd after (apart before)) h.ordered
    (pairwise_distinct texts)

/-- There is only one list of verdicts on given texts. -/
theorem Judges.eq {v w : List (Text × Bool)} (hv : Judges p texts v) (hw : Judges p texts w) :
    v = w := by
  refine eq_of_map_eq_map ?_ (hv.keys_eq.trans hw.keys_eq.symm)
  rintro ⟨t, b⟩ ht ⟨u, d⟩ hu same
  obtain rfl : t = u := same
  have values : b = d := by
    rw [Bool.eq_iff_iff, hv.verdict t b ht, hw.verdict t d hu]
  rw [values]

/-- Verdicts as an object with a line for each of them. -/
def writeVerdicts (verdicts : List (Text × Bool)) : Text :=
  JsonText.objectLines (verdicts.map fun v => (v.1, JsonText.boolean v.2)) ++ ['\n']

theorem writeVerdicts_injective {v w : List (Text × Bool)}
    (same : writeVerdicts v = writeVerdicts w) : v = w :=
  JsonText.legible_boolean.objectLines_injective (List.append_cancel_right same)

/-- The verdicts of an automaton. -/
def verdictsOf (A : Automaton) (texts : List Text) : List (Text × Bool) :=
  (distinct texts).map fun t => (t, A.accepts t)

theorem map_fst_verdictsOf : (verdictsOf A texts).map Prod.fst = distinct texts := by
  unfold verdictsOf
  rw [List.map_map]
  exact List.map_id _

/-- An automaton that accepts what the pattern denotes gives the right verdicts. -/
theorem judges_verdictsOf (accepts : ∀ w, A.accepts w = true ↔ Denotes p w) (texts : List Text) :
    Judges p texts (verdictsOf A texts) where
  mem_iff := by
    intro t
    rw [map_fst_verdictsOf, mem_distinct]
  ordered := by
    rw [map_fst_verdictsOf]
    exact pairwise_distinct texts
  verdict := by
    intro t b mem
    obtain ⟨u, _, same⟩ := List.mem_map.1 mem
    obtain ⟨rfl, rfl⟩ := Prod.mk.inj same
    exact accepts u

/-- What is shown of an automaton, if it is asked for. -/
def shownIf (listing : Bool) (A : Automaton) : Text :=
  if listing then A.description ++ ['\n'] else []

theorem report_eq (r : Request) (A : Automaton) :
    r.report A = shownIf r.listing A ++ writeVerdicts (verdictsOf A r.texts) := by
  have results : Request.results A r.texts =
      (verdictsOf A r.texts).map fun v => (v.1, JsonText.boolean v.2) := by
    unfold verdictsOf
    rw [List.map_map]
    rfl
  unfold Request.report writeVerdicts shownIf
  rw [results, List.append_assoc]

/-! ### Writing -/

/-- A text goes to the standard output, or into the file of that name; if there can be no such file,
nothing is written. -/
structure Writes (outcome? : Except Fault Outcome) (s : Surroundings) (name content : Text) :
    Prop where
  standard : name = standardStream → outcome? = .ok { exitCode := 0, output := content }
  file : name ≠ standardStream → isFileName name = true → s.obstacle? name = none →
    outcome? = .ok { exitCode := 0, written? := some (name, content) }
  otherwise : name ≠ standardStream → isFileName name = false ∨ s.obstacle? name ≠ none →
    ∀ outcome, outcome? = .ok outcome → outcome.output = [] ∧ outcome.written? = none

theorem writes_ofStop_writing (s : Surroundings) (name content : Text) :
    Writes (Outcome.ofStop (Outcome.writing s name content)) s name content where
  standard := by
    intro standard
    unfold Outcome.writing
    rw [if_pos standard]
    rfl
  file := by
    intro other isName free
    unfold Outcome.writing
    rw [if_neg other, if_pos isName, free]
    rfl
  otherwise := by
    intro other hindered outcome ended
    unfold Outcome.writing at ended
    rw [if_neg other] at ended
    split at ended
    · next isName =>
      cases found : s.obstacle? name with
      | none =>
        rcases hindered with noName | found'
        · rw [isName] at noName
          cases noName
        · exact absurd found found'
      | some o =>
        rw [found] at ended
        cases ended
        exact ⟨rfl, rfl⟩
    · cases ended

/-! ### The outcome of a call -/

namespace Call

variable {c d : Call} {arguments others : List Text}

/-- A text that is no pattern is reported, as what it is whatever else is asked for. -/
theorem MadeBy.rejects (h : c.MadeBy arguments s) {e : ParseError}
    (failed : ∀ flags counter, ∃ next,
      (compile c.pattern flags).runFrom counter = (.error (.parse e), next)) :
    runCommand arguments s = .ok (Outcome.complaining (.badPattern e)) := by
  obtain ⟨next, run⟩ := failed c.form.flags 0
  rw [h.runCommand_eq, run]
  rfl

/-- A pattern is compiled, and the verdicts of its automaton are written. -/
theorem MadeBy.reports (h : c.MadeBy arguments s) (pattern : InGrammar c.pattern) :
    ∃ A next, (compile c.pattern c.form.flags).runFrom 0 = (.ok A, next) ∧
      (∀ w, A.accepts w = true ↔ Denotes c.pattern w) ∧
      runCommand arguments s = Outcome.ofStop (Outcome.writing s c.output
        (shownIf c.listing A ++ writeVerdicts (verdictsOf A c.asked))) := by
  obtain ⟨A, next, run, wellFormed, accepts⟩ := exists_runFrom_compile pattern c.form.flags 0
  refine ⟨A, next, run, ?_, ?_⟩
  · intro w
    rw [Automaton.accepts_iff wellFormed, accepts]
  · rw [h.runCommand_eq, run]
    show Outcome.ofStop (Outcome.writing s c.output (c.request.report A)) = _
    rw [report_eq]
    rfl

/-- Calls that ask about the same texts and do not ask to see the automaton have the same outcome.
-/
theorem MadeBy.runCommand_congr (h : c.MadeBy arguments s) (h' : d.MadeBy others s)
    (pattern : d.pattern = c.pattern) (output : d.output = c.output)
    (asked : d.asked = c.asked) (listing : c.listing = false) (listing' : d.listing = false) :
    runCommand others s = runCommand arguments s := by
  by_cases inGrammar : InGrammar c.pattern
  · obtain ⟨A, _, _, accepts, run⟩ := h.reports inGrammar
    obtain ⟨B, _, _, accepts', run'⟩ := h'.reports (pattern ▸ inGrammar)
    have same : verdictsOf B c.asked = verdictsOf A c.asked :=
      (judges_verdictsOf (pattern ▸ accepts') c.asked).eq (judges_verdictsOf accepts c.asked)
    rw [run, run', output, asked, listing, listing', same]
    rfl
  · obtain ⟨e, failed⟩ := exists_error_of_not_inGrammar inGrammar
    rw [h.rejects failed, h'.rejects (pattern ▸ failed)]

/-- Texts without line ends can be given as options or as lines of the file. -/
theorem asked_eq_of_lines (plain : ∀ t ∈ texts, '\n' ∉ t ∧ '\r' ∉ t) (c : Call) :
    asked { c with texts := c.texts ++ texts, content := [] } =
      asked { c with content := texts.flatMap fun t => t ++ ['\n'] } := by
  unfold asked
  rw [lines_of_ended plain, lines, List.append_nil]

end Call

/-! ### The whole -/

/-- **The command.**  Every pattern, texts, readable file, form and output can be asked for.  If the
pattern is outside the grammar, the command says so, ends with exit code 2 and writes nothing to its
output.  Otherwise it compiles the pattern and writes, after the automaton if it is to be shown, an
object that has as its keys the texts of the options and then the lines of the file, each once and
in the order of first places, and as their values whether the pattern denotes them; the text of the
object tells the keys and the values.  Unless the automaton is to be shown, the form makes no
difference, and neither does it if texts without line ends are given as options or as lines of the
file. -/
theorem command_reports_verdicts (s : Surroundings) :
    (∀ (c : Call) (file? : Option Text), Call.contentOf? s file? = .ok c.content →
      ∃ arguments, c.MadeBy arguments s) ∧
    (∀ (c : Call) (arguments : List Text), c.MadeBy arguments s → ¬ InGrammar c.pattern →
      ∃ outcome, runCommand arguments s = .ok outcome ∧ outcome.exitCode = 2 ∧
        outcome.output = [] ∧ outcome.written? = none ∧
        ∃ e : ParseError, outcome.errors = (Complaint.badPattern e).report) ∧
    (∀ (c : Call) (arguments : List Text), c.MadeBy arguments s → InGrammar c.pattern →
      ∃ (A : Automaton) (next : State) (verdicts : List (Text × Bool)),
        (compile c.pattern c.form.flags).runFrom 0 = (.ok A, next) ∧
        Judges c.pattern c.asked verdicts ∧
        Writes (runCommand arguments s) s c.output
          (shownIf c.listing A ++ writeVerdicts verdicts)) ∧
    (∀ v w, writeVerdicts v = writeVerdicts w → v = w) ∧
    (∀ (c : Call) (form : Form) (arguments others : List Text), c.listing = false →
      c.MadeBy arguments s → { c with form := form }.MadeBy others s →
      runCommand others s = runCommand arguments s) ∧
    (∀ (c : Call) (texts : List Text) (arguments others : List Text), c.listing = false →
      (∀ t ∈ texts, '\n' ∉ t ∧ '\r' ∉ t) →
      { c with texts := c.texts ++ texts, content := [] }.MadeBy arguments s →
      { c with content := texts.flatMap fun t => t ++ ['\n'] }.MadeBy others s →
      runCommand others s = runCommand arguments s) := by
  refine ⟨?_, ?_, ?_, fun _ _ => writeVerdicts_injective, ?_, ?_⟩
  · intro c file? content
    exact c.exists_madeBy content
  · intro c arguments made outside
    obtain ⟨e, failed⟩ := exists_error_of_not_inGrammar outside
    exact ⟨_, made.rejects failed, rfl, rfl, rfl, e, rfl⟩
  · intro c arguments made pattern
    obtain ⟨A, next, run, accepts, ended⟩ := made.reports pattern
    refine ⟨A, next, verdictsOf A c.asked, run, judges_verdictsOf accepts c.asked, ?_⟩
    rw [ended]
    exact writes_ofStop_writing s c.output _
  · intro c form arguments others listing made made'
    exact made.runCommand_congr made' rfl rfl rfl listing listing
  · intro c texts arguments others listing plain made made'
    exact made.runCommand_congr made' rfl rfl (Call.asked_eq_of_lines plain c).symm listing listing

/-- Surroundings without files, and two lines that end in different ways on the standard input. -/
def twoLines : Surroundings :=
  { input := "a\nb\r\n".toList
    read := fun _ => .error .absent
    obstacle? := fun _ => none }

/-- A call about a text that also is a line, and one whose pattern is a parenthesis. -/
def callAbout (pattern : Text) : Call :=
  { pattern := pattern
    texts := ["b".toList]
    content := twoLines.input
    form := .deterministic
    listing := false
    output := standardStream }

/-- The lines on the standard input are judged; a parenthesis is rejected. -/
theorem command_reports_verdicts_on_two_lines :
    (∃ arguments verdicts, (callAbout ['a']).MadeBy arguments twoLines ∧
      runCommand arguments twoLines = .ok { exitCode := 0, output := writeVerdicts verdicts } ∧
      verdicts.map Prod.fst = ["b".toList, "a".toList] ∧
      ("a".toList, true) ∈ verdicts ∧ ("b".toList, false) ∈ verdicts) ∧
    ∃ arguments outcome, (callAbout [')']).MadeBy arguments twoLines ∧
      runCommand arguments twoLines = .ok outcome ∧ outcome.exitCode = 2 := by
  obtain ⟨calls, rejects, reports, -, -, -⟩ := command_reports_verdicts twoLines
  constructor
  · have letter : Spells .expression (.literal 'a') ['a'] :=
      .ofTerm (.ofFactor (.ofAtom (.literal rfl)))
    obtain ⟨arguments, made⟩ := calls (callAbout ['a']) (some standardStream) rfl
    obtain ⟨A, next, verdicts, -, judges, writes⟩ :=
      reports (callAbout ['a']) arguments made (Or.inr ⟨_, letter⟩)
    have judged : ∀ t, t ∈ (callAbout ['a']).asked →
        ∃ b, (t, b) ∈ verdicts ∧ (b = true ↔ t = ['a']) := by
      intro t ht
      obtain ⟨⟨u, b⟩, mem, rfl⟩ := List.mem_map.1 ((judges.mem_iff t).2 ht)
      refine ⟨b, mem, (judges.verdict u b mem).trans ?_⟩
      exact (Denotes.iff_matches letter).trans Regex.matches_literal_iff
    obtain ⟨b, memA, accepted⟩ := judged ['a'] (by decide)
    obtain ⟨d, memB, rejected⟩ := judged ['b'] (by decide)
    have b_eq : b = true := accepted.2 rfl
    have d_eq : d = false := Bool.eq_false_iff.2 fun h => absurd (rejected.1 h) (by decide)
    exact ⟨arguments, verdicts, made, writes.standard rfl, judges.keys_eq, b_eq ▸ memA, d_eq ▸ memB⟩
  · obtain ⟨arguments, made⟩ := calls (callAbout [')']) (some standardStream) rfl
    have outside : ¬ InGrammar [')'] := by
      intro inside
      obtain ⟨tokens, found, written, -⟩ := exists_ofPostfix_of_inGrammar inside
      cases written
    obtain ⟨outcome, run, code, -⟩ := rejects (callAbout [')']) arguments made outside
    exact ⟨arguments, outcome, made, run, code⟩

end PatternAutomata
