import PatternAutomata.CommandLine.Command
import PatternAutomata.Proofs.Data.Lists

/-!
# Calls of the command

What a call asks for is known from what its arguments are read as, whatever way the options are
spelt and wherever they stand.  Every pattern, texts, file and form can be asked for.

* `Switch.spelled`, `Arguments.read_spelled` — options in their long spellings are read as they are;
* `Call`, `Call.MadeBy` — what is asked for, and by which arguments;
* `Call.MadeBy.ofArguments?_eq`, `Call.MadeBy.runCommand_eq` — the command does what is asked for;
* `Call.exists_madeBy` — for every call there are arguments that make it.
-/

namespace PatternAutomata

/-! ### Options in their long spellings -/

/-- The arguments for an option in its long spelling. -/
def Switch.spelled (o : Switch × Text) : List Text :=
  if o.1.takesValue then [o.1.long, o.2] else [o.1.long]

namespace Arguments

theorem isOption_long (s : Switch) : s.long ≠ "--".toList ∧ isOption s.long = true := by
  cases s <;> exact ⟨by decide, rfl⟩

theorem readOption_long (s : Switch) (rest : List Text) :
    readOption s.long rest = readLong s none rest := by
  cases s <;> rfl

/-- Options in their long spellings are read one after the other, and the rest is kept. -/
theorem readFrom_spelled {options : List (Switch × Text)} {positional : List Text} {fuel : Nat}
    (plain : ∀ o ∈ options, o.1.takesValue = false → o.2 = []) (enough : options.length < fuel) :
    readFrom fuel (options.flatMap Switch.spelled ++ "--".toList :: positional) =
      .ok ⟨options, positional⟩ := by
  induction options generalizing fuel with
  | nil =>
    cases fuel with
    | zero => exact absurd enough (Nat.not_lt_zero _)
    | succ fuel => rfl
  | cons o options ih =>
    obtain ⟨s, value⟩ := o
    cases fuel with
    | zero => exact absurd enough (Nat.not_lt_zero _)
    | succ fuel =>
      have later := ih (fun o ho => plain o (List.mem_cons_of_mem _ ho))
        (Nat.lt_of_succ_lt_succ enough)
      obtain ⟨ends, option⟩ := isOption_long s
      rw [List.flatMap_cons, List.append_assoc]
      cases takes : s.takesValue with
      | true =>
        have spelled : Switch.spelled (s, value) = [s.long, value] := if_pos takes
        rw [spelled, List.cons_append, List.cons_append, List.nil_append, readFrom, if_neg ends,
          if_pos option, readOption_long, readLong]
        simp only [takes, if_true, valueFrom, bind, Except.bind, later]
        rfl
      | false =>
        have spelled : Switch.spelled (s, value) = [s.long] :=
          if_neg (Bool.eq_false_iff.1 takes)
        have empty : value = [] := plain _ List.mem_cons_self takes
        rw [spelled, empty, List.cons_append, List.nil_append, readFrom, if_neg ends,
          if_pos option, readOption_long, readLong]
        simp only [takes, Bool.false_eq_true, if_false, bind, Except.bind, later]
        rfl

/-- Options in their long spellings, with `--` after them, are read as they are. -/
theorem read_spelled {options : List (Switch × Text)}
    (plain : ∀ o ∈ options, o.1.takesValue = false → o.2 = []) (positional : List Text) :
    read (options.flatMap Switch.spelled ++ "--".toList :: positional) =
      .ok ⟨options, positional⟩ := by
  apply readFrom_spelled plain
  -- there is fuel for every argument, and an option has at least one
  have spelled : options.length ≤ (options.flatMap Switch.spelled).length := by
    clear plain
    induction options with
    | nil => exact Nat.le_refl 0
    | cons o options ih =>
      have one : 1 ≤ (Switch.spelled o).length := by
        unfold Switch.spelled
        split
        · exact Nat.le_succ 1
        · exact Nat.le_refl 1
      rw [List.flatMap_cons, List.length_append, List.length_cons]
      omega
  rw [List.length_append, List.length_cons]
  omega

end Arguments

/-! ### Calls -/

/-- What a call of the command asks for. -/
structure Call where
  pattern : Text
  /-- The texts that are given as options, in their order. -/
  texts : List Text
  /-- The content of the input file, or nothing if there is none. -/
  content : Text
  form : Form
  /-- Whether the automaton is shown. -/
  listing : Bool
  /-- The name of the output. -/
  output : Text

namespace Call

variable {c : Call} {arguments : List Text} {s : Surroundings}

/-- The texts that a call asks about: those of the options, and then the lines of the file. -/
def asked (c : Call) : List Text := c.texts ++ lines c.content

/-- The arguments are read as the call, where the input file has its content. -/
def MadeBy (c : Call) (arguments : List Text) (s : Surroundings) : Prop :=
  ∃ given, Arguments.read arguments = .ok given ∧ given.positional = [c.pattern] ∧
    given.values .text = c.texts ∧ Request.input? given s = .ok c.content ∧
    Request.form? given = .ok c.form ∧ given.has .listing = c.listing ∧
    (given.value? .output).getD standardStream = c.output

/-- The request of a call. -/
def request (c : Call) : Request :=
  { pattern := c.pattern
    texts := c.asked
    form := c.form
    listing := c.listing
    output := c.output }

/-- If the file can be read and the form is one, no option is wrong. -/
theorem checkOption_eq_ok {given : Arguments} {content : Text} {form : Form}
    (input : Request.input? given s = .ok content) (formed : Request.form? given = .ok form)
    (o : Switch) : Request.checkOption given s o = .ok () := by
  cases o with
  | form => simp only [Request.checkOption, formed]; rfl
  | inputFile => simp only [Request.checkOption, input]; rfl
  | _ => rfl

theorem ofArguments?_eq {given : Arguments} (positional : given.positional = [c.pattern])
    (texts : given.values .text = c.texts) (input : Request.input? given s = .ok c.content)
    (formed : Request.form? given = .ok c.form) (listing : given.has .listing = c.listing)
    (output : (given.value? .output).getD standardStream = c.output) :
    Request.ofArguments? given s = .ok c.request := by
  have checked : (given.options.forM fun o => Request.checkOption given s o.1) = .ok () :=
    forM_eq_ok fun o _ => checkOption_eq_ok input formed o.1
  unfold Request.ofArguments?
  simp only [checked, positional, input, formed, texts, listing, output]
  rfl

/-- The command compiles the pattern and writes its report. -/
theorem MadeBy.runCommand_eq (h : c.MadeBy arguments s) :
    runCommand arguments s = Outcome.ofStop
      ((((compile c.pattern c.form.flags).runFrom 0).1.mapError Stop.ofFault).bind fun A =>
        Outcome.writing s c.output (c.request.report A)) := by
  obtain ⟨given, read, positional, texts, input, formed, listing, output⟩ := h
  have request := ofArguments?_eq positional texts input formed listing output
  unfold runCommand
  rw [read]
  show Outcome.ofStop (Except.bind (Request.ofArguments? given s) _) = _
  rw [request]
  rfl

/-! ### Every call can be made -/

/-- The options of a call, with the name of the input file. -/
def options (c : Call) (file? : Option Text) : List (Switch × Text) :=
  c.texts.map (fun t => (.text, t)) ++ file?.toList.map (fun name => (.inputFile, name))
    ++ [(.form, c.form.name), (.output, c.output)]
    ++ (if c.listing then [(.listing, [])] else [])

/-- The content of the file that is named, or nothing if none is. -/
def contentOf? (s : Surroundings) : Option Text → Except Stop Text
  | none => .ok []
  | some name => s.contentOf name

theorem ofName?_name (form : Form) : Form.ofName? form.name = some form := by
  cases form <;> rfl

/-- Only the option to show the automaton has no value. -/
theorem plain_options {file? : Option Text} {o : Switch × Text} (ho : o ∈ c.options file?)
    (flag : o.1.takesValue = false) : o.2 = [] := by
  unfold options at ho
  rcases List.mem_append.1 ho with ho | ho
  · rcases List.mem_append.1 ho with ho | ho
    · rcases List.mem_append.1 ho with ho | ho
      · obtain ⟨t, _, rfl⟩ := List.mem_map.1 ho
        cases flag
      · obtain ⟨name, _, rfl⟩ := List.mem_map.1 ho
        cases flag
    · rcases List.mem_pair.1 ho with rfl | rfl
      · cases flag
      · cases flag
  · split at ho
    · rw [List.mem_singleton.1 ho]
    · exact absurd ho List.not_mem_nil

/-- The values that the options of a call give. -/
theorem values_options (c : Call) (file? : Option Text) (positional : List Text) :
    let given : Arguments := ⟨c.options file?, positional⟩
    given.values .text = c.texts ∧ given.values .inputFile = file?.toList ∧
      given.values .form = [c.form.name] ∧ given.values .output = [c.output] ∧
      given.has .listing = c.listing := by
  refine ⟨?_, ?_, ?_, ?_, ?_⟩ <;> cases listing : c.listing <;>
    simp [Arguments.values, Arguments.has, options, listing, List.filter_append, List.filter_map,
      Function.comp_def]

/-- Every pattern, texts, readable file, form and output can be asked for. -/
theorem exists_madeBy (c : Call) {file? : Option Text}
    (content : contentOf? s file? = .ok c.content) : ∃ arguments, c.MadeBy arguments s := by
  have plain : ∀ o ∈ c.options file?, o.1.takesValue = false → o.2 = [] := fun o =>
    c.plain_options
  obtain ⟨texts, file, form, output, listing⟩ := c.values_options file? [c.pattern]
  refine ⟨_, _, Arguments.read_spelled plain [c.pattern], rfl, texts, ?_, ?_, listing, ?_⟩
  · unfold Request.input? Arguments.value?
    rw [file]
    cases file? with
    | none => exact content
    | some name => exact content
  · unfold Request.form? Arguments.value?
    rw [form]
    simp only [List.getLast?_singleton, ofName?_name]
  · unfold Arguments.value?
    rw [output]
    rfl

end Call

end PatternAutomata
