import PatternAutomata.Proofs.Automaton.Issue
import PatternAutomata.Proofs.Compilation.Meaning
import PatternAutomata.Proofs.Compilation.Thompson

/-!
# What a session keeps true

Steps that make automata from earlier ones, in any order and with any operands, never break a rule:
nothing but the reading of a pattern or of postfix tokens can fail.  Every automaton that is made is
well formed, has states below the counter, and shares states with earlier ones only if it has them
from its operands.

* `makes_or_fails_build`, `makes_or_fails_compile` — the steps that can fail;
* `Making.operands`, `Making.Proper`, `Session.Proper` — steps that are given what they ask for;
* `Making.makes_or_fails` — what one step makes;
* `Registers.Issued`, `Session.Sound` — the automata that are kept have been handed out;
* `Sound.sound_step`, `Sound.sound_after`, `Sound.issued_of_mem_run` — and remain so, as does every
  automaton that was ever answered;
* `Session.proper_steps_issue_automata` — all this about every step of a session.
-/

namespace PatternAutomata

open Automaton

variable {registers : Registers} {counter : State} {A B : Automaton} {making : Making}

/-! ### Reading a pattern or postfix tokens -/

/-- The operation is stopped by a parse error. -/
def FailsToParse (x : Fresh Automaton) (counter : State) : Prop :=
  ∃ e next, x.runFrom counter = (.error (.parse e), next)

theorem makes_or_fails_build (ts : List Token) (counter : State) :
    Makes (build ts) (fun _ => False) counter ∨ FailsToParse (build ts) counter := by
  cases back : Regex.ofPostfix ts with
  | error e =>
    obtain ⟨next, run⟩ := exists_runFrom_build_error back counter
    exact Or.inr ⟨e, next, run⟩
  | ok found =>
    have fragment := fragment_automatonFound back counter
    refine Or.inl ⟨_, _, runFrom_build back counter, ⟨fragment.wellFormed, ?_, ?_⟩, ?_⟩
    · exact fun q hq => ((fragment.mem_states_iff q).1 hq).2
    · exact named_of_names_eq_empty (names_automatonFound found counter)
    · exact fun q hq => Or.inr ((fragment.mem_states_iff q).1 hq).1

/-- The stages after the construction make an automaton of the states of the constructed one or of
fresh ones. -/
theorem makes_afterConstruction (flags : Flags) (hA : A.Issued counter) :
    Makes (Stages.afterConstruction flags A) (fun q => q ∈ A.states) counter := by
  have determinized := makes_determinize hA.wellFormed counter
  rw [Stages.afterConstruction_eq]
  cases flags.minimize with
  | true =>
    obtain ⟨D, next, made, issued, _⟩ := determinized
    have le := A.ascending_determinize.le_of_runFrom made
    refine (makes_minimize issued.wellFormed next).of_later ?_ le fun _ h => h.elim
    rw [if_pos rfl, Fresh.runFrom_bind, made]
  | false =>
    rw [if_neg Bool.false_ne_true]
    cases flags.determinize with
    | true => exact determinized.of_fresh
    | false => exact ⟨A, counter, rfl, hA, fun q hq => Or.inl hq⟩

theorem makes_or_fails_compile (p : Text) (flags : Flags) (counter : State) :
    Makes (compile p flags) (fun _ => False) counter ∨ FailsToParse (compile p flags) counter := by
  by_cases inside : InGrammar p
  · obtain ⟨tokens, found, written, back, _⟩ := exists_ofPostfix_of_inGrammar inside
    rcases makes_or_fails_build tokens counter with made | failed
    · obtain ⟨A, next, built, issued, origin⟩ := made
      have le := (ascending_build tokens).le_of_runFrom built
      refine Or.inl ((makes_afterConstruction flags issued).of_later
        (Stages.runFrom_compile_eq written built) le fun q hq => ?_)
      exact (origin q hq).imp_left id
    · obtain ⟨e, next, failed⟩ := failed
      rw [runFrom_build back] at failed
      cases failed
  · exact Or.inr (exists_runFrom_compile_error inside flags counter)

/-! ### Steps that are given what they ask for -/

/-- The automata that are kept have been handed out. -/
def Registers.Issued (registers : Registers) (counter : State) : Prop :=
  ∀ name A, registers.get? name = some A → A.Issued counter

theorem Registers.find_eq_ok {name : Text} (h : registers.get? name = some A) :
    registers.find name = .ok A := by
  unfold Registers.find
  rw [h]

namespace Making

/-- The names of the automata that a step takes as operands. -/
def operands : Making → List Text
  | .union left right => [left, right]
  | .concatenate left right => [left, right]
  | .star operand => [operand]
  | .relabel operand => [operand]
  | .determinize operand => [operand]
  | .minimize operand => [operand]
  | .prune operand => [operand]
  | _ => []

/-- Whether a step reads a pattern or postfix tokens. -/
def parses : Making → Bool
  | .build _ => true
  | .compile _ _ => true
  | _ => false

/-- Besides its operands a step asks for a symbol that is a single character, for tokens that are,
or for an automaton to be pruned that is deterministic.  Automata are not brought in from outside.
-/
def Suits (registers : Registers) : Making → Prop
  | .symbol t => ∃ c, Symbol.ofText t = .ok c
  | .build tokens => ∃ ts, tokens.mapM WrittenToken.token = .ok ts
  | .prune operand => ∀ A, registers.get? operand = some A → A.kind = .deterministic
  | .make _ => False
  | _ => True

/-- The operands of a step are kept, and what else it asks for is given. -/
structure Proper (registers : Registers) (making : Making) : Prop where
  kept : ∀ name ∈ making.operands, ∃ A, registers.get? name = some A
  suits : making.Suits registers

/-- The state is one of an operand. -/
def Supplies (registers : Registers) (making : Making) (q : State) : Prop :=
  ∃ name ∈ making.operands, ∃ A, registers.get? name = some A ∧ q ∈ A.states

/-- A step on one operand makes what the operation makes. -/
theorem makes_unary {operation : Automaton → Fresh Automaton} {operand : Text}
    (run : making.run registers = do operation (← settled (Registers.find registers operand)))
    (operands : making.operands = [operand]) (kept : registers.get? operand = some A)
    (made : Makes (operation A) (fun q => q ∈ A.states) counter) :
    Makes (making.run registers) (making.Supplies registers) counter := by
  refine made.of_later ?_ (Int.le_refl counter) fun q hq => Or.inl ⟨operand, ?_, A, kept, hq⟩
  · rw [run, Fresh.runFrom_bind, Fresh.runFrom_settled, Registers.find_eq_ok kept]
  · rw [operands]
    exact List.mem_singleton.2 rfl

/-- A step on two operands makes what the operation makes. -/
theorem makes_binary {operation : Automaton → Automaton → Fresh Automaton} {left right : Text}
    (run : making.run registers = do
      let A ← settled (Registers.find registers left)
      let B ← settled (Registers.find registers right)
      operation A B)
    (operands : making.operands = [left, right]) (keptA : registers.get? left = some A)
    (keptB : registers.get? right = some B)
    (made : Makes (operation A B) (fun q => q ∈ A.states ∨ q ∈ B.states) counter) :
    Makes (making.run registers) (making.Supplies registers) counter := by
  refine made.of_later ?_ (Int.le_refl counter) fun q hq => Or.inl ?_
  · rw [run, Fresh.runFrom_bind, Fresh.runFrom_settled, Registers.find_eq_ok keptA]
    simp only [Fresh.runFrom_bind, Fresh.runFrom_settled, Registers.find_eq_ok keptB]
  · rcases hq with hq | hq
    · refine ⟨left, ?_, A, keptA, hq⟩
      rw [operands]
      exact List.mem_cons_self
    · refine ⟨right, ?_, B, keptB, hq⟩
      rw [operands]
      exact List.mem_cons_of_mem left List.mem_cons_self

/-- A step that is given what it asks for makes an automaton of the states of its operands and
fresh ones, or it reads a pattern or tokens and is stopped by a parse error. -/
theorem makes_or_fails (issued : registers.Issued counter) (proper : making.Proper registers) :
    Makes (making.run registers) (making.Supplies registers) counter ∨
      making.parses = true ∧ FailsToParse (making.run registers) counter := by
  obtain ⟨kept, suits⟩ := proper
  cases making with
  | symbol t =>
    obtain ⟨c, hc⟩ := suits
    refine Or.inl ((makes_symbol c counter).of_fresh.of_later ?_ (Int.le_refl counter)
      fun _ => Or.inl)
    rw [run, Fresh.runFrom_bind, Fresh.runFrom_settled, hc]
  | epsilon => exact Or.inl (makes_epsilon counter).of_fresh
  | empty => exact Or.inl (makes_empty counter).of_fresh
  | build tokens =>
    obtain ⟨ts, hts⟩ := suits
    have same : ((Making.build tokens).run registers).runFrom counter
        = (PatternAutomata.build ts).runFrom counter := by
      rw [run, Fresh.runFrom_bind, Fresh.runFrom_settled, hts]
    rcases makes_or_fails_build ts counter with made | failed
    · exact Or.inl (made.of_fresh.of_later same (Int.le_refl counter) fun _ => Or.inl)
    · obtain ⟨e, next, failed⟩ := failed
      exact Or.inr ⟨rfl, e, next, same.trans failed⟩
  | compile pattern flags =>
    rcases makes_or_fails_compile pattern flags counter with made | failed
    · exact Or.inl made.of_fresh
    · exact Or.inr ⟨rfl, failed⟩
  | union left right =>
    obtain ⟨A, hA⟩ := kept left List.mem_cons_self
    obtain ⟨B, hB⟩ := kept right (List.mem_cons_of_mem left List.mem_cons_self)
    exact Or.inl (makes_binary rfl rfl hA hB (makes_union (issued _ A hA) (issued _ B hB)))
  | concatenate left right =>
    obtain ⟨A, hA⟩ := kept left List.mem_cons_self
    obtain ⟨B, hB⟩ := kept right (List.mem_cons_of_mem left List.mem_cons_self)
    exact Or.inl (makes_binary rfl rfl hA hB (makes_concatenate (issued _ A hA) (issued _ B hB)))
  | star operand =>
    obtain ⟨A, hA⟩ := kept operand List.mem_cons_self
    exact Or.inl (makes_unary rfl rfl hA (makes_star (issued _ A hA)))
  | relabel operand =>
    obtain ⟨A, hA⟩ := kept operand List.mem_cons_self
    exact Or.inl (makes_unary rfl rfl hA (makes_relabel (issued _ A hA) counter).of_fresh)
  | determinize operand =>
    obtain ⟨A, hA⟩ := kept operand List.mem_cons_self
    have made := makes_determinize (issued _ A hA).wellFormed counter
    exact Or.inl (makes_unary rfl rfl hA made.of_fresh)
  | minimize operand =>
    obtain ⟨A, hA⟩ := kept operand List.mem_cons_self
    have made := Automaton.makes_minimize (issued _ A hA).wellFormed counter
    exact Or.inl (makes_unary rfl rfl hA made.of_fresh)
  | prune operand =>
    obtain ⟨A, hA⟩ := kept operand List.mem_cons_self
    exact Or.inl (makes_unary rfl rfl hA (makes_pruned (issued _ A hA) (suits A hA)))
  | make blueprint => exact absurd suits id

end Making

/-! ### Whole sessions -/

/-- Steps that make something are given what they ask for; anything may be asked. -/
def Step.Proper (registers : Registers) : Step → Prop
  | .keep _ making => making.Proper registers
  | .ask _ => True

namespace Session

variable {s : Session} {step : Step} {steps before : List Step}

/-- The session after a list of steps. -/
def after (s : Session) : List Step → Session
  | [] => s
  | step :: rest => (s.step step).2.after rest

/-- Every step is given what it asks for when it is its turn. -/
def Proper (s : Session) : List Step → Prop
  | [] => True
  | step :: rest => step.Proper s.registers ∧ (s.step step).2.Proper rest

/-- The automata that are kept have been handed out. -/
def Sound (s : Session) : Prop := s.registers.Issued s.counter

theorem sound_of_registers_empty (counter : State) : Sound ⟨∅, counter⟩ := nofun

theorem proper_append {rest : List Step} :
    s.Proper (before ++ rest) ↔ s.Proper before ∧ (s.after before).Proper rest := by
  induction before generalizing s with
  | nil => exact (and_iff_right trivial).symm
  | cons step before ih =>
    show (_ ∧ (s.step step).2.Proper (before ++ rest)) ↔ (_ ∧ _) ∧ _
    rw [ih, and_assoc]
    rfl

/-- What is kept after a step was kept before it, or is what the step has made. -/
theorem sound_of_registers {t : Session} (h : s.Sound) (le : s.counter ≤ t.counter)
    (registers : ∀ name A, t.registers.get? name = some A →
      s.registers.get? name = some A ∨ A.Issued t.counter) : t.Sound := by
  intro name A look
  rcases registers name A look with before | made
  · exact (h name A before).mono le
  · exact made

/-- A proper step keeps a session sound. -/
theorem Sound.sound_step (h : s.Sound) (proper : step.Proper s.registers) :
    (s.step step).2.Sound := by
  refine sound_of_registers h (s.counter_le_step step) ?_
  intro name A look
  cases step with
  | ask asking => exact Or.inl look
  | keep register making =>
    rcases Making.makes_or_fails h proper with made | ⟨_, e, next, failed⟩
    · obtain ⟨B, next, run, issued, _⟩ := made
      rw [step_keep_of_ok run] at look ⊢
      have look : (s.registers.insert register B).get? name = some A := look
      rw [OrderedMap.get?_insert] at look
      split at look
      · cases look
        exact Or.inr issued
      · exact Or.inl look
    · rw [step_keep_of_error failed] at look
      exact Or.inl look

theorem Sound.sound_after (h : s.Sound) (proper : s.Proper steps) : (s.after steps).Sound := by
  induction steps generalizing s with
  | nil => exact h
  | cons step rest ih => exact ih (h.sound_step proper.1) proper.2

theorem counter_le_after (s : Session) (steps : List Step) :
    s.counter ≤ (s.after steps).counter := by
  induction steps generalizing s with
  | nil => exact Int.le_refl _
  | cons step rest ih => exact Int.le_trans (s.counter_le_step step) (ih (s.step step).2)

/-- The only automaton that is answered to a question about an automaton is that one. -/
theorem eq_of_answer {query : Query} (h : query.answer A = .ok (.automaton B)) : B = A := by
  cases query with
  | automaton =>
    cases h
    rfl
  | move states t =>
    obtain ⟨c, _, h⟩ := exists_of_bind_eq_ok h
    cases h
  | ends q l =>
    obtain ⟨m, _, h⟩ := exists_of_bind_eq_ok h
    cases h
  | accepts texts => cases h
  | closure states => cases h
  | reachable => cases h
  | blocks =>
    obtain ⟨blocks, _, h⟩ := exists_of_bind_eq_ok h
    cases h
  | names states => cases h
  | sizes => cases h
  | rendering r => cases h

/-- The only automata that are answered to questions are kept ones. -/
theorem exists_register_of_ask {asking : Asking}
    (answered : (s.step (.ask asking)).1 = .ok (.automaton B)) :
    ∃ name, s.registers.get? name = some B := by
  cases asking with
  | freshStates n => cases answered
  | listText states => cases answered
  | about name query =>
    have answered : (s.registers.find name).bind query.answer = .ok (.automaton B) := answered
    obtain ⟨A, found, answer⟩ := exists_of_bind_eq_ok answered
    refine ⟨name, ?_⟩
    rw [eq_of_answer answer]
    unfold Registers.find at found
    split at found
    · next C look =>
      cases found
      exact look
    · cases found

/-- An automaton that a proper step answers has been handed out after the step. -/
theorem Sound.issued_of_answered (h : s.Sound) (proper : step.Proper s.registers)
    (answered : (s.step step).1 = .ok (.automaton B)) : B.Issued (s.step step).2.counter := by
  cases step with
  | ask asking =>
    obtain ⟨name, look⟩ := exists_register_of_ask answered
    exact (h name B look).mono (s.counter_le_step _)
  | keep register making =>
    rcases Making.makes_or_fails h proper with made | ⟨_, e, next, failed⟩
    · obtain ⟨C, next, run, issued, _⟩ := made
      rw [step_keep_of_ok run] at answered ⊢
      cases answered
      exact issued
    · rw [step_keep_of_error failed] at answered
      cases answered

/-- Every automaton that was ever answered has been handed out. -/
theorem Sound.issued_of_mem_run (h : s.Sound) (proper : s.Proper steps)
    (mem : .ok (.automaton B) ∈ s.run steps) : B.Issued (s.after steps).counter := by
  induction steps generalizing s with
  | nil => exact absurd mem List.not_mem_nil
  | cons step rest ih =>
    rcases List.mem_cons.1 mem with now | later
    · exact (h.issued_of_answered proper.1 now.symm).mono (counter_le_after _ rest)
    · exact ih (h.sound_step proper.1) proper.2 later

/-- **The session invariant.**  In a session that starts with nothing kept and at any counter, every
step that makes an automaton from earlier ones, and is given what it asks for, answers one, or reads
a pattern or tokens and reports a parse error; nothing else can happen.  The automaton is well
formed, its states are below the counter, and its names are for its own states.  Each of its states
is one of an operand or was handed out during the step, and no automaton that was answered before
has a state that was handed out during the step. -/
theorem proper_steps_issue_automata (counter : State) (before : List Step) (name : Text)
    (making : Making)
    (proper : (Session.mk ∅ counter).Proper (before ++ [.keep name making])) :
    let s := (Session.mk ∅ counter).after before
    let t := (s.step (.keep name making)).2
    ((∃ A : Automaton, (s.step (.keep name making)).1 = .ok (.automaton A) ∧ A.WellFormed ∧
        (∀ q, q ∈ A.states → q < t.counter) ∧
        (∀ q, q ∈ A.names.keys → q ∈ A.states) ∧
        ∀ q, q ∈ A.states → making.Supplies s.registers q ∨ s.counter ≤ q ∧ q < t.counter) ∨
      making.parses = true ∧
        ∃ e : ParseError, (s.step (.keep name making)).1 = .error (.parse e)) ∧
    s.counter ≤ t.counter ∧
    ∀ B : Automaton, .ok (.automaton B) ∈ (Session.mk ∅ counter).run before →
      ∀ q, q ∈ B.states → ¬ (s.counter ≤ q ∧ q < t.counter) := by
  intro s t
  obtain ⟨earlier, now⟩ := proper_append.1 proper
  have sound : s.Sound := (sound_of_registers_empty counter).sound_after earlier
  refine ⟨?_, s.counter_le_step _, ?_⟩
  · rcases Making.makes_or_fails sound now.1 with made | ⟨parses, e, next, failed⟩
    · obtain ⟨A, next, run, issued, origin⟩ := made
      have kept : s.step (.keep name making) = _ := step_keep_of_ok run
      have counter : t.counter = next := by
        show (s.step (.keep name making)).2.counter = next
        rw [kept]
      rw [counter]
      refine Or.inl ⟨A, ?_, issued.wellFormed, issued.below, issued.named, ?_⟩
      · rw [kept]
      · intro q hq
        exact (origin q hq).imp_right fun new => ⟨new, issued.below q hq⟩
    · refine Or.inr ⟨parses, e, ?_⟩
      rw [step_keep_of_error failed]
  · intro B answered q hq handedOut
    have issued := (sound_of_registers_empty counter).issued_of_mem_run earlier answered
    exact Int.lt_irrefl q (Int.lt_of_lt_of_le (issued.below q hq) handedOut.1)

/-- A symbol, its iteration, which has the states of the symbol among its own, and the union of the
two. -/
def overlapping : List Step :=
  [.keep ['a'] (.symbol ['a']), .keep ['s'] (.star ['a']), .keep ['u'] (.union ['s'] ['a'])]

theorem proper_overlapping : (Session.mk ∅ (-1)).Proper overlapping :=
  ⟨⟨nofun, 'a', rfl⟩, ⟨List.forall_mem_cons.2 ⟨⟨_, rfl⟩, nofun⟩, trivial⟩,
    ⟨List.forall_mem_cons.2 ⟨⟨_, rfl⟩, List.forall_mem_cons.2 ⟨⟨_, rfl⟩, nofun⟩⟩, trivial⟩, trivial⟩

theorem overlapping_steps_issue_automata :
    (Session.mk ∅ (-1)).Proper overlapping ∧
      ∃ A : Automaton, ((Session.mk ∅ (-1)).run overlapping).getLast? = some (.ok (.automaton A)) ∧
        A.WellFormed ∧ (∀ q, q ∈ A.states → q < 5) ∧
        ∀ B : Automaton, .ok (.automaton B) ∈ (Session.mk ∅ (-1)).run (overlapping.take 2) →
          ∀ q, q ∈ B.states → ¬ (2 ≤ q ∧ q < 5) := by
  refine ⟨proper_overlapping, ?_⟩
  obtain ⟨made, _, apart⟩ := proper_steps_issue_automata (-1) (overlapping.take 2) ['u']
    (.union ['s'] ['a']) proper_overlapping
  rcases made with ⟨A, answered, wellFormed, below, _, _⟩ | ⟨parses, _⟩
  · exact ⟨A, congrArg some answered, wellFormed, below, apart⟩
  · cases parses

end Session

end PatternAutomata
