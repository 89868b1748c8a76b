import ExprLang.Evaluation.Program
import ExprLang.Proofs.Console
import ExprLang.Proofs.Evaluation.Limit
import ExprLang.Proofs.Parsing.Parentheses
import ExprLang.Proofs.Parsing.Truncation

/-!
# Sessions line by line

A session that no fault ends reads, runs and shows its lines one after the other in one scope. Its
output is made of the prompts and the answers to the single lines. Each line has the result that
running it as a program has, and the session leaves the machine that these runs leave. That holds if
programs have as many levels as lines have. If they have more, it holds as long as no line is given up
for its nesting.
-/

namespace ExprLang

namespace Text

/-! ### The lines of an input -/

theorem inputLines_ne_nil {text : List Char} (h : text ≠ []) : inputLines text ≠ [] := by
  fun_cases inputLines text with
  | case1 => exact absurd rfl h
  | case2 rest => simp
  | case3 c rest hc => cases inputLines rest <;> simp [prependToLine]

theorem lineFeed_notMem_of_mem_inputLines {text line : List Char} (h : line ∈ inputLines text) :
    '\n' ∉ line := by
  fun_induction inputLines text generalizing line with
  | case1 => cases h
  | case2 rest ih =>
      obtain rfl | h := List.mem_cons.mp h
      · exact List.not_mem_nil
      · exact ih h
  | case3 c rest hc ih =>
      have hne : '\n' ≠ c := fun he => hc he.symm
      cases hl : inputLines rest with
      | nil =>
          rw [hl, prependToLine, List.mem_singleton] at h
          simpa [h] using hne
      | cons first others =>
          rw [hl, prependToLine, List.mem_cons] at h
          obtain rfl | h := h
          · have hfirst : '\n' ∉ first := ih (by simp [hl])
            simp [hne, hfirst]
          · exact ih (by simp [hl, h])

theorem flatMap_prependToLine (c : Char) {lines : List (List Char)} (h : lines ≠ []) :
    (prependToLine c lines).flatMap (· ++ ['\n']) = c :: lines.flatMap (· ++ ['\n']) := by
  cases lines with
  | nil => exact absurd rfl h
  | cons line rest => rfl

/-- The lines of an input, each with a line feed behind it, are the input. Only the last line of the
input may lack its line feed. -/
theorem flatMap_inputLines (text : List Char) :
    (inputLines text).flatMap (· ++ ['\n']) =
      if text.getLast?.all (· = '\n') then text else text ++ ['\n'] := by
  fun_induction inputLines text with
  | case1 => rfl
  | case2 rest ih =>
      rw [List.flatMap_cons, ih]
      cases rest with
      | nil => rfl
      | cons d ds =>
          rw [List.getLast?_cons_cons]
          split <;> rfl
  | case3 c rest hc ih =>
      cases rest with
      | nil =>
          have hlast : ([c].getLast?.all (· = '\n')) = false := by simpa using hc
          rw [hlast]
          rfl
      | cons d ds =>
          rw [flatMap_prependToLine c (inputLines_ne_nil (List.cons_ne_nil d ds)), ih,
            List.getLast?_cons_cons]
          split <;> rfl

end Text

namespace Console

variable {limits limits' : Limits} {program line answer : String} {lines : List String}
variable {scope : ScopeId} {m m' : Machine}

/-! ### Exchanges -/

/-- A program, what became of it, and what was written for it. -/
structure Exchange where
  program : String
  result : ProgramResult
  answer : String

namespace Exchange

variable {e : Exchange} {es : List Exchange}

/-- What becomes of a program, what is written for it, and the machine that it leaves. A program with
diagnostics is rejected with a report and leaves the machine as it was, and the messages of all its
diagnostics are written. Any other program is run, and its value is written, if it has one. -/
inductive Proper (limits : Limits) (scope : ScopeId) (m : Machine) : Exchange → Machine → Prop where
  | rejected {program report : String} {parsed : Parsed}
      (hp : parseWithin limits.parsing program = .ok parsed)
      (hr : Diagnostic.report? parsed.diagnostics program false = some report) :
      Proper limits scope m ⟨program, .rejected report,
        String.join (parsed.diagnostics.map fun d => d.message ++ "\n")⟩ m
  | nothing {program : String} {tree : Node} {m' : Machine}
      (hp : parseWithin limits.parsing program = .ok ⟨tree, []⟩)
      (he : Eval.evaluateWithin limits.running tree scope m = .ok .nothing m') :
      Proper limits scope m ⟨program, .finished .nothing, ""⟩ m'
  | shown {program text : String} {tree : Node} {v : Value} {m' : Machine}
      (hp : parseWithin limits.parsing program = .ok ⟨tree, []⟩)
      (he : Eval.evaluateWithin limits.running tree scope m = .ok v m') (hv : v ≠ .nothing)
      (ht : v.inspectWithin limits.showing = .ok text) :
      Proper limits scope m ⟨program, .finished v, text ++ "\n"⟩ m'

/-- Programs whose exchanges follow each other, from one machine to another one. -/
inductive Chain (limits : Limits) (scope : ScopeId) : Machine → List Exchange → Machine → Prop where
  | nil {m : Machine} : Chain limits scope m [] m
  | cons {m m' m'' : Machine} {e : Exchange} {es : List Exchange}
      (h : e.Proper limits scope m m') (hs : Chain limits scope m' es m'') :
      Chain limits scope m (e :: es) m''

/-- A program that is neither read nor run up to the limits. -/
structure Fits (limits : Limits) (e : Exchange) : Prop where
  parsed : ∀ parsed, parseWithin limits.parsing e.program = .ok parsed → parsed.WithinLimit
  result : e.result ≠ .finished (.error .nestedTooDeep)

/-! ### Programs -/

theorem exists_report {ds : List Diagnostic} (h : ds ≠ []) (program : String) :
    ∃ report, Diagnostic.report? ds program false = some report := by
  rw [Diagnostic.report?, if_neg (by simpa using h)]
  exact ⟨_, rfl⟩

theorem runProgram_of_diagnostics {parsed : Parsed} {report : String}
    (hp : parseWithin limits.parsing program = .ok parsed)
    (hr : Diagnostic.report? parsed.diagnostics program false = some report) (scope : ScopeId)
    (m : Machine) : Eval.runProgram limits program scope m = .ok (.rejected report) m := by
  simp only [Eval.runProgram, hp, hr]
  rfl

theorem runProgram_of_value {tree : Node} {v : Value}
    (hp : parseWithin limits.parsing program = .ok ⟨tree, []⟩)
    (he : Eval.evaluateWithin limits.running tree scope m = .ok v m') :
    Eval.runProgram limits program scope m = .ok (.finished v) m' := by
  have hr : Diagnostic.report? [] program false = none := rfl
  simp only [Eval.runProgram, hp, hr, bind, EStateM.bind, he]
  rfl

/-- Running the program by itself has the same result and leaves the same machine. -/
theorem Proper.runProgram (h : e.Proper limits scope m m') :
    Eval.runProgram limits e.program scope m = .ok e.result m' := by
  cases h with
  | rejected hp hr => exact runProgram_of_diagnostics hp hr scope m
  | nothing hp he => exact runProgram_of_value hp he
  | shown hp he hv ht => exact runProgram_of_value hp he

theorem Chain.mapM_runProgram (h : Chain limits scope m es m') :
    (es.map (·.program)).mapM (Eval.runProgram limits · scope) m =
      .ok (es.map (·.result)) m' := by
  induction h with
  | nil => rfl
  | cons h hs ih =>
      simp only [List.map_cons, List.mapM_cons, bind, EStateM.bind, h.runProgram, ih]
      rfl

/-! ### More levels -/

/-- A text that is shown is the same with more levels. -/
theorem inspectWithin_deeper {limit limit' : Nat} (hl : limit ≤ limit') {v : Value} {text : String}
    (h : v.inspectWithin limit = .ok text) : v.inspectWithin limit' = .ok text := by
  rw [Value.inspectWithin] at h ⊢
  split at h
  · next hd => rwa [if_pos (Nat.le_trans hd hl)]
  · cases h

/-- An exchange within the limits is the same with more levels. -/
theorem Proper.deeper (h : e.Proper limits scope m m') (hl : limits ≤ limits')
    (hf : e.Fits limits) : e.Proper limits' scope m m' := by
  obtain ⟨hparsing, hrunning, hshowing⟩ := hl
  have hparse : ∀ parsed, parseWithin limits.parsing e.program = .ok parsed →
      parseWithin limits'.parsing e.program = .ok parsed := fun parsed hp =>
    TokenStream.parseWithin_deeper hp (hf.parsed parsed hp) hparsing
  have hrun : ∀ tree v, e.result = .finished v →
      Eval.evaluateWithin limits.running tree scope m = .ok v m' →
      Eval.evaluateWithin limits'.running tree scope m = .ok v m' := by
    intro tree v hv he
    rw [Eval.evaluateWithin_deeper hrunning, he]
    intro m'' hdeep
    rw [he] at hdeep
    cases hdeep
    exact hf.result hv
  cases h with
  | rejected hp hr => exact .rejected (hparse _ hp) hr
  | nothing hp he => exact .nothing (hparse _ hp) (hrun _ _ rfl he)
  | shown hp he hv ht =>
      exact .shown (hparse _ hp) (hrun _ _ rfl he) hv (inspectWithin_deeper hshowing ht)

theorem Chain.deeper (h : Chain limits scope m es m') (hl : limits ≤ limits')
    (hf : ∀ e ∈ es, e.Fits limits) : Chain limits' scope m es m' := by
  induction h with
  | nil => exact .nil
  | cons h hs ih =>
      obtain ⟨hfirst, hrest⟩ := List.forall_mem_cons.mp hf
      exact .cons (h.deeper hl hfirst) (ih hrest)

end Exchange

/-! ### Lines -/

theorem outputLine_plain (text : String) : outputLine (Mark.redIf false) text = text ++ "\n" := by
  simp [outputLine, Mark.redIf, Mark.around, Mark.plain]

/-- What is written for a value without colours belongs to an exchange. -/
theorem exists_proper_of_answerValue {tree : Node} {v : Value} {text : String}
    (hp : parseWithin limits.parsing program = .ok ⟨tree, []⟩)
    (he : Eval.evaluateWithin limits.running tree scope m = .ok v m')
    (ha : answerValue limits false v = .ok text) :
    ∃ result, Exchange.Proper limits scope m ⟨program, result, text⟩ m' := by
  by_cases hn : v = .nothing
  · subst hn
    cases ha
    exact ⟨_, .nothing hp he⟩
  · rw [answerValue_of_ne_nothing hn] at ha
    cases ht : v.inspectWithin limits.showing with
    | error fault =>
        rw [ht] at ha
        cases ha
    | ok shown =>
        simp only [ht, Except.map, Bool.false_and, outputLine_plain, Except.ok.injEq] at ha
        rw [← ha]
        exact ⟨_, .shown hp he hn ht⟩

/-- What is written for a program without colours belongs to an exchange. -/
theorem exists_proper_of_answer {text : String}
    (h : Console.answer limits false scope program m = .ok text m') :
    ∃ result, Exchange.Proper limits scope m ⟨program, result, text⟩ m' := by
  have hend : Ends (Console.answer limits false scope program) m
      (fun text' m'' => text' = text ∧ m'' = m') (fun _ _ => False) := Ends.of_ok h ⟨rfl, rfl⟩
  rw [ends_answer] at hend
  cases hp : parseWithin limits.parsing program with
  | error fault =>
      rw [hp] at hend
      exact hend.elim
  | ok parsed =>
      obtain ⟨tree, diagnostics⟩ := parsed
      simp only [hp] at hend
      by_cases hd : diagnostics = []
      · subst hd
        rw [if_pos rfl] at hend
        cases he : Eval.evaluateWithin limits.running tree scope m with
        | error fault m'' => exact (hend.error he).elim
        | ok v m'' =>
            have hv := hend.ok he
            cases ha : answerValue limits false v with
            | error fault =>
                rw [ha] at hv
                exact hv.elim
            | ok text' =>
                rw [ha] at hv
                obtain ⟨rfl, rfl⟩ := hv
                exact exists_proper_of_answerValue hp he ha
      · rw [if_neg hd] at hend
        obtain ⟨rfl, rfl⟩ := hend
        obtain ⟨report, hr⟩ := Exchange.exists_report hd program
        simp only [answerDiagnostics, outputLine_plain]
        exact ⟨_, .rejected hp hr⟩

/-- A line that is answered is a program in an exchange, and nothing is written for an empty one. -/
theorem exists_proper_of_respond (h : respond limits false scope line m = .ok answer m') :
    ∃ result, Exchange.Proper limits scope m ⟨Text.strip line, result, answer⟩ m' ∧
      (Text.strip line = "" → answer = "") := by
  by_cases he : Text.strip line = ""
  · rw [respond_of_eq he] at h
    cases h
    rw [he]
    exact ⟨.finished .nothing, .nothing (parseWithin_empty _)
      (evaluateWithin_empty limits.running_pos scope m), fun _ => rfl⟩
  · rw [respond_of_ne he] at h
    obtain ⟨result, hproper⟩ := exists_proper_of_answer h
    exact ⟨result, hproper, fun h => absurd h he⟩

/-! ### Sessions -/

/-- A session is a chain of exchanges over some programs, and what it writes is a prompt and an answer
for each of them and a last prompt. Running the programs by themselves, one after the other, has the
results of these exchanges and leaves the machine that the session leaves. -/
structure Transcript.Folds (limits : Limits) (scope : ScopeId) (m : Machine)
    (programs : List String) (exchanges : List Exchange) (t : Transcript) : Prop where
  map_program : exchanges.map (·.program) = programs
  chain : Exchange.Chain limits scope m exchanges t.machine
  machine : programs.mapM (Eval.runProgram limits · scope) m =
    .ok (exchanges.map (·.result)) t.machine
  output : t.output = String.join (exchanges.map fun e => prompt ++ e.answer) ++ prompt
  empty : ∀ e ∈ exchanges, e.program = "" → e.answer = ""

theorem session_folds (h : (session limits false scope lines m).fault = none) :
    ∃ exchanges, (session limits false scope lines m).Folds limits scope m
      (lines.map Text.strip) exchanges := by
  induction lines generalizing m with
  | nil => exact ⟨[], rfl, .nil, rfl, rfl, List.forall_mem_nil _⟩
  | cons line rest ih =>
      cases hr : respond limits false scope line m with
      | error fault m' =>
          rw [session_of_error hr] at h
          cases h
      | ok answer m' =>
          rw [session_of_ok hr] at h ⊢
          obtain ⟨result, hproper, hempty⟩ := exists_proper_of_respond hr
          obtain ⟨exchanges, hfolds⟩ := ih h
          have hchain := Exchange.Chain.cons hproper hfolds.chain
          have hprograms : (⟨Text.strip line, result, answer⟩ :: exchanges).map
              (fun e : Exchange => e.program) = (line :: rest).map Text.strip := by
            rw [List.map_cons, List.map_cons, hfolds.map_program]
          refine ⟨⟨Text.strip line, result, answer⟩ :: exchanges, hprograms, hchain, ?_, ?_, ?_⟩
          · rw [← hprograms]
            exact hchain.mapM_runProgram
          · rw [List.map_cons, String.join_cons, String.append_assoc, ← hfolds.output]
            rfl
          · exact List.forall_mem_cons.mpr ⟨hempty, hfolds.empty⟩

/-- More levels make no difference to a session whose programs are within the limits. -/
theorem Transcript.Folds.deeper {t : Transcript} {programs : List String}
    {exchanges : List Exchange} (h : t.Folds limits scope m programs exchanges)
    (hl : limits ≤ limits') (hf : ∀ e ∈ exchanges, e.Fits limits) :
    t.Folds limits' scope m programs exchanges where
  map_program := h.map_program
  chain := h.chain.deeper hl hf
  machine := by
    rw [← h.map_program]
    exact (h.chain.deeper hl hf).mapM_runProgram
  output := h.output
  empty := h.empty

/-! ### A line at the limit -/

/-- Parentheses that are given up for their nesting are answered with a message. -/
theorem answer_parens {count : Nat} (h : limits.parsing < count + 2) (scope : ScopeId)
    (m : Machine) :
    Console.answer limits false scope (parens count) m =
      .ok "maximum nesting depth exceeded\n" m := by
  obtain ⟨place, place', hp⟩ :=
    TokenStream.parseWithin_parens_of_lt (.ofProgram (parens count)) h
      (Token.unplaced_parens count)
  have hparse : parseWithin limits.parsing (parens count) = _ := hp
  simp only [Console.answer, hparse]
  rfl

/-- Parentheses with levels enough are run. -/
theorem runProgram_parens {count : Nat} (h : count + 2 ≤ limits.parsing) (hr : 3 ≤ limits.running)
    (scope : ScopeId) (m : Machine) :
    ∃ id m', Eval.runProgram limits (parens count) scope m =
      .ok (.finished (.integer id 1)) m' := by
  obtain ⟨place, place', place'', hp⟩ :=
    TokenStream.parseWithin_parens (.ofProgram (parens count)) h (Token.unplaced_parens count)
  obtain ⟨depth, hdepth⟩ := Nat.exists_eq_add_of_le' hr
  have he : Eval.evaluateWithin limits.running
      (.program [.evaluated (.integer 1 place) place'] place'') scope m =
      .ok (.integer m.identities 1) m.identified := by
    rw [hdepth]
    rfl
  exact ⟨_, _, Exchange.runProgram_of_value hp he⟩

theorem strip_parens (count : Nat) : Text.strip (parens count) = parens count := by
  have hblank : ∀ c ∈ (parens count).toList, Text.isBlank c = false := by
    intro c hc
    obtain rfl | rfl | rfl := eq_of_mem_parens hc <;> decide
  rw [Text.strip, Text.trim_eq_self hblank, String.ofList_toList]

theorem parens_ne_empty (count : Nat) : parens count ≠ "" := by
  cases count <;> simp [parens]

theorem lineFeed_notMem_parens (count : Nat) : '\n' ∉ (parens count).toList := by
  intro h
  obtain h | h | h := eq_of_mem_parens h <;> cases h

/-- The answer to an integer is its decimal text. -/
theorem Exchange.Proper.answer_of_integer {e : Exchange} {id : Nat} {n : Int64}
    (h : e.Proper limits scope m m') (hr : e.result = .finished (.integer id n)) :
    e.answer = toString n.toInt ++ "\n" := by
  cases h with
  | rejected hp hreport => cases hr
  | nothing hp he => cases hr
  | shown hp he hv ht =>
      cases hr
      have hdepth : Value.depth 1 (.integer id n) ≤ limits.showing := limits.showing_pos
      rw [Value.inspectWithin, if_pos hdepth] at ht
      cases ht
      rfl

/-! ### Inputs -/

theorem limits_le_standard : Console.limits ≤ Limits.standard :=
  ⟨Nat.sub_le _ _, Nat.sub_le _ _, Nat.sub_le _ _⟩

/-- A session that no fault ends runs its lines as programs, one after the other, with the blanks at
their ends left out. For each of them it writes a prompt and the answer, and one more prompt at the
end, and it leaves the machine that these runs leave. So it does also if the programs have more levels
than the lines, as long as no line is given up for its nesting. The lines are the parts of the input
between line feeds, and a line with diagnostics changes nothing. -/
theorem run_folds (hl : limits ≤ limits') {input : String}
    (h : (run limits false scope input m).fault = none) :
    (∃ exchanges,
      (run limits false scope input m).Folds limits scope m
        ((Text.inputLines input.toList).map fun line => Text.strip (String.ofList line)) exchanges ∧
      ((∀ e ∈ exchanges, e.Fits limits) →
        (run limits false scope input m).Folds limits' scope m
          ((Text.inputLines input.toList).map fun line => Text.strip (String.ofList line))
          exchanges)) ∧
    ((∀ line ∈ Text.inputLines input.toList, '\n' ∉ line) ∧
      (Text.inputLines input.toList).flatMap (· ++ ['\n']) =
        if input.toList.getLast?.all (· = '\n') then input.toList else input.toList ++ ['\n']) ∧
    ∀ (program : String) (parsed : Parsed) (m' : Machine),
      parseWithin limits.parsing program = .ok parsed → parsed.diagnostics ≠ [] →
      ∃ report, Diagnostic.report? parsed.diagnostics program false = some report ∧
        Eval.runProgram limits program scope m' = .ok (.rejected report) m' := by
  refine ⟨?_, ⟨?_, Text.flatMap_inputLines input.toList⟩, ?_⟩
  · obtain ⟨exchanges, hfolds⟩ := session_folds h
    rw [List.map_map] at hfolds
    exact ⟨exchanges, hfolds, hfolds.deeper hl⟩
  · exact fun line hline => Text.lineFeed_notMem_of_mem_inputLines hline
  · intro program parsed m' hp hd
    obtain ⟨report, hr⟩ := Exchange.exists_report hd program
    exact ⟨report, hr, Exchange.runProgram_of_diagnostics hp hr scope m'⟩

/-- A binding, an empty line, a line that cannot be read, and a value. -/
theorem run_folds_mixed :
    (run Console.limits false 0 "let a = 2;\n \nlet = 3\na" .initial).fault = none ∧
      ∃ exchanges, (∀ e ∈ exchanges, e.Fits Console.limits) ∧
        (run Console.limits false 0 "let a = 2;\n \nlet = 3\na" .initial).Folds .standard 0
          .initial ["let a = 2;", "", "let = 3", "a"] exchanges := by
  have h : (run Console.limits false 0 "let a = 2;\n \nlet = 3\na" .initial).fault = none := by
    decide +kernel
  have hlines : (Text.inputLines "let a = 2;\n \nlet = 3\na".toList).map
      (fun line => Text.strip (String.ofList line)) = ["let a = 2;", "", "let = 3", "a"] := by
    decide +kernel
  obtain ⟨exchanges, hfolds, hdeeper⟩ := (run_folds limits_le_standard h).1
  rw [hlines] at hfolds hdeeper
  obtain ⟨report, id, m', hrun⟩ : ∃ report id m',
      ["let a = 2;", "", "let = 3", "a"].mapM (Eval.runProgram Console.limits · 0) .initial =
        .ok [.finished .nothing, .finished .nothing, .rejected report, .finished (.integer id 2)]
          m' := ⟨_, _, _, rfl⟩
  have hparsed : ∀ p ∈ ["let a = 2;", "", "let = 3", "a"],
      (parseWithin Console.limits.parsing p).toOption.all (decide <| Parsed.WithinLimit ·) := by
    decide +kernel
  have hresults : exchanges.map (·.result) =
      [.finished .nothing, .finished .nothing, .rejected report, .finished (.integer id 2)] :=
    (EStateM.Result.ok.inj (hfolds.machine.symm.trans hrun)).1
  have hfits : ∀ e ∈ exchanges, e.Fits Console.limits := by
    intro e he
    constructor
    · intro parsed hp
      have hprogram := hparsed e.program (hfolds.map_program ▸ List.mem_map_of_mem he)
      rw [hp] at hprogram
      exact of_decide_eq_true hprogram
    · intro hdeep
      have hresult : e.result ∈ exchanges.map (·.result) := List.mem_map_of_mem he
      simp [hresults, hdeep] at hresult
  exact ⟨h, exchanges, hfits, hdeeper hfits⟩

/-- A line of so many parentheses is nested too deeply, but a program of them is not. -/
theorem run_parens_not_folds :
    (run Console.limits false 0 (parens 2491 ++ "\n") .initial).output =
        ">> maximum nesting depth exceeded\n>> " ∧
      (run Console.limits false 0 (parens 2491 ++ "\n") .initial).fault = none ∧
      (∃ id m', Eval.runProgram .standard (parens 2491) 0 .initial =
        .ok (.finished (.integer id 1)) m') ∧
      ¬ ∃ exchanges, (run Console.limits false 0 (parens 2491 ++ "\n") .initial).Folds .standard 0
        .initial [parens 2491] exchanges := by
  have hrespond : respond Console.limits false 0 (parens 2491) .initial =
      .ok "maximum nesting depth exceeded\n" .initial := by
    rw [respond_of_ne (by rw [strip_parens]; exact parens_ne_empty _), strip_parens]
    exact answer_parens (by decide) 0 _
  have hrun : run Console.limits false 0 (parens 2491 ++ "\n") .initial =
      ⟨">> maximum nesting depth exceeded\n>> ", .initial, none⟩ := by
    rw [run, ← String.append_empty (s := parens 2491 ++ "\n"),
      Text.inputLines_append (lineFeed_notMem_parens 2491), session_of_ok hrespond]
    rfl
  have hparsing : 2491 + 2 ≤ Limits.standard.parsing := by decide
  obtain ⟨id, m', hprogram⟩ := runProgram_parens hparsing (by decide) 0 .initial
  rw [hrun]
  refine ⟨rfl, rfl, ⟨id, m', hprogram⟩, ?_⟩
  rintro ⟨exchanges, hfolds⟩
  obtain ⟨e, rfl, he⟩ := List.map_eq_singleton_iff.mp hfolds.map_program
  cases hfolds.chain with
  | cons hproper hrest =>
      have hresult := hproper.runProgram
      rw [he, hprogram] at hresult
      have hanswer := hproper.answer_of_integer (EStateM.Result.ok.inj hresult).1.symm
      have houtput := hfolds.output
      rw [List.map_singleton, hanswer] at houtput
      exact absurd houtput (by decide)

end Console

end ExprLang
