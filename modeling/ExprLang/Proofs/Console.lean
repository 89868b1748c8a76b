import ExprLang.Console
import ExprLang.Proofs.Evaluation.Repeat
import ExprLang.Proofs.Evaluation.Session
import ExprLang.Proofs.Parsing.Termination
import ExprLang.Proofs.Token.Reading

/-!
# What ends a session

A session goes through all of its lines, unless a line breaks it. There are two ways for a line to
do so: it has an integer of too many digits, or its value has too many levels to be shown. Nothing
else ends a session, neither what cannot be read nor what is nested too deeply nor an error at run
time. Sessions come to lines of both kinds: a numeral is as long as one likes, and every line of a
session can add a level to a value.
-/

namespace ExprLang

namespace Console

variable {limits : Limits} {colour : Bool} {scope : ScopeId} {m : Machine} {program : String}
variable {fault : Fault}

/-- The faults by which a line breaks a session. Blanks at the ends of the line are left out. -/
inductive Breaks (limits : Limits) (scope : ScopeId) (m : Machine) (program : String) :
    Fault → Prop where
  /-- The line has an integer of too many digits. -/
  | integer {t : Token} (ht : t ∈ Token.ofProgram program) (hk : t.kind = .integer)
      (hl : Text.maxDigits < t.text.toList.length)
      (hp : parseWithin limits.parsing program =
        .error (.unreadableInteger (.tooLong t.text.toList.length))) :
      Breaks limits scope m program (.unreadableInteger (.tooLong t.text.toList.length))
  /-- The value of the line has too many levels. -/
  | value {parsed : Parsed} {v : Value} {m' : Machine}
      (hp : parseWithin limits.parsing program = .ok parsed) (hd : parsed.diagnostics = [])
      (he : Eval.evaluateWithin limits.running parsed.tree scope m = .ok v m')
      (hv : limits.showing < v.depth 1) : Breaks limits scope m program .tooDeep

/-- A line without a tree has an integer of too many digits. -/
theorem breaks_of_error (h : parseWithin limits.parsing program = .error fault) :
    Breaks limits scope m program fault := by
  rcases TokenStream.parseWithin_cases limits.parsing (.ofProgram program) with
    ⟨statements, span, diagnostics, hp⟩ | ⟨t, ht, hk, reason, hr, hp⟩
  · cases hp.symm.trans h
  · cases hp.symm.trans h
    obtain ⟨hl, rfl⟩ :=
      Text.eq_tooLong_of_readInt ((Token.scanned_ofProgram ht).isNumeral hk) hr
    exact .integer ht hk hl h

theorem Breaks.unique {fault' : Fault} (h : Breaks limits scope m program fault)
    (h' : Breaks limits scope m program fault') : fault = fault' := by
  cases h with
  | integer _ _ _ hp =>
      cases h' with
      | integer _ _ _ hp' => exact Except.error.inj (hp.symm.trans hp')
      | value hp' => rw [hp] at hp'; cases hp'
  | value hp =>
      cases h' with
      | integer _ _ _ hp' => rw [hp] at hp'; cases hp'
      | value => rfl

/-- A line with diagnostics does not break the session. -/
theorem not_breaks_of_diagnostics {parsed : Parsed}
    (hp : parseWithin limits.parsing program = .ok parsed) (hd : parsed.diagnostics ≠ []) :
    ¬ Breaks limits scope m program fault := by
  intro hb
  cases hb with
  | integer ht hk hl hp' => rw [hp] at hp'; cases hp'
  | value hp' hd' he hv =>
      rw [hp] at hp'
      cases hp'
      exact hd hd'

/-- A line whose value can be shown does not break the session. -/
theorem not_breaks_of_value {parsed : Parsed} {v : Value} {m' : Machine}
    (hp : parseWithin limits.parsing program = .ok parsed)
    (he : Eval.evaluateWithin limits.running parsed.tree scope m = .ok v m')
    (hv : v.depth 1 ≤ limits.showing) : ¬ Breaks limits scope m program fault := by
  intro hb
  cases hb with
  | integer ht hk hl hp' => rw [hp] at hp'; cases hp'
  | value hp' hd he' hv' =>
      rw [hp] at hp'
      cases hp'
      rw [he] at he'
      cases he'
      exact Nat.not_lt.mpr hv hv'

/-! The empty program has no statement, and it does nothing. -/

theorem parseWithin_empty (depth : Nat) :
    parseWithin depth "" = .ok ⟨.program [] (Span.onLine 1 0 0), []⟩ :=
  rfl

theorem evaluateWithin_empty {depth : Nat} (h : 0 < depth) (scope : ScopeId) (m : Machine) :
    Eval.evaluateWithin depth (.program [] (Span.onLine 1 0 0)) scope m = .ok .nothing m := by
  cases depth with
  | zero => cases h
  | succ depth => rfl

theorem not_breaks_empty : ¬ Breaks limits scope m "" fault :=
  not_breaks_of_value (parseWithin_empty _) (evaluateWithin_empty limits.running_pos scope m)
    limits.showing_pos

/-! ### Answers -/

theorem answerValue_of_ne_nothing {v : Value} (h : v ≠ .nothing) :
    answerValue limits colour v =
      (v.inspectWithin limits.showing).map (outputLine (Mark.redIf (colour && v.isError))) := by
  cases v with
  | nothing => exact absurd rfl h
  | _ => rfl

/-- The value of a program is shown unless it has too many levels. -/
theorem exists_answerValue (colour : Bool) {v : Value} (h : v.Outcome .program)
    (hd : v.depth 1 ≤ limits.showing) :
    ∃ answer, answerValue limits colour v = .ok answer := by
  cases h with
  | nothing => exact ⟨_, rfl⟩
  | error failure =>
      rw [answerValue_of_ne_nothing (by simp), Value.inspectWithin, if_pos hd]
      exact ⟨_, rfl⟩
  | returned hr hv => exact absurd rfl hr
  | proper hv =>
      have hn : v ≠ .nothing := by
        rintro rfl
        exact Value.not_proper_nothing hv
      obtain ⟨text, ht⟩ := Value.exists_inspect v hv
      rw [answerValue_of_ne_nothing hn, Value.inspectWithin, if_pos hd, ht]
      exact ⟨_, rfl⟩

theorem answerValue_of_lt {v : Value} (hd : limits.showing < v.depth 1) :
    answerValue limits colour v = .error .tooDeep := by
  have hn : v ≠ .nothing := by
    rintro rfl
    exact absurd limits.showing_pos (Nat.not_lt.mpr (Nat.le_of_lt_succ hd))
  rw [answerValue_of_ne_nothing hn, Value.inspectWithin, if_neg (Nat.not_le.mpr hd)]
  rfl

/-- Reading, running and showing a program one after the other. -/
theorem ends_answer {onResult : String → Machine → Prop} {onFault : Fault → Machine → Prop} :
    Ends (answer limits colour scope program) m onResult onFault ↔
      match parseWithin limits.parsing program with
      | .error fault => onFault fault m
      | .ok parsed =>
          if parsed.diagnostics = [] then
            Ends (Eval.evaluateWithin limits.running parsed.tree scope) m
              (fun v m' => match answerValue limits colour v with
                | .ok text => onResult text m'
                | .error fault => onFault fault m')
              onFault
          else onResult (answerDiagnostics colour parsed.diagnostics) m := by
  simp only [answer]
  cases parseWithin limits.parsing program with
  | error fault => exact Iff.rfl
  | ok parsed =>
      simp only [List.isEmpty_iff, ends_ite, ends_bind, ends_pure]
      split
      · apply ends_congr
        intro v m'
        cases answerValue limits colour v with
        | ok text => exact Iff.rfl
        | error fault => exact Iff.rfl
      · exact Iff.rfl

/-- A program is answered, and the machine stays good, or it breaks the session. -/
theorem answer_ends (hm : m.Good) (limits : Limits) (colour : Bool) (scope : ScopeId)
    (program : String) :
    Ends (answer limits colour scope program) m
      (fun _ m' => m'.Good ∧ ∀ fault, ¬ Breaks limits scope m program fault)
      (fun fault _ => Breaks limits scope m program fault) := by
  rw [ends_answer]
  cases hp : parseWithin limits.parsing program with
  | error fault => exact breaks_of_error hp
  | ok parsed =>
      simp only
      split
      · next hd =>
          obtain ⟨v, m', he, hg, ho⟩ :=
            Eval.exists_evaluateWithin limits.running (wellFormed_of_parseWithin hp) scope hm
          apply Ends.of_ok he
          by_cases hv : v.depth 1 ≤ limits.showing
          · obtain ⟨text, ht⟩ := exists_answerValue colour ho hv
            simp only [ht]
            exact ⟨hg, fun _ => not_breaks_of_value hp he hv⟩
          · have hv := Nat.not_le.mp hv
            simp only [answerValue_of_lt hv]
            exact .value hp hd he hv
      · next hd => exact ⟨hm, fun _ => not_breaks_of_diagnostics hp hd⟩

theorem respond_of_eq {line : String} (h : Text.strip line = "") :
    respond limits colour scope line = pure "" := by
  simp only [respond, h]
  rfl

theorem respond_of_ne {line : String} (h : Text.strip line ≠ "") :
    respond limits colour scope line = answer limits colour scope (Text.strip line) := by
  have hne : (Text.strip line).isEmpty = false := by simpa using h
  simp only [respond, hne, Bool.false_eq_true, if_false]

/-- A line is answered, and the machine stays good, or the line breaks the session. -/
theorem respond_cases (hm : m.Good) (limits : Limits) (colour : Bool) (scope : ScopeId)
    (line : String) :
    (∃ answer m', respond limits colour scope line m = .ok answer m' ∧ m'.Good ∧
        ∀ fault, ¬ Breaks limits scope m (Text.strip line) fault) ∨
      ∃ fault m', respond limits colour scope line m = .error fault m' ∧
        Breaks limits scope m (Text.strip line) fault := by
  by_cases h : Text.strip line = ""
  · rw [respond_of_eq h, h]
    exact Or.inl ⟨"", m, rfl, hm, fun _ => not_breaks_empty⟩
  · rw [respond_of_ne h]
    generalize Text.strip line = program
    have hend := answer_ends hm limits colour scope program
    cases hr : answer limits colour scope program m with
    | error fault m' => exact Or.inr ⟨fault, m', rfl, hend.error hr⟩
    | ok text m' => exact Or.inl ⟨text, m', rfl, hend.ok hr⟩

/-! ### Sessions -/

variable {line : String} {lines : List String}

/-- What a session wrote behind a text. -/
def Transcript.behind (text : String) (t : Transcript) : Transcript :=
  ⟨text ++ t.output, t.machine, t.fault⟩

theorem Transcript.behind_behind (text text' : String) (t : Transcript) :
    (t.behind text').behind text = t.behind (text ++ text') := by
  simp [behind, String.append_assoc]

theorem session_of_ok {answer : String} {m' : Machine}
    (h : respond limits colour scope line m = .ok answer m') (lines : List String) :
    session limits colour scope (line :: lines) m =
      (session limits colour scope lines m').behind (prompt ++ answer) := by
  simp only [session, h, Transcript.behind]

theorem session_of_error {m' : Machine} (h : respond limits colour scope line m = .error fault m')
    (lines : List String) :
    session limits colour scope (line :: lines) m = ⟨prompt, m', some fault⟩ := by
  simp only [session, h]

/-- A session ends with a fault exactly if it comes to a line that breaks it. -/
theorem session_fault_iff (hm : m.Good) :
    (session limits colour scope lines m).fault = some fault ↔
      ∃ before line after, lines = before ++ line :: after ∧
        (session limits colour scope before m).fault = none ∧
        Breaks limits scope (session limits colour scope before m).machine (Text.strip line)
          fault := by
  induction lines generalizing m with
  | nil => simp [session]
  | cons first rest ih =>
      rcases respond_cases hm limits colour scope first with
        ⟨answer, m', hr, hg, hn⟩ | ⟨fault', m', hr, hb⟩
      · rw [session_of_ok hr]
        apply Iff.trans (ih hg)
        constructor
        · rintro ⟨before, line, after, rfl, hnone, hbreak⟩
          refine ⟨first :: before, line, after, rfl, ?_, ?_⟩
          · rwa [session_of_ok hr]
          · rwa [session_of_ok hr]
        · rintro ⟨before, line, after, hlines, hnone, hbreak⟩
          cases before with
          | nil =>
              cases hlines
              exact absurd hbreak (hn fault)
          | cons _ before =>
              cases hlines
              rw [session_of_ok hr] at hnone hbreak
              exact ⟨before, line, after, rfl, hnone, hbreak⟩
      · rw [session_of_error hr]
        constructor
        · rintro ⟨⟩
          exact ⟨[], first, rest, rfl, rfl, hb⟩
        · rintro ⟨before, line, after, hlines, hnone, hbreak⟩
          cases before with
          | nil =>
              cases hlines
              rw [hb.unique hbreak]
          | cons _ before =>
              cases hlines
              rw [session_of_error hr] at hnone
              cases hnone

/-- Behind lines that did not break it, a session goes on with the lines that follow. -/
theorem session_append (later : List String)
    (h : (session limits colour scope lines m).fault = none) :
    ∃ answered, (session limits colour scope lines m).output = answered ++ prompt ∧
      session limits colour scope (lines ++ later) m =
        (session limits colour scope later
          (session limits colour scope lines m).machine).behind answered := by
  induction lines generalizing m with
  | nil => exact ⟨"", by simp [session], by simp [session, Transcript.behind]⟩
  | cons first rest ih =>
      cases hr : respond limits colour scope first m with
      | error fault m' =>
          rw [session_of_error hr] at h
          cases h
      | ok answer m' =>
          rw [session_of_ok hr] at h
          obtain ⟨answered, ho, hs⟩ := ih h
          refine ⟨prompt ++ answer ++ answered, ?_, ?_⟩
          · rw [session_of_ok hr, Transcript.behind, ho]
            exact String.append_assoc.symm
          · rw [List.cons_append, session_of_ok hr, session_of_ok hr, hs,
              Transcript.behind_behind]
            rfl

/-! ### Values of too many levels -/

/-- A line that has no value has no answer. -/
theorem respond_of_nothing {line : String} {tree : Node} {m' : Machine}
    (hne : Text.strip line ≠ "")
    (hp : parseWithin limits.parsing (Text.strip line) = .ok ⟨tree, []⟩)
    (he : Eval.evaluateWithin limits.running tree scope m = .ok .nothing m') :
    respond limits colour scope line m = .ok "" m' := by
  rw [respond_of_ne hne]
  simp only [answer, hp, List.isEmpty_nil, if_true, bind, EStateM.bind, he]
  rfl

/-- The name `a` stands in a scope for an array of so many levels. -/
structure Nests (scope : ScopeId) (levels : Nat) (m : Machine) : Prop where
  within : scope < m.scopes.count
  bound : ∃ id es, m.scopes.lookup scope "a" = .array id es ∧
    Value.depth 1 (.array id es) = levels

theorem lookUp_of_array {id : Nat} {es : List Value}
    (h : m.scopes.lookup scope "a" = .array id es) :
    Eval.lookUp scope "a" m = .ok (.array id es) (m.noting (.lookedUp scope "a")) := by
  rw [Eval.lookUp_of_bound (by rw [h]; rfl), h]

theorem nests_binding {levels id : Nat} {es : List Value} (h : scope < m.scopes.count)
    (hd : Value.depth 1 (.array id es) = levels) :
    Nests scope levels (m.binding scope "a" (.array id es)) where
  within := by simpa [Machine.binding, Scopes.count, Scopes.bind] using h
  bound := ⟨id, es, Scopes.lookup_bind_self h "a" _, hd⟩

/-- An empty array has one level. -/
theorem respond_empty (hp : 2 ≤ limits.parsing) (hr : 3 ≤ limits.running)
    (h : scope < m.scopes.count) (colour : Bool) :
    ∃ m', respond limits colour scope "let a = [];" m = .ok "" m' ∧ Nests scope 1 m' := by
  obtain ⟨levels, hlevels⟩ := Nat.exists_eq_add_of_le' hp
  obtain ⟨depth, hdepth⟩ := Nat.exists_eq_add_of_le' hr
  obtain ⟨s₁, s₂, s₃, s₄, hparse⟩ : ∃ s₁ s₂ s₃ s₄ : Span,
      parseWithin limits.parsing "let a = [];" =
        .ok ⟨.program [.letBinding ⟨"a", s₁⟩ (.array [] s₂) s₃] s₄, []⟩ := by
    rw [hlevels]
    exact ⟨_, _, _, _, rfl⟩
  have he : Eval.evaluateWithin limits.running
      (.program [.letBinding ⟨"a", s₁⟩ (.array [] s₂) s₃] s₄) scope m =
      .ok .nothing (m.identified.binding scope "a" (.array m.identities [])) := by
    rw [hdepth]
    rfl
  exact ⟨_, respond_of_nothing (by decide) hparse he, nests_binding h rfl⟩

/-- An array of an array has one level more. -/
theorem Nests.respond {levels : Nat} (hp : 3 ≤ limits.parsing) (hr : 4 ≤ limits.running)
    (h : Nests scope levels m) (colour : Bool) :
    ∃ m', respond limits colour scope "let a = [a];" m = .ok "" m' ∧
      Nests scope (levels + 1) m' := by
  obtain ⟨hs, id, es, hl, rfl⟩ := h
  obtain ⟨levels, hlevels⟩ := Nat.exists_eq_add_of_le' hp
  obtain ⟨depth, hdepth⟩ := Nat.exists_eq_add_of_le' hr
  obtain ⟨s₁, s₂, s₃, s₄, s₅, hparse⟩ : ∃ s₁ s₂ s₃ s₄ s₅ : Span,
      parseWithin limits.parsing "let a = [a];" =
        .ok ⟨.program [.letBinding ⟨"a", s₁⟩ (.array [.identifier "a" s₂] s₃) s₄] s₅, []⟩ := by
    rw [hlevels]
    exact ⟨_, _, _, _, _, rfl⟩
  have he : Eval.evaluateWithin limits.running
      (.program [.letBinding ⟨"a", s₁⟩ (.array [.identifier "a" s₂] s₃) s₄] s₅) scope m =
      .ok .nothing ((m.noting (.lookedUp scope "a")).identified.binding scope "a"
        (.array m.identities [.array id es])) := by
    rw [hdepth]
    simp only [Eval.evaluateWithin, Eval.visit, Eval.step, Eval.programStatements, Eval.visitThen,
      Eval.expressions, bind, EStateM.bind, lookUp_of_array hl]
    rfl
  have hd : Value.depth 1 (.array m.identities [.array id es]) =
      Value.depth 1 (.array id es) + 1 := by
    simp [Value.depth, Value.depthAll]
  exact ⟨_, respond_of_nothing (by decide) hparse he, nests_binding hs hd⟩

/-- A session nests an array as often as it is told to. -/
theorem Nests.session {levels : Nat} (hp : 3 ≤ limits.parsing) (hr : 4 ≤ limits.running)
    (h : Nests scope levels m) (colour : Bool) (count : Nat) :
    (session limits colour scope (List.replicate count "let a = [a];") m).fault = none ∧
      Nests scope (levels + count)
        (session limits colour scope (List.replicate count "let a = [a];") m).machine := by
  induction count generalizing levels m with
  | zero => exact ⟨rfl, h⟩
  | succ count ih =>
      obtain ⟨m', hm', h'⟩ := h.respond hp hr colour
      rw [List.replicate_succ, session_of_ok hm', Nat.add_comm count 1, ← Nat.add_assoc]
      exact ih h'

theorem Nests.breaks {levels : Nat} (hp : 2 ≤ limits.parsing) (hr : 3 ≤ limits.running)
    (h : Nests scope levels m) (hl : limits.showing < levels) :
    Breaks limits scope m "a" .tooDeep := by
  obtain ⟨hs, id, es, hv, rfl⟩ := h
  obtain ⟨levels, hlevels⟩ := Nat.exists_eq_add_of_le' hp
  obtain ⟨depth, hdepth⟩ := Nat.exists_eq_add_of_le' hr
  obtain ⟨s₁, s₂, s₃, hparse⟩ : ∃ s₁ s₂ s₃ : Span, parseWithin limits.parsing "a" =
      .ok ⟨.program [.evaluated (.identifier "a" s₁) s₂] s₃, []⟩ := by
    rw [hlevels]
    exact ⟨_, _, _, rfl⟩
  have he : Eval.evaluateWithin limits.running
      (.program [.evaluated (.identifier "a" s₁) s₂] s₃) scope m =
      .ok (.array id es) (m.noting (.lookedUp scope "a")) := by
    rw [hdepth]
    simp only [Eval.evaluateWithin, Eval.visit, Eval.step, Eval.programStatements, bind,
      EStateM.bind, lookUp_of_array hv]
    rfl
  exact .value hparse rfl he hl

/-- A session ends at an array that it has nested too often, whatever follows. -/
theorem session_nested (hp : 3 ≤ limits.parsing) (hr : 4 ≤ limits.running) (hm : m.Good)
    (h : scope < m.scopes.count) {count : Nat} (hc : limits.showing ≤ count)
    (later : List String) :
    (session limits colour scope
      ("let a = [];" :: List.replicate count "let a = [a];" ++ "a" :: later) m).fault =
      some .tooDeep := by
  obtain ⟨m', hm', h'⟩ :=
    respond_empty (Nat.le_of_succ_le hp) (Nat.le_of_succ_le hr) h colour
  obtain ⟨hnone, hn⟩ := h'.session hp hr colour count
  refine (session_fault_iff hm).mpr ⟨_, "a", later, rfl, ?_, ?_⟩
  · rwa [session_of_ok hm']
  · rw [session_of_ok hm']
    exact hn.breaks (by omega) (by omega) (by omega)

end Console

namespace Text

/-- A line feed ends the line in front of an input. -/
theorem inputLines_append_lineFeed {line : List Char} (h : '\n' ∉ line) (text : List Char) :
    inputLines (line ++ '\n' :: text) = line :: inputLines text := by
  induction line with
  | nil => rfl
  | cons c rest ih =>
      rw [List.mem_cons, not_or] at h
      rw [List.cons_append, inputLines, ih h.2]
      · rfl
      · rintro rfl
        exact h.1 rfl

theorem inputLines_append {line : String} (h : '\n' ∉ line.toList) (text : String) :
    (inputLines (line ++ "\n" ++ text).toList).map String.ofList =
      line :: (inputLines text.toList).map String.ofList := by
  have ht : (line ++ "\n" ++ text).toList = line.toList ++ '\n' :: text.toList := by simp
  rw [ht, inputLines_append_lineFeed h, List.map_cons, String.ofList_toList]

end Text

namespace Console

variable {limits : Limits} {scope : ScopeId} {m : Machine}

/-! ### Integers of too many digits -/

/-- A numeral of too many digits breaks a session. -/
theorem breaks_numeral (hlimit : 3 < limits.parsing) {text : String}
    (h : Text.isNumeral text = true) (hl : Text.maxDigits < text.toList.length) :
    Breaks limits scope m text (.unreadableInteger (.tooLong text.toList.length)) := by
  obtain ⟨t, hts, hu⟩ :=
    List.map_eq_singleton_iff.mp ((Token.scans_numeral h).unplaced_ofProgram rfl)
  have htext : t.text = text := congrArg Token.text hu
  have hk : t.kind = .integer := congrArg Token.kind hu
  cases hp : parseWithin limits.parsing text with
  | ok parsed =>
      have hd : 2 * (Token.ofProgram text).length + 1 < limits.parsing := by
        rwa [hts, List.length_singleton]
      have hshort := (exists_parseWithin_iff hd).mp ⟨parsed, hp⟩ t (by simp [hts]) hk
      rw [htext] at hshort
      exact absurd hl (Nat.not_lt.mpr hshort)
  | error fault =>
      have hb : Breaks limits scope m text fault := breaks_of_error hp
      have hf : fault = .unreadableInteger (.tooLong text.toList.length) := by
        cases hb with
        | integer ht =>
            rw [hts, List.mem_singleton] at ht
            rw [ht, htext]
        | value hp' => rw [hp] at hp'; cases hp'
      exact hf ▸ hb

/-- A session over a numeral of too many digits ends there, whatever follows it. -/
theorem session_numeral (hlimit : 3 < limits.parsing) (hm : m.Good) (colour : Bool)
    (scope : ScopeId) {text : String} (h : Text.isNumeral text = true)
    (hl : Text.maxDigits < text.toList.length) (later : List String) :
    ∃ m', session limits colour scope (text :: later) m =
      ⟨prompt, m', some (.unreadableInteger (.tooLong text.toList.length))⟩ := by
  have hb : Breaks limits scope m (Text.strip text)
      (.unreadableInteger (.tooLong text.toList.length)) := by
    rw [Text.strip_of_isNumeral h]
    exact breaks_numeral hlimit h hl
  rcases respond_cases hm limits colour scope text with
    ⟨answer, m', hr, hg, hn⟩ | ⟨fault, m', hr, hf⟩
  · exact absurd hb (hn _)
  · rw [session_of_error hr, hf.unique hb]
    exact ⟨m', rfl⟩

/-- A session over an input ends with a fault exactly if it comes to a line that breaks it, that is,
a line with an integer of too many digits or with a value of too many levels, and behind every line
that it survives it goes on with the lines that follow. -/
theorem run_ends (hm : m.Good) (limits : Limits) (colour : Bool) (scope : ScopeId)
    (input : String) :
    (∀ fault, (run limits colour scope input m).fault = some fault ↔
      ∃ before line after,
        (Text.inputLines input.toList).map String.ofList = before ++ line :: after ∧
        (session limits colour scope before m).fault = none ∧
        Breaks limits scope (session limits colour scope before m).machine (Text.strip line)
          fault) ∧
    ∀ before after, (Text.inputLines input.toList).map String.ofList = before ++ after →
      (session limits colour scope before m).fault = none →
      ∃ answered, (session limits colour scope before m).output = answered ++ prompt ∧
        run limits colour scope input m =
          (session limits colour scope after
            (session limits colour scope before m).machine).behind answered := by
  constructor
  · intro fault
    exact session_fault_iff hm
  · intro before after hlines hnone
    rw [run, hlines]
    exact session_append after hnone

/-- The digit `1` as many times as a length says. -/
def ones (length : Nat) : String :=
  String.ofList (List.replicate length '1')

theorem isNumeral_ones (length : Nat) : Text.isNumeral (ones (length + 1)) = true := by
  simp [Text.isNumeral, ones]

theorem lineFeed_notMem_ones (length : Nat) : '\n' ∉ (ones length).toList := by
  simp [ones]

theorem length_ones (length : Nat) : (ones length).toList.length = length := by
  simp [ones]

theorem breaks_ones (hlimit : 3 < limits.parsing) {length : Nat}
    (h : Text.maxDigits < length + 1) :
    Breaks limits scope m (ones (length + 1)) (.unreadableInteger (.tooLong (length + 1))) := by
  have hb : Breaks limits scope m (ones (length + 1)) _ :=
    breaks_numeral hlimit (isNumeral_ones length) (by rwa [length_ones])
  rwa [length_ones] at hb

/-- A session survives a line that cannot be read, and breaks at the numeral behind it. -/
theorem run_ends_behind_unreadable :
    (run Console.limits false 0 ("(1" ++ "\n" ++ (ones 4301 ++ "\n" ++ "2")) .initial).fault =
      some (.unreadableInteger (.tooLong 4301)) := by
  refine ((run_ends Machine.good_initial Console.limits false 0 _).1 _).mpr
    ⟨["(1"], ones 4301, ["2"], ?_, rfl, ?_⟩
  · rw [Text.inputLines_append (by decide), Text.inputLines_append (lineFeed_notMem_ones 4301)]
    rfl
  · rw [Text.strip_of_isNumeral (isNumeral_ones 4300)]
    exact breaks_ones (by decide) (by decide)

/-- A session does not come to the line behind a numeral of too many digits. -/
theorem run_ones_ends :
    (run Console.limits false 0 (ones 4301 ++ "\n" ++ "1\n") .initial).output = prompt ∧
      (run Console.limits false 0 (ones 4301 ++ "\n" ++ "1\n") .initial).fault =
        some (.unreadableInteger (.tooLong 4301)) := by
  have hlimit : 3 < Console.limits.parsing := by decide
  obtain ⟨m', hs⟩ := session_numeral hlimit Machine.good_initial false 0 (isNumeral_ones 4300)
    (by rw [length_ones]; decide)
    ((Text.inputLines "1\n".toList).map String.ofList)
  rw [length_ones] at hs
  rw [run, Text.inputLines_append (lineFeed_notMem_ones 4301), hs]
  exact ⟨rfl, rfl⟩

end Console

end ExprLang
