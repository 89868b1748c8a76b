import ExprLang.Evaluation.Program
import ExprLang.Proofs.Evaluation.Heap
import ExprLang.Proofs.Evaluation.Sound
import ExprLang.Proofs.Parsing.Building

/-!
# Sessions

In a session programs are run one behind the other, in scopes that stay. Whatever the programs are
and however they end, the machine stays good, so the next program runs as soundly as the first; and
there is a heap that describes the machine.
-/

namespace ExprLang

open Eval (apply evaluateWithin runProgram visit)

/-- The machines that a session comes to: it adds scopes, and it runs programs as they were read in
scopes that there are. -/
inductive Session (m : Machine) : Machine → Prop where
  | start : Session m m
  | rooted {m' : Machine} (h : Session m m') : Session m m'.rooted
  | enclosed {m' : Machine} {scope : ScopeId} (h : Session m m') (hs : scope < m'.scopes.count) :
      Session m (m'.enclosing scope)
  | ran {m' m'' : Machine} {levels depth : Nat} {program : String} {parsed : Parsed}
      {scope : ScopeId} {v : Value} (h : Session m m') (hs : scope < m'.scopes.count)
      (hp : parseWithin levels program = .ok parsed)
      (he : evaluateWithin depth parsed.tree scope m' = .ok v m'') : Session m m''

theorem Machine.good_initial : Machine.initial.Good := by
  have hempty : Machine.BindsOnly (fun _ => True) Value.IsProper {} := by
    intro id _ b hb
    simp [Scopes.get] at hb
  exact Machine.good_iff.mpr hempty.rooted

theorem Eval.ends_runProgram {limits : Limits} {program : String} {scope : ScopeId} {m : Machine}
    {onResult : ProgramResult → Machine → Prop} {onFault : Fault → Machine → Prop} :
    Ends (runProgram limits program scope) m onResult onFault ↔
      match parseWithin limits.parsing program with
      | .error fault => onFault fault m
      | .ok parsed =>
          match Diagnostic.report? parsed.diagnostics program false with
          | some report => onResult (.rejected report) m
          | none =>
              Ends (evaluateWithin limits.running parsed.tree scope) m
                (fun v => onResult (.finished v)) onFault := by
  simp only [runProgram]
  cases parseWithin limits.parsing program with
  | error fault => exact Iff.rfl
  | ok parsed =>
      cases hr : Diagnostic.report? parsed.diagnostics program false with
      | some report => simp only [hr, ends_pure]
      | none => simp only [hr, bind_pure_comp, ends_map]

namespace Session

variable {m m' m'' : Machine}

theorem good (h : Session m m') (hm : m.Good) : m'.Good := by
  induction h with
  | start => exact hm
  | rooted _ ih => exact Machine.good_iff.mpr (Machine.good_iff.mp ih).rooted
  | enclosed _ hs ih => exact Machine.good_iff.mpr ((Machine.good_iff.mp ih).enclosing _)
  | ran _ hs hp he ih =>
      obtain ⟨v, m₁, hv, hg, -⟩ := Eval.exists_evaluateWithin _ (wellFormed_of_parseWithin hp) _ ih
      rw [he] at hv
      cases hv
      exact hg

theorem describes (h : Session m m') {heap : Heap} (hm : heap.Describes m) :
    ∃ later, heap.Extends later ∧ later.Describes m' := by
  induction h with
  | start => exact ⟨heap, .refl heap, hm⟩
  | rooted _ ih =>
      obtain ⟨later, he, hd⟩ := ih
      exact ⟨_, he.trans later.extends_withScope, hd.rooted⟩
  | enclosed _ hs ih =>
      obtain ⟨later, he, hd⟩ := ih
      exact ⟨_, he.trans later.extends_withScope, hd.enclosing (hd.scopes ▸ hs)⟩
  | @ran m₁ m₂ levels depth program parsed scope v _ hs hp hrun ih =>
      obtain ⟨later, he, hd⟩ := ih
      have hstays : Eval.Stays later (evaluateWithin depth parsed.tree scope) :=
        Eval.stays_evaluateWithin depth parsed.tree (hd.scopes ▸ hs)
      obtain ⟨last, he', hd', -⟩ := (hstays later (.refl later) _ hd).ok hrun
      exact ⟨last, he.trans he', hd'⟩

/-- All that is bound in a session is proper and has numbers that were given out. -/
theorem bound (h : Session .initial m) (id : ScopeId) :
    ∀ b ∈ (m.scopes.get id).bindings,
      b.2.All fun u => u.IsProper ∧ u.IsWithin m.scopes.count m.identities := by
  intro b hb u hu
  obtain ⟨heap, -, hd⟩ := h.describes Heap.describes_initial
  have hwithin := (hd.bound id trivial b hb u hu).1
  rw [← hd.scopes, ← hd.identities] at hwithin
  exact ⟨h.good Machine.good_initial id b hb u hu, hwithin⟩

end Session

/-- Evaluation is sound in whole sessions. From a good machine, a session only comes to good
machines, and there every well-formed tree gives what its place allows and a call gives a proper
value or an error. The only fault is that a tree is nested too deeply, and a whole run turns it into
an error. A program can be run in every scope, which goes on with the session. -/
theorem evaluation_sound {m m' : Machine} (hm : m.Good) (hs : Session m m') (depth : Nat) :
    m'.Good ∧
    (∀ role n scope, n.WellFormed role →
      Ends (visit depth n scope) m' (fun v m'' => m''.Good ∧ v.Outcome role)
        (fun fault m'' => fault = .tooDeep ∧ m''.Good) ∧
      ∃ v m'', evaluateWithin depth n scope m' = .ok v m'' ∧ m''.Good ∧ v.Outcome role) ∧
    (∀ callee arguments, callee.Proper → (∀ a ∈ arguments, a.Proper) →
      Ends (apply (visit depth) callee arguments) m'
        (fun v m'' => m''.Good ∧ (v.Proper ∨ v.isError = true))
        (fun fault m'' => fault = .tooDeep ∧ m''.Good)) ∧
    ∀ limits program scope, scope < m'.scopes.count →
      Ends (runProgram limits program scope) m'
        (fun result m'' => Session m m'' ∧ m''.Good ∧
          ∀ v, result = .finished v → v.Outcome .program)
        (fun fault m'' => parseWithin limits.parsing program = .error fault ∧ m'' = m') := by
  have hg : m'.Good := hs.good hm
  refine ⟨hg, ?_, ?_, ?_⟩
  · intro role n scope hn
    exact ⟨Eval.yields_visit depth hn scope m' hg, Eval.exists_evaluateWithin depth hn scope hg⟩
  · intro callee arguments hc ha
    exact Eval.yields_apply_visit depth hc ha m' hg
  · intro limits program scope hscope
    rw [Eval.ends_runProgram]
    cases hp : parseWithin limits.parsing program with
    | error fault => exact ⟨rfl, rfl⟩
    | ok parsed =>
        simp only
        split
        · exact ⟨hs, hg, by simp⟩
        · obtain ⟨v, m'', hv, hg', ho⟩ :=
            Eval.exists_evaluateWithin limits.running (wellFormed_of_parseWithin hp) scope hg
          refine Ends.of_ok hv ⟨hs.ran hscope hp hv, hg', ?_⟩
          rintro _ ⟨⟩
          exact ho

/-- The first program ends with an error behind its first statement. -/
theorem evaluation_sound_behind_error :
    Machine.initial.Good ∧ ∃ first m next v m',
      parseWithin 60 "let f = func(x) { if (x) { return [x, f] } }; f(1) + f; f" =
        .ok first ∧
      evaluateWithin 60 first.tree 0 .initial =
        .ok (.error (.typeMismatch .array "+" .function)) m ∧
      Session .initial m ∧ m.Good ∧ parseWithin 60 "f(f)[1](3)[0]" = .ok next ∧
      evaluateWithin 60 next.tree 0 m = .ok v m' ∧ m'.Good ∧ v.Outcome .program := by
  obtain ⟨first, hfirst, m, hm, next, hnext⟩ :
      ∃ first, parseWithin 60
        "let f = func(x) { if (x) { return [x, f] } }; f(1) + f; f" = .ok first ∧
      ∃ m, evaluateWithin 60 first.tree 0 .initial =
        .ok (.error (.typeMismatch .array "+" .function)) m ∧
      ∃ next, parseWithin 60 "f(f)[1](3)[0]" = .ok next :=
    ⟨_, rfl, _, rfl, _, rfl⟩
  have hs : Session .initial m := Session.start.ran (by decide) hfirst hm
  obtain ⟨hg, hsound, -⟩ := evaluation_sound Machine.good_initial hs 60
  obtain ⟨v, m', hv, hg', ho⟩ :=
    (hsound .program next.tree 0 (wellFormed_of_parseWithin hnext)).2
  exact ⟨Machine.good_initial, first, m, next, v, m', hfirst, hm, hs, hg, hnext, hv, hg', ho⟩

end ExprLang
