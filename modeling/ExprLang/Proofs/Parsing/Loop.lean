import ExprLang.Proofs.Parsing.Depth

/-!
# Loops without a bound

The loops of a parse count their rounds down. The same loops without a count make one round after
the other until a round leaves the loop or ends with a fault, and `Repeats` says how they end. Every
round that goes on uses up a token, so a loop with a round for every token that is left ends the way
the loop without a count does: the count never cuts a loop off.

## Implementation notes

A round takes what the rounds before it have put together, and the loops that build a list from
behind are compared with the ones that append to it.
-/

namespace ExprLang

namespace Parse

section Repeats

variable {α β : Type} {round : α → Parse (α ⊕ β)}

/-- How a loop without a bound ends: a round gives a new value to go on with, or the result. -/
inductive Repeats (round : α → Parse (α ⊕ β)) :
    α → ParseState → EStateM.Result Fault ParseState β → Prop where
  /-- The round leaves the loop. -/
  | leave {a : α} {s s' : ParseState} {b : β} (h : round a s = .ok (.inr b) s') :
      Repeats round a s (.ok b s')
  /-- The round ends with a fault. -/
  | fault {a : α} {s s' : ParseState} {fault : Fault} (h : round a s = .error fault s') :
      Repeats round a s (.error fault s')
  /-- The loop goes on behind the round. -/
  | again {a a' : α} {s s' : ParseState} {r : EStateM.Result Fault ParseState β}
      (h : round a s = .ok (.inl a') s') (hr : Repeats round a' s' r) : Repeats round a s r

namespace Repeats

variable {a a' : α} {b : β} {s s' : ParseState} {fault : Fault}
variable {r : EStateM.Result Fault ParseState β}

/-! The end of a loop is told by its first round. -/

theorem eq_ok (hr : Repeats round a s r) (h : round a s = .ok (.inr b) s') : r = .ok b s' := by
  cases hr with
  | leave h' => rw [h] at h'; cases h'; rfl
  | fault h' => rw [h] at h'; cases h'
  | again h' _ => rw [h] at h'; cases h'

theorem eq_error (hr : Repeats round a s r) (h : round a s = .error fault s') :
    r = .error fault s' := by
  cases hr with
  | leave h' => rw [h] at h'; cases h'
  | fault h' => rw [h] at h'; cases h'; rfl
  | again h' _ => rw [h] at h'; cases h'

theorem rest (hr : Repeats round a s r) (h : round a s = .ok (.inl a') s') :
    Repeats round a' s' r := by
  cases hr with
  | leave h' => rw [h] at h'; cases h'
  | fault h' => rw [h] at h'; cases h'
  | again h' hr => rw [h] at h'; cases h'; exact hr

/-- What every round that goes on preserves holds when a round leaves the loop. -/
theorem ends {step : Parse β} {before : ParseState → Prop} {after : β → ParseState → Prop}
    (hr : Repeats round a s (step s))
    (h : ∀ a s, before s →
      Ends (round a) s (fun next s' => Sum.elim (fun _ => before s') (after · s') next) anyFault)
    (hs : before s) : Ends step s after anyFault := by
  unfold Ends
  generalize step s = r at hr ⊢
  induction hr with
  | leave hround => exact (h _ _ hs).ok hround
  | fault hround => exact True.intro
  | again hround hr ih => exact ih ((h _ _ hs).ok hround)

end Repeats

/-- A loop with a count, given by its rounds: a round that goes on uses up a token, and behind the
last token the loop is left with the same result as when the count is used up. -/
structure Counts (round : α → Parse (α ⊕ β)) (loop : Nat → α → Parse β) (result : α → β) :
    Prop where
  zero : ∀ a, loop 0 a = pure (result a)
  succ : ∀ n a, loop (n + 1) a = round a >>= Sum.elim (loop n) pure
  leaves : ∀ a s, s.left = 0 → round a s = .ok (.inr (result a)) s
  uses : ∀ a s, Ends (round a) s (fun next s' => next.isLeft = true → s'.left < s.left) anyFault

/-- With a round for every token that is left, the count does not matter. -/
theorem Counts.repeats {loop : Nat → α → Parse β} {result : α → β} (hc : Counts round loop result)
    {n : Nat} {a : α} {s : ParseState} (h : s.left ≤ n) : Repeats round a s (loop n a s) := by
  induction n generalizing a s with
  | zero =>
      rw [hc.zero]
      exact .leave (hc.leaves a s (Nat.le_zero.mp h))
  | succ n ih =>
      rw [hc.succ]
      simp only [bind, EStateM.bind]
      cases hr : round a s with
      | error fault s' => exact .fault hr
      | ok next s' =>
          cases next with
          | inr b => exact .leave hr
          | inl a' =>
              have hl : s'.left < s.left := (hc.uses a s).ok hr rfl
              exact .again hr (ih (by omega))

end Repeats

/-! ### The rounds -/

section Rounds

variable (expression : Precedence → Parse (Option Node)) (statement : Parse (Option Node))

/-- One more expression after a comma. -/
def expressionRound (es : List (Option Node)) :
    Parse (List (Option Node) ⊕ List (Option Node)) := do
  if (← peek).kind = .comma then
    advance
    advance
    let next ← expression .lowest
    return .inl (es ++ [next])
  else
    return .inr es

/-- One more parameter after a comma. -/
def parameterRound (names : List Name) : Parse (List Name ⊕ Option (List Name)) := do
  if (← peek).kind = .comma then
    advance
    if ← expectPeek .identifier then
      let name ← currentName
      return .inl (names ++ [name])
    else
      return .inr none
  else
    return .inr (some names)

/-- One more statement of a block. -/
def blockRound (ns : List Node) : Parse (List Node ⊕ List Node) := do
  let token ← current
  if token.kind = .rightBrace ∨ token.kind = .endOfInput then
    return .inr ns
  else
    let next ← statement
    advance
    return .inl (ns ++ next.toList)

/-- One more operator behind an operand. -/
def extendRound (precedence : Precedence) (left : Option Node) :
    Parse (Option Node ⊕ Option Node) := do
  if precedence.rank < (← peek).kind.precedence.rank then
    advance
    let extended ← extend expression left
    return .inl extended
  else
    return .inr left

/-- One more statement of a program. -/
def programRound (ns : List Node) : Parse (List Node ⊕ List Node) := do
  if (← current).kind = .endOfInput then
    return .inr ns
  else
    match ← guarded statement with
    | none => return .inr ns
    | some next =>
        advance
        return .inl (ns ++ next.toList)

end Rounds

/-! ### The loops -/

section Loops

variable {expression : Precedence → Parse (Option Node)} {statement : Parse (Option Node)}
variable (he : ∀ precedence, Orderly (· = none) (expression precedence))
variable (hs : Orderly (· = none) statement)
variable {s : ParseState} {n : Nat}

/-- Behind the last token the current one is the end of the input. -/
theorem kind_of_left_eq_zero (h : s.left = 0) : s.token.kind = .endOfInput :=
  Decidable.byContradiction fun hk => Nat.ne_of_gt (ParseState.left_pos hk) h

theorem kind_next_of_left_eq_zero (h : s.left = 0) : s.next.token.kind = .endOfInput :=
  kind_of_left_eq_zero (by simp [h])

/-- Nothing binds behind the last token. -/
theorem not_rank_lt_of_left_eq_zero (precedence : Precedence) (h : s.left = 0) :
    ¬ precedence.rank < s.next.token.kind.precedence.rank := by
  rw [kind_next_of_left_eq_zero h]
  cases precedence <;> decide

theorem Follows.left_le {s' : ParseState} (h : Follows s s') : s'.left ≤ s.left :=
  h.length_pending_le

include he in
theorem counts_moreExpressions :
    Counts (expressionRound expression)
      (fun n es => (es ++ ·) <$> moreExpressions expression n) id where
  zero es := by simp [moreExpressions]
  succ n es := by
    simp only [moreExpressions, expressionRound, map_bind, bind_assoc]
    congr 1
    funext next
    split <;> simp
  leaves es s h := by
    have hk : s.next.token.kind ≠ .comma := by simp [kind_next_of_left_eq_zero h]
    exact congrFun (if_neg hk) s
  uses es s := by
    simp only [expressionRound, ends_bind, ends_peek, ends_ite, ends_advance, ends_pure]
    split
    · next hk =>
        have hpos : 0 < s.next.left := ParseState.left_pos (by simp [hk])
        refine Ends.mono (he .lowest _) ?_ fun _ _ _ => True.intro
        rintro next s' ⟨hf, -⟩ -
        have hl := hf.left_le
        simp only [ParseState.next_left] at hl hpos
        omega
    · simp

theorem counts_moreParameters :
    Counts parameterRound (fun n names => Option.map (names ++ ·) <$> moreParameters n) some where
  zero names := by simp [moreParameters]
  succ n names := by
    simp only [moreParameters, parameterRound, expecting, map_bind, bind_assoc]
    congr 1
    funext next
    split
    · simp only [map_bind, bind_assoc]
      congr 1
      funext _
      congr 1
      funext found
      cases found <;> simp [Function.comp_def]
    · simp
  leaves names s h := by
    have hk : s.next.token.kind ≠ .comma := by simp [kind_next_of_left_eq_zero h]
    exact congrFun (if_neg hk) s
  uses names s := by
    simp only [parameterRound, expectPeek, ends_bind, ends_peek, ends_ite, ends_advance,
      ends_complain, ends_currentName, ends_pure]
    split
    · next hk =>
        have hpos : 0 < s.next.left := ParseState.left_pos (by simp [hk])
        simp only [ParseState.next_left] at hpos
        split
        · simp
          omega
        · simp
    · simp

include hs in
theorem counts_blockStatements :
    Counts (blockRound statement) (fun n ns => (ns ++ ·) <$> blockStatements statement n) id where
  zero ns := by simp [blockStatements]
  succ n ns := by
    simp only [blockStatements, blockRound, map_bind, bind_assoc]
    congr 1
    funext token
    split <;> simp
  leaves ns s h := by
    have hk : s.token.kind = .rightBrace ∨ s.token.kind = .endOfInput :=
      Or.inr (kind_of_left_eq_zero h)
    exact congrFun (if_pos hk) s
  uses ns s := by
    simp only [blockRound, ends_bind, ends_current, ends_ite, ends_advance, ends_pure]
    split
    · simp
    · next hk =>
        have hpos : 0 < s.left := ParseState.left_pos fun h => hk (Or.inr h)
        refine Ends.mono (hs s) ?_ fun _ _ _ => True.intro
        rintro next s' ⟨hf, -⟩ -
        have hl := hf.left_le
        simp only [ParseState.next_left]
        omega

include he in
theorem counts_extendWhile (precedence : Precedence) :
    Counts (extendRound expression precedence) (extendWhile expression precedence) id where
  zero left := rfl
  succ n left := by
    simp only [extendWhile, extendRound, bind_assoc]
    congr 1
    funext next
    split <;> simp
  leaves left s h := congrFun (if_neg (not_rank_lt_of_left_eq_zero precedence h)) s
  uses left s := by
    simp only [extendRound, ends_bind, ends_peek, ends_ite, ends_advance, ends_pure]
    split
    · next hk =>
        have hpos : 0 < s.left :=
          Nat.pos_of_ne_zero fun h => not_rank_lt_of_left_eq_zero precedence h hk
        refine Ends.mono (orderly_extend he left _) ?_ fun _ _ _ => True.intro
        rintro extended s' ⟨hf, -⟩ -
        have hl := hf.left_le
        simp only [ParseState.next_left] at hl
        omega
    · simp

include hs in
theorem counts_programStatements :
    Counts (programRound statement)
      (fun n ns => (ns ++ ·) <$> programStatements statement n) id where
  zero ns := by simp [programStatements]
  succ n ns := by
    simp only [programStatements, programRound, map_bind, bind_assoc]
    congr 1
    funext token
    split
    · simp
    · simp only [map_bind, bind_assoc]
      congr 1
      funext next
      cases next <;> simp
  leaves ns s h := congrFun (if_pos (kind_of_left_eq_zero h)) s
  uses ns s := by
    simp only [programRound, ends_bind, ends_current, ends_ite, ends_guarded, ends_advance,
      ends_pure]
    split
    · simp
    · next hk =>
        have hpos : 0 < s.left := ParseState.left_pos hk
        refine Ends.mono (hs s) ?_ ?_
        · rintro next s' ⟨hf, -⟩ -
          have hl := hf.left_le
          simp only [ParseState.next_left]
          omega
        · intro fault s' _
          split
          · simp
          · exact True.intro

end Loops

/-- The loops of the rules, with a round for every token that is left, are the loops without a
count. -/
structure Unbounded (expression : Precedence → Parse (Option Node))
    (statement : Parse (Option Node)) : Prop where
  moreExpressions : ∀ s n, s.left ≤ n →
    Repeats (expressionRound expression) [] s (moreExpressions expression n s)
  moreParameters : ∀ s n, s.left ≤ n → Repeats parameterRound [] s (moreParameters n s)
  blockStatements : ∀ s n, s.left ≤ n →
    Repeats (blockRound statement) [] s (blockStatements statement n s)
  extendWhile : ∀ precedence left s n, s.left ≤ n →
    Repeats (extendRound expression precedence) left s (extendWhile expression precedence n left s)
  programStatements : ∀ s n, s.left ≤ n →
    Repeats (programRound statement) [] s (programStatements statement n s)

/-- Every loop ends by itself. -/
theorem unbounded_of_orderly {expression : Precedence → Parse (Option Node)}
    {statement : Parse (Option Node)}
    (he : ∀ precedence, Orderly (· = none) (expression precedence))
    (hs : Orderly (· = none) statement) : Unbounded expression statement where
  moreExpressions s n h := by
    simpa using (counts_moreExpressions he).repeats (a := []) h
  moreParameters s n h := by
    simpa using counts_moreParameters.repeats (a := []) h
  blockStatements s n h := by
    simpa using (counts_blockStatements hs).repeats (a := []) h
  extendWhile precedence left s n h := (counts_extendWhile he precedence).repeats h
  programStatements s n h := by
    simpa using (counts_programStatements hs).repeats (a := []) h

end Parse

end ExprLang
