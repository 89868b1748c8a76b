import ExprLang.Proofs.Scope

/-!
# Lookups told by what was done before

Scopes come about one after the other, alone or inside one that exists, and names are bound in them in
any order. What was done tells what a lookup finds, without any look at what is stored: the way outward
from a scope leads from each scope to the one that it was enclosed in, and the value of a name is the
one that it was last bound to in the nearest scope on that way in which it was ever bound.

## Implementation notes

A history knows how many scopes there are, so that it can only tell of scopes that existed at the
time. A scope is enclosed in an older one, which is why the way outward ends. A scope of a run keeps
its whole way outward; here the way is followed step by step.
-/

namespace ExprLang

/-- What was done to scopes, of which there are so many by now. -/
inductive History : Nat → Type where
  /-- There is no scope yet. -/
  | start : History 0
  /-- A scope is added that is nested in no other. -/
  | root {n : Nat} (h : History n) : History (n + 1)
  /-- A scope is added that is nested in a given one. -/
  | enclose {n : Nat} (h : History n) (id : Fin n) : History (n + 1)
  /-- A name is bound in a scope. -/
  | bind {n : Nat} (h : History n) (id : Fin n) (name : String) (value : Value) : History n

namespace History

variable {n : Nat}

/-- The scopes after all that was done. -/
def scopes : {n : Nat} → History n → Scopes
  | _, .start => {}
  | _, .root h => h.scopes.root.2
  | _, .enclose h id => (h.scopes.enclose id).2
  | _, .bind h id name value => h.scopes.bind id name value

/-! ### What a history tells of its scopes -/

/-- The scope that a scope was enclosed in. -/
def outer? : {n : Nat} → History n → ScopeId → Option ScopeId
  | _, .start, _ => none
  | _, .root h, e => h.outer? e
  | _, @enclose n h id, e => if e = n then some id else h.outer? e
  | _, .bind h _ _ _, e => h.outer? e

/-- The value that a name was last bound to in a scope, if it ever was. -/
def latest : {n : Nat} → History n → ScopeId → String → Option Value
  | _, .start, _, _ => none
  | _, .root h, e, name => h.latest e name
  | _, .enclose h _, e, name => h.latest e name
  | _, .bind h id bound value, e, name =>
      if e = id ∧ name = bound then some value else h.latest e name

/-- A scope that exists is enclosed in an older one. -/
theorem outer?_spec {h : History n} {e p : ScopeId} (ho : h.outer? e = some p) : p < e ∧ e < n := by
  induction h with
  | start => cases ho
  | root h ih => exact ⟨(ih ho).1, Nat.lt_succ_of_lt (ih ho).2⟩
  | @enclose n h id ih =>
      rw [outer?] at ho
      split at ho
      · next he =>
          obtain rfl := Option.some.inj ho
          rw [he]
          exact ⟨id.isLt, Nat.lt_succ_self n⟩
      · exact ⟨(ih ho).1, Nat.lt_succ_of_lt (ih ho).2⟩
  | bind h id name value ih => exact ih ho

/-- The way outward from a scope, which comes first. -/
def chain (h : History n) (e : ScopeId) : List ScopeId :=
  match _ho : h.outer? e with
  | none => [e]
  | some p => e :: h.chain p
termination_by e
decreasing_by exact (outer?_spec _ho).1

/-- The way outward goes on from the scope around. -/
theorem chain_eq (h : History n) (e : ScopeId) :
    h.chain e = e :: (h.outer? e).elim [] h.chain := by
  rw [chain]
  split
  · next ho => rw [ho]; rfl
  · next p ho => rw [ho]; rfl

/-- The way outward leads to older and older scopes, so it comes to none of them twice. -/
theorem pairwise_chain (h : History n) (e : ScopeId) : (h.chain e).Pairwise (· > ·) := by
  fun_induction chain h e with
  | case1 e ho => exact List.pairwise_singleton _ e
  | case2 e p ho ih =>
      refine List.pairwise_cons.mpr ⟨fun a ha => ?_, ih⟩
      rw [chain_eq] at ih ha
      rcases List.mem_cons.mp ha with rfl | ha
      · exact (outer?_spec ho).1
      · exact Nat.lt_trans (List.rel_of_pairwise_cons ih ha) (outer?_spec ho).1

/-- Histories that enclosed the older scopes alike have the same ways outward from them. -/
theorem chain_congr {m : Nat} {h : History n} {h' : History m} {e : ScopeId}
    (heq : ∀ p ≤ e, h'.outer? p = h.outer? p) : h'.chain e = h.chain e := by
  fun_induction chain h e with
  | case1 e ho => rw [chain_eq, heq e (Nat.le_refl e), ho]; rfl
  | case2 e p ho ih =>
      have hp : p ≤ e := Nat.le_of_lt (outer?_spec ho).1
      rw [chain_eq, heq e (Nat.le_refl e), ho, Option.elim_some,
        ih fun q hq => heq q (Nat.le_trans hq hp)]

theorem chain_bind (h : History n) (id : Fin n) (name : String) (value : Value) (e : ScopeId) :
    (h.bind id name value).chain e = h.chain e :=
  chain_congr fun _ _ => rfl

/-! ### The scopes that come of it -/

@[simp] theorem count_scopes (h : History n) : h.scopes.count = n := by
  induction h with
  | start => rfl
  | root h ih => rw [scopes, Scopes.root, Scopes.count_add, ih]
  | enclose h id ih => rw [scopes, Scopes.enclose, Scopes.count_add, ih]
  | bind h id name value ih => rw [scopes, Scopes.count_bind, ih]

/-- A new scope binds nothing, and what is bound in the others stays. -/
theorem bindings_add (s : Scopes) (outer : List ScopeId) (e : ScopeId) :
    ((s.add { outer }).2.get e).bindings = (s.get e).bindings := by
  rw [Scopes.get_add]
  split
  · next he => rw [he, Scopes.get_of_count_le (Nat.le_refl s.count)]
  · rfl

/-- What is stored in a scope is what was last bound there. -/
theorem lookup_bindings (h : History n) (e : ScopeId) (name : String) :
    (h.scopes.get e).bindings.lookup name = h.latest e name := by
  induction h with
  | start => rfl
  | root h ih => rw [scopes, Scopes.root, bindings_add, ih, latest]
  | enclose h id ih => rw [scopes, Scopes.enclose, bindings_add, ih, latest]
  | bind h id bound value ih =>
      rw [scopes, Scopes.get_bind, latest]
      by_cases he : e = id
      · rw [if_pos ⟨he, by rw [count_scopes]; exact id.isLt⟩, Scope.lookup_bindings_bind, ← he, ih]
        simp
      · rw [if_neg fun h => he h.1, if_neg fun h => he h.1, ih]

/-- A scope keeps the way outward from the one that it was enclosed in. -/
theorem outer_scopes (h : History n) (e : ScopeId) :
    (h.scopes.get e).outer = (h.outer? e).elim [] h.chain := by
  induction h generalizing e with
  | start => rfl
  | @root n h ih =>
      have hchain : h.root.chain = h.chain := funext fun p => chain_congr fun _ _ => rfl
      rw [outer?, hchain, ← ih, scopes, Scopes.root, Scopes.get_add]
      split
      · next he => rw [he, Scopes.get_of_count_le (Nat.le_refl _)]
      · rfl
  | @enclose n h id ih =>
      have hchain : ∀ p < n, (h.enclose id).chain p = h.chain p := by
        intro p hp
        apply chain_congr
        intro q hq
        exact if_neg (Nat.ne_of_lt (Nat.lt_of_le_of_lt hq hp))
      rw [outer?, scopes, Scopes.enclose, Scopes.get_add, count_scopes]
      split
      · rw [Option.elim_some, hchain id id.isLt, chain_eq, ← ih]
        rfl
      · rw [ih]
        cases ho : h.outer? e with
        | none => rfl
        | some p =>
            obtain ⟨hp, he⟩ := outer?_spec ho
            exact (hchain p (Nat.lt_trans hp he)).symm
  | bind h id bound value ih =>
      have hchain := funext (h.chain_bind id bound value)
      rw [outer?, hchain, ← ih, scopes, Scopes.get_bind]
      split
      · next he => rw [he.1]; rfl
      · rfl

/-- The scopes that a search goes through are those on the way outward. -/
theorem chain_scopes (h : History n) (e : ScopeId) : h.scopes.chain e = h.chain e := by
  rw [Scopes.chain, outer_scopes, chain_eq]

/-- A search goes along the way outward up to a scope in which the name was bound. -/
theorem findIn_scopes (h : History n) (name : String) (ids : List ScopeId) :
    h.scopes.findIn name ids = (ids.findSome? fun a => h.latest a name).getD .nothing := by
  induction ids with
  | nil => rfl
  | cons id rest ih =>
      rw [Scopes.findIn, lookup_bindings, List.findSome?_cons, ih]
      cases h.latest id name <;> rfl

/-- The value of a name is the one that it was last bound to in the nearest scope on the way outward
in which it was ever bound. -/
theorem lookup_scopes (h : History n) (e : ScopeId) (name : String) :
    h.scopes.lookup e name = ((h.chain e).findSome? fun a => h.latest a name).getD .nothing := by
  rw [Scopes.lookup, chain_scopes, findIn_scopes]

/-! ### One more binding -/

section Bind

variable {h : History n} {id : Fin n} {e : ScopeId} {near far : List ScopeId}

/-- A search through other scopes does not see a binding. -/
theorem findSome?_latest_bind (hid : id.val ∉ near) (bound name : String) (value : Value) :
    (near.findSome? fun a => (h.bind id bound value).latest a name) =
      near.findSome? fun a => h.latest a name := by
  induction near with
  | nil => rfl
  | cons a rest ih =>
      rw [List.mem_cons, not_or] at hid
      have ha : (h.bind id bound value).latest a name = h.latest a name :=
        if_neg fun heq => hid.1 heq.1.symm
      rw [List.findSome?_cons, List.findSome?_cons, ha, ih hid.2]

/-- The scopes before a scope on a way outward are others. -/
theorem notMem_of_chain (hc : h.chain e = near ++ id.val :: far) : id.val ∉ near := by
  intro hm
  have hp := h.pairwise_chain e
  rw [hc, List.pairwise_append] at hp
  exact Nat.lt_irrefl _ (hp.2.2 id hm id List.mem_cons_self)

theorem lookup_bind_of_notMem (hid : id.val ∉ h.chain e) (bound name : String) (value : Value) :
    (h.bind id bound value).scopes.lookup e name = h.scopes.lookup e name := by
  rw [lookup_scopes, lookup_scopes, chain_bind, findSome?_latest_bind hid]

/-- A name that is bound in a nearer scope hides a binding. -/
theorem lookup_bind_of_hidden (hc : h.chain e = near ++ id.val :: far) {name : String}
    (hb : ∃ b ∈ near, h.latest b name ≠ none) (bound : String) (value : Value) :
    (h.bind id bound value).scopes.lookup e name = h.scopes.lookup e name := by
  obtain ⟨u, hu⟩ : ∃ u, (near.findSome? fun a => h.latest a name) = some u := by
    rw [← Option.isSome_iff_exists, List.findSome?_isSome_iff]
    simpa [Option.isSome_iff_ne_none] using hb
  rw [lookup_scopes, lookup_scopes, chain_bind, hc, List.findSome?_append, List.findSome?_append,
    findSome?_latest_bind (notMem_of_chain hc), hu]
  rfl

/-- A binding is seen from every scope on whose way outward it is the first one of the name. -/
theorem lookup_bind_of_seen (hc : h.chain e = near ++ id.val :: far) {name : String}
    (hn : ∀ b ∈ near, h.latest b name = none) (value : Value) :
    (h.bind id name value).scopes.lookup e name = value := by
  have hlatest : (h.bind id name value).latest id name = some value := if_pos ⟨rfl, rfl⟩
  rw [lookup_scopes, chain_bind, hc, List.findSome?_append,
    findSome?_latest_bind (notMem_of_chain hc), List.findSome?_eq_none_iff.mpr hn, Option.none_or,
    List.findSome?_cons, hlatest]
  rfl

end Bind

/-- Whatever was done to scopes in whatever order, a search for a name goes along the way outward, from
each scope to the one that it was enclosed in. These are older and older, so the search ends, and it
gives the value that the name was last bound to in the first scope on the way in which it was ever
bound, or nothing if there is none. One more binding changes nothing for a scope with another way
outward, nor where the name is bound in a nearer scope, and it is seen from all other scopes, also from
those that had been enclosed before. -/
theorem lookup_of_history (h : History n) (e : ScopeId) (name : String) :
    h.scopes.chain e = h.chain e ∧ (h.chain e).Pairwise (· > ·) ∧
      h.scopes.lookup e name = ((h.chain e).findSome? fun a => h.latest a name).getD .nothing ∧
      ∀ (id : Fin n) (value : Value),
        (id.val ∉ h.chain e → ∀ bound,
          (h.bind id bound value).scopes.lookup e name = h.scopes.lookup e name) ∧
        ∀ near far, h.chain e = near ++ id.val :: far →
          ((∃ b ∈ near, h.latest b name ≠ none) → ∀ bound,
            (h.bind id bound value).scopes.lookup e name = h.scopes.lookup e name) ∧
          ((∀ b ∈ near, h.latest b name = none) →
            (h.bind id name value).scopes.lookup e name = value) := by
  refine ⟨h.chain_scopes e, h.pairwise_chain e, h.lookup_scopes e name,
    fun id value => ⟨fun hid bound => ?_, ?_⟩⟩
  · exact lookup_bind_of_notMem hid bound name value
  · intro near far hc
    exact ⟨fun hb bound => lookup_bind_of_hidden hc hb bound value,
      fun hn => lookup_bind_of_seen hc hn value⟩

/-- Three scopes, each inside the one before, with a name bound in the middle. -/
def nested : History 3 :=
  ((start.root.enclose 0).enclose 1).bind 1 "b" .null

/-- Seen from the innermost one of three scopes, a name is found that is bound outside only now, and one
that is bound in the middle stays; what is bound inside is not seen from the middle. -/
theorem lookup_of_history_nested :
    nested.chain 2 = [2, 1] ++ 0 :: [] ∧ nested.chain 1 = [1, 0] ∧
      (nested.bind 0 "a" (.boolean true)).scopes.lookup 2 "a" = .boolean true ∧
      (nested.bind 0 "b" (.boolean true)).scopes.lookup 2 "b" = .null ∧
      (nested.bind 2 "b" (.boolean true)).scopes.lookup 1 "b" = .null := by
  have hinner : nested.chain 2 = [2, 1] ++ 0 :: [] := by
    simp [chain_eq, outer?, nested]
  have hmiddle : nested.chain 1 = [1, 0] := by
    simp [chain_eq, outer?, nested]
  obtain ⟨-, -, -, ha⟩ := lookup_of_history nested 2 "a"
  obtain ⟨-, -, hb, hb'⟩ := lookup_of_history nested 2 "b"
  obtain ⟨-, -, hm, hm'⟩ := lookup_of_history nested 1 "b"
  refine ⟨hinner, hmiddle, ?_, ?_, ?_⟩
  · exact ((ha 0 (.boolean true)).2 [2, 1] [] hinner).2 (by simp [latest, nested])
  · rw [((hb' 0 (.boolean true)).2 [2, 1] [] hinner).1 ⟨1, by simp, by simp [latest, nested]⟩ "b", hb,
      hinner]
    rfl
  · rw [(hm' 2 (.boolean true)).1 (by simp [hmiddle]) "b", hm, hmiddle]
    rfl

end History

end ExprLang
