import ExprLang.Evaluation.Machine
import ExprLang.Proofs.Scope
import ExprLang.Proofs.Value.Part

/-!
# Changes of a machine

A run changes a machine by noting an event, giving an identity, adding a scope and binding a name.
Scopes that bind only values with some property go on to do so if every new value has it, and then a
name that is looked up has it too.
-/

namespace ExprLang

namespace Machine

/-- The machine with one more event in its journal. -/
def noting (m : Machine) (event : Event) : Machine :=
  { m with journal := event :: m.journal }

/-- The machine with one more identity given. -/
def identified (m : Machine) : Machine :=
  { m with identities := m.identities + 1 }

/-- The machine with one more scope, inside a given one. -/
def enclosing (m : Machine) (scope : ScopeId) : Machine :=
  { m with scopes := (m.scopes.enclose scope).2 }

/-- The machine with one more scope, inside no other. -/
def rooted (m : Machine) : Machine :=
  { m with scopes := m.scopes.root.2 }

/-- The machine with a name bound, which its journal tells. -/
def binding (m : Machine) (scope : ScopeId) (name : String) (value : Value) : Machine :=
  { m.noting (.bound scope name) with scopes := m.scopes.bind scope name value }

section Fields

variable (m : Machine) (event : Event) (scope : ScopeId) (name : String) (value : Value)

@[simp] theorem noting_scopes : (m.noting event).scopes = m.scopes := rfl

@[simp] theorem noting_identities : (m.noting event).identities = m.identities := rfl

@[simp] theorem noting_journal : (m.noting event).journal = event :: m.journal := rfl

@[simp] theorem identified_scopes : m.identified.scopes = m.scopes := rfl

@[simp] theorem identified_identities : m.identified.identities = m.identities + 1 := rfl

@[simp] theorem identified_journal : m.identified.journal = m.journal := rfl

@[simp] theorem enclosing_scopes :
    (m.enclosing scope).scopes = (m.scopes.add { outer := m.scopes.chain scope }).2 := rfl

@[simp] theorem enclosing_identities : (m.enclosing scope).identities = m.identities := rfl

@[simp] theorem enclosing_journal : (m.enclosing scope).journal = m.journal := rfl

@[simp] theorem rooted_scopes : m.rooted.scopes = (m.scopes.add {}).2 := rfl

@[simp] theorem binding_scopes :
    (m.binding scope name value).scopes = m.scopes.bind scope name value := rfl

@[simp] theorem binding_identities :
    (m.binding scope name value).identities = m.identities := rfl

@[simp] theorem binding_journal :
    (m.binding scope name value).journal = .bound scope name :: m.journal := rfl

end Fields

/-! ### What is bound -/

/-- Some scopes bind only values all of whose parts have a property. -/
def BindsOnly (among : ScopeId → Prop) (p : Value → Prop) (m : Machine) : Prop :=
  ∀ id, among id → ∀ b ∈ (m.scopes.get id).bindings, b.2.All p

variable {among : ScopeId → Prop} {p q : Value → Prop} {m : Machine}

theorem BindsOnly.mono (h : m.BindsOnly among p) (hpq : ∀ u, p u → q u) : m.BindsOnly among q :=
  fun id hid b hb => (h id hid b hb).mono hpq

theorem BindsOnly.binding (h : m.BindsOnly among p) (scope : ScopeId) (name : String)
    {value : Value} (hv : value.All p) : (m.binding scope name value).BindsOnly among p := by
  intro id hid b hb
  rw [binding_scopes, Scopes.get_bind] at hb
  split at hb
  · next hs =>
      rcases Scope.mem_bindings_bind hb with rfl | hb
      · exact hv
      · exact h id hid b (hs.1 ▸ hb)
  · exact h id hid b hb

/-- A new scope binds nothing yet. -/
theorem BindsOnly.add (h : m.BindsOnly among p) {m' : Machine} {outer : List ScopeId}
    (hs : m'.scopes = (m.scopes.add { outer }).2) : m'.BindsOnly among p := by
  intro id hid b hb
  rw [hs, Scopes.get_add] at hb
  split at hb
  · simp at hb
  · exact h id hid b hb

theorem BindsOnly.enclosing (h : m.BindsOnly among p) (scope : ScopeId) :
    (m.enclosing scope).BindsOnly among p :=
  h.add (m.enclosing_scopes scope)

theorem BindsOnly.rooted (h : m.BindsOnly among p) : m.rooted.BindsOnly among p :=
  h.add m.rooted_scopes

/-- What a name is bound to has the property, if it is bound at all. -/
theorem BindsOnly.lookup (h : m.BindsOnly among p) {scope : ScopeId}
    (hs : ∀ id ∈ m.scopes.chain scope, among id) {name : String}
    (hn : (m.scopes.lookup scope name).isNothing = false) :
    (m.scopes.lookup scope name).All p := by
  rcases m.scopes.findIn_cases name (m.scopes.chain scope) with hl | ⟨id, hm, b, hb, hl⟩
  · rw [Scopes.lookup, hl] at hn
    cases hn
  · rw [Scopes.lookup, hl]
    exact h id (hs id hm) b hb

end Machine

end ExprLang
