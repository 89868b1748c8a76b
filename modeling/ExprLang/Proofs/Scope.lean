import ExprLang.Scope

/-!
# What the operations on scopes change

Binding a name changes one scope and only the value of that name in it. Adding a scope changes none
of those that exist. A value that is found by looking a name up is bound in one of the scopes that
were searched.
-/

namespace ExprLang

namespace Scope

theorem mem_bindings_bind {s : Scope} {name : String} {value : Value} {b : String × Value}
    (h : b ∈ (s.bind name value).bindings) : b = (name, value) ∨ b ∈ s.bindings := by
  rcases List.mem_cons.mp h with rfl | hb
  · exact .inl rfl
  · exact .inr (List.mem_filter.mp hb).1

theorem lookup_filter_ne {name name' : String} (hn : name' ≠ name) (bs : List (String × Value)) :
    (bs.filter fun b => b.1 != name).lookup name' = bs.lookup name' := by
  induction bs with
  | nil => rfl
  | cons b rest ih =>
      obtain ⟨bound, value⟩ := b
      by_cases hb : bound = name
      · have hne : (name' == name) = false := by simp [hn]
        simp [List.lookup_cons, hb, hne, ih]
      · simp [List.lookup_cons, hb, ih]

theorem lookup_bindings_bind (s : Scope) (name name' : String) (value : Value) :
    (s.bind name value).bindings.lookup name' =
      if name' = name then some value else s.bindings.lookup name' := by
  by_cases hn : name' = name
  · simp [bind, hn]
  · have hne : (name' == name) = false := by simp [hn]
    simp [bind, List.lookup_cons, hn, hne, lookup_filter_ne hn]

end Scope

namespace Scopes

/-- The number of scopes. -/
def count (s : Scopes) : Nat :=
  s.all.size

theorem get_of_count_le {s : Scopes} {id : ScopeId} (h : s.count ≤ id) : s.get id = {} := by
  simp [get, Array.getElem?_eq_none (show s.all.size ≤ id from h)]

@[simp] theorem count_bind (s : Scopes) (id : ScopeId) (name : String) (value : Value) :
    (s.bind id name value).count = s.count := by
  simp [count, bind]

@[simp] theorem count_add (s : Scopes) (scope : Scope) : (s.add scope).2.count = s.count + 1 := by
  simp [count, add]

theorem get_bind (s : Scopes) (id id' : ScopeId) (name : String) (value : Value) :
    (s.bind id name value).get id' =
      if id' = id ∧ id < s.count then (s.get id).bind name value else s.get id' := by
  by_cases hid : id' = id
  · subst hid
    by_cases hlt : id' < s.all.size
    · simp [get, bind, count, Array.getElem_modify, hlt]
    · simp [get, bind, count, hlt]
  · simp [get, bind, Array.getElem?_modify, hid, Ne.symm hid]

theorem lookup_bind_self {s : Scopes} {id : ScopeId} (h : id < s.count) (name : String)
    (value : Value) : (s.bind id name value).lookup id name = value := by
  rw [lookup, chain, findIn, get_bind, if_pos ⟨rfl, h⟩, Scope.lookup_bindings_bind, if_pos rfl]

theorem get_add (s : Scopes) (scope : Scope) (id : ScopeId) :
    (s.add scope).2.get id = if id = s.count then scope else s.get id := by
  by_cases hid : id = s.all.size <;> simp [get, add, count, Array.getElem?_push, hid]

theorem get_add_of_lt {s : Scopes} {id : ScopeId} (scope : Scope) (h : id < s.count) :
    (s.add scope).2.get id = s.get id := by
  rw [get_add, if_neg (Nat.ne_of_lt h)]

/-- A name has no value, or one that is bound in a scope that was searched. -/
theorem findIn_cases (s : Scopes) (name : String) (ids : List ScopeId) :
    s.findIn name ids = .nothing ∨
      ∃ id ∈ ids, ∃ b ∈ (s.get id).bindings, s.findIn name ids = b.2 := by
  induction ids with
  | nil => exact .inl rfl
  | cons id rest ih =>
      cases hl : (s.get id).bindings.lookup name with
      | some value =>
          obtain ⟨before, behind, hb, -⟩ := List.lookup_eq_some_iff.mp hl
          exact .inr ⟨id, by simp, (name, value), by simp [hb], by simp [findIn, hl]⟩
      | none =>
          have hf : s.findIn name (id :: rest) = s.findIn name rest := by simp [findIn, hl]
          rw [hf]
          rcases ih with ih | ⟨id', hm, hb⟩
          · exact .inl ih
          · exact .inr ⟨id', List.mem_cons_of_mem id hm, hb⟩

end Scopes

end ExprLang
