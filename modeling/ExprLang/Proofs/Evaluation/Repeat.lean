import ExprLang.Proofs.Evaluation.Frame
import ExprLang.Proofs.Evaluation.Mirror

/-!
# Repeated calls

A call that is made again gives the same value, up to the numbers of the scopes, arrays and
functions that it makes. The first call leaves all scopes as they were and only uses up numbers. So
the machines before and behind it are related by shifting the numbers that were not in use, and the
second call mirrors the first one.
-/

namespace ExprLang

namespace Value

mutual

/-- Every proper value has a text. -/
theorem exists_inspect (v : Value) (hv : v.Proper) : ∃ text, v.inspect = .ok text := by
  cases v with
  | array identity es =>
      obtain ⟨texts, htexts⟩ := exists_inspectAll es (proper_array.mp hv)
      exact ⟨_, by rw [inspect, htexts]⟩
  | nothing => exact hv.self.elim
  | returned u => exact hv.self.elim
  | unspecified identity => exact hv.self.elim
  | _ => exact ⟨_, rfl⟩

theorem exists_inspectAll (vs : List Value) (hvs : ∀ v ∈ vs, v.Proper) :
    ∃ texts, inspectAll vs = .ok texts := by
  cases vs with
  | nil => exact ⟨[], rfl⟩
  | cons v rest =>
      obtain ⟨text, htext⟩ := exists_inspect v (hvs v (by simp))
      obtain ⟨texts, htexts⟩ := exists_inspectAll rest fun w hw => hvs w (by simp [hw])
      exact ⟨text :: texts, by simp [inspectAll, htext, htexts]⟩

end

end Value

/-- Moves the numbers from one bound on so that they start at another. -/
def moved (bound bound' n : Nat) : Nat :=
  if n < bound then n else n - bound + bound'

section Moved

variable {bound bound' : Nat}

theorem moved_of_lt {n : Nat} (hn : n < bound) : moved bound bound' n = n :=
  if_pos hn

@[simp] theorem moved_add (k : Nat) : moved bound bound' (bound + k) = bound' + k := by
  rw [moved, if_neg (by omega)]
  omega

theorem moved_injective (hle : bound ≤ bound') {a b : Nat}
    (hab : moved bound bound' a = moved bound bound' b) : a = b := by
  unfold moved at hab
  split at hab <;> split at hab <;> omega

end Moved

/-- A later machine has all scopes as they were, and no number is given out again. -/
structure Machine.Later (m m' : Machine) : Prop extends m.Untouched m' where
  identities_le : m.identities ≤ m'.identities

namespace Renaming

variable {m m' : Machine}

/-- The numbers that are not in use yet are moved behind those that a later machine uses. -/
def ofLater (h : m.Later m') : Renaming where
  scope := moved m.scopes.count m'.scopes.count
  identity := moved m.identities m'.identities
  scope_injective := moved_injective h.count_le
  identity_injective := moved_injective h.identities_le

/-- A value that is there already keeps its numbers. -/
theorem ofLater_value (h : m.Later m') {v : Value}
    (hv : v.All (Value.IsWithin m.scopes.count m.identities)) : (ofLater h).value v = v :=
  value_eq_self _ (fun _ => moved_of_lt) (fun _ => moved_of_lt) v hv

theorem ofLater_contents (h : m.Later m') {heap : Heap} (hm : heap.Describes m) (id : ScopeId) :
    (ofLater h).contents (m.scopes.get id) = m.scopes.get id := by
  have houter : (m.scopes.get id).outer.map (ofLater h).scope = (m.scopes.get id).outer := by
    have hkept : ∀ around ∈ (m.scopes.get id).outer, (ofLater h).scope around = around :=
      fun around ho => moved_of_lt (hm.scopes ▸ hm.outer id around ho)
    rw [List.map_congr_left hkept, List.map_id']
  have hbindings : (m.scopes.get id).bindings.map (fun b => (b.1, (ofLater h).value b.2)) =
      (m.scopes.get id).bindings := by
    have hkept : ∀ b ∈ (m.scopes.get id).bindings, (b.1, (ofLater h).value b.2) = b := by
      intro b hb
      have hin := (hm.bound id trivial b hb).mono fun u hu => hu.1
      rw [← hm.scopes, ← hm.identities] at hin
      rw [ofLater_value h hin]
    rw [List.map_congr_left hkept, List.map_id']
  rw [contents, houter, hbindings]

/-- The same scopes are in use, and the numbers given out next correspond. -/
theorem relates_ofLater (h : m.Later m') {heap : Heap} (hm : heap.Describes m) :
    (ofLater h).Relates m m' where
  scopes := moved_add
  identities := moved_add
  contents id := by
    by_cases hid : id < m.scopes.count
    · have hsame : (ofLater h).scope id = id := moved_of_lt hid
      rw [hsame, h.get id hid, ofLater_contents h hm]
    · -- neither machine has a scope of this number
      obtain ⟨k, rfl⟩ := Nat.exists_eq_add_of_le (Nat.le_of_not_lt hid)
      have hnew : (ofLater h).scope (m.scopes.count + k) = m'.scopes.count + k := moved_add k
      rw [hnew, Scopes.get_of_count_le (Nat.le_add_right _ _),
        Scopes.get_of_count_le (Nat.le_add_right _ _)]
      rfl

end Renaming

namespace Eval

theorem tracks_identities : Tracks fun _ m m' => m.identities ≤ m'.identities where
  refl _ _ := Nat.le_refl _
  trans := Nat.le_trans
  noted _ _ _ := Nat.le_refl _
  identified _ _ := Nat.le_succ _
  bound _ _ _ _ := Nat.le_refl _
  called h := h

/-- A call leaves a later machine. -/
theorem keeps_later_apply (depth : Nat) (callee : Value) (arguments : List Value) :
    Keeps Machine.Later (apply (visit depth) callee arguments) := by
  intro m
  have huntouched := keeps_untouched_apply depth callee arguments m
  have hidentities := tracks_identities.keeps_apply_visit 0 depth callee arguments m
  exact (huntouched.and hidentities).mono (fun _ _ h => ⟨h.1, h.2⟩) (fun _ _ h => ⟨h.1, h.2⟩)

/-- On a later machine, a call gives the same value under other numbers. -/
theorem apply_later {m m₁ m' : Machine} {heap : Heap} (hm : heap.Describes m) (hl : m.Later m')
    (depth : Nat) {callee v : Value} {arguments : List Value}
    (hc : callee.All (Value.IsWithin m.scopes.count m.identities))
    (ha : ∀ a ∈ arguments, a.All (Value.IsWithin m.scopes.count m.identities))
    (hv : apply (visit depth) callee arguments m = .ok v m₁) :
    ∃ m₂, apply (visit depth) callee arguments m' = .ok ((Renaming.ofLater hl).value v) m₂ := by
  have hrelates := Renaming.relates_ofLater hl hm
  have hmirror := mirrors_apply (mirrors_visit depth) callee arguments m m' hrelates
  have hkept : ∀ a ∈ arguments, (Renaming.ofLater hl).value a = a :=
    fun a hmem => Renaming.ofLater_value hl (ha a hmem)
  -- the callee and the arguments were there before, so both runs are of the same call
  rw [Renaming.ofLater_value hl hc, List.map_congr_left hkept, List.map_id', hv] at hmirror
  cases hr : apply (visit depth) callee arguments m' with
  | ok v' m₂ =>
      rw [hr] at hmirror
      exact ⟨m₂, by rw [hmirror.1]⟩
  | error fault m₂ =>
      rw [hr] at hmirror
      exact hmirror.elim

/-- Calls are repeatable: if a call gives a value in a session, the same call right behind it gives
a value of the same kind and with the same text, though new numbers are given out in between. -/
theorem apply_repeatable {m m₁ : Machine} (hs : Session .initial m) (depth : Nat)
    {callee v : Value} {arguments : List Value}
    (hc : callee.All fun u => u.IsProper ∧ u.IsWithin m.scopes.count m.identities)
    (ha : ∀ a ∈ arguments, a.All fun u => u.IsProper ∧ u.IsWithin m.scopes.count m.identities)
    (hv : apply (visit depth) callee arguments m = .ok v m₁) :
    ∃ v' m₂ text, apply (visit depth) callee arguments m₁ = .ok v' m₂ ∧ v'.kind = v.kind ∧
      v.inspect = .ok text ∧ v'.inspect = .ok text ∧
      ∀ limit, v'.inspectWithin limit = v.inspectWithin limit := by
  have hyields := yields_apply_visit depth (hc.mono fun _ hu => hu.1)
    (fun a hmem => (ha a hmem).mono fun _ hu => hu.1) m (hs.good Machine.good_initial)
  obtain ⟨text, htext⟩ : ∃ text, v.inspect = .ok text := by
    rcases (hyields.ok hv).2 with hproper | herror
    · exact Value.exists_inspect v hproper
    · cases v with
      | error failure => exact ⟨_, rfl⟩
      | _ => cases herror
  have hlater : m.Later m₁ := (keeps_later_apply depth callee arguments m).ok hv
  obtain ⟨heap, -, hm⟩ := hs.describes Heap.describes_initial
  obtain ⟨m₂, hm₂⟩ := apply_later hm hlater depth (hc.mono fun _ hu => hu.2)
    (fun a hmem => (ha a hmem).mono fun _ hu => hu.2) hv
  refine ⟨_, m₂, text, hm₂, ?_, htext, ?_, ?_⟩
  · exact Renaming.kind_value _ v
  · rw [Renaming.inspect_value, htext]
  · intro limit
    exact Renaming.inspectWithin_value _ limit v

/-- The call makes two arrays, which are not identical, and a third one that it gives. -/
theorem apply_repeatable_arrays :
    ∃ first m callee v m₁ v' m₂,
      parseWithin 60 "let f = func(x) { [x == x, [x] == [x]] }" = .ok first ∧
      evaluateWithin 60 first.tree 0 .initial = .ok .nothing m ∧ Session .initial m ∧
      (m.scopes.get 0).bindings = [("f", callee)] ∧
      apply (visit 60) callee [callee] m = .ok v m₁ ∧
      apply (visit 60) callee [callee] m₁ = .ok v' m₂ ∧ v'.kind = v.kind ∧
      v'.inspect = .ok "[true, false]" := by
  obtain ⟨first, hfirst, m, hm, callee, hbound, v, m₁, hv, htext⟩ :
      ∃ first, parseWithin 60 "let f = func(x) { [x == x, [x] == [x]] }" = .ok first ∧
      ∃ m, evaluateWithin 60 first.tree 0 .initial = .ok .nothing m ∧
      ∃ callee, (m.scopes.get 0).bindings = [("f", callee)] ∧
      ∃ v m₁, apply (visit 60) callee [callee] m = .ok v m₁ ∧
        v.inspect = .ok "[true, false]" :=
    ⟨_, rfl, _, rfl, _, rfl, _, _, rfl, rfl⟩
  have hs : Session .initial m := Session.start.ran (by decide) hfirst hm
  have hc := hs.bound 0 ("f", callee) (by simp [hbound])
  obtain ⟨v', m₂, text, hm₂, hkind, ht, ht', -⟩ :=
    apply_repeatable hs 60 hc (List.forall_mem_singleton.mpr hc) hv
  rw [← ht, htext] at ht'
  exact ⟨first, m, callee, v, m₁, v', m₂, hfirst, hm, hs, hbound, hv, hm₂, hkind, ht'⟩

end Eval

end ExprLang
