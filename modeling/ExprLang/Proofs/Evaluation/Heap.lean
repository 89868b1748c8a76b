import ExprLang.Proofs.Evaluation.Operator
import ExprLang.Proofs.Evaluation.Run

/-!
# The heap of a run

A heap says what exists at a moment: how many scopes, how many identities, and which elements the
array of an identity has. It describes a machine if all values that are bound in it belong to the
heap. A run only adds to the heap: the machine that it leaves and the value that it gives belong to
a heap that has all that was there before, with every array as it was.

## Implementation notes

An array is passed around with its elements, so two arrays of one identity could differ. That they
do not is what a heap is about: it has one list of elements for an identity.
-/

namespace ExprLang

/-- What exists: some scopes, some identities, and the elements of the arrays among them. -/
structure Heap where
  scopes : Nat
  identities : Nat
  arrays : Nat → Option (List Value)

namespace Heap

/-- A value that exists; the elements of an array are those that the heap has for it. -/
def Admits (h : Heap) (v : Value) : Prop :=
  v.IsWithin h.scopes h.identities ∧
    ∀ identity es, v = .array identity es → h.arrays identity = some es

/-- A later heap has all that was there before, and every array has the elements that it had. -/
structure Extends (h h' : Heap) : Prop where
  scopes : h.scopes ≤ h'.scopes
  identities : h.identities ≤ h'.identities
  arrays : ∀ identity es, h.arrays identity = some es → h'.arrays identity = some es

/-- All that is bound in a machine exists, and no more scopes and identities have been given out. -/
structure Describes (h : Heap) (m : Machine) : Prop where
  scopes : m.scopes.count = h.scopes
  identities : m.identities = h.identities
  unused : ∀ identity, h.identities ≤ identity → h.arrays identity = none
  outer : ∀ id, ∀ around ∈ (m.scopes.get id).outer, around < h.scopes
  bound : m.BindsOnly (fun _ => True) h.Admits

variable {h h' h'' : Heap} {m m' : Machine} {v : Value}

theorem Extends.refl (h : Heap) : h.Extends h :=
  ⟨Nat.le_refl _, Nat.le_refl _, fun _ _ he => he⟩

theorem Extends.trans (he : h.Extends h') (he' : h'.Extends h'') : h.Extends h'' where
  scopes := Nat.le_trans he.scopes he'.scopes
  identities := Nat.le_trans he.identities he'.identities
  arrays identity es ha := he'.arrays identity es (he.arrays identity es ha)

theorem Extends.admits (he : h.Extends h') {v : Value} (hv : h.Admits v) : h'.Admits v := by
  obtain ⟨hwithin, harray⟩ := hv
  refine ⟨?_, fun identity es hv => he.arrays identity es (harray identity es hv)⟩
  cases v with
  | integer identity n => exact Nat.lt_of_lt_of_le hwithin he.identities
  | array identity es => exact Nat.lt_of_lt_of_le hwithin he.identities
  | unspecified identity => exact Nat.lt_of_lt_of_le hwithin he.identities
  | function identity parameters body scope =>
      exact ⟨Nat.lt_of_lt_of_le hwithin.1 he.identities,
        Nat.lt_of_lt_of_le hwithin.2 he.scopes⟩
  | _ => exact trivial

theorem Extends.all (he : h.Extends h') (hv : v.All h.Admits) : v.All h'.Admits :=
  hv.mono fun _ => he.admits

theorem Extends.bindsOnly (he : h.Extends h') {among : ScopeId → Prop}
    (hm : m.BindsOnly among h.Admits) : m.BindsOnly among h'.Admits :=
  hm.mono fun _ => he.admits

/-- Every heap has booleans, null and markers. -/
theorem admits_of_isWithin (hw : ∀ scopes identities, v.IsWithin scopes identities)
    (hv : ∀ identity es, v ≠ .array identity es) : h.Admits v :=
  ⟨hw _ _, fun identity es hva => absurd hva (hv identity es)⟩

theorem all_boolean (b : Bool) : (Value.boolean b).All h.Admits :=
  Value.all_boolean.mpr (admits_of_isWithin (fun _ _ => trivial) (by simp))

theorem all_null : Value.null.All h.Admits :=
  Value.all_null.mpr (admits_of_isWithin (fun _ _ => trivial) (by simp))

theorem all_nothing : Value.nothing.All h.Admits :=
  Value.all_nothing.mpr (admits_of_isWithin (fun _ _ => trivial) (by simp))

theorem all_error (failure : Failure) : (Value.error failure).All h.Admits :=
  Value.all_error.mpr (admits_of_isWithin (fun _ _ => trivial) (by simp))

theorem all_returned (hv : v.All h.Admits) : (Value.returned v).All h.Admits :=
  Value.all_returned.mpr ⟨admits_of_isWithin (fun _ _ => trivial) (by simp), hv⟩

theorem all_orNull (hv : v.All h.Admits) : v.orNull.All h.Admits := by
  cases v with
  | nothing => exact all_null
  | _ => exact hv

theorem all_delivered (hv : v.All h.Admits) : v.delivered.All h.Admits := by
  cases v with
  | nothing => exact all_null
  | returned u => exact (Value.all_returned.mp hv).2
  | _ => exact hv

/-! ### Changes of the machine -/

theorem Describes.of_scopes_eq (hm : h.Describes m) (hs : m'.scopes = m.scopes)
    (hi : m'.identities = m.identities) : h.Describes m' where
  scopes := by rw [hs, hm.scopes]
  identities := by rw [hi, hm.identities]
  unused := hm.unused
  outer := by rw [hs]; exact hm.outer
  bound := by simpa [Machine.BindsOnly, hs] using hm.bound

theorem Describes.binding (hm : h.Describes m) (scope : ScopeId) (name : String)
    (hv : v.All h.Admits) : h.Describes (m.binding scope name v) where
  scopes := by simp [hm.scopes]
  identities := hm.identities
  unused := hm.unused
  outer id around ho := by
    rw [Machine.binding_scopes, Scopes.get_bind] at ho
    split at ho
    · next hs => exact hm.outer scope around ho
    · exact hm.outer id around ho
  bound := hm.bound.binding scope name hv

/-- A new identity, which may be that of an array. -/
def withIdentity (h : Heap) (elements : Option (List Value)) : Heap where
  scopes := h.scopes
  identities := h.identities + 1
  arrays identity := if identity = h.identities then elements else h.arrays identity

theorem arrays_withIdentity (h : Heap) (elements : Option (List Value)) (identity : Nat) :
    (h.withIdentity elements).arrays identity =
      if identity = h.identities then elements else h.arrays identity := rfl

theorem Describes.extends_withIdentity (hm : h.Describes m) (elements : Option (List Value)) :
    h.Extends (h.withIdentity elements) := by
  constructor
  · exact Nat.le_refl _
  · exact Nat.le_succ _
  · intro identity es ha
    have hne : identity ≠ h.identities := by
      rintro rfl
      rw [hm.unused h.identities (Nat.le_refl _)] at ha
      cases ha
    rw [arrays_withIdentity, if_neg hne, ha]

theorem Describes.identified (hm : h.Describes m) (elements : Option (List Value)) :
    (h.withIdentity elements).Describes m.identified where
  scopes := hm.scopes
  identities := by simp [withIdentity, hm.identities]
  unused identity hi := by
    have hlt : h.identities < identity := hi
    rw [arrays_withIdentity, if_neg (Nat.ne_of_gt hlt)]
    exact hm.unused identity (Nat.le_of_lt hlt)
  outer := hm.outer
  bound := (hm.extends_withIdentity elements).bindsOnly hm.bound

/-- One more scope. -/
def withScope (h : Heap) : Heap :=
  { h with scopes := h.scopes + 1 }

theorem extends_withScope (h : Heap) : h.Extends h.withScope :=
  ⟨Nat.le_succ _, Nat.le_refl _, fun _ _ ha => ha⟩

theorem Describes.enclosing (hm : h.Describes m) {scope : ScopeId} (hs : scope < h.scopes) :
    h.withScope.Describes (m.enclosing scope) where
  scopes := by simp [withScope, hm.scopes]
  identities := hm.identities
  unused := hm.unused
  outer id around ho := by
    rw [Machine.enclosing_scopes, Scopes.get_add] at ho
    apply Nat.lt_succ_of_lt
    split at ho
    · rcases List.mem_cons.mp ho with rfl | ho
      · exact hs
      · exact hm.outer scope around ho
    · exact hm.outer id around ho
  bound := h.extends_withScope.bindsOnly (hm.bound.enclosing scope)

theorem Describes.rooted (hm : h.Describes m) : h.withScope.Describes m.rooted where
  scopes := by simp [withScope, hm.scopes]
  identities := hm.identities
  unused := hm.unused
  outer id around ho := by
    rw [Machine.rooted_scopes, Scopes.get_add] at ho
    split at ho
    · cases ho
    · exact Nat.lt_succ_of_lt (hm.outer id around ho)
  bound := h.extends_withScope.bindsOnly hm.bound.rooted

/-- The heap of a machine without any scope. -/
def empty : Heap :=
  ⟨0, 0, fun _ => none⟩

theorem describes_empty : empty.Describes {} := by
  constructor
  · rfl
  · rfl
  · intro identity _
    rfl
  · intro id around ho
    simp [Scopes.get] at ho
  · intro id _ b hb
    simp [Scopes.get] at hb

theorem describes_initial : empty.withScope.Describes .initial :=
  describes_empty.rooted

end Heap

namespace Eval

/-! ### Steps -/

/-- In every later heap too, a step only adds to the heap, and what it gives belongs to the heap. -/
def Stays (h : Heap) (step : Eval Value) : Prop :=
  ∀ h₁, h.Extends h₁ → ∀ m, h₁.Describes m →
    Ends step m (fun v m' => ∃ h₂, h₁.Extends h₂ ∧ h₂.Describes m' ∧ v.All h₂.Admits)
      (fun _ m' => ∃ h₂, h₁.Extends h₂ ∧ h₂.Describes m')

variable {h : Heap} {scope : ScopeId}

theorem Stays.later {h' : Heap} {step : Eval Value} (hs : Stays h step) (he : h.Extends h') :
    Stays h' step :=
  fun h₁ he₁ => hs h₁ (he.trans he₁)

/-- What comes behind an extension of the heap extends it further. -/
theorem Stays.after {h₁ h₂ : Heap} {m : Machine} {step : Eval Value} (hs : Stays h₂ step)
    (he : h₁.Extends h₂) (hm : h₂.Describes m) :
    Ends step m (fun v m' => ∃ h₃, h₁.Extends h₃ ∧ h₃.Describes m' ∧ v.All h₃.Admits)
      (fun _ m' => ∃ h₃, h₁.Extends h₃ ∧ h₃.Describes m') := by
  refine (hs h₂ (.refl h₂) m hm).mono ?_ ?_
  · rintro v m' ⟨h₃, he', hd, hv⟩
    exact ⟨h₃, he.trans he', hd, hv⟩
  · rintro fault m' ⟨h₃, he', hd⟩
    exact ⟨h₃, he.trans he', hd⟩

theorem stays_pure {v : Value} (hv : v.All h.Admits) : Stays h (pure v) :=
  fun h₁ he _ hm => ⟨h₁, .refl h₁, hm, he.all hv⟩

theorem stays_newInteger (n : Int64) : Stays h (newInteger n) := by
  intro h₁ _ m hm
  rw [ends_newInteger]
  refine ⟨_, hm.extends_withIdentity none, hm.identified none, ?_⟩
  rw [Value.all_integer, hm.identities]
  exact ⟨Nat.lt_succ_self _, by simp⟩

theorem stays_lookUp (name : String) : Stays h (lookUp scope name) := by
  intro h₁ _ m hm
  rw [ends_lookUp]
  by_cases hn : (m.scopes.lookup scope name).isNothing
  · rw [if_pos hn]
    exact ⟨h₁, .refl h₁, hm.of_scopes_eq rfl rfl, Heap.all_error _⟩
  · rw [if_neg hn]
    have hv := hm.bound.lookup (fun _ _ => trivial) (Bool.eq_false_iff.mpr hn)
    exact ⟨h₁, .refl h₁, hm.of_scopes_eq rfl rfl, hv⟩

theorem stays_conclude {operands : List Value} {result : OperatorResult}
    (hr : result.Of operands) (ho : ∀ v ∈ operands, v.All h.Admits) :
    Stays h (conclude result) := by
  intro h₁ he m hm
  have hnoted : h₁.Describes (m.noting .operated) := hm.of_scopes_eq rfl rfl
  rw [ends_conclude]
  cases hr with
  | boolean b => exact ⟨h₁, .refl h₁, hnoted, Heap.all_boolean b⟩
  | null => exact ⟨h₁, .refl h₁, hnoted, Heap.all_null⟩
  | number n => exact stays_newInteger n h₁ he _ hnoted
  | failed failure =>
      exact ⟨h₁, .refl h₁, hnoted.of_scopes_eq rfl rfl, Heap.all_error failure⟩
  | element ha hmem =>
      exact ⟨h₁, .refl h₁, hnoted, he.all ((Value.all_array.mp (ho _ ha)).2 _ hmem)⟩
  | missing hn => exact ⟨h₁, .refl h₁, hm⟩

section Nodes

variable {visit : Node → ScopeId → Eval Value}

theorem stays_visitThen {n : Node} {next : Value → Eval Value} (hn : Stays h (visit n scope))
    (hnext : ∀ h', h.Extends h' → ∀ v, v.All h'.Admits → Stays h' (next v)) :
    Stays h (visitThen visit n scope next) := by
  intro h₁ he m hm
  rw [ends_visitThen]
  refine (hn h₁ he m hm).imp ?_
  rintro v m' ⟨h₂, he₂, hd, hv⟩
  split
  · exact ⟨h₂, he₂, hd, hv⟩
  · exact (hnext h₂ (he.trans he₂) v hv).after he₂ hd

/-- The values of expressions, or the marker that is met, belong to the heap at the end. -/
theorem stays_expressions {es : List Node} (hes : ∀ e ∈ es, Stays h (visit e scope))
    {next : Except Value (List Value) → Eval Value} (hmarker : ∀ v, next (.error v) = pure v)
    (hnext : ∀ h', h.Extends h' → ∀ values : List Value, (∀ v ∈ values, v.All h'.Admits) →
      Stays h' (next (.ok values))) :
    Stays h (expressions visit scope es >>= next) := by
  intro h₁ he m hm
  -- the values so far still exist in the heap that the next expression leaves
  let held := fun (values : List Value) (m' : Machine) =>
    ∃ h₂, h₁.Extends h₂ ∧ h₂.Describes m' ∧ ∀ v ∈ values, v.All h₂.Admits
  have hrounds : ∀ e ∈ es, ∀ values m', held values m' → Ends (visit e scope) m'
      (fun v m'' => if v.isMarker then
          ∃ h₂, h₁.Extends h₂ ∧ h₂.Describes m'' ∧ v.All h₂.Admits
        else held (values ++ [v]) m'')
      (fun _ m'' => ∃ h₂, h₁.Extends h₂ ∧ h₂.Describes m'') := by
    rintro e hmem values m' ⟨h₂, he₂, hd, hvalues⟩
    refine (hes e hmem h₂ (he.trans he₂) m' hd).mono ?_ ?_
    · rintro v m'' ⟨h₃, he₃, hd', hv⟩
      split
      · exact ⟨h₃, he₂.trans he₃, hd', hv⟩
      · refine ⟨h₃, he₂.trans he₃, hd', List.forall_mem_append.mpr ⟨?_, by simpa using hv⟩⟩
        exact fun u hu => he₃.all (hvalues u hu)
    · rintro fault m'' ⟨h₃, he₃, hd'⟩
      exact ⟨h₃, he₂.trans he₃, hd'⟩
  rw [ends_bind]
  refine (ends_expressions held hrounds ⟨h₁, .refl h₁, hm, List.forall_mem_nil _⟩).imp ?_
  rintro (marker | values) m' ⟨h₂, he₂, hd, hvs⟩
  · rw [hmarker]
    exact ⟨h₂, he₂, hd, hvs⟩
  · exact (hnext h₂ (he.trans he₂) values hvs).after he₂ hd

theorem stays_blockStatements {ss : List Node} (hss : ∀ s ∈ ss, Stays h (visit s scope)) :
    Stays h (blockStatements visit scope ss .nothing) := by
  intro h₁ he m hm
  let held := fun (v : Value) (m' : Machine) =>
    ∃ h₂, h₁.Extends h₂ ∧ h₂.Describes m' ∧ v.All h₂.Admits
  refine ends_blockStatements held ?_ (fun v m' hv => hv) ⟨h₁, .refl h₁, hm, Heap.all_nothing⟩
  rintro s hmem last m' ⟨h₂, he₂, hd, -⟩
  refine (((hss s hmem).later (he.trans he₂)).after he₂ hd).imp fun v m'' hv => ?_
  split <;> exact hv

theorem stays_programStatements {ss : List Node} (hss : ∀ s ∈ ss, Stays h (visit s scope)) :
    Stays h (programStatements visit scope ss .nothing) := by
  intro h₁ he m hm
  let held := fun (v : Value) (m' : Machine) =>
    ∃ h₂, h₁.Extends h₂ ∧ h₂.Describes m' ∧ v.All h₂.Admits
  refine ends_programStatements held ?_ (fun v m' hv => hv) ⟨h₁, .refl h₁, hm, Heap.all_nothing⟩
  rintro s hmem last m' ⟨h₂, he₂, hd, -⟩
  refine (((hss s hmem).later (he.trans he₂)).after he₂ hd).imp ?_
  rintro v m'' ⟨h₃, he₃, hd', hv⟩
  split
  · exact ⟨h₃, he₃, hd', Heap.all_delivered hv⟩
  · exact ⟨h₃, he₃, hd', hv⟩

theorem stays_apply (hv : ∀ h n scope, scope < h.scopes → Stays h (visit n scope))
    {callee : Value} (hc : callee.All h.Admits) {arguments : List Value}
    (ha : ∀ a ∈ arguments, a.All h.Admits) : Stays h (apply visit callee arguments) := by
  intro h₁ he m hm
  have hnoted : h₁.Describes (m.noting .applied) := hm.of_scopes_eq rfl rfl
  rw [ends_apply]
  cases callee with
  | nothing => exact ⟨h₁, .refl h₁, hnoted⟩
  | function identity parameters body inside =>
      have hinside : inside < h₁.scopes := (he.all hc).self.1.2
      have hbind : ∀ (name : String) (value : Value) (m' : Machine), value ∈ arguments →
          h₁.withScope.Describes m' →
          h₁.withScope.Describes (m'.binding m.scopes.count name value) :=
        fun name value m' hmem hd =>
          hd.binding _ name ((he.trans h₁.extends_withScope).all (ha value hmem))
      refine (ends_bindParameters h₁.withScope.Describes hbind (hnoted.enclosing hinside)).imp ?_
      intro _ m' hd
      have hinner : m.scopes.count < h₁.withScope.scopes := by
        rw [hm.scopes]
        exact Nat.lt_succ_self _
      refine ((hv _ body _ hinner).after h₁.extends_withScope hd).imp ?_
      rintro v m'' ⟨h₂, he₂, hd', hvalue⟩
      exact ⟨h₂, he₂, hd', Heap.all_delivered hvalue⟩
  | _ => exact ⟨h₁, .refl h₁, hnoted.of_scopes_eq rfl rfl, Heap.all_error _⟩

theorem stays_step (hv : ∀ h n scope, scope < h.scopes → Stays h (visit n scope)) (n : Node)
    (hs : scope < h.scopes) : Stays h (step visit n scope) := by
  have hnode : ∀ {h' : Heap}, h.Extends h' → ∀ e : Node, Stays h' (visit e scope) :=
    fun he e => hv _ e scope (Nat.lt_of_lt_of_le hs he.scopes)
  have hhere : ∀ e : Node, Stays h (visit e scope) := hnode (.refl h)
  have hbranch : ∀ {h' : Heap}, h.Extends h' → ∀ b : Node,
      Stays h' (do return (← visit b scope).orNull) := by
    intro h' he b h₁ he₁ m hm
    rw [bind_pure_comp, ends_map]
    refine (hnode he b h₁ he₁ m hm).imp ?_
    rintro v m' ⟨h₂, he₂, hd, hvalue⟩
    exact ⟨h₂, he₂, hd, Heap.all_orNull hvalue⟩
  cases n with
  | program ss => exact stays_programStatements fun s _ => hhere s
  | block ss => exact stays_blockStatements fun s _ => hhere s
  | letBinding name value =>
      refine stays_visitThen (hhere value) fun h' _ v hvalue h₁ he₁ m hm => ?_
      rw [ends_bind, ends_bindName, ends_pure]
      exact ⟨h₁, .refl h₁, hm.binding scope _ (he₁.all hvalue), Heap.all_nothing⟩
  | returning value =>
      exact stays_visitThen (hhere value) fun h' _ v hvalue =>
        stays_pure (Heap.all_returned hvalue)
  | evaluated e => exact hhere e
  | identifier name => exact stays_lookUp name
  | integer value => exact stays_newInteger _
  | boolean b => exact stays_pure (Heap.all_boolean b)
  | array es =>
      refine stays_expressions (fun e _ => hhere e) (fun _ => rfl) ?_
      intro h' _ values hvalues h₁ he₁ m hm
      refine ⟨_, hm.extends_withIdentity (some values), hm.identified (some values), ?_⟩
      refine Value.all_array.mpr ⟨⟨?_, ?_⟩, fun v hmem => ?_⟩
      · simp [Value.IsWithin, Heap.withIdentity, hm.identities]
      · rintro identity es ⟨⟩
        simp [Heap.arrays_withIdentity, hm.identities]
      · exact (he₁.trans (hm.extends_withIdentity _)).all (hvalues v hmem)
  | unary operator e =>
      refine stays_visitThen (hhere e) fun h' _ v hvalue => ?_
      exact stays_conclude (Value.applyPrefix_of _ v) (by simpa using hvalue)
  | binary left operator right =>
      refine stays_visitThen (hhere left) fun h' he v hleft => ?_
      refine stays_visitThen (hnode he right) fun h'' he' w hright => ?_
      exact stays_conclude (Value.applyInfix_of _ v _ w) (by simpa using ⟨he'.all hleft, hright⟩)
  | ifThen condition consequence =>
      refine stays_visitThen (hhere condition) fun h' he v _ => ?_
      split
      · exact hbranch he consequence
      · exact stays_pure Heap.all_null
  | ifElse condition consequence alternative =>
      refine stays_visitThen (hhere condition) fun h' he v _ => ?_
      split
      · exact hbranch he consequence
      · exact hbranch he alternative
  | function parameters body =>
      intro h₁ he m hm
      refine ⟨_, hm.extends_withIdentity none, hm.identified none, ?_⟩
      rw [Value.all_function, hm.identities]
      exact ⟨⟨Nat.lt_succ_self _, Nat.lt_of_lt_of_le hs he.scopes⟩, by simp⟩
  | call callee arguments =>
      refine stays_visitThen (hhere callee) fun h' he v hcallee => ?_
      refine stays_expressions (fun e _ => hnode he e) (fun _ => rfl) ?_
      intro h'' he' values hvalues
      exact stays_apply hv (he'.all hcallee) hvalues
  | index collection position =>
      refine stays_visitThen (hhere collection) fun h' he v hcollection => ?_
      refine stays_visitThen (hnode he position) fun h'' he' w hposition => ?_
      exact stays_conclude (Value.elementAt_of v w)
        (by simpa using ⟨he'.all hcollection, hposition⟩)
  | placeholder => exact stays_pure Heap.all_nothing

end Nodes

theorem stays_visit (depth : Nat) (n : Node) (hs : scope < h.scopes) :
    Stays h (visit depth n scope) := by
  induction depth generalizing h n scope with
  | zero => exact fun h₁ _ m hm => ⟨h₁, .refl h₁, hm⟩
  | succ depth ih => exact stays_step (fun h n scope hs => ih n hs) n hs

theorem stays_evaluateWithin (depth : Nat) (n : Node) (hs : scope < h.scopes) :
    Stays h (evaluateWithin depth n scope) := by
  intro h₁ he m hm
  rw [ends_evaluateWithin]
  refine (stays_visit depth n hs h₁ he m hm).mono (fun _ _ hv => hv) ?_
  rintro fault m' ⟨h₂, he₂, hd⟩
  split
  · exact ⟨h₂, he₂, hd.of_scopes_eq rfl rfl, Heap.all_error _⟩
  · exact ⟨h₂, he₂, hd⟩

end Eval

end ExprLang
