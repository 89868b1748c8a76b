import ExprLang.Proofs.Evaluation.Change
import ExprLang.Proofs.Evaluation.Session

/-!
# What a run leaves alone

A run writes to no scope but its own, and a call to none that was there before it: what it binds is
bound in scopes of its own. No run alters an array.
-/

namespace ExprLang

/-- An array that the heap has is found with the elements that it has there. -/
def Heap.Agrees (h : Heap) (v : Value) : Prop :=
  ∀ identity es es', v = .array identity es' → h.arrays identity = some es → es' = es

/-- What exists later agrees with what existed before. -/
theorem Heap.Extends.agrees {h h' : Heap} (he : h.Extends h') {v : Value} (hv : h'.Admits v) :
    h.Agrees v := by
  intro identity es es' hva hes
  have hlater : h'.arrays identity = some es := he.arrays identity es hes
  rw [hv.2 identity es' hva] at hlater
  exact Option.some.inj hlater

namespace Machine

/-- All scopes that were there before are as they were. -/
structure Untouched (m m' : Machine) : Prop where
  count_le : m.scopes.count ≤ m'.scopes.count
  get : ∀ id < m.scopes.count, m'.scopes.get id = m.scopes.get id

/-- Nothing that was there before changes if the scope of a run is new. -/
theorem Frame.untouched {scope : ScopeId} {m m' : Machine} (h : Frame scope m m')
    (hs : m.scopes.count ≤ scope) : m.Untouched m' := by
  constructor
  · exact h.count_le
  · intro id hid
    have hne : id ≠ scope := Nat.ne_of_lt (Nat.lt_of_lt_of_le hid hs)
    calc
      m'.scopes.get id = ⟨(m'.scopes.get id).outer, (m'.scopes.get id).bindings⟩ := rfl
      _ = ⟨(m.scopes.get id).outer, (m.scopes.get id).bindings⟩ := by
        rw [h.outer id hid, h.bindings id hid hne]
      _ = m.scopes.get id := rfl

end Machine

namespace Eval

theorem keeps_untouched_apply (depth : Nat) (callee : Value) (arguments : List Value) :
    Keeps Machine.Untouched (apply (visit depth) callee arguments) := by
  intro m
  -- a call changes only its own scope whatever scope it is made in, so take one that does not exist
  have hframe := Machine.tracks_frame.keeps_apply_visit m.scopes.count depth callee arguments m
  exact hframe.mono (fun _ _ h => h.untouched (Nat.le_refl _))
    (fun _ _ h => h.untouched (Nat.le_refl _))

/-- A step that only adds to the heap alters no array. -/
theorem Stays.agrees {h : Heap} {step : Eval Value} (hs : Stays h step) {m : Machine}
    (hm : h.Describes m) :
    Ends step m (fun v m' => m'.BindsOnly (fun _ => True) h.Agrees ∧ v.All h.Agrees)
      (fun _ m' => m'.BindsOnly (fun _ => True) h.Agrees) := by
  refine (hs h (.refl h) m hm).mono ?_ ?_
  · rintro v m' ⟨h', he, hd, hv⟩
    exact ⟨hd.bound.mono fun _ => he.agrees, hv.mono fun _ => he.agrees⟩
  · rintro fault m' ⟨h', he, hd⟩
    exact hd.bound.mono fun _ => he.agrees

/-- Evaluation writes only to its own scope. However a run ends, every other scope that was there
before binds what it bound, every scope is inside the scopes that it was in, and the scope of the
run has all its names. A call leaves every scope that was there before as it was. And wherever an
array of the heap is found behind a run or a call, it has the elements that it had. -/
theorem evaluation_frame (depth : Nat) (n : Node) (scope : ScopeId) (m : Machine) :
    Ends (evaluateWithin depth n scope) m (fun _ m' => m.Frame scope m')
      (fun _ m' => m.Frame scope m') ∧
    (∀ callee arguments, Ends (apply (visit depth) callee arguments) m
      (fun _ m' => m.Untouched m') (fun _ m' => m.Untouched m')) ∧
    ∀ h : Heap, h.Describes m →
      (scope < m.scopes.count →
        Ends (evaluateWithin depth n scope) m
          (fun v m' => m'.BindsOnly (fun _ => True) h.Agrees ∧ v.All h.Agrees)
          (fun _ m' => m'.BindsOnly (fun _ => True) h.Agrees)) ∧
      ∀ callee arguments, callee.All h.Admits → (∀ a ∈ arguments, a.All h.Admits) →
        Ends (apply (visit depth) callee arguments) m
          (fun v m' => m'.BindsOnly (fun _ => True) h.Agrees ∧ v.All h.Agrees)
          (fun _ m' => m'.BindsOnly (fun _ => True) h.Agrees) := by
  refine ⟨?_, ?_, fun h hm => ⟨fun hs => ?_, fun callee arguments hc ha => ?_⟩⟩
  · exact Machine.tracks_frame.keeps_evaluateWithin depth n m
  · intro callee arguments
    exact keeps_untouched_apply depth callee arguments m
  · rw [hm.scopes] at hs
    exact (stays_evaluateWithin depth n hs).agrees hm
  · have hvisit : ∀ (h : Heap) n scope, scope < h.scopes → Stays h (visit depth n scope) :=
      fun _ n _ hs => stays_visit depth n hs
    exact (stays_apply hvisit hc ha).agrees hm

/-- The called function and the inner scope both bind a name that the outer scope binds. -/
theorem evaluation_frame_inner :
    ∃ first m, ∃ h : Heap, ∃ next m',
      parseWithin 60 "let a = [1]; let f = func() { let a = 2 }" = .ok first ∧
      evaluateWithin 60 first.tree 0 .initial = .ok .nothing m ∧
      h.Describes (m.enclosing 0) ∧ 1 < (m.enclosing 0).scopes.count ∧
      parseWithin 60 "let a = f()" = .ok next ∧
      evaluateWithin 60 next.tree 1 (m.enclosing 0) = .ok .nothing m' ∧
      (m'.scopes.get 0).bindings = ((m.enclosing 0).scopes.get 0).bindings ∧
      m'.BindsOnly (fun _ => True) h.Agrees := by
  obtain ⟨first, hfirst, m, hm, hcount, next, hnext, m', hm'⟩ :
      ∃ first, parseWithin 60 "let a = [1]; let f = func() { let a = 2 }" = .ok first ∧
      ∃ m, evaluateWithin 60 first.tree 0 .initial = .ok .nothing m ∧ m.scopes.count = 1 ∧
      ∃ next, parseWithin 60 "let a = f()" = .ok next ∧
      ∃ m', evaluateWithin 60 next.tree 1 (m.enclosing 0) = .ok .nothing m' :=
    ⟨_, rfl, _, rfl, rfl, _, rfl, _, rfl⟩
  have hs : Session .initial (m.enclosing 0) :=
    .enclosed (Session.start.ran (by decide) hfirst hm) (by rw [hcount]; decide)
  obtain ⟨h, -, hd⟩ := hs.describes Heap.describes_initial
  have hin : 1 < (m.enclosing 0).scopes.count := by
    simp [hcount]
  obtain ⟨hframe, -, harrays⟩ := evaluation_frame 60 next.tree 1 (m.enclosing 0)
  have hzero := (hframe.ok hm').bindings 0 (Nat.zero_lt_of_lt hin) (by decide)
  exact ⟨first, m, h, next, m', hfirst, hm, hd, hin, hnext, hm', hzero,
    (((harrays h hd).1 hin).ok hm').1⟩

end Eval

end ExprLang
