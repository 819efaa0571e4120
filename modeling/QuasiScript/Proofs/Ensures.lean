import QuasiScript.Proofs.Emission

/-!
# What a successful emission gives

An emission ensures a property if whatever it gives on success has it, on every scope table (`Ensures`). Emissions one
after the other hand their properties on (`Ensures.bind`), failing ensures everything, and a check that is passed
ensures what it checks.
-/
namespace QuasiScript
namespace Emit

section Ensures
variable {α β : Type} {P : α → Prop} {Q : β → Prop}

/-- **Whenever the emission succeeds, what it gives has the property.** -/
def Ensures (m : Emit α) (P : α → Prop) : Prop :=
  ∀ (T : ScopeTable) (a : α) (T' : ScopeTable), exec m T = (.ok a, T') → P a

theorem ensures_pure {a : α} (h : P a) : Ensures (pure a) P := by
  intro T b T' hb
  cases hb
  exact h

theorem ensures_fail {p : Position} {c : CompileCause} : Ensures (fail p c) P := by
  intro T a T' h
  cases h

theorem Ensures.bind {m : Emit α} {k : α → Emit β} (h : Ensures m P) (hk : ∀ a, P a → Ensures (k a) Q) :
    Ensures (m >>= k) Q := by
  intro T b T' hb
  obtain ⟨a, T₁, ha, hb⟩ := exec_bind_ok hb
  exact hk a (h T a T₁ ha) T₁ b T' hb

theorem Ensures.bind_pure {m : Emit α} {g : α → β} (h : Ensures m P) (hg : ∀ a, P a → Q (g a)) :
    Ensures (m >>= fun a => pure (g a)) Q :=
  h.bind fun a ha => ensures_pure (hg a ha)

/-- What an emission gives may not matter for what comes after it. -/
theorem ensures_bind {m : Emit α} {k : α → Emit β} (hk : ∀ a, Ensures (k a) Q) : Ensures (m >>= k) Q :=
  Ensures.bind (P := fun _ => True) (fun _ _ _ _ => trivial) fun a _ => hk a

theorem ensures_ite {c : Prop} [Decidable c] {m m' : Emit α} (h : c → Ensures m P) (h' : ¬ c → Ensures m' P) :
    Ensures (if c then m else m') P := by
  split
  · exact h ‹_›
  · exact h' ‹_›

theorem Ensures.imp {m : Emit α} {P' : α → Prop} (h : Ensures m P) (hP : ∀ a, P a → P' a) : Ensures m P' :=
  fun T a T' ha => hP a (h T a T' ha)

theorem Ensures.and {m : Emit α} {P' : α → Prop} (h : Ensures m P) (h' : Ensures m P') : Ensures m fun a => P a ∧ P' a :=
  fun T a T' ha => ⟨h T a T' ha, h' T a T' ha⟩

end Ensures

/-! ## Checks -/

section Checks
variable {d : Dialect}

theorem atLeast_ensures (head : String) (op : Token) (args : List Node) (n : Nat) :
    Ensures (atLeast head op args n) fun _ => n ≤ args.length :=
  ensures_ite (fun h => ensures_pure h) fun _ => ensures_fail

theorem requireExpression_ensures (n : Node) :
    Ensures (requireExpression d n) fun _ => isExpression d n = true :=
  ensures_ite (fun h => ensures_pure h) fun _ => ensures_fail

theorem requireAll_ensures (ns : List Node) :
    Ensures (requireAll d ns) fun _ => ∀ n ∈ ns, isExpression d n = true := by
  induction ns with
  | nil => exact ensures_pure (by simp)
  | cons n ns ih =>
    refine (requireExpression_ensures n).bind fun _ hn => ih.imp fun _ hns => ?_
    exact List.forall_mem_cons.2 ⟨hn, hns⟩

theorem leaf_ensures (v : Value) (t : Token) (f : Frame) : Ensures (leaf d v t f) (· = Target.literal v) := by
  unfold leaf
  split
  · exact ensures_bind fun _ => ensures_pure rfl
  · exact ensures_pure rfl

end Checks

/-- Each node is emitted on its own. -/
theorem nodes_ensures {d : Dialect} {f : Frame} {P : Node → String → Prop} : ∀ {ns : List Node},
    (∀ n ∈ ns, Ensures (node d n f) (P n)) → Ensures (nodes d ns f) (List.Forall₂ P ns)
  | [], _ => ensures_pure .nil
  | _ :: _, h => by
    obtain ⟨hn, hns⟩ := List.forall_mem_cons.1 h
    exact hn.bind fun _ hs => (nodes_ensures hns).bind_pure fun _ hss => .cons hs hss

end Emit
end QuasiScript
