import QuasiScript.Proofs.Binding
import QuasiScript.Proofs.Emission

/-!
# Emissions, part by part

A program is emitted part by part: forms evaluate their parts, bind names and check targets, in the order in which
`Binding.parts` gives them. What an emission does to the scopes can be described in several ways, and most of the work is
the same for all of them, so it is done once: for any description that says what each single step does and that goes from
steps to sequences of steps (`Partwise`), a node does what its parts say (`Partwise.node_holds`).

The parts of a declaration are those of the assignments and names in it. In a dialect where `=` is no assignment, or where
`var` is an operator, they are not what is emitted, and only descriptions for which the parts make no difference hold there
(`Partwise.Coarse`).
-/
namespace QuasiScript

def CompileCause.undeclared? : CompileCause → Option String
  | .undeclared v => some v
  | _ => none

structure ScopeTable.Legal (d : Dialect) (name : String) : Prop where
  nonempty : name ≠ ""
  undotted : '.' ∉ name.toList
  unreserved : d.isReserved name = false

namespace Emit
open Binding ScopeTable

/-! ## Places and parts -/

section Places
variable {d : Dialect}

theorem eq_symbol_of_symbol? {v : Value} {name : String} (h : v.symbol? = some name) : v = .symbol name := by
  cases v with
  | symbol x => exact congrArg Value.symbol (Option.some.inj h)
  | _ => cases h

theorem head?_of_requireAssignment {es : List Node} {o : Token} {T T' : ScopeTable} {u : Unit}
    (h : exec (requireAssignment es o) T = (.ok u, T')) : Node.head? es = some "=" := by
  by_contra hne
  unfold requireAssignment at h
  rw [if_neg hne] at h
  cases es <;> cases h

/-- Targets that pass the check are leaves. -/
theorem isLeaf_of_checkTargets {f : Frame} {ns : List Node} {T T' : ScopeTable} {u : Unit}
    (h : exec (checkTargets d f ns) T = (.ok u, T')) : ∀ n ∈ ns, ∃ v t, n = .leaf v t := by
  induction ns generalizing T with
  | nil => simp
  | cons n ns ih =>
    obtain ⟨_, T₁, hn, hns⟩ := exec_bind_ok h
    refine List.forall_mem_cons.2 ⟨?_, ih hns⟩
    cases n with
    | leaf v t => exact ⟨v, t, rfl⟩
    | list es t => cases hn

theorem tailPlace_frame (n : Node) (f : Frame) :
    (tailPlace d n f).2.scope = f.scope ∧ (tailPlace d n f).2.declaring = false := by
  unfold tailPlace
  split <;> exact ⟨rfl, rfl⟩

theorem declaring_under {name : String} (h : name ≠ "var") (f : Frame) : (f.under name).declaring = false := by
  simp [Frame.declaring, Frame.under, h]

section Form
variable {form : Form} {name : String} {op o : Token} {args : List Node}

theorem parts_of_form (hform : d.form name = form) :
    parts d (.list (.leaf (.symbol name) op :: args) o) = formParts d form (.leaf (.symbol name) op :: args) := by
  rw [parts, show formOf d (.list (.leaf (.symbol name) op :: args) o) = form from hform]

theorem scope_of_form (hform : d.form name = form) :
    scope d (.list (.leaf (.symbol name) op :: args) o) =
      if opensScope form then [.list (.leaf (.symbol name) op :: args) o] else [] := by
  rw [scope, show formOf d (.list (.leaf (.symbol name) op :: args) o) = form from hform]

end Form

theorem unquoted_of_spliced {es : List Node} {t : Token} (h : isSpliced d (.list es t) = true) :
    unquoted d (.list es t) = es.tail := by
  have hform : formOf d (.list es t) = .unquoteSplicing := by simpa [isSpliced] using h
  rw [unquoted, hform]

theorem values_append (ns ns' : List Node) : values (ns ++ ns') = values ns ++ values ns' := List.map_append

end Places

/-! ## Descriptions -/

/-- **A way to describe what emissions do, part by part.** -/
structure Partwise (d : Dialect) where
  /-- In a scope, the emission does what these parts say. -/
  Holds : ∀ {α : Type}, Int → Emit α → List Part → Prop
  holds_pure : ∀ {α : Type} {id : Int} (a : α), Holds id (pure a : Emit α) []
  holds_fail : ∀ {α : Type} {id : Int} {p : Position} {c : CompileCause} {ps : List Part}, c.undeclared? = none →
    Holds id (fail p c : Emit α) ps
  holds_bind : ∀ {α β : Type} {id : Int} {m : Emit α} {k : α → Emit β} {ps ps' : List Part}, Holds id m ps →
    (∀ a T T', exec m T = (.ok a, T') → Holds id (k a) ps') → Holds id (m >>= k) (ps ++ ps')
  /-- A node does what its parts do. -/
  holds_value : ∀ {α : Type} {id : Int} {m : Emit α} {n : Node}, Holds id m (parts d n) → scope d n = [] →
    Holds id m [(.value, n)]
  /-- A function or a loop does what its parts do in a new scope. -/
  holds_scope : ∀ {α : Type} {id : Int} {n : Node} {body : Int → Emit α}, scope d n = [n] →
    (∀ id', Holds id' (body id') (parts d n)) → Holds id (enter id >>= body) [(.value, n)]
  holds_declare : ∀ {id : Int} (name : String) (t : Token), Legal d name → Holds id (do
    match ← modifyGet fun T => T.declare id name t.pos with
    | none => pure ()
    | some p => fail t.pos (.redeclared name p.pos)) [(.binder, .leaf (.symbol name) t)]
  holds_target : ∀ {id : Int} (name : String) (t : Token), Holds id (do
    if (← get).declares id (baseName name) then pure () else fail t.pos (.undeclared (baseName name)))
    [(.target, .leaf (.symbol name) t)]
  /-- Declarations are made with `var` and `=`, or the parts make no difference. -/
  usual_or_coarse : d.form "=" = .assignment ∧ d.form "var" = .declaration ∨
    ∀ (α : Type) (id : Int) (m : Emit α) (ps ps' : List Part), Holds id m ps → Holds id m ps'

namespace Partwise

/-- It makes no difference which parts an emission has. -/
def Coarse {d : Dialect} (A : Partwise d) : Prop :=
  ∀ (α : Type) (id : Int) (m : Emit α) (ps ps' : List Part), A.Holds id m ps → A.Holds id m ps'

/-- A leaf in this frame is evaluated and not declared, or that makes no difference. -/
def Evaluates {d : Dialect} (A : Partwise d) (f : Frame) : Prop := f.declaring = false ∨ A.Coarse

section Sequences
variable {α β : Type} {d : Dialect} {A : Partwise d} {id : Int} {ps ps' : List Part}

theorem Holds.bind_of_ok {m : Emit α} {k : α → Emit β} (h : A.Holds id m ps)
    (hk : ∀ a T T', exec m T = (.ok a, T') → A.Holds id (k a) ps') : A.Holds id (m >>= k) (ps ++ ps') :=
  A.holds_bind h hk

theorem Holds.bind {m : Emit α} {k : α → Emit β} (h : A.Holds id m ps) (hk : ∀ a, A.Holds id (k a) ps') :
    A.Holds id (m >>= k) (ps ++ ps') :=
  h.bind_of_ok fun a _ _ _ => hk a

theorem Holds.bind_pure {m : Emit α} (h : A.Holds id m ps) (g : α → β) :
    A.Holds id (m >>= fun a => pure (g a)) ps := by
  have := h.bind fun a => A.holds_pure (g a)
  rwa [List.append_nil] at this

theorem holds_ite {c : Prop} [Decidable c] {m m' : Emit α} (h : A.Holds id m ps) (h' : A.Holds id m' ps) :
    A.Holds id (if c then m else m') ps := by
  split
  · exact h
  · exact h'

theorem Holds.of_coarse {m : Emit α} (h : A.Holds id m ps) (hA : A.Coarse) : A.Holds id m ps' := hA α id m ps ps' h

theorem holds_leaf (a : α) (v : Value) (t : Token) : A.Holds id (pure a) [(.value, .leaf v t)] :=
  A.holds_value (n := .leaf v t) (A.holds_pure a) rfl

end Sequences

/-! ## The parts of an emission -/

section Parts
variable {d : Dialect} {A : Partwise d} {id : Int}

theorem atLeast_holds (head : String) (op : Token) (args : List Node) (n : Nat) :
    A.Holds id (atLeast head op args n) [] :=
  holds_ite (A.holds_pure _) (A.holds_fail rfl)

theorem requireExpression_holds (n : Node) : A.Holds id (requireExpression d n) [] :=
  holds_ite (A.holds_pure _) (A.holds_fail rfl)

theorem requireAll_holds (ns : List Node) : A.Holds id (requireAll d ns) [] := by
  induction ns with
  | nil => exact A.holds_pure _
  | cons n ns ih => exact (requireExpression_holds n).bind fun _ => ih

theorem requireLast_holds (ns : List Node) : A.Holds id (requireLast d ns) [] := by
  unfold requireLast
  cases ns.getLast? with
  | none => exact A.holds_pure _
  | some n => exact requireExpression_holds n

theorem requireAssignment_holds (es : List Node) (o : Token) : A.Holds id (requireAssignment es o) [] := by
  refine holds_ite (A.holds_pure _) ?_
  cases es with
  | nil => exact A.holds_fail rfl
  | cons n es => exact A.holds_fail rfl

theorem requireLastClause_holds (i : Nat) (rest : List Node) (test : Node) :
    A.Holds id (requireLastClause i rest test) [] :=
  holds_ite (A.holds_fail rfl) (holds_ite (A.holds_pure _) (A.holds_fail rfl))

theorem key_holds (n : Node) : A.Holds id (key d n) [] := by
  cases n with
  | leaf v t => exact A.holds_pure _
  | list es t => exact A.holds_fail rfl

theorem declare_holds (v : Value) (t : Token) : A.Holds id (declare d id v t) [(.binder, .leaf v t)] := by
  unfold declare
  cases hv : v.symbol? with
  | none => exact A.holds_fail rfl
  | some name =>
    obtain rfl := eq_symbol_of_symbol? hv
    dsimp only
    by_cases hname : name = "" ∨ '.' ∈ name.toList
    · rw [if_pos hname]
      exact A.holds_fail rfl
    · rw [if_neg hname]
      by_cases hreserved : d.isReserved name = true
      · rw [if_pos hreserved]
        exact A.holds_fail rfl
      · rw [if_neg hreserved]
        obtain ⟨hnonempty, hundotted⟩ := not_or.1 hname
        exact A.holds_declare name t ⟨hnonempty, hundotted, Bool.eq_false_iff.2 hreserved⟩

theorem checkTarget_holds (f : Frame) (n : Node) :
    A.Holds f.scope (checkTarget d f n) [(if f.declaring then .binder else .target, n)] := by
  cases n with
  | list es t => exact A.holds_fail rfl
  | leaf v t =>
    unfold checkTarget
    dsimp only
    cases hv : v.symbol? with
    | none => exact A.holds_fail rfl
    | some name =>
      obtain rfl := eq_symbol_of_symbol? hv
      dsimp only
      by_cases hf : f.declaring = true
      · rw [if_pos hf, if_pos hf]
        exact declare_holds (.symbol name) t
      · rw [if_neg hf, if_neg hf]
        exact holds_ite (A.holds_fail rfl) (A.holds_target name t)

theorem checkTargets_holds (f : Frame) (ns : List Node) :
    A.Holds f.scope (checkTargets d f ns) (ns.map (Prod.mk (if f.declaring then .binder else .target))) := by
  induction ns with
  | nil => exact A.holds_pure _
  | cons n ns ih => exact (checkTarget_holds f n).bind fun _ => ih

theorem declare_holds_parameter (v : Value) (t : Token) :
    A.Holds id (declare d id v t) (parameterParts [.leaf v t]) := by
  by_cases hv : v.symbol? = some "."
  · -- a dot is no name
    obtain rfl := eq_symbol_of_symbol? hv
    exact A.holds_fail rfl
  · have hparts : parameterParts [.leaf v t] = [(.binder, .leaf v t)] := by
      simp [parameterParts, Node.symbol?, hv]
    rw [hparts]
    exact declare_holds v t

theorem parameters_holds (i : Nat) (ns : List Node) : A.Holds id (parameters d id i ns) (parameterParts ns) := by
  induction ns generalizing i with
  | nil => exact A.holds_pure _
  | cons n ns ih =>
    cases n with
    | list es t => exact A.holds_fail rfl
    | leaf v t =>
      unfold parameters
      by_cases hv : v = .symbol "."
      · rw [if_pos hv]
        have hparts : parameterParts (.leaf v t :: ns) = parameterParts ns := by
          simp [parameterParts, Node.symbol?, hv, Value.symbol?]
        rw [hparts]
        rcases ns with _ | ⟨n, _ | ⟨m, rest⟩⟩
        · exact A.holds_fail rfl
        · cases n with
          | leaf r rt => exact (declare_holds_parameter r rt).bind_pure _
          | list es o => exact A.holds_fail rfl
        · cases n <;> exact A.holds_fail rfl
      · rw [if_neg hv]
        have hparts : parameterParts (.leaf v t :: ns) = (.binder, .leaf v t) :: parameterParts ns := by
          have hsymbol : v.symbol? ≠ some "." := fun h => hv (eq_symbol_of_symbol? h)
          simp [parameterParts, Node.symbol?, hsymbol]
        rw [hparts]
        exact (declare_holds v t).bind fun _ => (ih (i + 1)).bind_pure _

theorem leaf_holds (v : Value) (t : Token) {f : Frame} (hf : f.declaring = true) :
    A.Holds f.scope (leaf d v t f) [(.binder, .leaf v t)] := by
  unfold leaf
  rw [if_pos hf]
  exact (declare_holds v t).bind_pure _

theorem existence_holds (name : String) (op : Token) (f : Frame) : ∀ ns : List Node,
    A.Holds id (existence d name op ns f) []
  | [] => A.holds_fail rfl
  | [n] => by
    dsimp only [existence]
    cases n.symbol? with
    | none => exact A.holds_fail rfl
    | some x => exact A.holds_pure _
  | n :: m :: rest => A.holds_fail rfl

/-- A leaf that is only evaluated changes nothing. -/
theorem Holds.leaf_cons {α : Type} {m : Emit α} {ps : List Part} (h : A.Holds id m ps) (v : Value) (t : Token) :
    A.Holds id m ((.value, .leaf v t) :: ps) := by
  have hbind := (holds_leaf () v t).bind fun _ => h
  rwa [pure_bind] at hbind

section Form
variable {form : Form} {name : String} {op o : Token} {args : List Node}

theorem Holds.of_form {m : Emit String} (hform : d.form name = form) (hs : opensScope form = false)
    (h : A.Holds id m (formParts d form (.leaf (.symbol name) op :: args))) :
    A.Holds id m [(.value, .list (.leaf (.symbol name) op :: args) o)] := by
  refine A.holds_value ?_ ?_
  · rw [parts_of_form hform]
    exact h
  · rw [scope_of_form hform, hs]
    rfl

end Form

/-- An assignment: its targets are checked or declared, and only the last argument does anything more. -/
theorem holds_assignment (name : String) (op : Token) (args : List Node) (f : Frame)
    (h : (∀ n ∈ args.dropLast, ∃ v t, n = Node.leaf v t) →
      A.Holds f.scope (nodes d args (f.under "=")) (values args.getLast?.toList)) :
    A.Holds f.scope (do
      atLeast name op args 2
      requireLast d args
      checkTargets d f args.dropLast
      let parts ← nodes d args (f.under "=")
      pure (" = ".intercalate parts)) (assigned (if f.declaring then .binder else .target) args) :=
  (atLeast_holds name op args 2).bind fun _ => (requireLast_holds args).bind fun _ =>
    (checkTargets_holds f args.dropLast).bind_of_ok fun _ _ _ hok => (h (isLeaf_of_checkTargets hok)).bind_pure _

mutual

/-- Nothing in quoted data is evaluated. -/
theorem datum_holds_quoted : ∀ (n : Node) (f : Frame), A.Holds id (datum d false n f) []
  | .leaf _ _, _ => A.holds_pure _
  | .list es _, f => (data_holds_quoted es f).bind_pure _

theorem data_holds_quoted : ∀ (ns : List Node) (f : Frame), A.Holds id (data d false ns f) []
  | [], _ => A.holds_pure _
  | n :: ns, f => (datum_holds_quoted n f).bind fun _ => (data_holds_quoted ns f).bind_pure _

end

end Parts

/-! ## The recursion -/

section Recursion
variable {d : Dialect} {A : Partwise d}

mutual

theorem node_holds : ∀ (n : Node) (f : Frame), A.Evaluates f →
    A.Holds f.scope (node d n f) [(.value, n)]
  | .leaf v t, f, hf => by
    by_cases hdeclaring : f.declaring = true
    · exact (leaf_holds v t hdeclaring).of_coarse (Or.resolve_left hf (by simp [hdeclaring]))
    · unfold node leaf
      rw [if_neg hdeclaring]
      exact holds_leaf _ v t
  | .list [] t, f, _ => A.holds_fail rfl
  | .list (.list es t :: args) o, f, _ => by
    refine A.holds_value ?_ rfl
    exact (requireExpression_holds (.list es t)).bind fun _ =>
      (node_holds (.list es t) (f.under "call") (.inl rfl)).bind fun _ =>
        (operands_holds args (f.under "call") (.inl rfl)).bind_pure _
  | .list (.leaf (.symbol name) op :: args) o, f, hf => by
    simp only [node]
    cases hform : d.form name with
    | declaration =>
      refine .of_form hform rfl ?_
      exact (atLeast_holds name op args 1).bind fun _ => (declarators_holds args (f.under "var") rfl).bind_pure _
    | assignment =>
      refine .of_form hform rfl ?_
      have h := holds_assignment name op args f fun hleaves => assigned_holds args (f.under "=") rfl hleaves
      rcases hf with hf | hA
      · rw [if_neg (by simp [hf])] at h
        exact h
      · exact h.of_coarse hA
    | lambda => exact lambda_holds name op args f (parts_of_form hform) (scope_of_form hform)
    | sequence =>
      refine .of_form hform rfl ?_
      exact (atLeast_holds name op args 1).bind fun _ => (statements_holds args f.deeper f.tail).bind_pure _
    | conditional =>
      refine .of_form hform rfl ?_
      exact (atLeast_holds name op args 1).bind fun _ => (clauses_holds 1 args f).bind_pure _
    | «when» => exact .of_form hform rfl (guarded_holds name op "if (" "when" f.tail args f (.inl rfl))
    | array => exact .of_form hform rfl ((operands_holds args (f.under "array") (.inl rfl)).bind_pure _)
    | object =>
      refine .of_form hform rfl (holds_ite ?_ (A.holds_fail rfl))
      exact (entries_holds [] args (f.under "object").deeper (.inl rfl)).bind_pure _
    | existence => exact .of_form hform rfl (existence_holds name op f args)
    | forLoop => exact forLoop_holds name op args f (parts_of_form hform) (scope_of_form hform)
    | whileLoop =>
      exact .of_form hform rfl (guarded_holds name op "while (" "while" false args f (.inl rfl))
    | untilLoop =>
      exact .of_form hform rfl (guarded_holds name op "while (!" "not" false args f (.inl rfl))
    | quote =>
      refine .of_form hform rfl ?_
      match args with
      | [n] => exact datum_holds_quoted n f
      | [] => exact A.holds_fail rfl
      | _ :: _ :: _ => exact A.holds_fail rfl
    | quasiquote => exact .of_form hform rfl (quotation_holds name op args f)
    | unquote => exact A.holds_fail rfl
    | unquoteSplicing => exact A.holds_fail rfl
    | ordinary | unassigned _ =>
      -- arguments of an operator stand under its name, which must not make declarators of them
      have hname : A.Evaluates (f.under name) := by
        rcases A.usual_or_coarse with ⟨-, hvar⟩ | hA
        · refine .inl (declaring_under ?_ f)
          rintro rfl
          cases hvar.symm.trans hform
        · exact .inr hA
      refine .of_form hform rfl (Holds.leaf_cons ?_ (.symbol name) op)
      simp only
      cases d.binaryOperators.get? name with
      | some target => exact operation_holds name op target args f hname
      | none =>
        cases d.comparisons.get? name with
        | some target => exact comparison_holds name op target args f hname
        | none =>
          cases d.unaryOperators.get? name with
          | some target => exact unary_holds name op target args f hname
          | none => exact (operands_holds args (f.under "call") (.inl rfl)).bind_pure _
  | .list (.leaf (.number _ _) op :: _) _, _, _ => A.holds_fail rfl
  | .list (.leaf (.boolean _) op :: _) _, _, _ => A.holds_fail rfl
  | .list (.leaf (.constant _ _) op :: _) _, _, _ => A.holds_fail rfl
  | .list (.leaf (.string _) op :: _) _, _, _ => A.holds_fail rfl
termination_by structural n => n

theorem nodes_holds : ∀ (ns : List Node) (f : Frame), A.Evaluates f →
    A.Holds f.scope (nodes d ns f) (values ns)
  | [], _, _ => A.holds_pure _
  | n :: ns, f, hf => (node_holds n f hf).bind fun _ => (nodes_holds ns f hf).bind_pure _
termination_by structural ns => ns

/-- Where all but the last are leaves, only the last one does anything. -/
theorem assigned_holds : ∀ (ns : List Node) (f : Frame), f.declaring = false →
    (∀ n ∈ ns.dropLast, ∃ v t, n = Node.leaf v t) →
    A.Holds f.scope (nodes d ns f) (values ns.getLast?.toList)
  | [], _, _, _ => A.holds_pure _
  | [n], f, hf, _ => (node_holds n f (.inl hf)).bind_pure _
  | n :: m :: ns, f, hf, h => by
    obtain ⟨⟨v, t, rfl⟩, hleaves⟩ := List.forall_mem_cons.1 h
    have hleaf : A.Holds f.scope (node d (.leaf v t) f) [] := by
      unfold node leaf
      rw [if_neg (by simp [hf])]
      exact A.holds_pure _
    exact hleaf.bind fun _ => (assigned_holds (m :: ns) f hf hleaves).bind_pure _
termination_by structural ns => ns

theorem operands_holds : ∀ (ns : List Node) (f : Frame), A.Evaluates f →
    A.Holds f.scope (operands d ns f) (values ns)
  | [], _, _ => A.holds_pure _
  | n :: ns, f, hf => (requireExpression_holds n).bind fun _ =>
      (node_holds n f hf).bind fun _ => (operands_holds ns f hf).bind_pure _
termination_by structural ns => ns

theorem statements_holds : ∀ (ns : List Node) (f : Frame) (tail : Bool),
    A.Holds f.scope (statements d ns f tail) (values ns)
  | [], _, _ => A.holds_pure _
  | n :: ns, f, tail => by
    simp only [statements]
    -- the last statement may stand elsewhere, but neither in another scope nor as a declarator
    generalize hp : (if (tail && ns.isEmpty) = true then tailPlace d n f else ("", f.under "begin")) = place
    obtain ⟨hscope, hdecl⟩ : place.2.scope = f.scope ∧ place.2.declaring = false := by
      rw [← hp]
      split
      · exact tailPlace_frame n f
      · exact ⟨rfl, rfl⟩
    have hn := node_holds n place.2 (.inl hdecl)
    rw [hscope] at hn
    exact hn.bind fun _ => (statements_holds ns f tail).bind_pure _
termination_by structural ns => ns

theorem declarators_holds : ∀ (ns : List Node) (f : Frame), f.declaring = true →
    A.Holds f.scope (declarators d ns f) (declared ns)
  | [], _, _ => A.holds_pure _
  | .list [] t :: rest, f, _ => (requireAssignment_holds [] t).bind_of_ok fun _ _ _ h => by cases h
  | .list (.list es o :: args) t :: rest, f, _ =>
    (requireAssignment_holds (.list es o :: args) t).bind_of_ok fun _ _ _ h => by cases h
  | .list (.leaf v op :: args) t :: rest, f, hf => by
    refine (requireAssignment_holds (.leaf v op :: args) t).bind_of_ok fun _ T T' hok => ?_
    have hnode := fun hA : A.Coarse => node_holds (.list (.leaf v op :: args) t) f (.inr hA)
    obtain rfl := eq_symbol_of_symbol? (head?_of_requireAssignment hok)
    have h : A.Holds f.scope (node d (.list (.leaf (.symbol "=") op :: args) t) f) (assigned .binder args) := by
      rcases A.usual_or_coarse with ⟨hassignment, -⟩ | hA
      · have h := holds_assignment "=" op args f fun hleaves => assigned_holds args (f.under "=") rfl hleaves
        rw [if_pos hf] at h
        simp only [node, hassignment]
        exact h
      · exact (hnode hA).of_coarse hA
    exact h.bind fun _ => (declarators_holds rest f hf).bind_pure _
  | [.leaf v t], f, hf => (leaf_holds v t hf).bind_pure _
  | .leaf v t :: n :: rest, f, hf => by
    simp only [declarators, declared]
    by_cases hn : isInitializer n = true
    · simp only [if_pos hn]
      exact (leaf_holds v t hf).bind fun _ => (requireExpression_holds n).bind fun _ =>
        (node_holds n (f.under "=") (.inl rfl)).bind fun _ => (declarators_holds rest f hf).bind_pure _
    · simp only [if_neg hn]
      exact (leaf_holds v t hf).bind fun _ => (declarators_holds (n :: rest) f hf).bind_pure _
termination_by structural ns => ns

theorem lambda_holds (name : String) (op : Token) : ∀ (ns : List Node) (f : Frame) {n : Node},
    parts d n = lambdaParts ns → scope d n = [n] →
    A.Holds f.scope (lambda d name op ns f) [(.value, n)]
  | .list ps _ :: b :: body, f, n, hparts, hscope => by
    refine A.holds_scope hscope fun id => ?_
    rw [hparts]
    exact (parameters_holds 0 ps).bind fun _ =>
      (statements_holds (b :: body) (f.within id).deeper true).bind_pure _
  | .leaf _ t :: _ :: _, _, _, _, _ => A.holds_fail rfl
  | [], _, _, _, _ => A.holds_fail rfl
  | [.leaf _ _], _, _, _, _ => A.holds_fail rfl
  | [.list _ _], _, _, _, _ => A.holds_fail rfl
termination_by structural ns => ns

theorem clauses_holds : ∀ (i : Nat) (ns : List Node) (f : Frame),
    A.Holds f.scope (clauses d i ns f) (values (clauseElements ns))
  | _, [], _ => A.holds_pure _
  | _, .leaf _ t :: _, _ => A.holds_fail rfl
  | _, .list [] t :: _, _ => A.holds_fail rfl
  | _, .list [n] t :: _, _ => A.holds_fail rfl
  | i, .list (test :: b :: body) _ :: rest, f => by
    have hrest := fun lead : String => (statements_holds (b :: body) f.deeper f.tail).bind fun ss =>
      (clauses_holds (i + 1) rest f).bind_pure fun more => (lead ++ blockText f none ss) :: more
    rw [clauseElements, values_append]
    simp only [clauses]
    by_cases htest : test.symbol? = some "else"
    · rw [if_pos htest]
      cases test with
      | list es t => cases htest
      | leaf v t =>
        exact (requireLastClause_holds i rest (.leaf v t)).bind fun _ => (holds_leaf "" v t).bind hrest
    · rw [if_neg htest]
      exact (requireExpression_holds test).bind fun _ =>
        (node_holds test (f.under "if") (.inl rfl)).bind fun _ => (A.holds_pure _).bind hrest
termination_by structural _ ns => ns

theorem guarded_holds (name : String) (op : Token) (lead role : String) (tail : Bool) :
    ∀ (ns : List Node) (f : Frame), A.Evaluates (f.under role) →
      A.Holds f.scope (guarded d name op lead role tail ns f) (values ns)
  | test :: b :: body, f, hrole => (requireExpression_holds test).bind fun _ =>
      (node_holds test (f.under role) hrole).bind fun _ =>
        (statements_holds (b :: body) f.deeper tail).bind_pure _
  | [], _, _ => A.holds_fail rfl
  | [_], _, _ => A.holds_fail rfl
termination_by structural ns => ns

theorem entries_holds : ∀ (seen : List String) (ns : List Node) (f : Frame), A.Evaluates f →
    A.Holds f.scope (entries d seen ns f) (values (entryValues ns))
  | _, [], _, _ => A.holds_pure _
  | _, [_], _, _ => A.holds_pure _
  | seen, k :: n :: rest, f, hf => by
    simp only [entries]
    refine (key_holds k).bind fun key => ?_
    have hmore := (requireExpression_holds (d := d) n).bind fun _ => (node_holds n f hf).bind fun s =>
      (entries_holds (key.name :: seen) rest f hf).bind_pure fun more => (key.text ++ ": " ++ s) :: more
    have hagain : A.Holds f.scope (fail k.leftmost (.duplicateKey key.text) : Emit PUnit) [] :=
      A.holds_fail rfl
    exact holds_ite (hagain.bind fun _ => hmore) hmore
termination_by structural _ ns => ns

theorem forLoop_holds (name : String) (op : Token) : ∀ (ns : List Node) (f : Frame) {n : Node},
    parts d n = loopParts ns → scope d n = [n] →
    A.Holds f.scope (forLoop d name op ns f) [(.value, n)]
  | .leaf v t :: lo :: hi :: b :: body, f, n, hparts, hscope => by
    refine A.holds_scope hscope fun id => ?_
    rw [hparts]
    exact (declare_holds v t).bind fun _ => (requireExpression_holds lo).bind fun _ =>
      (requireExpression_holds hi).bind fun _ => (node_holds lo ((f.within id).under "=") (.inl rfl)).bind fun _ =>
        (node_holds hi ((f.within id).under "<=") (.inl rfl)).bind fun _ =>
          (statements_holds (b :: body) (f.within id).deeper false).bind_pure _
  | .list es t :: _ :: _ :: _ :: _, _, _, _, _ => A.holds_fail rfl
  | [], _, _, _, _ => A.holds_fail rfl
  | [n], _, _, _, _ => by cases n <;> exact A.holds_fail rfl
  | [n, _], _, _, _, _ => by cases n <;> exact A.holds_fail rfl
  | [n, _, _], _, _, _, _ => by cases n <;> exact A.holds_fail rfl
termination_by structural ns => ns

theorem operation_holds (name : String) (op : Token) (target : String) :
    ∀ (ns : List Node) (f : Frame), A.Evaluates (f.under name) →
      A.Holds f.scope (operation d name op target ns f) (values ns)
  | [], _, _ => A.holds_fail rfl
  | [n], f, hname => by
    refine holds_ite ?_ (A.holds_fail rfl)
    exact (requireExpression_holds n).bind fun _ =>
      (node_holds n (f.under name) hname).bind_pure _
  | n :: m :: rest, f, hname => (requireAll_holds (n :: m :: rest)).bind fun _ =>
      (node_holds n (f.under name) hname).bind fun _ =>
        (nodes_holds (m :: rest) (f.under name) hname).bind_pure _
termination_by structural ns => ns

theorem comparison_holds (name : String) (op : Token) (target : String) :
    ∀ (ns : List Node) (f : Frame), A.Evaluates (f.under name) →
      A.Holds f.scope (comparison d name op target ns f) (values ns)
  | [n, m], f, hname => (requireAll_holds [n, m]).bind fun _ =>
      (node_holds n (f.under name) hname).bind fun _ =>
        (node_holds m (f.under name) hname).bind_pure _
  | [], _, _ => A.holds_fail rfl
  | [_], _, _ => A.holds_fail rfl
  | _ :: _ :: _ :: _, _, _ => A.holds_fail rfl
termination_by structural ns => ns

theorem unary_holds (name : String) (op : Token) (target : String) :
    ∀ (ns : List Node) (f : Frame), A.Evaluates (f.under name) →
      A.Holds f.scope (unary d name op target ns f) (values ns)
  | [n], f, hname => (requireExpression_holds n).bind fun _ =>
      (node_holds n (f.under name) hname).bind_pure _
  | [], _, _ => A.holds_fail rfl
  | _ :: _ :: _, _, _ => A.holds_fail rfl
termination_by structural ns => ns

theorem quotation_holds (name : String) (op : Token) : ∀ (ns : List Node) (f : Frame),
    A.Holds f.scope (quotation d name op true ns f) (values (unquotedEach d ns))
  | [n], f => by
    rw [unquotedEach, unquotedEach, List.append_nil]
    exact datum_holds n f
  | [], _ => A.holds_fail rfl
  | _ :: _ :: _, _ => A.holds_fail rfl
termination_by structural ns => ns

theorem datum_holds : ∀ (n : Node) (f : Frame),
    A.Holds f.scope (datum d true n f) (values (unquoted d n))
  | .leaf v _, _ => A.holds_pure _
  | .list es t, f => by
    simp only [datum, if_true, Bool.true_and]
    split
    · rename_i hform
      rw [unquoted, hform]
      exact inserted_holds "unquote" es f (.inl rfl)
    · exact A.holds_fail rfl
    · rename_i hu hs
      have hdata : unquoted d (.list es t) = unquotedEach d es := by
        unfold unquoted
        split
        · exact absurd ‹_› hu
        · exact absurd ‹_› hs
        · rfl
      rw [hdata]
      exact holds_ite ((splices_holds es f).bind_pure _) ((data_holds es f).bind_pure _)
termination_by structural n => n

theorem inserted_holds (role : String) : ∀ (ns : List Node) (f : Frame), A.Evaluates (f.under role) →
    A.Holds f.scope (inserted d role ns f) (values ns.tail)
  | [_, n], f, hrole => (requireExpression_holds n).bind fun _ => node_holds n (f.under role) hrole
  | [], _, _ => A.holds_pure _
  | [_], _, _ => A.holds_fail rfl
  | _ :: _ :: _ :: _, _, _ => A.holds_fail rfl
termination_by structural ns => ns

theorem data_holds : ∀ (ns : List Node) (f : Frame),
    A.Holds f.scope (data d true ns f) (values (unquotedEach d ns))
  | [], _ => A.holds_pure _
  | n :: ns, f => by
    rw [unquotedEach, values_append]
    exact (datum_holds n f).bind fun _ => (data_holds ns f).bind_pure _
termination_by structural ns => ns

theorem splices_holds : ∀ (ns : List Node) (f : Frame),
    A.Holds f.scope (splices d ns f) (values (unquotedEach d ns))
  | [], _ => A.holds_pure _
  | .leaf v _ :: ns, f => (splices_holds ns f).bind_pure _
  | .list es t :: ns, f => by
    rw [unquotedEach, values_append]
    simp only [splices]
    have hrest := fun s : String => (splices_holds ns f).bind_pure fun rest => s :: rest
    by_cases hs : isSpliced d (.list es t) = true
    · rw [if_pos hs, unquoted_of_spliced hs]
      exact (inserted_holds "unquote-splicing" es f (.inl rfl)).bind hrest
    · rw [if_neg hs]
      exact (datum_holds (.list es t) f).bind fun _ => (A.holds_pure _).bind hrest
termination_by structural ns => ns

end

end Recursion
end Partwise
end Emit
end QuasiScript
