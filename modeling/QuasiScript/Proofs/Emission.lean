import QuasiScript.Emit.Node
import QuasiScript.Proofs.Relocation

/-!
# Emission does not look at positions

Running an emission on a scope table gives an outcome and a table (`Emit.exec`). Tokens enter only by the positions of
errors and declarations: when every token of a program is exchanged, and with it every position of the table, the
outcome is the same with its positions exchanged (`node_follows`, `nodes_follows`).
-/
namespace QuasiScript

/-! ## Scopes elsewhere -/

def Declaration.relocate (π : Position → Position) (d : Declaration) : Declaration := ⟨d.name, π d.pos⟩

def Scope.relocate (π : Position → Position) (s : Scope) : Scope := ⟨s.parent, s.names.map (Declaration.relocate π)⟩

namespace Scope
variable (π : Position → Position)

theorem get?_relocate (s : Scope) (name : String) :
    (s.relocate π).get? name = (s.get? name).map (Declaration.relocate π) := by
  simp only [get?, relocate, List.find?_map]
  rfl

theorem insertName_relocate (d : Declaration) : ∀ es : List Declaration,
    insertName (d.relocate π) (es.map (Declaration.relocate π)) = (insertName d es).map (Declaration.relocate π)
  | [] => rfl
  | e :: es => by
    rw [List.map_cons, insertName, insertName, insertName_relocate d es]
    by_cases h : d.name < e.name
    · rw [if_pos h, if_pos (c := (d.relocate π).name < (e.relocate π).name) h]
      rfl
    · rw [if_neg h, if_neg (c := (d.relocate π).name < (e.relocate π).name) h]
      rfl

end Scope

namespace ScopeTable
variable (π : Position → Position)

def relocate (t : ScopeTable) : ScopeTable := ⟨t.scopes.map (Scope.relocate π)⟩

@[simp] theorem relocate_size (t : ScopeTable) : (t.relocate π).size = t.size := by simp [size, relocate]

theorem scope?_relocate (t : ScopeTable) (id : Int) :
    (t.relocate π).scope? id = (t.scope? id).map (Scope.relocate π) := by
  cases id with
  | ofNat k => simp [scope?, relocate]
  | negSucc k => rfl

theorem enter_relocate (t : ScopeTable) (parent : Int) :
    (t.relocate π).enter parent = ((t.enter parent).1, (t.enter parent).2.relocate π) := by
  simp [enter, relocate, size, Scope.relocate]

theorem local?_relocate (t : ScopeTable) (id : Int) (name : String) :
    (t.relocate π).local? id name = (t.local? id name).map (Declaration.relocate π) := by
  simp only [local?, scope?_relocate]
  cases t.scope? id with
  | none => rfl
  | some s => exact s.get?_relocate π name

theorem insert_relocate (t : ScopeTable) (id : Int) (d : Declaration) :
    (t.relocate π).insert id (d.relocate π) = (t.insert id d).relocate π := by
  simp only [insert, relocate, ScopeTable.mk.injEq]
  apply List.ext_getElem?
  intro i
  simp only [List.getElem?_modify, List.getElem?_map]
  cases t.scopes[i]? with
  | none => rfl
  | some s =>
    by_cases h : id.toNat = i
    · simp [h, Scope.relocate, Scope.insertName_relocate]
    · simp [h]

theorem declare_relocate (t : ScopeTable) (id : Int) (name : String) (p : Position) :
    (t.relocate π).declare id name (π p) =
      ((t.declare id name p).1.map (Declaration.relocate π), (t.declare id name p).2.relocate π) := by
  simp only [declare, local?_relocate]
  cases t.local? id name with
  | none => exact congrArg (Prod.mk none) (insert_relocate π t id ⟨name, p⟩)
  | some d => rfl

theorem lookupWithin_relocate (t : ScopeTable) (name : String) : ∀ (fuel : Nat) (id : Int),
    (t.relocate π).lookupWithin name fuel id =
      (t.lookupWithin name fuel id).map (Option.map (Declaration.relocate π))
  | fuel, id => by
    rw [lookupWithin.eq_def, lookupWithin.eq_def t]
    dsimp only
    by_cases hid : id = Scope.noScope
    · rw [if_pos hid, if_pos hid]
      rfl
    · rw [if_neg hid, if_neg hid, scope?_relocate]
      cases fuel with
      | zero => rfl
      | succ fuel =>
        cases t.scope? id with
        | none => rfl
        | some s =>
          simp only [Option.map_some, s.get?_relocate]
          cases s.get? name with
          | none => exact lookupWithin_relocate t name fuel s.parent
          | some d => rfl

theorem declares_relocate (t : ScopeTable) (id : Int) (name : String) :
    (t.relocate π).declares id name = t.declares id name := by
  simp only [declares, lookup, relocate_size, lookupWithin_relocate]
  cases t.lookupWithin name (t.size + 1) id with
  | error e => rfl
  | ok d => cases d <;> rfl

end ScopeTable

/-! ## Errors and tokens elsewhere -/

def CompileCause.relocate (π : Position → Position) : CompileCause → CompileCause
  | .redeclared name previous => .redeclared name (π previous)
  | c => c

def CompileError.relocate (π : Position → Position) (e : CompileError) : CompileError := ⟨π e.pos, e.cause.relocate π⟩

/-- An exchange of tokens that exchanges their positions by a rule. -/
structure Relabelling where
  token : Token → Token
  pos : Position → Position
  pos_token : ∀ t : Token, (token t).pos = pos t.pos

namespace Node
variable (φ : Token → Token)

@[simp] theorem symbol?_retoken (n : Node) : (n.retoken φ).symbol? = n.symbol? := by
  cases n <;> rfl

@[simp] theorem head?_retokens (ns : List Node) : head? (retokens φ ns) = head? ns := by
  cases ns with
  | nil => rfl
  | cons n ns => exact symbol?_retoken φ n

theorem leftmost_relabel (ρ : Relabelling) : ∀ n : Node, (n.retoken ρ.token).leftmost = ρ.pos n.leftmost
  | .leaf _ t => ρ.pos_token t
  | .list [] t => ρ.pos_token t
  | .list (n :: _) _ => leftmost_relabel ρ n

end Node

namespace Emit

/-! ## Running an emission -/

section Exec
variable {α β : Type}

/-- What an emission gives on a scope table, and the table after it. -/
def exec (m : Emit α) (t : ScopeTable) : Except CompileError α × ScopeTable := m.run.run t

@[simp] theorem exec_pure (a : α) (t : ScopeTable) : exec (pure a) t = (.ok a, t) := rfl

@[simp] theorem exec_fail (p : Position) (c : CompileCause) (t : ScopeTable) :
    exec (fail p c : Emit α) t = (.error ⟨p, c⟩, t) := rfl

theorem exec_bind (m : Emit α) (k : α → Emit β) (t : ScopeTable) :
    exec (m >>= k) t =
      match exec m t with
      | (.ok a, t') => exec (k a) t'
      | (.error e, t') => (.error e, t') := by
  have hb : exec (m >>= k) t = StateT.run (ExceptT.bindCont k (exec m t).1) (exec m t).2 := rfl
  rw [hb]
  rcases exec m t with ⟨r, t'⟩
  cases r <;> rfl

theorem exec_bind_ok {m : Emit α} {k : α → Emit β} {t t' : ScopeTable} {b : β} (h : exec (m >>= k) t = (.ok b, t')) :
    ∃ a t₁, exec m t = (.ok a, t₁) ∧ exec (k a) t₁ = (.ok b, t') := by
  rw [exec_bind] at h
  rcases hm : exec m t with ⟨r, t₁⟩
  rw [hm] at h
  cases r with
  | ok a => exact ⟨a, t₁, rfl, h⟩
  | error e => cases h

theorem exec_bind_of_ok {m : Emit α} {a : α} {t t₁ : ScopeTable} {k : α → Emit β}
    (h : exec m t = (.ok a, t₁)) : exec (m >>= k) t = exec (k a) t₁ := by
  rw [exec_bind, h]

theorem exec_get_bind (k : ScopeTable → Emit β) (t : ScopeTable) : exec (get >>= k) t = exec (k t) t := rfl

theorem exec_modifyGet_bind (g : ScopeTable → α × ScopeTable) (k : α → Emit β) (t : ScopeTable) :
    exec (modifyGet g >>= k) t = exec (k (g t).1) (g t).2 := rfl

/-- A program is run like any emission, and its codes are joined. -/
theorem generate_eq {d : Dialect} (T : ScopeTable) (ns : List Node) :
    generate d T ns = ((exec (nodes d ns .top) T).1.map fun codes => String.join (codes.map (· ++ ";\n")),
      (exec (nodes d ns .top) T).2) := rfl

end Exec

/-! ## Emissions that follow one another -/

section Follows
variable {α β : Type} {π : Position → Position}

def relocateOutcome (π : Position → Position) :
    Except CompileError α × ScopeTable → Except CompileError α × ScopeTable
  | (.ok a, t) => (.ok a, t.relocate π)
  | (.error e, t) => (.error (e.relocate π), t.relocate π)

/-- The second emission does elsewhere what the first one does. -/
def Follows (π : Position → Position) (m m' : Emit α) : Prop :=
  ∀ t : ScopeTable, exec m' (t.relocate π) = relocateOutcome π (exec m t)

theorem follows_pure (a : α) : Follows π (pure a) (pure a) := fun _ => rfl

theorem follows_fail {p p' : Position} {c : CompileCause} (hp : p' = π p) (hc : c.relocate π = c) :
    Follows π (fail p c : Emit α) (fail p' c) := by
  intro t
  simp [relocateOutcome, CompileError.relocate, hp, hc]

theorem Follows.bind {m m' : Emit α} {k k' : α → Emit β} (h : Follows π m m') (hk : ∀ a, Follows π (k a) (k' a)) :
    Follows π (m >>= k) (m' >>= k') := by
  intro t
  rw [exec_bind, exec_bind, h t]
  rcases exec m t with ⟨r, t'⟩
  cases r with
  | ok a => exact hk a t'
  | error e => rfl

theorem Follows.bind_pure {m m' : Emit α} (h : Follows π m m') (g : α → β) :
    Follows π (m >>= fun a => pure (g a)) (m' >>= fun a => pure (g a)) :=
  h.bind fun a => follows_pure (g a)

theorem follows_ite {c : Prop} [Decidable c] {m₁ m₁' m₂ m₂' : Emit α} (h₁ : Follows π m₁ m₁')
    (h₂ : Follows π m₂ m₂') : Follows π (if c then m₁ else m₂) (if c then m₁' else m₂') := by
  split
  · exact h₁
  · exact h₂

end Follows

/-! ## The parts of an emission -/

section Parts
variable {d : Dialect} (ρ : Relabelling)

theorem atLeast_follows (head : String) (op : Token) (args : List Node) (n : Nat) :
    Follows ρ.pos (atLeast head op args n) (atLeast head (ρ.token op) (Node.retokens ρ.token args) n) := by
  simp only [atLeast, Node.retokens_eq_map, List.length_map]
  exact follows_ite (follows_pure _) (follows_fail (ρ.pos_token op) rfl)

theorem isExpression_retoken : ∀ n : Node, isExpression d (n.retoken ρ.token) = isExpression d n
  | .leaf _ _ => rfl
  | .list [] _ => rfl
  | .list (.list es t :: _) _ => isExpression_retoken (.list es t)
  | .list (.leaf _ _ :: _) _ => rfl

theorem requireExpression_follows (n : Node) :
    Follows ρ.pos (requireExpression d n) (requireExpression d (n.retoken ρ.token)) := by
  simp only [requireExpression, isExpression_retoken, Node.surface_retoken]
  exact follows_ite (follows_pure _) (follows_fail (Node.leftmost_relabel ρ n) rfl)

theorem requireAll_follows (ns : List Node) :
    Follows ρ.pos (requireAll d ns) (requireAll d (Node.retokens ρ.token ns)) := by
  induction ns with
  | nil => exact follows_pure _
  | cons n ns ih => exact (requireExpression_follows ρ n).bind fun _ => ih

theorem requireLast_follows (ns : List Node) :
    Follows ρ.pos (requireLast d ns) (requireLast d (Node.retokens ρ.token ns)) := by
  simp only [requireLast, Node.retokens_eq_map, List.getLast?_map]
  cases ns.getLast? with
  | none => exact follows_pure _
  | some n => exact requireExpression_follows ρ n

theorem requireAssignment_follows (es : List Node) (o : Token) :
    Follows ρ.pos (requireAssignment es o) (requireAssignment (Node.retokens ρ.token es) (ρ.token o)) := by
  simp only [requireAssignment, Node.head?_retokens]
  refine follows_ite (follows_pure _) ?_
  cases es with
  | nil => exact follows_fail (ρ.pos_token o) rfl
  | cons n es =>
    simp only [Node.retokens, Node.surface_retoken]
    exact follows_fail (Node.leftmost_relabel ρ n) rfl

theorem requireLastClause_follows (i : Nat) (rest : List Node) (test : Node) :
    Follows ρ.pos (requireLastClause i rest test)
      (requireLastClause i (Node.retokens ρ.token rest) (test.retoken ρ.token)) := by
  have hl := Node.leftmost_relabel ρ test
  simp only [requireLastClause, Node.retokens_eq_map, List.isEmpty_map]
  exact follows_ite (follows_fail hl rfl) (follows_ite (follows_pure _) (follows_fail hl rfl))

theorem declare_follows (scope : Int) (v : Value) (t : Token) :
    Follows ρ.pos (declare d scope v t) (declare d scope v (ρ.token t)) := by
  unfold declare
  cases v.symbol? with
  | none => exact follows_fail (ρ.pos_token t) rfl
  | some name =>
    refine follows_ite (follows_fail (ρ.pos_token t) rfl) (follows_ite (follows_fail (ρ.pos_token t) rfl) ?_)
    intro T
    rw [exec_modifyGet_bind, exec_modifyGet_bind, ρ.pos_token t, ScopeTable.declare_relocate]
    rcases T.declare scope name t.pos with ⟨previous, T'⟩
    cases previous <;> rfl

theorem enter_follows (scope : Int) : Follows ρ.pos (enter scope) (enter scope) := by
  intro T
  show (Except.ok ((T.relocate ρ.pos).enter scope).1, ((T.relocate ρ.pos).enter scope).2) = _
  rw [ScopeTable.enter_relocate]
  rfl

theorem checkTarget_follows (f : Frame) (n : Node) :
    Follows ρ.pos (checkTarget d f n) (checkTarget d f (n.retoken ρ.token)) := by
  cases n with
  | list es t =>
    have hl := Node.leftmost_relabel ρ (.list es t)
    have hs := Node.surface_retoken ρ.token (.list es t)
    simp only [Node.retoken] at hl hs
    simp only [checkTarget, Node.retoken, hs]
    exact follows_fail hl rfl
  | leaf v t =>
    simp only [checkTarget, Node.retoken]
    cases v.symbol? with
    | none => exact follows_fail (ρ.pos_token t) rfl
    | some name =>
      refine follows_ite (declare_follows ρ f.scope v t) (follows_ite (follows_fail (ρ.pos_token t) rfl) ?_)
      intro T
      rw [exec_get_bind, exec_get_bind, ScopeTable.declares_relocate]
      exact follows_ite (follows_pure _) (follows_fail (ρ.pos_token t) rfl) T

theorem checkTargets_follows (f : Frame) (ns : List Node) :
    Follows ρ.pos (checkTargets d f ns) (checkTargets d f (Node.retokens ρ.token ns)) := by
  induction ns with
  | nil => exact follows_pure _
  | cons n ns ih => exact (checkTarget_follows ρ f n).bind fun _ => ih

theorem parameters_follows (scope : Int) : ∀ (i : Nat) (ns : List Node),
    Follows ρ.pos (parameters d scope i ns) (parameters d scope i (Node.retokens ρ.token ns))
  | _, [] => follows_pure _
  | i, .list es t :: ns => by
    have hl := Node.leftmost_relabel ρ (.list es t)
    have hs := Node.surface_retoken ρ.token (.list es t)
    simp only [Node.retoken] at hl hs
    simp only [parameters, Node.retokens, Node.retoken, hs]
    exact follows_fail hl rfl
  | i, .leaf v t :: ns => by
    simp only [parameters, Node.retokens, Node.retoken]
    refine follows_ite ?_
      ((declare_follows ρ scope v t).bind fun _ => (parameters_follows scope (i + 1) ns).bind_pure _)
    match ns with
    | [] => exact follows_fail (ρ.pos_token t) rfl
    | [.leaf r rt] => exact (declare_follows ρ scope r rt).bind_pure _
    | [.list es o] =>
      have hl := Node.leftmost_relabel ρ (.list es o)
      have hs := Node.surface_retoken ρ.token (.list es o)
      simp only [Node.retoken] at hl hs
      simp only [Node.retokens, Node.retoken, hs]
      exact follows_fail hl rfl
    | n :: m :: rest => cases n <;> exact follows_fail (ρ.pos_token t) rfl

theorem key_follows (n : Node) : Follows ρ.pos (key d n) (key d (n.retoken ρ.token)) := by
  cases n with
  | leaf v t => exact follows_pure _
  | list es t =>
    have hl := Node.leftmost_relabel ρ (.list es t)
    have hs := Node.surface_retoken ρ.token (.list es t)
    simp only [Node.retoken] at hl hs
    simp only [key, Node.retoken, hs]
    exact follows_fail hl rfl

theorem formOf_retoken (n : Node) : formOf d (n.retoken ρ.token) = formOf d n := by
  cases n with
  | leaf v t => rfl
  | list es t => simp only [Node.retoken, formOf, Node.head?_retokens]

theorem tailPlace_retoken (n : Node) (f : Frame) : tailPlace d (n.retoken ρ.token) f = tailPlace d n f := by
  simp only [tailPlace, formOf_retoken]

theorem isInitializer_retoken (n : Node) : isInitializer (n.retoken ρ.token) = isInitializer n := by
  cases n with
  | leaf v t => rfl
  | list es t =>
    simp only [isInitializer, Node.retoken, Node.head?_retokens]
    rfl

theorem minus_retoken (n : Node) : minus (n.retoken ρ.token) = minus n := by
  cases n <;> rfl

theorem any_isSpliced_retokens (ns : List Node) :
    (Node.retokens ρ.token ns).any (isSpliced d) = ns.any (isSpliced d) := by
  induction ns with
  | nil => rfl
  | cons n ns ih => simp only [Node.retokens, List.any_cons, ih, isSpliced, formOf_retoken]

theorem leaf_follows (v : Value) (t : Token) (f : Frame) :
    Follows ρ.pos (leaf d v t f) (leaf d v (ρ.token t) f) := by
  unfold leaf
  cases f.declaring with
  | true => exact (declare_follows ρ f.scope v t).bind_pure _
  | false => exact follows_pure _

theorem existence_follows (name : String) (op : Token) (f : Frame) : ∀ ns : List Node,
    Follows ρ.pos (existence d name op ns f) (existence d name (ρ.token op) (Node.retokens ρ.token ns) f)
  | [] => follows_fail (ρ.pos_token op) rfl
  | [n] => by
    simp only [existence, Node.retokens, Node.symbol?_retoken, Node.surface_retoken]
    cases n.symbol? with
    | none => exact follows_fail (Node.leftmost_relabel ρ n) rfl
    | some x => exact follows_pure _
  | n :: m :: rest => by
    simp only [existence, Node.retokens, Node.retokens_eq_map, List.length_cons, List.length_map]
    exact follows_fail (ρ.pos_token op) rfl

end Parts

/-! ## The recursion -/

section Recursion
variable {d : Dialect} (ρ : Relabelling)

mutual

theorem node_follows : ∀ (n : Node) (f : Frame), Follows ρ.pos (node d n f) (node d (n.retoken ρ.token) f)
  | .leaf v t, f => leaf_follows ρ v t f
  | .list [] t, f => follows_fail (ρ.pos_token t) rfl
  | .list (.list es t :: args) _, f =>
    (requireExpression_follows ρ (.list es t)).bind fun _ =>
      (node_follows (.list es t) (f.under "call")).bind fun _ =>
        (operands_follows args (f.under "call")).bind_pure _
  | .list (.leaf (.symbol name) op :: args) _, f => by
    simp only [Node.retoken, Node.retokens, node]
    cases d.form name with
    | declaration =>
      exact (atLeast_follows ρ name op args 1).bind fun _ => (declarators_follows args (f.under "var")).bind_pure _
    | assignment =>
      have hd : (Node.retokens ρ.token args).dropLast = Node.retokens ρ.token args.dropLast := by simp
      simp only [hd]
      exact (atLeast_follows ρ name op args 2).bind fun _ => (requireLast_follows ρ args).bind fun _ =>
        (checkTargets_follows ρ f args.dropLast).bind fun _ => (nodes_follows args (f.under "=")).bind_pure _
    | lambda => exact lambda_follows name op args f
    | sequence =>
      exact (atLeast_follows ρ name op args 1).bind fun _ => (statements_follows args f.deeper f.tail).bind_pure _
    | conditional =>
      exact (atLeast_follows ρ name op args 1).bind fun _ => (clauses_follows 1 args f).bind_pure _
    | «when» => exact guarded_follows name op "if (" "when" f.tail args f
    | array => exact (operands_follows args (f.under "array")).bind_pure _
    | object =>
      have hl : (Node.retokens ρ.token args).length = args.length := by simp
      simp only [hl]
      exact follows_ite ((entries_follows [] args (f.under "object").deeper).bind_pure _)
        (follows_fail (ρ.pos_token op) rfl)
    | existence => exact existence_follows ρ name op f args
    | forLoop => exact forLoop_follows name op args f
    | whileLoop => exact guarded_follows name op "while (" "while" false args f
    | untilLoop => exact guarded_follows name op "while (!" "not" false args f
    | quote => exact quotation_follows name op false args f
    | quasiquote => exact quotation_follows name op true args f
    | unquote => exact follows_fail (ρ.pos_token op) rfl
    | unquoteSplicing => exact follows_fail (ρ.pos_token op) rfl
    | ordinary | unassigned _ =>
      simp only
      cases d.binaryOperators.get? name with
      | some target => exact operation_follows name op target args f
      | none =>
        cases d.comparisons.get? name with
        | some target => exact comparison_follows name op target args f
        | none =>
          cases d.unaryOperators.get? name with
          | some target => exact unary_follows name op target args f
          | none => exact (operands_follows args (f.under "call")).bind_pure _
  | .list (.leaf (.number _ _) op :: _) _, _ => follows_fail (ρ.pos_token op) rfl
  | .list (.leaf (.boolean _) op :: _) _, _ => follows_fail (ρ.pos_token op) rfl
  | .list (.leaf (.constant _ _) op :: _) _, _ => follows_fail (ρ.pos_token op) rfl
  | .list (.leaf (.string _) op :: _) _, _ => follows_fail (ρ.pos_token op) rfl
termination_by structural n => n

theorem nodes_follows : ∀ (ns : List Node) (f : Frame),
    Follows ρ.pos (nodes d ns f) (nodes d (Node.retokens ρ.token ns) f)
  | [], _ => follows_pure _
  | n :: ns, f => (node_follows n f).bind fun _ => (nodes_follows ns f).bind_pure _
termination_by structural ns => ns

theorem operands_follows : ∀ (ns : List Node) (f : Frame),
    Follows ρ.pos (operands d ns f) (operands d (Node.retokens ρ.token ns) f)
  | [], _ => follows_pure _
  | n :: ns, f => (requireExpression_follows ρ n).bind fun _ =>
      (node_follows n f).bind fun _ => (operands_follows ns f).bind_pure _
termination_by structural ns => ns

theorem statements_follows : ∀ (ns : List Node) (f : Frame) (tail : Bool),
    Follows ρ.pos (statements d ns f tail) (statements d (Node.retokens ρ.token ns) f tail)
  | [], _, _ => follows_pure _
  | n :: ns, f, tail => by
    have he : (Node.retokens ρ.token ns).isEmpty = ns.isEmpty := by simp
    simp only [Node.retokens, statements, he, tailPlace_retoken]
    exact (node_follows n _).bind fun _ => (statements_follows ns f tail).bind_pure _
termination_by structural ns => ns

theorem declarators_follows : ∀ (ns : List Node) (f : Frame),
    Follows ρ.pos (declarators d ns f) (declarators d (Node.retokens ρ.token ns) f)
  | [], _ => follows_pure _
  | .list es t :: rest, f => (requireAssignment_follows ρ es t).bind fun _ =>
      (node_follows (.list es t) f).bind fun _ => (declarators_follows rest f).bind_pure _
  | [.leaf v t], f => (leaf_follows ρ v t f).bind_pure _
  | .leaf v t :: n :: rest, f => by
    simp only [Node.retokens, Node.retoken, declarators, isInitializer_retoken]
    refine (leaf_follows ρ v t f).bind fun _ => follows_ite ?_ ?_
    · exact (requireExpression_follows ρ n).bind fun _ =>
        (node_follows n (f.under "=")).bind fun _ => (declarators_follows rest f).bind_pure _
    · exact (declarators_follows (n :: rest) f).bind_pure _
termination_by structural ns => ns

theorem lambda_follows (name : String) (op : Token) : ∀ (ns : List Node) (f : Frame),
    Follows ρ.pos (lambda d name op ns f) (lambda d name (ρ.token op) (Node.retokens ρ.token ns) f)
  | .list ps _ :: b :: body, f => (enter_follows ρ f.scope).bind fun scope =>
      (parameters_follows ρ scope 0 ps).bind fun _ =>
        (statements_follows (b :: body) (f.within scope).deeper true).bind_pure _
  | .leaf _ t :: _ :: _, _ => follows_fail (ρ.pos_token t) rfl
  | [], _ => follows_fail (ρ.pos_token op) rfl
  | [.leaf _ _], _ => follows_fail (ρ.pos_token op) rfl
  | [.list _ _], _ => follows_fail (ρ.pos_token op) rfl
termination_by structural ns => ns

theorem clauses_follows : ∀ (i : Nat) (ns : List Node) (f : Frame),
    Follows ρ.pos (clauses d i ns f) (clauses d i (Node.retokens ρ.token ns) f)
  | _, [], _ => follows_pure _
  | _, .leaf _ t :: _, _ => follows_fail (ρ.pos_token t) rfl
  | _, .list [] t :: _, _ => follows_fail (ρ.pos_token t) rfl
  | _, .list [n] t :: _, _ => follows_fail (Node.leftmost_relabel ρ n) rfl
  | i, .list (test :: b :: body) _ :: rest, f => by
    simp only [Node.retokens, Node.retoken, clauses, Node.symbol?_retoken]
    have hrest := fun lead : String => (statements_follows (b :: body) f.deeper f.tail).bind fun ss =>
      (clauses_follows (i + 1) rest f).bind_pure fun more => (lead ++ blockText f none ss) :: more
    refine follows_ite ?_ ?_
    · exact (requireLastClause_follows ρ i rest test).bind fun _ => (follows_pure _).bind hrest
    · exact (requireExpression_follows ρ test).bind fun _ =>
        (node_follows test (f.under "if")).bind fun _ => (follows_pure _).bind hrest
termination_by structural _ ns => ns

theorem guarded_follows (name : String) (op : Token) (lead role : String) (tail : Bool) :
    ∀ (ns : List Node) (f : Frame),
      Follows ρ.pos (guarded d name op lead role tail ns f)
        (guarded d name (ρ.token op) lead role tail (Node.retokens ρ.token ns) f)
  | test :: b :: body, f => (requireExpression_follows ρ test).bind fun _ =>
      (node_follows test (f.under role)).bind fun _ =>
        (statements_follows (b :: body) f.deeper tail).bind_pure _
  | [], _ => follows_fail (ρ.pos_token op) rfl
  | [_], _ => follows_fail (ρ.pos_token op) rfl
termination_by structural ns => ns

theorem entries_follows : ∀ (seen : List String) (ns : List Node) (f : Frame),
    Follows ρ.pos (entries d seen ns f) (entries d seen (Node.retokens ρ.token ns) f)
  | _, [], _ => follows_pure _
  | _, [_], _ => follows_pure _
  | seen, k :: n :: rest, f => by
    simp only [Node.retokens, entries]
    refine (key_follows ρ k).bind fun key => ?_
    have hmore := (requireExpression_follows (d := d) ρ n).bind fun _ => (node_follows n f).bind fun s =>
      (entries_follows (key.name :: seen) rest f).bind_pure fun more => (key.text ++ ": " ++ s) :: more
    exact follows_ite ((follows_fail (Node.leftmost_relabel ρ k) rfl).bind fun _ => hmore) hmore
termination_by structural _ ns => ns

theorem forLoop_follows (name : String) (op : Token) : ∀ (ns : List Node) (f : Frame),
    Follows ρ.pos (forLoop d name op ns f) (forLoop d name (ρ.token op) (Node.retokens ρ.token ns) f)
  | .leaf v t :: lo :: hi :: b :: body, f => (enter_follows ρ f.scope).bind fun scope =>
      (declare_follows ρ scope v t).bind fun _ => (requireExpression_follows ρ lo).bind fun _ =>
        (requireExpression_follows ρ hi).bind fun _ => (node_follows lo ((f.within scope).under "=")).bind fun _ =>
          (node_follows hi ((f.within scope).under "<=")).bind fun _ =>
            (statements_follows (b :: body) (f.within scope).deeper false).bind_pure _
  | .list es t :: _ :: _ :: _ :: _, _ => by
    have hs := Node.surface_retoken ρ.token (.list es t)
    simp only [Node.retoken] at hs
    simp only [Node.retokens, Node.retoken, forLoop, hs]
    exact follows_fail (Node.leftmost_relabel ρ (.list es t)) rfl
  | [], _ => follows_fail (ρ.pos_token op) rfl
  | [n], _ => by cases n <;> exact follows_fail (ρ.pos_token op) rfl
  | [n, _], _ => by cases n <;> exact follows_fail (ρ.pos_token op) rfl
  | [n, _, _], _ => by cases n <;> exact follows_fail (ρ.pos_token op) rfl
termination_by structural ns => ns

theorem operation_follows (name : String) (op : Token) (target : String) : ∀ (ns : List Node) (f : Frame),
    Follows ρ.pos (operation d name op target ns f) (operation d name (ρ.token op) target (Node.retokens ρ.token ns) f)
  | [], _ => follows_fail (ρ.pos_token op) rfl
  | [n], f => by
    simp only [Node.retokens, operation, minus_retoken]
    refine follows_ite ?_ (follows_fail (ρ.pos_token op) rfl)
    exact (requireExpression_follows ρ n).bind fun _ => (node_follows n (f.under name)).bind_pure _
  | n :: m :: rest, f => (requireAll_follows ρ (n :: m :: rest)).bind fun _ =>
      (node_follows n (f.under name)).bind fun _ => (nodes_follows (m :: rest) (f.under name)).bind_pure _
termination_by structural ns => ns

theorem comparison_follows (name : String) (op : Token) (target : String) : ∀ (ns : List Node) (f : Frame),
    Follows ρ.pos (comparison d name op target ns f)
      (comparison d name (ρ.token op) target (Node.retokens ρ.token ns) f)
  | [n, m], f => (requireAll_follows ρ [n, m]).bind fun _ =>
      (node_follows n (f.under name)).bind fun _ => (node_follows m (f.under name)).bind_pure _
  | [], _ => follows_fail (ρ.pos_token op) rfl
  | [_], _ => follows_fail (ρ.pos_token op) rfl
  | _ :: _ :: _ :: rest, _ => by
    simp only [Node.retokens, comparison, Node.retokens_eq_map, List.length_cons, List.length_map]
    exact follows_fail (ρ.pos_token op) rfl
termination_by structural ns => ns

theorem unary_follows (name : String) (op : Token) (target : String) : ∀ (ns : List Node) (f : Frame),
    Follows ρ.pos (unary d name op target ns f) (unary d name (ρ.token op) target (Node.retokens ρ.token ns) f)
  | [n], f => (requireExpression_follows ρ n).bind fun _ => (node_follows n (f.under name)).bind_pure _
  | [], _ => follows_fail (ρ.pos_token op) rfl
  | _ :: _ :: rest, _ => by
    simp only [Node.retokens, unary, Node.retokens_eq_map, List.length_cons, List.length_map]
    exact follows_fail (ρ.pos_token op) rfl
termination_by structural ns => ns

theorem quotation_follows (name : String) (op : Token) (quasi : Bool) : ∀ (ns : List Node) (f : Frame),
    Follows ρ.pos (quotation d name op quasi ns f) (quotation d name (ρ.token op) quasi (Node.retokens ρ.token ns) f)
  | [n], f => datum_follows quasi n f
  | [], _ => follows_fail (ρ.pos_token op) rfl
  | _ :: _ :: rest, _ => by
    simp only [Node.retokens, quotation, Node.retokens_eq_map, List.length_cons, List.length_map]
    exact follows_fail (ρ.pos_token op) rfl
termination_by structural ns => ns

theorem datum_follows (quasi : Bool) : ∀ (n : Node) (f : Frame),
    Follows ρ.pos (datum d quasi n f) (datum d quasi (n.retoken ρ.token) f)
  | .leaf v _, _ => follows_pure _
  | .list es t, f => by
    have hf := formOf_retoken (d := d) ρ (.list es t)
    simp only [Node.retoken] at hf
    simp only [Node.retoken, datum, hf, any_isSpliced_retokens]
    split
    · exact inserted_follows "unquote" es f
    · exact follows_fail (Node.leftmost_relabel ρ (.list es t)) rfl
    · refine follows_ite ?_ ?_
      · exact (splices_follows es f).bind_pure _
      · exact (data_follows quasi es f).bind_pure _
termination_by structural n => n

theorem inserted_follows (role : String) : ∀ (ns : List Node) (f : Frame),
    Follows ρ.pos (inserted d role ns f) (inserted d role (Node.retokens ρ.token ns) f)
  | [_, n], f => (requireExpression_follows ρ n).bind fun _ => node_follows n (f.under role)
  | [], _ => follows_pure _
  | [n], _ => by
    simp only [Node.retokens, inserted, Node.surface_retoken]
    exact follows_fail (Node.leftmost_relabel ρ n) rfl
  | n :: _ :: _ :: rest, _ => by
    simp only [Node.retokens, inserted, Node.surface_retoken, Node.retokens_eq_map, List.length_cons, List.length_map]
    exact follows_fail (Node.leftmost_relabel ρ n) rfl
termination_by structural ns => ns

theorem data_follows (quasi : Bool) : ∀ (ns : List Node) (f : Frame),
    Follows ρ.pos (data d quasi ns f) (data d quasi (Node.retokens ρ.token ns) f)
  | [], _ => follows_pure _
  | n :: ns, f => (datum_follows quasi n f).bind fun _ => (data_follows quasi ns f).bind_pure _
termination_by structural ns => ns

theorem splices_follows : ∀ (ns : List Node) (f : Frame),
    Follows ρ.pos (splices d ns f) (splices d (Node.retokens ρ.token ns) f)
  | [], _ => follows_pure _
  | .leaf v _ :: ns, f => (splices_follows ns f).bind_pure _
  | .list es t :: ns, f => by
    have hf := formOf_retoken (d := d) ρ (.list es t)
    simp only [Node.retoken] at hf
    simp only [Node.retokens, Node.retoken, splices, isSpliced, hf]
    have hrest := fun s : String => (splices_follows ns f).bind_pure fun rest => s :: rest
    refine follows_ite ?_ ?_
    · exact (inserted_follows "unquote-splicing" es f).bind hrest
    · exact (datum_follows true (.list es t) f).bind fun _ => (follows_pure _).bind hrest
termination_by structural ns => ns

end

/-- **A program elsewhere gives the same code**, or the same error elsewhere. -/
theorem generate_relabel (T : ScopeTable) (ns : List Node) :
    generate d (T.relocate ρ.pos) (Node.retokens ρ.token ns) = relocateOutcome ρ.pos (generate d T ns) := by
  rw [generate_eq, generate_eq, nodes_follows ρ ns .top T]
  rcases exec (nodes d ns .top) T with ⟨r, T'⟩
  cases r <;> rfl

end Recursion
end Emit

end QuasiScript
