import QuasiScript.Proofs.Grammar
import QuasiScript.Proofs.Incremental

/-!
# What compile errors point at

An emission stops at its first error. What is wrong stands at the token of some node beneath the one that is emitted,
whatever was declared before it (`Blamed`): each function of the recursion blames one of the nodes it is given, and a
node beneath one of those is beneath the whole (`node_blames`). A key is called a repetition for one reason only, an
object with an earlier key of the same name. A program is therefore rejected at one of its top-level nodes, and the
tokens of that node are those of the text from which it was read (`generate_error_points`).
-/
namespace QuasiScript
open Dialect (standard)

/-! ## Nodes beneath a node -/

/-- The first node is the second one, or stands somewhere in it. -/
inductive Node.Beneath : Node → Node → Prop where
  | here {n : Node} : Beneath n n
  | element {m n : Node} {es : List Node} {t : Token} : n ∈ es → Beneath m n → Beneath m (.list es t)

theorem Node.exists_beneath_leftmost (n : Node) : ∃ m : Node, m.Beneath n ∧ m.pos = n.leftmost := by
  fun_induction Node.leftmost n with
  | case1 v t => exact ⟨.leaf v t, .here, rfl⟩
  | case2 t => exact ⟨.list [] t, .here, rfl⟩
  | case3 t n ns ih =>
    obtain ⟨m, hm, hpos⟩ := ih
    exact ⟨m, .element List.mem_cons_self hm, hpos⟩

/-! ## Property names -/

def Value.propertyName : Value → String
  | .symbol name => name
  | .string contents => contents
  | .number _ value => Target.numberName value
  | v => Target.literal v

def Node.propertyName? : Node → Option String
  | .leaf v _ => some v.propertyName
  | .list _ _ => none

def CompileCause.isRepetition : CompileCause → Bool
  | .duplicateKey _ => true
  | _ => false

namespace Emit

def pairs : List Node → List (Node × Node)
  | k :: n :: rest => (k, n) :: pairs rest
  | _ => []

def propertyNames (ps : List (Node × Node)) : List String := ps.filterMap fun p => p.1.propertyName?

theorem keyOf_name (d : Dialect) (v : Value) : (keyOf d v).name = v.propertyName := by
  cases v <;> rfl

theorem mem_of_mem_pairs {p : Node × Node} {args : List Node} (h : p ∈ pairs args) : p.1 ∈ args ∧ p.2 ∈ args := by
  fun_induction pairs args with
  | case1 k n rest ih =>
    rcases List.mem_cons.1 h with rfl | h
    · simp
    · obtain ⟨hk, hn⟩ := ih h
      simp [hk, hn]
  | case2 => simp at h

/-! ## Errors and what they blame -/

section Blame
variable {α β : Type} {d : Dialect} {P Q : CompileError → Prop}

/-- **Whenever the emission fails, its error has the property.** -/
def Blames (m : Emit α) (P : CompileError → Prop) : Prop :=
  ∀ (T : ScopeTable) (e : CompileError) (T' : ScopeTable), exec m T = (.error e, T') → P e

/-- The error is about a key of these arguments, whose name is among those before it or among others. -/
def Repeats (d : Dialect) (others : List String) (args : List Node) (e : CompileError) : Prop :=
  ∃ before v t n after, pairs args = before ++ (.leaf v t, n) :: after ∧
    e = ⟨t.pos, .duplicateKey (keyOf d v).text⟩ ∧ v.propertyName ∈ propertyNames before ++ others

/-- **What an error of a node is about**: it stands at the token of some node beneath it, and a key that is called a
repetition is one, in an object beneath it. -/
structure Blamed (d : Dialect) (n : Node) (e : CompileError) : Prop where
  placed : ∃ m : Node, m.Beneath n ∧ m.pos = e.pos
  repeats : e.cause.isRepetition = true → ∃ name op args t, d.form name = .object ∧
    Node.Beneath (.list (.leaf (.symbol name) op :: args) t) n ∧ Repeats d [] args e

def BlamedAmong (d : Dialect) (ns : List Node) (e : CompileError) : Prop := ∃ n ∈ ns, Blamed d n e

def BlamedEntries (d : Dialect) (others : List String) (args : List Node) (e : CompileError) : Prop :=
  BlamedAmong d args e ∨ Repeats d others args e

theorem blames_pure (a : α) : Blames (pure a) P := by
  intro T e T' h
  cases h

theorem blames_fail {p : Position} {c : CompileCause} (h : P ⟨p, c⟩) : Blames (fail p c : Emit α) P := by
  intro T e T' he
  cases he
  exact h

theorem Blames.bind {m : Emit α} {k : α → Emit β} (h : Blames m P) (hk : ∀ a, Blames (k a) P) :
    Blames (m >>= k) P := by
  intro T e T' he
  rw [exec_bind] at he
  rcases hm : exec m T with ⟨r, T₁⟩
  rw [hm] at he
  cases r with
  | ok a => exact hk a T₁ e T' he
  | error e' =>
    cases he
    exact h T e T' hm

theorem Blames.bind_pure {m : Emit α} {g : α → β} (h : Blames m P) : Blames (m >>= fun a => pure (g a)) P :=
  h.bind fun a => blames_pure (g a)

theorem Blames.imp {m : Emit α} (h : Blames m P) (hPQ : ∀ e, P e → Q e) : Blames m Q :=
  fun T e T' he => hPQ e (h T e T' he)

theorem blames_ite {c : Prop} [Decidable c] {m m' : Emit α} (h : c → Blames m P) (h' : ¬ c → Blames m' P) :
    Blames (if c then m else m') P := by
  split
  · exact h ‹_›
  · exact h' ‹_›

/-- An error at the beginning of a node is about that node. -/
theorem blames_leftmost {n : Node} {c : CompileCause} (h : c.isRepetition = false) :
    Blames (fail n.leftmost c : Emit α) (Blamed d n) := by
  refine blames_fail ⟨n.exists_beneath_leftmost, fun hc => ?_⟩
  rw [h] at hc
  cases hc

theorem blames_leaf (v : Value) (t : Token) {c : CompileCause} (h : c.isRepetition = false) :
    Blames (fail t.pos c : Emit α) (Blamed d (.leaf v t)) :=
  blames_leftmost (n := .leaf v t) h

theorem Blamed.in_list {n : Node} {es : List Node} {e : CompileError} (h : Blamed d n e) (hn : n ∈ es) (t : Token) :
    Blamed d (.list es t) e := by
  obtain ⟨m, hm, hpos⟩ := h.placed
  refine ⟨⟨m, .element hn hm, hpos⟩, fun hc => ?_⟩
  obtain ⟨name, op, args, o, hform, hobject, hrepeats⟩ := h.repeats hc
  exact ⟨name, op, args, o, hform, .element hn hobject, hrepeats⟩

/-- What is about an element is about the list. -/
theorem Blames.in_list {m : Emit α} {es : List Node} (h : Blames m (BlamedAmong d es)) (t : Token) :
    Blames m (Blamed d (.list es t)) :=
  h.imp fun _ ⟨_, hn, he⟩ => he.in_list hn t

theorem Blames.head {m : Emit α} {n : Node} {ns : List Node} (h : Blames m (Blamed d n)) :
    Blames m (BlamedAmong d (n :: ns)) :=
  h.imp fun _ he => ⟨n, List.mem_cons_self, he⟩

theorem Blames.tail {m : Emit α} {n : Node} {ns : List Node} (h : Blames m (BlamedAmong d ns)) :
    Blames m (BlamedAmong d (n :: ns)) :=
  h.imp fun _ ⟨k, hk, he⟩ => ⟨k, List.mem_cons_of_mem n hk, he⟩

end Blame

/-! ## The parts of an emission -/

section Parts
variable {d : Dialect}

theorem atLeast_blames (name : String) (op : Token) (args : List Node) (n : Nat) :
    Blames (atLeast name op args n) (Blamed d (.leaf (.symbol name) op)) :=
  blames_ite (fun _ => blames_pure _) fun _ => blames_leaf _ op rfl

theorem requireExpression_blames (n : Node) : Blames (requireExpression d n) (Blamed d n) :=
  blames_ite (fun _ => blames_pure _) fun _ => blames_leftmost rfl

theorem requireAll_blames (ns : List Node) : Blames (requireAll d ns) (BlamedAmong d ns) := by
  induction ns with
  | nil => exact blames_pure _
  | cons n ns ih => exact (requireExpression_blames n).head.bind fun _ => ih.tail

theorem requireLast_blames (ns : List Node) : Blames (requireLast d ns) (BlamedAmong d ns) := by
  unfold requireLast
  cases hlast : ns.getLast? with
  | none => exact blames_pure _
  | some n => exact (requireExpression_blames n).imp fun _ he => ⟨n, List.mem_of_getLast? hlast, he⟩

theorem requireAssignment_blames (es : List Node) (o : Token) :
    Blames (requireAssignment es o) (Blamed d (.list es o)) := by
  refine blames_ite (fun _ => blames_pure _) fun _ => ?_
  cases es with
  | nil => exact blames_leftmost (n := .list [] o) rfl
  | cons n es => exact (blames_leftmost rfl).head.in_list o

theorem requireLastClause_blames (i : Nat) (rest : List Node) (test : Node) :
    Blames (requireLastClause i rest test) (Blamed d test) :=
  blames_ite (fun _ => blames_leftmost rfl) fun _ =>
    blames_ite (fun _ => blames_pure _) fun _ => blames_leftmost rfl

theorem declare_blames (scope : Int) (v : Value) (t : Token) : Blames (declare d scope v t) (Blamed d (.leaf v t)) := by
  unfold declare
  cases v.symbol? with
  | none => exact blames_leaf v t rfl
  | some name =>
    refine blames_ite (fun _ => blames_leaf v t rfl) fun _ => blames_ite (fun _ => blames_leaf v t rfl) fun _ => ?_
    -- the error names the earlier declaration, but it stands at the later one
    intro T e T' he
    rw [exec_modifyGet_bind] at he
    cases hprevious : (T.declare scope name t.pos).1 with
    | none =>
      rw [hprevious] at he
      cases he
    | some p =>
      rw [hprevious] at he
      exact blames_leaf v t rfl _ e T' he

theorem enter_blames {P : CompileError → Prop} (scope : Int) : Blames (enter scope) P := by
  intro T e T' he
  cases he

theorem checkTarget_blames (f : Frame) (n : Node) : Blames (checkTarget d f n) (Blamed d n) := by
  cases n with
  | list es t => exact blames_leftmost rfl
  | leaf v t =>
    unfold checkTarget
    dsimp only
    cases v.symbol? with
    | none => exact blames_leaf v t rfl
    | some name =>
      refine blames_ite (fun _ => declare_blames f.scope v t) fun _ =>
        blames_ite (fun _ => blames_leaf v t rfl) fun _ => ?_
      intro T e T' he
      rw [exec_get_bind] at he
      exact blames_ite (fun _ => blames_pure _) (fun _ => blames_leaf v t rfl) T e T' he

theorem checkTargets_blames (f : Frame) (ns : List Node) : Blames (checkTargets d f ns) (BlamedAmong d ns) := by
  induction ns with
  | nil => exact blames_pure _
  | cons n ns ih => exact (checkTarget_blames f n).head.bind fun _ => ih.tail

theorem parameters_blames (scope : Int) (i : Nat) (ns : List Node) :
    Blames (parameters d scope i ns) (BlamedAmong d ns) := by
  induction ns generalizing i with
  | nil => exact blames_pure _
  | cons n ns ih =>
    cases n with
    | list es t => exact (blames_leftmost rfl).head
    | leaf v t =>
      unfold parameters
      refine blames_ite (fun _ => ?_) fun _ => (declare_blames scope v t).head.bind fun _ => (ih (i + 1)).tail.bind_pure
      rcases ns with _ | ⟨n, _ | ⟨m, rest⟩⟩
      · exact (blames_leaf v t rfl).head
      · cases n with
        | leaf r rt => exact (declare_blames scope r rt).head.tail.bind_pure
        | list es o => exact (blames_leftmost rfl).head.tail
      · cases n <;> exact (blames_leaf v t rfl).head

theorem leaf_blames (v : Value) (t : Token) (f : Frame) : Blames (leaf d v t f) (Blamed d (.leaf v t)) := by
  unfold leaf
  split
  · exact (declare_blames f.scope v t).bind_pure
  · exact blames_pure _

theorem existence_blames (name : String) (op : Token) (args : List Node) (f : Frame) :
    Blames (existence d name op args f) (BlamedAmong d (.leaf (.symbol name) op :: args)) := by
  rcases args with _ | ⟨n, _ | ⟨m, rest⟩⟩
  · exact (blames_leaf _ op rfl).head
  · dsimp only [existence]
    cases n.symbol? with
    | none => exact (blames_leftmost rfl).head.tail
    | some x => exact blames_pure _
  · exact (blames_leaf _ op rfl).head

/-- The error of a key that repeats another one is about the object. -/
theorem Repeats.blamed {name : String} {op t : Token} {args : List Node} {e : CompileError}
    (hform : d.form name = .object) (h : Repeats d [] args e) :
    Blamed d (.list (.leaf (.symbol name) op :: args) t) e := by
  refine ⟨?_, fun _ => ⟨name, op, args, t, hform, .here, h⟩⟩
  obtain ⟨before, v, t', n, after, hpairs, rfl, -⟩ := h
  have hmem : (.leaf v t', n) ∈ pairs args := by simp [hpairs]
  exact ⟨.leaf v t', .element (List.mem_cons_of_mem _ (mem_of_mem_pairs hmem).1) .here, rfl⟩

/-- What is about the entries behind an entry is about all of them: a name that repeats that of the entry repeats one
before it. -/
theorem BlamedEntries.cons {seen : List String} {v : Value} {rest : List Node} {e : CompileError}
    (h : BlamedEntries d ((keyOf d v).name :: seen) rest e) (t : Token) (n : Node) :
    BlamedEntries d seen (.leaf v t :: n :: rest) e := by
  rcases h with ⟨m, hm, he⟩ | ⟨before, v', t', n', after, hpairs, he, hmem⟩
  · exact .inl ⟨m, by simp [hm], he⟩
  · refine .inr ⟨(.leaf v t, n) :: before, v', t', n', after, by rw [pairs, hpairs, List.cons_append], he, ?_⟩
    have hnames : propertyNames ((.leaf v t, n) :: before) = v.propertyName :: propertyNames before := rfl
    simp only [keyOf_name, hnames, List.mem_append, List.mem_cons] at hmem ⊢
    tauto

end Parts

/-! ## The recursion -/

section Recursion
variable {d : Dialect}

mutual

/-- **Every error of a node is about it**, whatever the scopes are and wherever it stands. -/
theorem node_blames : ∀ (n : Node) (f : Frame), Blames (node d n f) (Blamed d n)
  | .leaf v t, f => leaf_blames v t f
  | .list [] t, _ => blames_leftmost (n := .list [] t) rfl
  | .list (.list es t :: args) o, f => by
    refine Blames.in_list ?_ o
    exact (requireExpression_blames (.list es t)).head.bind fun _ =>
      (node_blames (.list es t) (f.under "call")).head.bind fun _ =>
        (operands_blames args (f.under "call")).tail.bind_pure
  | .list (.leaf (.symbol name) op :: args) o, f => by
    simp only [node]
    cases hform : d.form name with
    | object =>
      refine blames_ite (fun _ => ?_) fun _ => (blames_leaf _ op rfl).head.in_list o
      refine ((entries_blames [] args (f.under "object").deeper).imp fun e he => ?_).bind_pure
      rcases he with ⟨n, hn, he⟩ | hrepeats
      · exact he.in_list (List.mem_cons_of_mem _ hn) o
      · exact hrepeats.blamed hform
    | declaration =>
      refine Blames.in_list ?_ o
      exact (atLeast_blames name op args 1).head.bind fun _ => (declarators_blames args (f.under "var")).tail.bind_pure
    | assignment =>
      refine Blames.in_list ?_ o
      have htargets : Blames (checkTargets d f args.dropLast) (BlamedAmong d args) :=
        (checkTargets_blames f args.dropLast).imp fun _ ⟨n, hn, he⟩ => ⟨n, List.mem_of_mem_dropLast hn, he⟩
      exact (atLeast_blames name op args 2).head.bind fun _ => (requireLast_blames args).tail.bind fun _ =>
        htargets.tail.bind fun _ => (nodes_blames args (f.under "=")).tail.bind_pure
    | lambda => exact (lambda_blames name op args f).in_list o
    | sequence =>
      refine Blames.in_list ?_ o
      exact (atLeast_blames name op args 1).head.bind fun _ => (statements_blames args f.deeper f.tail).tail.bind_pure
    | conditional =>
      refine Blames.in_list ?_ o
      exact (atLeast_blames name op args 1).head.bind fun _ => (clauses_blames 1 args f).tail.bind_pure
    | «when» => exact (guarded_blames name op "if (" "when" f.tail args f).in_list o
    | array => exact (operands_blames args (f.under "array")).tail.bind_pure.in_list o
    | existence => exact (existence_blames name op args f).in_list o
    | forLoop => exact (forLoop_blames name op args f).in_list o
    | whileLoop => exact (guarded_blames name op "while (" "while" false args f).in_list o
    | untilLoop => exact (guarded_blames name op "while (!" "not" false args f).in_list o
    | quote => exact (quotation_blames name op false args f).in_list o
    | quasiquote => exact (quotation_blames name op true args f).in_list o
    | unquote => exact (blames_leaf _ op rfl).head.in_list o
    | unquoteSplicing => exact (blames_leaf _ op rfl).head.in_list o
    | ordinary | unassigned _ =>
      refine Blames.in_list ?_ o
      simp only
      cases d.binaryOperators.get? name with
      | some target => exact operation_blames name op target args f
      | none =>
        cases d.comparisons.get? name with
        | some target => exact comparison_blames name op target args f
        | none =>
          cases d.unaryOperators.get? name with
          | some target => exact unary_blames name op target args f
          | none => exact (operands_blames args (f.under "call")).tail.bind_pure
  | .list (.leaf (.number _ _) op :: _) o, _ => (blames_leaf _ op rfl).head.in_list o
  | .list (.leaf (.boolean _) op :: _) o, _ => (blames_leaf _ op rfl).head.in_list o
  | .list (.leaf (.constant _ _) op :: _) o, _ => (blames_leaf _ op rfl).head.in_list o
  | .list (.leaf (.string _) op :: _) o, _ => (blames_leaf _ op rfl).head.in_list o
termination_by structural n => n

theorem nodes_blames : ∀ (ns : List Node) (f : Frame), Blames (nodes d ns f) (BlamedAmong d ns)
  | [], _ => blames_pure _
  | n :: ns, f => (node_blames n f).head.bind fun _ => (nodes_blames ns f).tail.bind_pure
termination_by structural ns => ns

theorem operands_blames : ∀ (ns : List Node) (f : Frame), Blames (operands d ns f) (BlamedAmong d ns)
  | [], _ => blames_pure _
  | n :: ns, f => (requireExpression_blames n).head.bind fun _ => (node_blames n f).head.bind fun _ =>
      (operands_blames ns f).tail.bind_pure
termination_by structural ns => ns

theorem statements_blames : ∀ (ns : List Node) (f : Frame) (tail : Bool),
    Blames (statements d ns f tail) (BlamedAmong d ns)
  | [], _, _ => blames_pure _
  | n :: ns, f, tail => by
    simp only [statements]
    exact (node_blames n _).head.bind fun _ => (statements_blames ns f tail).tail.bind_pure
termination_by structural ns => ns

theorem declarators_blames : ∀ (ns : List Node) (f : Frame), Blames (declarators d ns f) (BlamedAmong d ns)
  | [], _ => blames_pure _
  | .list es t :: rest, f => (requireAssignment_blames es t).head.bind fun _ =>
      (node_blames (.list es t) f).head.bind fun _ => (declarators_blames rest f).tail.bind_pure
  | [.leaf v t], f => (leaf_blames v t f).head.bind_pure
  | .leaf v t :: n :: rest, f => by
    simp only [declarators]
    refine (leaf_blames v t f).head.bind fun _ => blames_ite (fun _ => ?_) fun _ => ?_
    · exact (requireExpression_blames n).head.tail.bind fun _ =>
        (node_blames n (f.under "=")).head.tail.bind fun _ => (declarators_blames rest f).tail.tail.bind_pure
    · exact (declarators_blames (n :: rest) f).tail.bind_pure
termination_by structural ns => ns

theorem lambda_blames (name : String) (op : Token) : ∀ (args : List Node) (f : Frame),
    Blames (lambda d name op args f) (BlamedAmong d (.leaf (.symbol name) op :: args))
  | .list ps t :: b :: body, f => by
    refine Blames.tail ((enter_blames f.scope).bind fun scope => ?_)
    exact ((parameters_blames scope 0 ps).in_list t).head.bind fun _ =>
      (statements_blames (b :: body) (f.within scope).deeper true).tail.bind_pure
  | .leaf _ _ :: _ :: _, _ => (blames_leftmost rfl).head.tail
  | [], _ => (blames_leaf _ op rfl).head
  | [.leaf _ _], _ => (blames_leaf _ op rfl).head
  | [.list _ _], _ => (blames_leaf _ op rfl).head
termination_by structural ns => ns

theorem clauses_blames : ∀ (i : Nat) (ns : List Node) (f : Frame), Blames (clauses d i ns f) (BlamedAmong d ns)
  | _, [], _ => blames_pure _
  | _, .leaf _ _ :: _, _ => (blames_leftmost rfl).head
  | _, .list [] _ :: _, _ => (blames_leftmost rfl).head
  | _, .list [_] _ :: _, _ => (blames_leftmost rfl).head
  | i, .list (test :: b :: body) t :: rest, f => by
    have hbody := ((statements_blames (b :: body) f.deeper f.tail).tail (n := test)).in_list t
    have hrest := fun lead : String => hbody.head.bind fun ss =>
      (clauses_blames (i + 1) rest f).tail.bind_pure (g := fun more => (lead ++ blockText f none ss) :: more)
    simp only [clauses]
    by_cases htest : test.symbol? = some "else"
    · rw [if_pos htest]
      exact ((requireLastClause_blames i rest test).head.in_list t).head.bind fun _ => (blames_pure _).bind hrest
    · rw [if_neg htest]
      exact ((requireExpression_blames test).head.in_list t).head.bind fun _ =>
        ((node_blames test (f.under "if")).head.in_list t).head.bind fun _ => (blames_pure _).bind hrest
termination_by structural _ ns => ns

theorem guarded_blames (name : String) (op : Token) (lead role : String) (tail : Bool) :
    ∀ (args : List Node) (f : Frame),
      Blames (guarded d name op lead role tail args f) (BlamedAmong d (.leaf (.symbol name) op :: args))
  | test :: b :: body, f => (requireExpression_blames test).head.tail.bind fun _ =>
      (node_blames test (f.under role)).head.tail.bind fun _ =>
        (statements_blames (b :: body) f.deeper tail).tail.tail.bind_pure
  | [], _ => (blames_leaf _ op rfl).head
  | [_], _ => (blames_leaf _ op rfl).head
termination_by structural ns => ns

theorem entries_blames : ∀ (seen : List String) (args : List Node) (f : Frame),
    Blames (entries d seen args f) (BlamedEntries d seen args)
  | _, [], _ => blames_pure _
  | _, [_], _ => blames_pure _
  | seen, k :: n :: rest, f => by
    cases k with
    | list es t => exact (blames_leftmost rfl).head.imp fun _ => .inl
    | leaf v t =>
      have hvalue : ∀ {α : Type} {m : Emit α}, Blames m (Blamed d n) →
          Blames m (BlamedEntries d seen (.leaf v t :: n :: rest)) := fun h => h.head.tail.imp fun _ => .inl
      have hmore : Blames (do
          requireExpression d n
          let s ← node d n f
          let more ← entries d ((keyOf d v).name :: seen) rest f
          pure (((keyOf d v).text ++ ": " ++ s) :: more)) (BlamedEntries d seen (.leaf v t :: n :: rest)) :=
        (hvalue (requireExpression_blames n)).bind fun _ => (hvalue (node_blames n f)).bind fun _ =>
          ((entries_blames ((keyOf d v).name :: seen) rest f).imp fun _ he => he.cons t n).bind_pure
      refine blames_ite (fun hseen => ?_) fun _ => hmore
      refine Blames.bind (blames_fail (.inr ⟨[], v, t, n, pairs rest, rfl, rfl, ?_⟩)) fun _ => hmore
      rw [← keyOf_name d v]
      exact hseen
termination_by structural _ ns => ns

theorem forLoop_blames (name : String) (op : Token) : ∀ (args : List Node) (f : Frame),
    Blames (forLoop d name op args f) (BlamedAmong d (.leaf (.symbol name) op :: args))
  | .leaf v t :: lo :: hi :: b :: body, f => by
    refine Blames.tail ((enter_blames f.scope).bind fun scope => (declare_blames scope v t).head.bind fun _ => ?_)
    exact (requireExpression_blames lo).head.tail.bind fun _ =>
      (requireExpression_blames hi).head.tail.tail.bind fun _ =>
      (node_blames lo ((f.within scope).under "=")).head.tail.bind fun _ =>
        (node_blames hi ((f.within scope).under "<=")).head.tail.tail.bind fun _ =>
          (statements_blames (b :: body) (f.within scope).deeper false).tail.tail.tail.bind_pure
  | .list _ _ :: _ :: _ :: _ :: _, _ => (blames_leftmost rfl).head.tail
  | [], _ => (blames_leaf _ op rfl).head
  | [n], _ => by cases n <;> exact (blames_leaf _ op rfl).head
  | [n, _], _ => by cases n <;> exact (blames_leaf _ op rfl).head
  | [n, _, _], _ => by cases n <;> exact (blames_leaf _ op rfl).head
termination_by structural ns => ns

theorem operation_blames (name : String) (op : Token) (target : String) : ∀ (args : List Node) (f : Frame),
    Blames (operation d name op target args f) (BlamedAmong d (.leaf (.symbol name) op :: args))
  | [], _ => (blames_leaf _ op rfl).head
  | [n], f => by
    refine blames_ite (fun _ => ?_) fun _ => (blames_leaf _ op rfl).head
    exact (requireExpression_blames n).head.tail.bind fun _ => (node_blames n (f.under name)).head.tail.bind_pure
  | n :: m :: rest, f => (requireAll_blames (n :: m :: rest)).tail.bind fun _ =>
      (node_blames n (f.under name)).head.tail.bind fun _ =>
        (nodes_blames (m :: rest) (f.under name)).tail.tail.bind_pure
termination_by structural ns => ns

theorem comparison_blames (name : String) (op : Token) (target : String) : ∀ (args : List Node) (f : Frame),
    Blames (comparison d name op target args f) (BlamedAmong d (.leaf (.symbol name) op :: args))
  | [n, m], f => (requireAll_blames [n, m]).tail.bind fun _ => (node_blames n (f.under name)).head.tail.bind fun _ =>
      (node_blames m (f.under name)).head.tail.tail.bind_pure
  | [], _ => (blames_leaf _ op rfl).head
  | [_], _ => (blames_leaf _ op rfl).head
  | _ :: _ :: _ :: _, _ => (blames_leaf _ op rfl).head
termination_by structural ns => ns

theorem unary_blames (name : String) (op : Token) (target : String) : ∀ (args : List Node) (f : Frame),
    Blames (unary d name op target args f) (BlamedAmong d (.leaf (.symbol name) op :: args))
  | [n], f => (requireExpression_blames n).head.tail.bind fun _ => (node_blames n (f.under name)).head.tail.bind_pure
  | [], _ => (blames_leaf _ op rfl).head
  | _ :: _ :: _, _ => (blames_leaf _ op rfl).head
termination_by structural ns => ns

theorem quotation_blames (name : String) (op : Token) (quasi : Bool) : ∀ (args : List Node) (f : Frame),
    Blames (quotation d name op quasi args f) (BlamedAmong d (.leaf (.symbol name) op :: args))
  | [n], f => (datum_blames quasi n f).head.tail
  | [], _ => (blames_leaf _ op rfl).head
  | _ :: _ :: _, _ => (blames_leaf _ op rfl).head
termination_by structural ns => ns

theorem datum_blames (quasi : Bool) : ∀ (n : Node) (f : Frame), Blames (datum d quasi n f) (Blamed d n)
  | .leaf _ _, _ => blames_pure _
  | .list es t, f => by
    simp only [datum]
    split
    · exact (inserted_blames "unquote" es f).in_list t
    · exact blames_leftmost rfl
    · exact blames_ite (fun _ => ((splices_blames es f).in_list t).bind_pure) fun _ =>
        ((data_blames quasi es f).in_list t).bind_pure
termination_by structural n => n

theorem inserted_blames (role : String) : ∀ (es : List Node) (f : Frame),
    Blames (inserted d role es f) (BlamedAmong d es)
  | [_, n], f => (requireExpression_blames n).head.tail.bind fun _ => (node_blames n (f.under role)).head.tail
  | [], _ => blames_pure _
  | [_], _ => (blames_leftmost rfl).head
  | _ :: _ :: _ :: _, _ => (blames_leftmost rfl).head
termination_by structural ns => ns

theorem data_blames (quasi : Bool) : ∀ (ns : List Node) (f : Frame), Blames (data d quasi ns f) (BlamedAmong d ns)
  | [], _ => blames_pure _
  | n :: ns, f => (datum_blames quasi n f).head.bind fun _ => (data_blames quasi ns f).tail.bind_pure
termination_by structural ns => ns

theorem splices_blames : ∀ (ns : List Node) (f : Frame), Blames (splices d ns f) (BlamedAmong d ns)
  | [], _ => blames_pure _
  | .leaf _ _ :: ns, f => (splices_blames ns f).tail.bind_pure
  | .list es t :: ns, f => by
    simp only [splices]
    have hrest := fun s : String =>
      ((splices_blames ns f).tail (n := .list es t)).bind_pure (g := fun rest => s :: rest)
    exact blames_ite (fun _ => ((inserted_blames "unquote-splicing" es f).in_list t).head.bind hrest) fun _ =>
      (datum_blames true (.list es t) f).head.bind fun _ => (blames_pure _).bind hrest
termination_by structural ns => ns

end

end Recursion

/-! ## Programs -/

section Programs
variable {d : Dialect}

/-- Nodes in a row fail at one of them, on the scopes that those before it leave. -/
theorem nodes_error {f : Frame} {ns : List Node} {T T' : ScopeTable} {e : CompileError}
    (h : exec (nodes d ns f) T = (.error e, T')) :
    ∃ ms n ms' codes T₁, ns = ms ++ n :: ms' ∧ exec (nodes d ms f) T = (.ok codes, T₁) ∧
      exec (node d n f) T₁ = (.error e, T') := by
  induction ns generalizing T with
  | nil => cases h
  | cons n ns ih =>
    rw [nodes, exec_bind] at h
    rcases hn : exec (node d n f) T with ⟨r, T₁⟩
    rw [hn] at h
    cases r with
    | error e' =>
      cases h
      exact ⟨[], n, ns, [], T, rfl, rfl, hn⟩
    | ok s =>
      dsimp only at h
      rw [exec_bind] at h
      rcases hns : exec (nodes d ns f) T₁ with ⟨r, T₂⟩
      rw [hns] at h
      cases r with
      | ok codes => cases h
      | error e' =>
        cases h
        obtain ⟨ms, m, ms', codes, T₃, rfl, hok, herror⟩ := ih hns
        refine ⟨n :: ms, m, ms', s :: codes, T₃, rfl, ?_, herror⟩
        rw [nodes, exec_bind_of_ok hn, exec_bind_of_ok hok, exec_pure]

theorem exec_nodes_of_generate_error {ns : List Node} {T : ScopeTable} {e : CompileError}
    (h : (generate d T ns).1 = .error e) : ∃ T', exec (nodes d ns .top) T = (.error e, T') := by
  rw [generate_eq] at h
  rcases hns : exec (nodes d ns .top) T with ⟨r, T'⟩
  rw [hns] at h
  cases r with
  | ok codes => cases h
  | error e' =>
    cases h
    exact ⟨T', rfl⟩

/-- What follows an error does not matter. -/
theorem exec_nodes_append_error {f : Frame} {ms ns : List Node} {n : Node} {codes : List String}
    {T T₁ T' : ScopeTable} {e : CompileError} (hok : exec (nodes d ms f) T = (.ok codes, T₁))
    (herror : exec (node d n f) T₁ = (.error e, T')) : exec (nodes d (ms ++ n :: ns) f) T = (.error e, T') := by
  rw [nodes_append, exec_bind_of_ok hok, nodes, exec_bind, exec_bind, herror]

end Programs
end Emit

namespace Reading

section Positions
variable {d : Dialect} {m n : Node} {ts : List Token}

/-- What stands beneath an element has its positions from the tokens of the elements. -/
theorem pos_of_beneath_items {items : List (List Token × Node)} (hn : n ∈ items.map Prod.snd)
    (h : ∀ i ∈ items, m.Beneath i.2 → ∃ t ∈ i.1, t.pos = m.pos) (hm : m.Beneath n) (o c : Token) :
    ∃ t ∈ o :: (items.flatMap Prod.fst ++ [c]), t.pos = m.pos := by
  obtain ⟨i, hi, rfl⟩ := List.mem_map.1 hn
  obtain ⟨t, ht, hpos⟩ := h i hi hm
  have hmem : t ∈ items.flatMap Prod.fst := List.mem_flatMap.2 ⟨i, hi, ht⟩
  exact ⟨t, by simp [hmem], hpos⟩

/-- **A node has its positions from the tokens it was read from**, whatever abbreviations were spelt out. -/
theorem Derives.pos_of_beneath (h : Derives d ts n) (hm : m.Beneath n) : ∃ t ∈ ts, t.pos = m.pos := by
  induction h with
  | @atom t =>
    cases hm
    exact ⟨t, List.mem_singleton_self t, rfl⟩
  | @string t =>
    cases hm
    exact ⟨t, List.mem_singleton_self t, rfl⟩
  | @list o c items _ _ _ _ _ ih =>
    cases hm with
    | here => exact ⟨o, List.mem_cons_self, rfl⟩
    | element hn hm => exact pos_of_beneath_items hn ih hm o c
  | @sugaredList o c symbol items _ _ _ _ _ ih =>
    cases hm with
    | here => exact ⟨o, List.mem_cons_self, rfl⟩
    | element hn hm =>
      rcases List.mem_cons.1 hn with rfl | hn
      · cases hm
        exact ⟨o, List.mem_cons_self, rfl⟩
      · exact pos_of_beneath_items hn ih hm o c
  | @sugared p ps ts symbol n _ _ _ ih =>
    cases hm with
    | here => exact ⟨p, List.mem_cons_self, rfl⟩
    | element hn hm =>
      rcases List.mem_cons.1 hn with rfl | hn
      · cases hm
        exact ⟨p, List.mem_cons_self, rfl⟩
      · obtain rfl := List.mem_singleton.1 hn
        obtain ⟨t, ht, hpos⟩ := ih hm
        exact ⟨t, by simp [ht], hpos⟩

/-- Tokens of nodes in a row are those of the first nodes, of one node, and of the others. -/
theorem Units.split {ms ns : List Node} (h : Units d ts (ms ++ n :: ns)) :
    ∃ before unit after, ts = before ++ unit ++ after ∧ Units d before ms ∧ Derives d unit n ∧ Units d after ns := by
  obtain ⟨items, hitems, rfl, hnodes⟩ := h
  obtain ⟨first, rest, rfl, rfl, hrest⟩ := List.map_eq_append_iff.1 hnodes.symm
  obtain ⟨i, others, rfl, rfl, rfl⟩ := List.map_eq_cons_iff.1 hrest
  refine ⟨first.flatMap Prod.fst, i.1, others.flatMap Prod.fst, by simp, ?_, hitems i (by simp), ?_⟩
  · exact ⟨first, fun j hj => hitems j (by simp [hj]), rfl, rfl⟩
  · exact ⟨others, fun j hj => hitems j (by simp [hj]), rfl, rfl⟩

end Positions
end Reading

namespace Emit
open Token (words)
open Reading (Units Derives)

/-- **Compile errors point at the node that fails.** A text that is read but gives no code has a top-level node such
that all before it give code, and with it there is the same error and the same scopes as in the end. The tokens of the
text are those of the nodes before it, its own, and those of the nodes behind it, and the error stands at one of its
own. -/
theorem generate_error_points {text : List Char} {T : ScopeTable} {e : CompileError}
    (hread : (Reading.ofText standard text).error = none)
    (h : (generate standard T (Reading.ofText standard text).nodes).1 = .error e) :
    ∃ ms n ns, (Reading.ofText standard text).nodes = ms ++ n :: ns ∧
      (∃ code, (generate standard T ms).1 = .ok code) ∧
      generate standard T (ms ++ [n]) = generate standard T (ms ++ n :: ns) ∧
      ∃ before unit after, words (Scan.ofText standard text).tokens = before ++ unit ++ after ∧
        Units standard before ms ∧ Derives standard unit n ∧ Units standard after ns ∧ ∃ t ∈ unit, t.pos = e.pos := by
  have hunits := (Reading.units_of_ofText hread).2
  obtain ⟨T', herror⟩ := exec_nodes_of_generate_error h
  obtain ⟨ms, n, ns, codes, T₁, hnodes, hok, hn⟩ := nodes_error herror
  rw [hnodes] at hunits
  obtain ⟨before, unit, after, htokens, hbefore, hunit, hafter⟩ := hunits.split
  refine ⟨ms, n, ns, hnodes, ⟨_, congrArg Prod.fst (generate_eq_ok_iff.2 ⟨codes, hok, rfl⟩)⟩, ?_,
    before, unit, after, htokens, hbefore, hunit, hafter, ?_⟩
  · simp only [generate_eq, exec_nodes_append_error hok hn]
  · obtain ⟨m, hm, hpos⟩ := (node_blames n .top T₁ e T' hn).placed
    obtain ⟨t, ht, htpos⟩ := hunit.pos_of_beneath hm
    exact ⟨t, ht, htpos.trans hpos⟩

/-- The name was declared by the first node, and the third one, which declares it again, is at fault. -/
theorem generate_error_points_redeclared :
    let text := "(var x 1)\n'(y)\n(begin [1 2]\n\t(var x 3))\n(f ())".toList
    let e : CompileError := ⟨⟨4, 10⟩, .redeclared "x" ⟨1, 6⟩⟩
    (Reading.ofText standard text).error = none ∧
      (generate standard .initial (Reading.ofText standard text).nodes).1 = .error e ∧
      ∃ ms n ns, (Reading.ofText standard text).nodes = ms ++ n :: ns ∧
        (∃ code, (generate standard .initial ms).1 = .ok code) ∧
        generate standard .initial (ms ++ [n]) = generate standard .initial (ms ++ n :: ns) ∧
        ∃ before unit after, words (Scan.ofText standard text).tokens = before ++ unit ++ after ∧
          Units standard before ms ∧ Derives standard unit n ∧ Units standard after ns ∧ ∃ t ∈ unit, t.pos = e.pos := by
  intro text e
  have hread : (Reading.ofText standard "(var x 1)\n'(y)\n(begin [1 2]\n\t(var x 3))\n(f ())".toList).error = none := by
    cbv
  have herror : (generate standard .initial
      (Reading.ofText standard "(var x 1)\n'(y)\n(begin [1 2]\n\t(var x 3))\n(f ())".toList).nodes).1 =
        .error ⟨⟨4, 10⟩, .redeclared "x" ⟨1, 6⟩⟩ := by
    cbv
  exact ⟨hread, herror, generate_error_points hread herror⟩

end Emit
end QuasiScript
