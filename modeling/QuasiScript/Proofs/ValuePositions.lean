import QuasiScript.Proofs.Binding
import QuasiScript.Proofs.StatementStarts

/-!
# Statements in value positions

Some elements of a form are used for their value: operands, initial values, tests, bounds and what templates insert
(`valueElements`). Each of them is checked before it is emitted, so in an accepted program they are expressions, and
`Accepts.isExpression_of_mem` says so of one form. What a function returns is used for its value too, but is not checked: it is
chosen by the form that its head selects, and not every head of a statement selects one.
-/
namespace QuasiScript
open Dialect (standard)

namespace Marked
variable {d : Dialect} {n m : Node} {path : List Nat}

theorem TailFrom.evaluated (h : TailFrom d n path m) : Evaluated d n path m := by
  induction h with
  | here n => exact .here n
  | sequence hform _ _ he _ ih => exact .element (by simp [hform]) he ih
  | «when» hform _ _ he _ ih => exact .element (by simp [hform]) he ih
  | clause hform hcs _ _ he _ ih => exact .clause hform hcs he ih

theorem TailOf.evaluated (h : TailOf d n path m) : Evaluated d n path m := by
  cases h with
  | body hform hi _ he hfrom => exact .body hform hi he hfrom.evaluated

end Marked

namespace Emit
open Marked
open Text (PartOf)
open Binding (entryValues unquoted unquotedEach)

def initialValues : List Node → List Node
  | [] => []
  | .list _ _ :: rest => initialValues rest
  | [.leaf _ _] => []
  | .leaf _ _ :: n :: rest => if isInitializer n then n :: initialValues rest else initialValues (n :: rest)

def tests : List Node → List Node
  | .list (test :: _) _ :: rest => test :: tests rest
  | _ :: rest => tests rest
  | [] => []

/-- **The elements of a form that stand in value positions.** -/
def valueElements (d : Dialect) (form : Form) (es : List Node) : List Node :=
  match form with
  | .declaration => initialValues es.tail
  | .assignment => es.tail.getLast?.toList
  | .conditional => tests es.tail
  | .when | .whileLoop | .untilLoop => es.tail.take 1
  | .forLoop => (es.drop 2).take 2
  | .array => es.tail
  | .object => entryValues es.tail
  | .quasiquote => unquotedEach d es.tail
  | .ordinary | .unassigned _ => es
  | .lambda | .sequence | .existence | .quote | .unquote | .unquoteSplicing => []

/-! ## The checks of one form -/

section Forms
variable {d : Dialect}

theorem requireLast_ensures (ns : List Node) :
    Ensures (requireLast d ns) fun _ => ∀ n ∈ ns.getLast?, isExpression d n = true := by
  unfold requireLast
  split
  · rename_i n hn
    refine (requireExpression_ensures n).imp fun _ h m hm => ?_
    rw [hn, Option.mem_some_iff] at hm
    exact hm ▸ h
  · rename_i hn
    exact ensures_pure (by simp [hn])

theorem declarators_initialValues (f : Frame) : ∀ ns : List Node,
    Ensures (declarators d ns f) fun _ => ∀ n ∈ initialValues ns, isExpression d n = true
  | [] => ensures_pure (by simp [initialValues])
  | .list es t :: rest => ensures_bind fun _ => ensures_bind fun _ => (declarators_initialValues f rest).bind_pure fun _ h => h
  | [.leaf v t] => ensures_bind fun _ => ensures_pure (by simp [initialValues])
  | .leaf v t :: n :: rest => by
    simp only [declarators, initialValues]
    refine ensures_bind fun _ => ensures_ite (fun hinit => ?_) fun hinit => ?_
    · refine (requireExpression_ensures n).bind fun _ hn => ensures_bind fun _ =>
        (declarators_initialValues f rest).bind_pure fun _ hrest => ?_
      rw [if_pos hinit]
      exact List.forall_mem_cons.2 ⟨hn, hrest⟩
    · rw [if_neg hinit]
      exact (declarators_initialValues f (n :: rest)).bind_pure fun _ h => h

theorem isExpression_of_tests {args : List Node} (h : ∀ n ∈ args, Clause d n) : ∀ n ∈ tests args, isExpression d n = true := by
  induction args with
  | nil => simp [tests]
  | cons n args ih =>
    obtain ⟨⟨test, b, body, t, rfl, htest, -⟩, hargs⟩ := List.forall_mem_cons.1 h
    refine List.forall_mem_cons.2 ⟨?_, ih hargs⟩
    rcases htest with helse | htest
    · cases test with
      | leaf v u => rfl
      | list es u => cases helse
    · exact htest.1

theorem isExpression_of_entryValues : ∀ {args : List Node}, Entries d args → ∀ n ∈ entryValues args, isExpression d n = true
  | [], _ => by simp [entryValues]
  | [_], _ => by simp [entryValues]
  | _ :: _ :: _, ⟨_, hn, hrest⟩ => List.forall_mem_cons.2 ⟨hn.1, isExpression_of_entryValues hrest⟩

theorem mem_unquotedEach {m : Node} {ns : List Node} : m ∈ unquotedEach d ns ↔ ∃ n ∈ ns, m ∈ unquoted d n := by
  induction ns with
  | nil => simp [unquotedEach]
  | cons n ns ih => simp [unquotedEach, ih]

theorem Insertion.isExpression {form : Form} (hform : form = .unquote ∨ form = .unquoteSplicing) {n : Node}
    (h : Insertion d form n) : ∀ m ∈ unquoted d n, isExpression d m = true := by
  obtain ⟨u, e, t, rfl, hf, he⟩ := h
  have hunquoted : unquoted d (.list [u, e] t) = [e] := by
    rcases hform with rfl | rfl <;> simp [unquoted, hf]
  rw [hunquoted]
  simpa using he.1

theorem Template.isExpression {n : Node} (h : Template d n) : ∀ m ∈ unquoted d n, isExpression d m = true := by
  induction h with
  | leaf v t => simp [unquoted]
  | inserted h => exact h.isExpression (.inl rfl)
  | @list es t hu hs _ hsplices ih =>
    intro m hm
    unfold unquoted at hm
    split at hm
    · exact absurd ‹_› hu
    · exact absurd ‹_› hs
    · obtain ⟨e, he, hm⟩ := mem_unquotedEach.1 hm
      cases hspliced : isSpliced d e with
      | false => exact ih e he hspliced m hm
      | true => exact (hsplices e he hspliced).isExpression (.inr rfl) m hm

/-- **The values that an accepted form uses are expressions.** -/
theorem Accepts.isExpression_of_mem {es : List Node} {t : Token} (h : Accepts d (.list es t)) :
    ∀ m ∈ valueElements d (formOf d (.list es t)) es, isExpression d m = true := by
  rcases h.head with ⟨es', t', args, rfl⟩ | ⟨name, op, args, rfl⟩
  · exact fun m hm => (h.call m hm).1
  have hformOf : formOf d (.list (.leaf (.symbol name) op :: args) t) = d.form name := rfl
  have hproper := h.proper
  rw [hformOf]
  cases hname : d.form name with
  | declaration =>
    -- what is proper for a declaration says nothing of its initial values
    obtain ⟨f, T, code, T', hexec⟩ := h
    have hinit : Ensures (node d (.list (.leaf (.symbol name) op :: args) t) f) fun _ =>
        ∀ n ∈ initialValues args, isExpression d n = true := by
      simp only [node, hname]
      exact ensures_bind fun _ => (declarators_initialValues _ args).bind_pure fun _ h => h
    exact hinit T code T' hexec
  | assignment =>
    obtain ⟨f, T, code, T', hexec⟩ := h
    have hlast : Ensures (node d (.list (.leaf (.symbol name) op :: args) t) f) fun _ =>
        ∀ n ∈ args.getLast?, isExpression d n = true := by
      simp only [node, hname]
      exact ensures_bind fun _ => (requireLast_ensures args).bind fun _ h => fun _ _ _ _ => h
    exact fun m hm => hlast T code T' hexec m (Option.mem_toList.1 hm)
  | conditional =>
    rw [hname] at hproper
    exact isExpression_of_tests hproper.2
  | «when» | whileLoop | untilLoop =>
    rw [hname] at hproper
    obtain ⟨test, b, body, rfl, htest, -⟩ := hproper
    simpa [valueElements] using htest.1
  | forLoop =>
    rw [hname] at hproper
    obtain ⟨v, u, lo, hi, b, body, rfl, hlo, hhi, -⟩ := hproper
    simpa [valueElements] using ⟨hlo.1, hhi.1⟩
  | array =>
    rw [hname] at hproper
    exact fun m hm => (hproper m hm).1
  | object =>
    rw [hname] at hproper
    exact isExpression_of_entryValues hproper.2
  | quasiquote =>
    rw [hname] at hproper
    obtain ⟨n, rfl, hn⟩ := hproper
    intro m hm
    obtain ⟨n', hn', hm⟩ := mem_unquotedEach.1 hm
    rw [List.tail_cons, List.mem_singleton] at hn'
    exact hn.isExpression m (hn' ▸ hm)
  | ordinary | unassigned _ =>
    rw [hname] at hproper
    exact List.forall_mem_cons.2 ⟨rfl, fun m hm => (hproper m hm).1⟩
  | lambda | sequence | existence | quote | unquote | unquoteSplicing => simp [valueElements]

/-- Of an accepted list only the head decides whether it is an expression. -/
theorem Accepts.isExpression_iff {es : List Node} {t : Token} (h : Accepts d (.list es t)) :
    isExpression d (.list es t) = true ↔ ∀ name, Node.head? es = some name → d.isStatement name = false := by
  rcases h.head with ⟨es', t', args, rfl⟩ | ⟨name, op, args, rfl⟩
  · have hcallee : isExpression d (.list es' t') = true := (h.call _ List.mem_cons_self).1
    simpa [isExpression, Node.head?, Node.symbol?] using hcallee
  · simp [isExpression, Node.head?, Node.symbol?, Value.symbol?]

end Forms

/-! ## Programs -/

theorem accepts_of_tailWithin {d : Dialect} {n : Node} {path : List Nat} {es : List Node} {t : Token} (h : Accepts d n)
    (htail : TailWithin d n path (.list es t)) : Accepts d (.list es t) := by
  obtain ⟨before, after, fn, -, hev, htail⟩ := htail
  obtain ⟨es', t', rfl⟩ := exists_list_of_evaluated htail.evaluated
  exact Accepts.of_evaluated htail.evaluated (Accepts.of_evaluated hev h _ _ rfl) _ _ rfl

/-- The heads of statements that select no form, and the one form that is returned though it is a statement. -/
theorem isStatement_standard_iff {name : String} (h : yields (standard.form name) = true) :
    standard.isStatement name = true ↔ name ∈ ["=", "break", "continue", "delete", "label", "return"] := by
  constructor
  · intro hname
    rw [Dialect.isStatement, List.contains_iff_mem] at hname
    by_contra hnot
    have hrest : name ∈ standard.statements.filter fun s => s ∉ ["=", "break", "continue", "delete", "label", "return"] :=
      List.mem_filter.2 ⟨hname, by simpa using hnot⟩
    have hforms : ∀ s ∈ standard.statements.filter fun s => s ∉ ["=", "break", "continue", "delete", "label", "return"],
        yields (standard.form s) = false := by decide
    rw [hforms name hrest] at h
    cases h
  · intro hname
    have hall : ∀ s ∈ ["=", "break", "continue", "delete", "label", "return"], standard.isStatement s = true := by decide
    exact hall name hname

/-- An accepted list that is returned is an expression unless it has one of these heads. -/
theorem isExpression_of_yields_iff {n : Node} (hyields : yields (formOf standard n) = true)
    (h : ∀ es t, n = .list es t → Accepts standard n) :
    isExpression standard n = false ↔ ∃ name op args t, n = .list (.leaf (.symbol name) op :: args) t ∧
      name ∈ ["=", "break", "continue", "delete", "label", "return"] := by
  rcases n with ⟨v, t⟩ | ⟨es, t⟩
  · simp [isExpression]
  have haccepts := h es t rfl
  rw [← Bool.not_eq_true, haccepts.isExpression_iff]
  rcases haccepts.head with ⟨es', t', args, rfl⟩ | ⟨name, op, args, rfl⟩
  · simp [Node.head?, Node.symbol?]
  · have hstatement := @isStatement_standard_iff name hyields
    simp only [Node.head?, Node.symbol?, Value.symbol?, Option.some.injEq, forall_eq', Bool.not_eq_false, hstatement]
    constructor
    · exact fun hname => ⟨name, op, args, t, rfl, hname⟩
    · rintro ⟨_, _, _, _, heq, hname⟩
      cases heq
      exact hname

/-- **Statements and value positions.** In an accepted program all elements of forms that stand in value positions are
expressions. An element that is printed after `return` is one too, unless it is a list that leads with an assignment or
with one of five statements of the target that have no form of their own. -/
theorem generate_values_expressions {T T' : ScopeTable} {ns : List Node} {code : String}
    (h : generate standard T ns = (.ok code, T')) :
    ∀ n ∈ ns, PartOf (print standard (mark standard false n) .top ++ ";") code ∧
      (∀ path es t, Evaluated standard n path (.list es t) →
        ∀ m ∈ valueElements standard (formOf standard (.list es t)) es, isExpression standard m = true) ∧
      ∀ path m, (mark standard false n).at? path = some m → m.returned = true →
        (isExpression standard m.node = false ↔ ∃ name op args t, m.node = .list (.leaf (.symbol name) op :: args) t ∧
          name ∈ ["=", "break", "continue", "delete", "label", "return"]) := by
  intro n hn
  obtain ⟨haccepts, hprint⟩ := print_partOf_generate h hn
  refine ⟨hprint, fun path es t hev => ?_, fun path m hm hreturned => ?_⟩
  · exact (haccepts.of_evaluated hev es t rfl).isExpression_of_mem
  · obtain ⟨hyields, htail⟩ := (returned_mark path n false m hm).1 hreturned
    replace htail : TailWithin standard n path m.node := by simpa using htail
    refine isExpression_of_yields_iff hyields fun es t hlist => ?_
    rw [hlist] at htail ⊢
    exact accepts_of_tailWithin haccepts htail

/-- The test and the product are expressions, and of the two ends of the function the second one is. -/
theorem generate_values_expressions_branches :
    let t : Token := ⟨.atom, "", .start⟩
    let name (s : String) : Node := .leaf (.symbol s) t
    let test : Node := .list [name "f", name "x"] t
    let product : Node := .list [name "*", name "x", test] t
    let clause : Node := .list [test, .list [name "=", name "x", product] t] t
    let n : Node := .list [name "fun", .list [name "x"] t, .list [name "if", clause, .list [name "else", product] t] t] t
    (generate standard .initial [n]).1 =
        .ok "(function(x) \x7b if (f(x)) \x7b return x = x * f(x); \x7d\n  else \x7b return x * f(x); \x7d; \x7d);\n" ∧
      isExpression standard test = true ∧ isExpression standard product = true ∧
      (∃ m, (mark standard false n).at? [2, 1, 1] = some m ∧ m.returned = true ∧ isExpression standard m.node = false) ∧
      ∃ m, (mark standard false n).at? [2, 2, 1] = some m ∧ m.returned = true ∧ isExpression standard m.node = true := by
  intro t name test product clause n
  have hcode : (generate standard .initial [n]).1 =
      .ok "(function(x) \x7b if (f(x)) \x7b return x = x * f(x); \x7d\n  else \x7b return x * f(x); \x7d; \x7d);\n" := by
    cbv
  obtain ⟨-, hvalues, hreturned⟩ := generate_values_expressions (Prod.ext hcode rfl) n List.mem_cons_self
  have hconditional : Evaluated standard n [2] (.list [name "if", clause, .list [name "else", product] t] t) :=
    .body (by decide) (by decide) rfl (.here _)
  have hassignment : Evaluated standard n [2, 1, 1] (.list [name "=", name "x", product] t) :=
    .body (by decide) (by decide) rfl (.clause (by decide) rfl rfl (.here _))
  refine ⟨hcode, ?_, ?_, ⟨_, rfl, rfl, ?_⟩, _, rfl, rfl, ?_⟩
  · exact hvalues _ _ _ hconditional test List.mem_cons_self
  · exact hvalues _ _ _ hassignment product List.mem_cons_self
  · exact (hreturned [2, 1, 1] _ rfl rfl).2 ⟨"=", t, _, t, rfl, by decide⟩
  · refine Bool.of_not_eq_false fun hstatement => ?_
    obtain ⟨_, _, _, _, heq, hname⟩ := (hreturned [2, 2, 1] _ rfl rfl).1 hstatement
    cases heq
    exact absurd hname (by decide)

/-- A function may end in a statement that is returned all the same, though it is no assignment. -/
theorem generate_returns_statement :
    let ns := (Reading.ofText standard "(fun (x) (return x))".toList).nodes
    (generate standard .initial ns).1 = .ok "(function(x) \x7b return return(x); \x7d);\n" ∧
      ns.map (fun n => ((mark standard false n).at? [2]).map fun m =>
        (m.returned, m.node.surface, isExpression standard m.node)) = [some (true, "(return x)", false)] :=
  ⟨by cbv, by cbv⟩

end Emit
end QuasiScript
