import QuasiScript.Proofs.Aliases

/-!
# Forms go by their tables

A program that uses another name for a special form, in a dialect whose tables know it, is emitted as before: what an
emission gives on success, the respelt one gives too (`Simulates`). There are two exceptions. Assignments among declarators
are found by the name `=` itself, so there no other name is accepted; and operands of calls are emitted under the name
`call`, which must not be one of a statement (`generate_respell`).
-/
namespace QuasiScript
open Dialect (standard)

namespace Emit

/-! ## Simulation -/

section Simulates
variable {α β : Type}

/-- **What the first emission gives, the second one gives too**, and it leaves the same scopes. -/
def Simulates (m m' : Emit α) : Prop := ∀ T b T', exec m T = (.ok b, T') → exec m' T = (.ok b, T')

theorem Simulates.refl (m : Emit α) : Simulates m m := fun _ _ _ h => h

theorem simulates_fail {p : Position} {c : CompileCause} {m : Emit α} : Simulates (fail p c) m := by
  intro T b T' h
  cases h

theorem Simulates.bind {m m' : Emit α} {k k' : α → Emit β} (h : Simulates m m') (hk : ∀ a, Simulates (k a) (k' a)) :
    Simulates (m >>= k) (m' >>= k') := by
  intro T b T' hb
  obtain ⟨a, T₁, ha, hb⟩ := exec_bind_ok hb
  rw [exec_bind_of_ok (h T a T₁ ha)]
  exact hk a T₁ b T' hb

theorem Simulates.bind_pure {m m' : Emit α} (h : Simulates m m') (g : α → β) :
    Simulates (m >>= fun a => pure (g a)) (m' >>= fun a => pure (g a)) :=
  h.bind fun a => .refl (pure (g a))

/-- Something that is checked stays true. -/
theorem simulates_check {c c' : Prop} [Decidable c] [Decidable c'] {m m' x : Emit α} {p : Position} {e : CompileCause}
    (hc : c → c') (h : Simulates m m') : Simulates (if c then m else fail p e) (if c' then m' else x) := by
  by_cases hyes : c
  · rw [if_pos hyes, if_pos (hc hyes)]
    exact h
  · rw [if_neg hyes]
    exact simulates_fail

theorem simulates_ite {c : Prop} [Decidable c] {m₁ m₁' m₂ m₂' : Emit α} (h₁ : Simulates m₁ m₁')
    (h₂ : Simulates m₂ m₂') : Simulates (if c then m₁ else m₂) (if c then m₁' else m₂') := by
  split
  · exact h₁
  · exact h₂

end Simulates

/-! ## What a node is under its other name -/

section Alike
variable {a : Alias} {sparing : Prop} {S : Choice} {n : Node}

/-- A head under its other name: it selects the same form, and only names of special forms have another one. -/
theorem exists_spelling {name : String} {op t : Token} {args : List Node}
    (hhead : S [] = true → ∃ op' args' t',
      Node.list (.leaf (.symbol name) op :: args) t = .list (.leaf (.symbol a.name) op' :: args') t')
    (hfresh : .symbol a.other ∉ Node.leaves (.list (.leaf (.symbol name) op :: args) t)) :
    ∃ name', a.spell (S []) (.symbol name) = .symbol name' ∧ a.dialect.form name' = standard.form name ∧
      a.dialect.isStatement name' = standard.isStatement name ∧
      (name' = name ∧ name ≠ a.other ∨ name' = a.other ∧ name = a.name) := by
  have hne : name ≠ a.other := by
    rintro rfl
    exact hfresh (by simp [Node.leaves, Node.leavesEach])
  cases hS : S [] with
  | false => exact ⟨name, rfl, Alias.form_of_ne hne, Alias.isStatement_of_ne hne, .inl ⟨rfl, hne⟩⟩
  | true =>
    obtain ⟨op', args', t', heq⟩ := hhead hS
    obtain rfl : name = a.name := by
      cases heq
      rfl
    exact ⟨a.other, rfl, Alias.form_other, Alias.isStatement_other, .inr ⟨rfl, rfl⟩⟩

theorem symbol?_respell (a : Alias) (S : Choice) (n : Node) : (a.respell S n).symbol? = n.symbol? := by
  cases n <;> rfl

theorem formOf_respell (hhead : S [] = true → ∃ op args t, n = .list (.leaf (.symbol a.name) op :: args) t)
    (hfresh : .symbol a.other ∉ n.leaves) : formOf a.dialect (a.respell S n) = formOf standard n := by
  rcases n with ⟨v, t⟩ | ⟨_ | ⟨⟨v, op⟩ | ⟨es, u⟩, args⟩, t⟩
  · rfl
  · rfl
  · cases v with
    | symbol name =>
      obtain ⟨name', hspell, hform, -⟩ := exists_spelling hhead hfresh
      rw [Alias.respell, Alias.respellElements, hspell]
      exact hform
    | number _ _ | boolean _ | constant _ _ | string _ =>
      cases hS : S [] with
      | false =>
        rw [Alias.respell, Alias.respellElements, hS]
        rfl
      | true =>
        obtain ⟨_, _, _, heq⟩ := hhead hS
        cases heq
  · rfl

theorem isExpression_respell : ∀ {n : Node} {S : Choice}, a.Chosen sparing S n →
    isExpression a.dialect (a.respell S n) = isExpression standard n
  | .leaf _ _, _, _ => rfl
  | .list [] _, _, _ => rfl
  | .list (.list es u :: args) t, S, h => by
    have hcallee : a.Chosen sparing (S.under 0) (.list es u) := h.element (by simp [formOf, Node.head?, Node.symbol?]) rfl
    have hrest := isExpression_respell hcallee
    exact hrest
  | .list (.leaf v op :: args) t, S, h => by
    cases v with
    | symbol name =>
      obtain ⟨name', hspell, -, hstatement, -⟩ := exists_spelling h.head h.fresh
      rw [Alias.respell, Alias.respellElements, hspell]
      simp [isExpression, Value.symbol?, hstatement]
    | number _ _ | boolean _ | constant _ _ | string _ =>
      cases hS : S [] with
      | false =>
        rw [Alias.respell, Alias.respellElements, hS]
        rfl
      | true =>
        obtain ⟨_, _, _, heq⟩ := h.head hS
        cases heq

end Alike

/-! ## The parts of an emission -/

section Parts
variable {a : Alias} {S : Choice} {n : Node} {f : Frame}

/-- Where a node stands, the dialects agree on what is a statement. -/
def Agrees (a : Alias) (f : Frame) : Prop := f.statementLevel a.dialect = f.statementLevel standard

theorem agrees_under (f : Frame) {name : String} (h : name ≠ a.other) : Agrees a (f.under name) :=
  Alias.isStatement_of_ne h

/-- Operands of calls stay where no statements are. -/
def SparesCalls (a : Alias) : Prop := a.other = "call" → standard.isStatement a.name = false

theorem agrees_call (hcall : SparesCalls a) (f : Frame) : Agrees a (f.under "call") := Alias.isStatement_call hcall

/-- The names of the places that forms make are names of the language. -/
theorem agrees_place (f : Frame) {name : String}
    (h : name ∈ ["var", "=", "begin", "return", "if", "when", "while", "not", "array", "object", "<=", "unquote",
      "unquote-splicing"]) : Agrees a (f.under name) := by
  have hall : ∀ x ∈ ["var", "=", "begin", "return", "if", "when", "while", "not", "array", "object", "<=", "unquote",
      "unquote-splicing"], x ∈ standard.vocabulary := by decide
  exact agrees_under f (Alias.ne_other (hall name h))

theorem atLeast_simulates (head head' : String) (op : Token) {args args' : List Node} (h : args'.length = args.length)
    (k : Nat) : Simulates (atLeast head op args k) (atLeast head' op args' k) :=
  simulates_check (by rw [h]; exact fun h => h) (.refl _)

theorem requireExpression_simulates (h : a.Chosen True S n) :
    Simulates (requireExpression standard n) (requireExpression a.dialect (a.respell S n)) :=
  simulates_check (by rw [isExpression_respell h]; exact fun h => h) (.refl _)

theorem requireAll_simulates : ∀ {ns : List Node} {i : Nat}, S.Each (a.Chosen True) i ns →
    Simulates (requireAll standard ns) (requireAll a.dialect (a.respellFrom S i ns))
  | [], _, _ => .refl _
  | _ :: _, _, h => (requireExpression_simulates h.1).bind fun _ => requireAll_simulates h.2

theorem requireLast_simulates : ∀ {ns : List Node} {i : Nat}, S.Each (a.Chosen True) i ns →
    Simulates (requireLast standard ns) (requireLast a.dialect (a.respellFrom S i ns))
  | [], _, _ => .refl _
  | [_], _, h => requireExpression_simulates h.1
  | n :: m :: ns, i, h => by
    have hlast : ∀ (d : Dialect) (x y : Node) (xs : List Node), requireLast d (x :: y :: xs) = requireLast d (y :: xs) := by
      intro d x y xs
      rw [requireLast, requireLast, List.getLast?_cons_cons]
    rw [Alias.respellFrom, Alias.respellFrom, hlast, hlast]
    exact requireLast_simulates h.2

theorem checkTarget_simulates (f : Frame) (n : Node) :
    Simulates (checkTarget standard f n) (checkTarget a.dialect f (a.respell S n)) := by
  cases n with
  | leaf v t => exact .refl _
  | list es t => exact simulates_fail

theorem checkTargets_simulates (f : Frame) : ∀ (ns : List Node) (i : Nat),
    Simulates (checkTargets standard f ns.dropLast) (checkTargets a.dialect f (a.respellFrom S i ns).dropLast)
  | [], _ => .refl _
  | [_], _ => .refl _
  | n :: m :: ns, i => by
    rw [Alias.respellFrom, Alias.respellFrom, List.dropLast_cons_cons, List.dropLast_cons_cons]
    exact (checkTarget_simulates f n).bind fun _ => checkTargets_simulates f (m :: ns) (i + 1)

theorem parameters_dialect (scope : Int) : ∀ (ns : List Node) (i : Nat),
    parameters a.dialect scope i ns = parameters standard scope i ns
  | [], _ => rfl
  | .list _ _ :: _, _ => rfl
  | .leaf v t :: rest, i => by
    unfold parameters
    rw [parameters_dialect scope rest (i + 1)]
    rfl

theorem key_simulates (n : Node) : Simulates (key standard n) (key a.dialect (a.respell S n)) := by
  cases n with
  | leaf v t => exact .refl _
  | list es t => exact simulates_fail

theorem requireLastClause_simulates (k : Nat) (rest : List Node) (test : Node) (i : Nat) (test' : Node) :
    Simulates (requireLastClause k rest test) (requireLastClause k (a.respellFrom S i rest) test') := by
  unfold requireLastClause
  by_cases hk : k = 1
  · rw [if_pos hk]
    exact simulates_fail
  · rw [if_neg hk, if_neg hk]
    refine simulates_check (fun h => ?_) (.refl _)
    rw [List.isEmpty_iff] at h
    rw [h]
    rfl

theorem existence_simulates (name name' : String) (op : Token) (i : Nat) (hf : Agrees a f) : ∀ ns : List Node,
    Simulates (existence standard name op ns f) (existence a.dialect name' op (a.respellFrom S i ns) f)
  | [] => simulates_fail
  | [.list _ _] => simulates_fail
  | [.leaf v t] => by
    simp only [existence, Alias.respellFrom, Alias.respell]
    rw [show f.statementLevel a.dialect = f.statementLevel standard from hf]
    cases (Node.leaf v t).symbol? with
    | none => exact simulates_fail
    | some x => exact .refl _
  | _ :: _ :: _ => simulates_fail

theorem tailPlace_respell (h : a.Chosen True S n) (f : Frame) :
    tailPlace a.dialect (a.respell S n) f = tailPlace standard n f := by
  rw [tailPlace, tailPlace, formOf_respell h.head h.fresh]

theorem agrees_tailPlace (n : Node) (f : Frame) : Agrees a (tailPlace standard n f).2 := by
  unfold tailPlace
  split <;> exact agrees_place f (by decide)

/-- An assignment that is spared is one as before, and nothing else becomes one. -/
theorem head?_respellElements {es : List Node} {t : Token} (h : a.Chosen True S (.list es t))
    (hspares : a.name = "=" → S [] = false) : Node.head? (a.respellElements S es) = some "=" ↔ Node.head? es = some "=" := by
  cases hS : S [] with
  | false =>
    rw [Alias.respellElements_of_not hS]
    cases es with
    | nil => rfl
    | cons n args => rw [Alias.respellFrom, Node.head?, Node.head?, symbol?_respell]
  | true =>
    obtain ⟨op, args, u, heq⟩ := h.head hS
    cases heq
    have hname : a.name ≠ "=" := fun hname => absurd (hspares hname) (by simp [hS])
    have hother : a.other ≠ "=" := fun hother => a.fresh (by rw [hother]; decide)
    simp [Alias.respellElements, Alias.spell, hS, Node.head?, Node.symbol?, Value.symbol?, hname, hother]

theorem isInitializer_respell (h : a.Chosen True S n) (hspares : a.name = "=" → S [] = false) :
    isInitializer (a.respell S n) = isInitializer n := by
  cases n with
  | leaf v t => rfl
  | list es t =>
    have hhead : (Node.head? (a.respellElements S es) != some "=") = (Node.head? es != some "=") := by
      rw [bne, bne, Bool.not_inj_iff, Bool.eq_iff_iff, beq_iff_eq, beq_iff_eq]
      exact head?_respellElements h hspares
    simp only [Alias.respell, isInitializer, Node.symbol?, hhead]

theorem requireAssignment_simulates {es : List Node} {t : Token} (h : a.Chosen True S (.list es t))
    (hspares : a.name = "=" → S [] = false) :
    Simulates (requireAssignment es t) (requireAssignment (a.respellElements S es) t) := by
  unfold requireAssignment
  by_cases hhead : Node.head? es = some "="
  · rw [if_pos hhead, if_pos ((head?_respellElements h hspares).2 hhead)]
    exact .refl _
  · rw [if_neg hhead]
    cases es <;> exact simulates_fail

mutual

/-- Quoted data are the same in every dialect. -/
theorem datum_quoted (d d' : Dialect) : ∀ (n : Node) (f : Frame), datum d false n f = datum d' false n f
  | .leaf _ _, _ => rfl
  | .list es t, f => by
    simp only [datum, Bool.false_eq_true, if_false, Bool.false_and]
    rw [data_quoted d d' es f]

theorem data_quoted (d d' : Dialect) : ∀ (ns : List Node) (f : Frame), data d false ns f = data d' false ns f
  | [], _ => rfl
  | n :: ns, f => by rw [data, data, datum_quoted d d' n f, data_quoted d d' ns f]

end

/-- A quotation reads no table of the dialect. -/
theorem quotation_quoted_simulates (name name' : String) (op : Token) (ns : List Node) (f : Frame) :
    Simulates (quotation standard name op false ns f) (quotation a.dialect name' op false ns f) := by
  rcases ns with _ | ⟨n, _ | ⟨m, rest⟩⟩
  · exact simulates_fail
  · rw [quotation, quotation, datum_quoted a.dialect standard]
    exact .refl _
  · exact simulates_fail

theorem any_isSpliced_respell : ∀ {ns : List Node} {i : Nat}, S.Each (a.ChosenTemplate True) i ns →
    (a.respellFrom S i ns).any (isSpliced a.dialect) = ns.any (isSpliced standard)
  | [], _, _ => rfl
  | n :: ns, i, h => by
    have hn : isSpliced a.dialect (a.respell (S.under i) n) = isSpliced standard n := by
      rw [isSpliced, isSpliced, formOf_respell h.1.head h.1.fresh]
    rw [Alias.respellFrom, List.any_cons, List.any_cons, hn, any_isSpliced_respell h.2]

end Parts

/-! ## The recursion -/

section Recursion
variable {a : Alias}

mutual

theorem node_simulates (hcall : SparesCalls a) : ∀ (n : Node) (S : Choice) (f : Frame), a.Chosen True S n → Agrees a f →
    Simulates (node standard n f) (node a.dialect (a.respell S n) f)
  | .leaf _ _, _, _, _, _ => .refl _
  | .list [] _, _, _, _, _ => simulates_fail
  | .list (.list es u :: args) t, S, f, h, _ => by
    have hes := h.elements (by simp [formOf, Node.head?, Node.symbol?])
    exact (requireExpression_simulates hes.1).bind fun _ =>
      (node_simulates hcall (.list es u) (S.under 0) (f.under "call") hes.1 (agrees_call hcall f)).bind fun _ =>
        (operands_simulates hcall args S 1 (f.under "call") hes.2 (agrees_call hcall f)).bind_pure _
  | .list (.leaf (.symbol name) op :: args) t, S, f, h, hf => by
    have hformOf : formOf standard (.list (.leaf (.symbol name) op :: args) t) = standard.form name := rfl
    have hargs : standard.form name ∉ [.lambda, .conditional, .quote, .quasiquote] → S.Each (a.Chosen True) 1 args :=
      fun hform => (h.elements (by rwa [hformOf])).2
    obtain ⟨name', hspell, hform', -, hname⟩ := exists_spelling h.head h.fresh
    have hlength := Alias.length_respellFrom a S 1 args
    rw [Alias.respell, Alias.respellElements, hspell]
    simp only [node, hform']
    cases hform : standard.form name with
    | declaration =>
      have hspares : a.name = "=" → ∀ i, S [i] = false :=
        fun heq i => h.spares trivial heq [] i _ _ (.here _) (hformOf.trans hform)
      exact (atLeast_simulates name name' op hlength 1).bind fun _ =>
        (declarators_simulates hcall args S 1 (f.under "var") (hargs (by simp [hform])) hspares
          (agrees_place f (by decide))).bind_pure _
    | assignment =>
      have hargs := hargs (by simp [hform])
      exact (atLeast_simulates name name' op hlength 2).bind fun _ => (requireLast_simulates hargs).bind fun _ =>
        (checkTargets_simulates f args 1).bind fun _ =>
          (nodes_simulates hcall args S 1 (f.under "=") hargs (agrees_place f (by decide))).bind_pure _
    | lambda =>
      obtain ⟨hps, hbody⟩ := h.body (hformOf.trans hform)
      exact lambda_simulates hcall name name' op args S f hps (by simpa using hbody)
    | sequence =>
      exact (atLeast_simulates name name' op hlength 1).bind fun _ =>
        (statements_simulates hcall args S 1 f.deeper f.tail (hargs (by simp [hform]))).bind_pure _
    | conditional =>
      refine (atLeast_simulates name name' op hlength 1).bind fun _ =>
        (clauses_simulates hcall 1 args S 1 f fun i cs u hcs => ?_).bind_pure _
      rw [Nat.add_comm 1 i]
      exact h.clause (hformOf.trans hform) hcs
    | «when» =>
      exact guarded_simulates hcall name name' op "if (" "when" f.tail args S 1 f (hargs (by simp [hform]))
        (agrees_place f (by decide))
    | array =>
      exact (operands_simulates hcall args S 1 (f.under "array") (hargs (by simp [hform]))
        (agrees_place f (by decide))).bind_pure _
    | object =>
      refine simulates_check (by rw [hlength]; exact fun h => h) ?_
      exact (entries_simulates hcall [] args S 1 (f.under "object").deeper (hargs (by simp [hform]))
        (agrees_place f (by decide))).bind_pure _
    | existence => exact existence_simulates name name' op 1 hf args
    | forLoop => exact forLoop_simulates hcall name name' op args S 1 f (hargs (by simp [hform]))
    | whileLoop =>
      exact guarded_simulates hcall name name' op "while (" "while" false args S 1 f (hargs (by simp [hform]))
        (agrees_place f (by decide))
    | untilLoop =>
      exact guarded_simulates hcall name name' op "while (!" "not" false args S 1 f (hargs (by simp [hform]))
        (agrees_place f (by decide))
    | quote =>
      rw [Alias.respellFrom_of_none args S 1 fun i path _ => h.quoted (hformOf.trans hform) path]
      exact quotation_quoted_simulates name name' op args f
    | quasiquote =>
      refine quotation_simulates hcall name name' op args S f fun n hn => ?_
      exact h.template (hformOf.trans hform) (i := 1) (by rw [hn]; rfl)
    | unquote => exact simulates_fail
    | unquoteSplicing => exact simulates_fail
    | ordinary | unassigned _ =>
      -- only the name of a special form has another one
      obtain ⟨rfl, hne⟩ : name' = name ∧ name ≠ a.other := by
        rcases hname with hname | ⟨-, rfl⟩
        · exact hname
        · exact absurd hform (by simp [Alias.form_name])
      have hargs := hargs (by simp [hform])
      have hplace : Agrees a (f.under name') := agrees_under f hne
      simp only
      rw [show a.dialect.binaryOperators = standard.binaryOperators from rfl,
        show a.dialect.comparisons = standard.comparisons from rfl,
        show a.dialect.unaryOperators = standard.unaryOperators from rfl]
      cases standard.binaryOperators.get? name' with
      | some target => exact operation_simulates hcall name' op target args S 1 f hargs hf hplace
      | none =>
        cases standard.comparisons.get? name' with
        | some target => exact comparison_simulates hcall name' op target args S 1 f hargs hf hplace
        | none =>
          cases standard.unaryOperators.get? name' with
          | some target => exact unary_simulates hcall name' op target args S 1 f hargs hplace
          | none => exact (operands_simulates hcall args S 1 (f.under "call") hargs (agrees_call hcall f)).bind_pure _
  | .list (.leaf (.number _ _) _ :: _) _, _, _, _, _ => simulates_fail
  | .list (.leaf (.boolean _) _ :: _) _, _, _, _, _ => simulates_fail
  | .list (.leaf (.constant _ _) _ :: _) _, _, _, _, _ => simulates_fail
  | .list (.leaf (.string _) _ :: _) _, _, _, _, _ => simulates_fail
termination_by structural n => n

theorem nodes_simulates (hcall : SparesCalls a) :
    ∀ (ns : List Node) (S : Choice) (i : Nat) (f : Frame), S.Each (a.Chosen True) i ns → Agrees a f →
    Simulates (nodes standard ns f) (nodes a.dialect (a.respellFrom S i ns) f)
  | [], _, _, _, _, _ => .refl _
  | n :: ns, S, i, f, h, hf => (node_simulates hcall n (S.under i) f h.1 hf).bind fun _ =>
      (nodes_simulates hcall ns S (i + 1) f h.2 hf).bind_pure _
termination_by structural ns => ns

theorem operands_simulates (hcall : SparesCalls a) :
    ∀ (ns : List Node) (S : Choice) (i : Nat) (f : Frame), S.Each (a.Chosen True) i ns →
    Agrees a f → Simulates (operands standard ns f) (operands a.dialect (a.respellFrom S i ns) f)
  | [], _, _, _, _, _ => .refl _
  | n :: ns, S, i, f, h, hf => (requireExpression_simulates h.1).bind fun _ =>
      (node_simulates hcall n (S.under i) f h.1 hf).bind fun _ =>
        (operands_simulates hcall ns S (i + 1) f h.2 hf).bind_pure _
termination_by structural ns => ns

theorem statements_simulates (hcall : SparesCalls a) :
    ∀ (ns : List Node) (S : Choice) (i : Nat) (f : Frame) (tail : Bool),
    S.Each (a.Chosen True) i ns →
    Simulates (statements standard ns f tail) (statements a.dialect (a.respellFrom S i ns) f tail)
  | [], _, _, _, _, _ => .refl _
  | n :: ns, S, i, f, tail, h => by
    have hempty : (a.respellFrom S (i + 1) ns).isEmpty = ns.isEmpty := by cases ns <;> rfl
    simp only [Alias.respellFrom, statements, hempty, tailPlace_respell h.1]
    generalize hp : (if (tail && ns.isEmpty) = true then tailPlace standard n f else ("", f.under "begin")) = place
    have hplace : Agrees a place.2 := by
      rw [← hp]
      split
      · exact agrees_tailPlace n f
      · exact agrees_place f (by decide)
    exact (node_simulates hcall n (S.under i) place.2 h.1 hplace).bind fun _ =>
      (statements_simulates hcall ns S (i + 1) f tail h.2).bind_pure _
termination_by structural ns => ns

theorem declarators_simulates (hcall : SparesCalls a) :
    ∀ (ns : List Node) (S : Choice) (i : Nat) (f : Frame), S.Each (a.Chosen True) i ns →
    (a.name = "=" → ∀ j, S [j] = false) → Agrees a f →
    Simulates (declarators standard ns f) (declarators a.dialect (a.respellFrom S i ns) f)
  | [], _, _, _, _, _, _ => .refl _
  | .list es t :: rest, S, i, f, h, hspares, hf =>
    (requireAssignment_simulates h.1 fun hname => hspares hname i).bind fun _ =>
      (node_simulates hcall (.list es t) (S.under i) f h.1 hf).bind fun _ =>
        (declarators_simulates hcall rest S (i + 1) f h.2 hspares hf).bind_pure _
  | [.leaf v t], _, _, _, _, _, _ => .refl _
  | .leaf v t :: n :: rest, S, i, f, h, hspares, hf => by
    have hrest := declarators_simulates hcall (n :: rest) S (i + 1) f h.2 hspares hf
    simp only [Alias.respellFrom, Alias.respell, declarators] at hrest ⊢
    rw [isInitializer_respell h.2.1 fun hname => hspares hname (i + 1)]
    refine (Simulates.refl _).bind fun _ => simulates_ite ?_ ?_
    · exact (requireExpression_simulates h.2.1).bind fun _ =>
        (node_simulates hcall n (S.under (i + 1)) (f.under "=") h.2.1 (agrees_place f (by decide))).bind fun _ =>
          (declarators_simulates hcall rest S (i + 1 + 1) f h.2.2 hspares hf).bind_pure _
    · exact hrest.bind_pure _
termination_by structural ns => ns

theorem lambda_simulates (hcall : SparesCalls a) (name name' : String) (op : Token) :
    ∀ (ns : List Node) (S : Choice) (f : Frame),
    (∀ path, S (1 :: path) = false) → S.Each (a.Chosen True) 2 ns.tail →
    Simulates (lambda standard name op ns f) (lambda a.dialect name' op (a.respellFrom S 1 ns) f)
  | .list ps u :: b :: body, S, f, hps, h => by
    rw [Alias.respellFrom, Alias.respell_of_none (.list ps u) (S.under 1) hps]
    simp only [Alias.respellFrom, lambda, parameters_dialect]
    exact (Simulates.refl _).bind fun scope => (Simulates.refl _).bind fun _ =>
      (statements_simulates hcall (b :: body) S 2 (f.within scope).deeper true h).bind_pure _
  | .leaf _ _ :: _ :: _, _, _, _, _ => simulates_fail
  | [], _, _, _, _ => simulates_fail
  | [.leaf _ _], _, _, _, _ => simulates_fail
  | [.list _ _], _, _, _, _ => simulates_fail
termination_by structural ns => ns

theorem clauses_simulates (hcall : SparesCalls a) : ∀ (k : Nat) (ns : List Node) (S : Choice) (i : Nat) (f : Frame),
    (∀ j cs u, ns[j]? = some (.list cs u) → S [i + j] = false ∧ (S.under (i + j)).Each (a.Chosen True) 0 cs) →
    Simulates (clauses standard k ns f) (clauses a.dialect k (a.respellFrom S i ns) f)
  | _, [], _, _, _, _ => .refl _
  | _, .leaf _ _ :: _, _, _, _, _ => simulates_fail
  | _, .list [] _ :: _, _, _, _, _ => simulates_fail
  | _, .list [_] _ :: _, _, _, _, _ => simulates_fail
  | k, .list (test :: b :: body) u :: rest, S, i, f, h => by
    obtain ⟨hclause, htest, hbody⟩ := h 0 (test :: b :: body) u rfl
    have hmore : ∀ j cs u, rest[j]? = some (.list cs u) →
        S [i + 1 + j] = false ∧ (S.under (i + 1 + j)).Each (a.Chosen True) 0 cs := by
      intro j cs u hcs
      rw [Nat.add_assoc, Nat.add_comm 1 j]
      exact h (j + 1) cs u hcs
    have hrest := fun lead : String =>
      (statements_simulates hcall (b :: body) (S.under i) 1 f.deeper f.tail hbody).bind fun ss =>
        (clauses_simulates hcall (k + 1) rest S (i + 1) f hmore).bind_pure fun more =>
          (lead ++ blockText f none ss) :: more
    rw [Alias.respellFrom, Alias.respell, Alias.respellElements_of_not hclause]
    simp only [Alias.respellFrom, clauses, symbol?_respell, pure_bind]
    refine simulates_ite ?_ ?_
    · exact (requireLastClause_simulates k rest test (i + 1) _).bind fun _ => hrest ""
    · exact (requireExpression_simulates htest).bind fun _ =>
        (node_simulates hcall test _ (f.under "if") htest (agrees_place f (by decide))).bind fun _ => hrest _
termination_by structural _ ns => ns

theorem guarded_simulates (hcall : SparesCalls a) (name name' : String) (op : Token) (lead role : String) (tail : Bool) :
    ∀ (ns : List Node)
    (S : Choice) (i : Nat) (f : Frame), S.Each (a.Chosen True) i ns → Agrees a (f.under role) →
    Simulates (guarded standard name op lead role tail ns f)
      (guarded a.dialect name' op lead role tail (a.respellFrom S i ns) f)
  | test :: b :: body, S, i, f, h, hrole => (requireExpression_simulates h.1).bind fun _ =>
      (node_simulates hcall test (S.under i) (f.under role) h.1 hrole).bind fun _ =>
        (statements_simulates hcall (b :: body) S (i + 1) f.deeper tail h.2).bind_pure _
  | [], _, _, _, _, _ => simulates_fail
  | [_], _, _, _, _, _ => simulates_fail
termination_by structural ns => ns

theorem entries_simulates (hcall : SparesCalls a) :
    ∀ (seen : List String) (ns : List Node) (S : Choice) (i : Nat) (f : Frame),
    S.Each (a.Chosen True) i ns → Agrees a f →
    Simulates (entries standard seen ns f) (entries a.dialect seen (a.respellFrom S i ns) f)
  | _, [], _, _, _, _, _ => .refl _
  | _, [_], _, _, _, _, _ => .refl _
  | seen, k :: n :: rest, S, i, f, h, hf => by
    simp only [Alias.respellFrom, entries]
    refine (key_simulates k).bind fun key => ?_
    have hmore := (requireExpression_simulates h.2.1).bind fun _ =>
      (node_simulates hcall n (S.under (i + 1)) f h.2.1 hf).bind fun s =>
        (entries_simulates hcall (key.name :: seen) rest S (i + 1 + 1) f h.2.2 hf).bind_pure fun more =>
          (key.text ++ ": " ++ s) :: more
    exact simulates_ite (simulates_fail.bind fun _ => hmore) hmore
termination_by structural _ ns => ns

theorem forLoop_simulates (hcall : SparesCalls a) (name name' : String) (op : Token) :
    ∀ (ns : List Node) (S : Choice) (i : Nat) (f : Frame),
    S.Each (a.Chosen True) i ns →
    Simulates (forLoop standard name op ns f) (forLoop a.dialect name' op (a.respellFrom S i ns) f)
  | .leaf v t :: lo :: hi :: b :: body, S, i, f, ⟨_, hlo, hhi, hbody⟩ =>
    (Simulates.refl _).bind fun scope => (Simulates.refl (declare standard scope v t)).bind fun _ =>
      (requireExpression_simulates hlo).bind fun _ => (requireExpression_simulates hhi).bind fun _ =>
        (node_simulates hcall lo _ ((f.within scope).under "=") hlo (agrees_place _ (by decide))).bind fun _ =>
          (node_simulates hcall hi _ ((f.within scope).under "<=") hhi (agrees_place _ (by decide))).bind fun _ =>
            (statements_simulates hcall (b :: body) S _ (f.within scope).deeper false hbody).bind_pure _
  | .list es t :: _ :: _ :: _ :: _, _, _, _, _ => simulates_fail
  | [], _, _, _, _ => simulates_fail
  | [n], _, _, _, _ => by cases n <;> exact simulates_fail
  | [n, _], _, _, _, _ => by cases n <;> exact simulates_fail
  | [n, _, _], _, _, _, _ => by cases n <;> exact simulates_fail
termination_by structural ns => ns

theorem operation_simulates (hcall : SparesCalls a) (name : String) (op : Token) (target : String) :
    ∀ (ns : List Node) (S : Choice) (i : Nat)
    (f : Frame), S.Each (a.Chosen True) i ns → Agrees a f → Agrees a (f.under name) →
    Simulates (operation standard name op target ns f) (operation a.dialect name op target (a.respellFrom S i ns) f)
  | [], _, _, _, _, _, _ => simulates_fail
  | [n], S, i, f, h, hf, hname => by
    have hminus : minus (a.respell (S.under i) n) = minus n := by cases n <;> rfl
    simp only [Alias.respellFrom, operation, hminus]
    rw [show f.statementLevel a.dialect = f.statementLevel standard from hf]
    exact simulates_check (fun h => h) ((requireExpression_simulates h.1).bind fun _ =>
      (node_simulates hcall n (S.under i) (f.under name) h.1 hname).bind_pure _)
  | n :: m :: rest, S, i, f, h, hf, hname => by
    have hall := requireAll_simulates h
    simp only [Alias.respellFrom, operation] at hall ⊢
    rw [show f.statementLevel a.dialect = f.statementLevel standard from hf]
    exact hall.bind fun _ => (node_simulates hcall n (S.under i) (f.under name) h.1 hname).bind fun _ =>
      (nodes_simulates hcall (m :: rest) S (i + 1) (f.under name) h.2 hname).bind_pure _
termination_by structural ns => ns

theorem comparison_simulates (hcall : SparesCalls a) (name : String) (op : Token) (target : String) :
    ∀ (ns : List Node) (S : Choice) (i : Nat)
    (f : Frame), S.Each (a.Chosen True) i ns → Agrees a f → Agrees a (f.under name) →
    Simulates (comparison standard name op target ns f) (comparison a.dialect name op target (a.respellFrom S i ns) f)
  | [n, m], S, i, f, h, hf, hname => by
    have hall := requireAll_simulates h
    simp only [Alias.respellFrom, comparison] at hall ⊢
    rw [show f.statementLevel a.dialect = f.statementLevel standard from hf]
    exact hall.bind fun _ => (node_simulates hcall n (S.under i) (f.under name) h.1 hname).bind fun _ =>
      (node_simulates hcall m (S.under (i + 1)) (f.under name) h.2.1 hname).bind_pure _
  | [], _, _, _, _, _, _ => simulates_fail
  | [_], _, _, _, _, _, _ => simulates_fail
  | _ :: _ :: _ :: _, _, _, _, _, _, _ => simulates_fail
termination_by structural ns => ns

theorem unary_simulates (hcall : SparesCalls a) (name : String) (op : Token) (target : String) :
    ∀ (ns : List Node) (S : Choice) (i : Nat)
    (f : Frame), S.Each (a.Chosen True) i ns → Agrees a (f.under name) →
    Simulates (unary standard name op target ns f) (unary a.dialect name op target (a.respellFrom S i ns) f)
  | [n], S, i, f, h, hname => (requireExpression_simulates h.1).bind fun _ =>
      (node_simulates hcall n (S.under i) (f.under name) h.1 hname).bind_pure _
  | [], _, _, _, _, _ => simulates_fail
  | _ :: _ :: _, _, _, _, _, _ => simulates_fail
termination_by structural ns => ns

theorem quotation_simulates (hcall : SparesCalls a) (name name' : String) (op : Token) :
    ∀ (ns : List Node) (S : Choice) (f : Frame),
    (∀ n, ns = [n] → a.ChosenTemplate True (S.under 1) n) →
    Simulates (quotation standard name op true ns f) (quotation a.dialect name' op true (a.respellFrom S 1 ns) f)
  | [n], S, f, h => datum_simulates hcall n (S.under 1) f (h n rfl)
  | [], _, _, _ => simulates_fail
  | _ :: _ :: _, _, _, _ => simulates_fail
termination_by structural ns => ns

theorem datum_simulates (hcall : SparesCalls a) : ∀ (n : Node) (S : Choice) (f : Frame), a.ChosenTemplate True S n →
    Simulates (datum standard true n f) (datum a.dialect true (a.respell S n) f)
  | .leaf _ _, _, _, _ => .refl _
  | .list es t, S, f, h => by
    have hformOf := formOf_respell h.head h.fresh
    rw [Alias.respell] at hformOf ⊢
    simp only [datum, if_true, Bool.true_and, hformOf]
    cases hform : formOf standard (.list es t) with
    | unquote =>
      exact inserted_simulates hcall "unquote" es S f (by decide) fun n hn => h.inserted (.inl hform) hn
    | unquoteSplicing => exact simulates_fail
    | _ =>
      obtain ⟨hnot, hes⟩ := h.inside (by simp [hform]) (by simp [hform])
      simp only [Alias.respellElements_of_not hnot, any_isSpliced_respell hes]
      exact simulates_ite ((splices_simulates hcall es S 0 f hes).bind_pure _)
        ((data_simulates hcall es S 0 f hes).bind_pure _)
termination_by structural n => n

theorem inserted_simulates (hcall : SparesCalls a) (role : String) : ∀ (ns : List Node) (S : Choice) (f : Frame),
    role ∈ ["unquote", "unquote-splicing"] → (∀ n, ns[1]? = some n → a.Chosen True (S.under 1) n) →
    Simulates (inserted standard role ns f) (inserted a.dialect role (a.respellElements S ns) f)
  | [u, n], S, f, hrole, h => by
    have hplace : Agrees a (f.under role) := by
      rcases List.mem_pair.1 hrole with rfl | rfl <;> exact agrees_place f (by decide)
    have hn := (requireExpression_simulates (h n rfl)).bind fun _ =>
      node_simulates hcall n (S.under 1) (f.under role) (h n rfl) hplace
    cases u <;> exact hn
  | [], _, _, _, _ => .refl _
  | [_], _, _, _, _ => simulates_fail
  | _ :: _ :: _ :: _, _, _, _, _ => simulates_fail
termination_by structural ns => ns

theorem data_simulates (hcall : SparesCalls a) :
    ∀ (ns : List Node) (S : Choice) (i : Nat) (f : Frame), S.Each (a.ChosenTemplate True) i ns →
    Simulates (data standard true ns f) (data a.dialect true (a.respellFrom S i ns) f)
  | [], _, _, _, _ => .refl _
  | n :: ns, S, i, f, h => (datum_simulates hcall n (S.under i) f h.1).bind fun _ =>
      (data_simulates hcall ns S (i + 1) f h.2).bind_pure _
termination_by structural ns => ns

theorem splices_simulates (hcall : SparesCalls a) :
    ∀ (ns : List Node) (S : Choice) (i : Nat) (f : Frame), S.Each (a.ChosenTemplate True) i ns →
    Simulates (splices standard ns f) (splices a.dialect (a.respellFrom S i ns) f)
  | [], _, _, _, _ => .refl _
  | .leaf v t :: ns, S, i, f, h => (splices_simulates hcall ns S (i + 1) f h.2).bind_pure _
  | .list es t :: ns, S, i, f, h => by
    have hrest := fun s : String => (splices_simulates hcall ns S (i + 1) f h.2).bind_pure fun rest => s :: rest
    have hformOf := formOf_respell h.1.head h.1.fresh
    have hdatum := datum_simulates hcall (.list es t) (S.under i) f h.1
    rw [Alias.respell] at hformOf hdatum
    simp only [Alias.respellFrom, Alias.respell, splices, isSpliced, hformOf, pure_bind]
    by_cases hs : (formOf standard (.list es t) == .unquoteSplicing) = true
    · rw [if_pos hs, if_pos hs]
      exact (inserted_simulates hcall "unquote-splicing" es (S.under i) f (by decide)
        fun n hn => h.1.inserted (.inr (by simpa using hs)) hn).bind hrest
    · rw [if_neg hs, if_neg hs]
      exact hdatum.bind fun _ => hrest _
termination_by structural ns => ns

end

end Recursion

/-! ## Assignments among declarators -/

section Declarators
open Marked
variable {a : Alias} {sparing : Prop} {S : Choice}

theorem exists_list_of_unquoted {d : Dialect} {n e : Node} {path : List Nat} (h : Unquoted d n path e) :
    ∃ es t, n = .list es t := by
  cases h <;> exact ⟨_, _, rfl⟩

theorem unquoted_respell {n e : Node} {path : List Nat} (hun : Unquoted standard n path e) {S : Choice}
    (h : a.ChosenTemplate sparing S n) : ∀ es t, e = .list es t →
    Unquoted a.dialect (a.respell S n) path (a.respell (S.beyond path) e) ∧ a.Chosen sparing (S.beyond path) e := by
  induction hun generalizing S with
  | @here es t i e hform he =>
    rintro es' t' rfl
    have hform' := formOf_respell h.head h.fresh
    refine ⟨.here ?_ (Alias.getElem?_respellElements he), h.inserted hform he⟩
    exact hform.imp hform'.trans hform'.trans
  | @inside es t i e m path hu hs he hun ih =>
    rintro es' t' rfl
    obtain ⟨cs, u, rfl⟩ := exists_list_of_unquoted hun
    have hform' := formOf_respell h.head h.fresh
    obtain ⟨hun', hchosen⟩ := ih (h.inside_element hu hs he) es' t' rfl
    refine ⟨.inside ?_ ?_ (Alias.getElem?_respellElements he) hun', hchosen⟩
    · exact fun hf => hu (hform'.symm.trans hf)
    · exact fun hf => hs (hform'.symm.trans hf)

/-- **What is evaluated still is when it is respelt.** -/
theorem evaluated_respell {n m : Node} {path : List Nat} (hev : Evaluated standard n path m) {S : Choice}
    (h : a.Chosen sparing S n) : ∀ es t, m = .list es t →
    Evaluated a.dialect (a.respell S n) path (a.respell (S.beyond path) m) ∧ a.Chosen sparing (S.beyond path) m := by
  induction hev generalizing S with
  | here n => exact fun _ _ _ => ⟨.here _, h⟩
  | @element es t i e m path hform he hev ih =>
    rintro es' t' rfl
    obtain ⟨cs, u, rfl⟩ := exists_list_of_evaluated hev
    have hform' := formOf_respell h.head h.fresh
    obtain ⟨hev', hchosen⟩ := ih (h.element hform he) es' t' rfl
    exact ⟨.element (fun hf => hform (hform' ▸ hf)) (Alias.getElem?_respellElements he) hev', hchosen⟩
  | @body es t i e m path hform hi he hev ih =>
    rintro es' t' rfl
    obtain ⟨cs, u, rfl⟩ := exists_list_of_evaluated hev
    have hform' := formOf_respell h.head h.fresh
    obtain ⟨hev', hchosen⟩ := ih (h.body_element hform hi he) es' t' rfl
    exact ⟨.body (hform'.trans hform) hi (Alias.getElem?_respellElements he) hev', hchosen⟩
  | @clause es cs t u i j e m path hform hcs he hev ih =>
    rintro es' t' rfl
    obtain ⟨ds, w, rfl⟩ := exists_list_of_evaluated hev
    have hform' := formOf_respell h.head h.fresh
    obtain ⟨hev', hchosen⟩ := ih (h.clause_element hform hcs he) es' t' rfl
    exact ⟨.clause (hform'.trans hform) (Alias.getElem?_respellElements hcs) (Alias.getElem?_respellElements he) hev',
      hchosen⟩
  | @unquoted es t i e e' m inner path hform he hun hev ih =>
    rintro es' t' rfl
    obtain ⟨cs, u, rfl⟩ := exists_list_of_unquoted hun
    obtain ⟨ds, w, rfl⟩ := exists_list_of_evaluated hev
    have hform' := formOf_respell h.head h.fresh
    obtain ⟨hun', hinserted⟩ := unquoted_respell hun (h.template hform he) ds w rfl
    obtain ⟨hev', hchosen⟩ := ih hinserted es' t' rfl
    rw [show ((S.under i).beyond inner).beyond path = S.beyond (i :: (inner ++ path)) by
      funext rest
      simp [Choice.beyond, Choice.under]] at hev' hchosen
    exact ⟨.unquoted (hform'.trans hform) (Alias.getElem?_respellElements he) hun' hev', hchosen⟩

/-- Lists among declarators are assignments, by their very name, or initial values. -/
theorem declarators_ensures {d : Dialect} (f : Frame) : ∀ ns : List Node, Ensures (declarators d ns f) fun _ =>
    ∀ es t, .list es t ∈ ns → Node.head? es = some "=" ∨ isExpression d (.list es t) = true
  | [] => ensures_pure (by simp)
  | .list es t :: rest => by
    refine Ensures.bind (P := fun _ => Node.head? es = some "=") ?_ fun _ hhead => ensures_bind fun _ =>
      (declarators_ensures f rest).bind_pure fun _ hrest => ?_
    · exact fun T _ T' h => head?_of_requireAssignment h
    intro es' t' hmem
    rcases List.mem_cons.1 hmem with heq | hmem
    · cases heq
      exact .inl hhead
    · exact hrest es' t' hmem
  | [.leaf v t] => ensures_bind fun _ => ensures_pure (by simp)
  | .leaf v t :: n :: rest => by
    simp only [declarators]
    refine ensures_bind fun _ => ensures_ite (fun _ => ?_) fun _ => ?_
    · refine value_accepts fun hn _ => (declarators_ensures f rest).bind_pure fun _ hrest => ?_
      intro es t hmem
      rcases List.mem_cons.1 hmem with heq | hmem
      · cases heq
      · rcases List.mem_cons.1 hmem with rfl | hmem
        · exact .inr hn.1
        · exact hrest es t hmem
    · refine (declarators_ensures f (n :: rest)).bind_pure fun _ hrest => ?_
      intro es t hmem
      rcases List.mem_cons.1 hmem with heq | hmem
      · cases heq
      · exact hrest es t hmem

theorem Accepts.declarator {d : Dialect} {es cs : List Node} {t u : Token} (h : Accepts d (.list es t))
    (hform : formOf d (.list es t) = .declaration) (hmem : .list cs u ∈ es) :
    Node.head? cs = some "=" ∨ isExpression d (.list cs u) = true := by
  obtain ⟨name, op, args, rfl, hname⟩ := h.named hform (by decide)
  obtain ⟨f, T, code, T', hexec⟩ := h
  have hdeclaration : Ensures (node d (.list (.leaf (.symbol name) op :: args) t) f) fun _ =>
      ∀ es t, .list es t ∈ args → Node.head? es = some "=" ∨ isExpression d (.list es t) = true := by
    simp only [node, hname]
    exact ensures_bind fun _ => (declarators_ensures _ args).bind_pure fun _ h => h
  exact hdeclaration T code T' hexec cs u (by simpa using hmem)

/-- **An assignment in a declaration goes by no other name.** -/
theorem not_accepts_respell {n : Node} {before : List Nat} {i : Nat} {es : List Node} {t : Token} (hname : a.name = "=")
    (h : a.Chosen sparing S n) (hev : Evaluated standard n before (.list es t))
    (hform : formOf standard (.list es t) = .declaration) (hS : S (before ++ [i]) = true) :
    ¬ Accepts a.dialect (a.respell S n) := by
  intro haccepts
  obtain ⟨hev', hchosen⟩ := evaluated_respell hev h es t rfl
  have hdeclaration := haccepts.of_evaluated hev' _ _ rfl
  have hform' := (formOf_respell hchosen.head hchosen.fresh).trans hform
  have hinward := (hchosen.heads [i] hS).inward
  rw [hform] at hinward
  obtain ⟨e, he, hhead⟩ := hinward
  cases hhead with
  | @here op args u =>
    have hmem := List.mem_of_getElem? (Alias.getElem?_respellElements (a := a) (S := S.beyond before) he)
    have hhere : (S.beyond before).under i [] = true := hS
    rw [Alias.respell, Alias.respellElements, hhere] at hmem
    rcases hdeclaration.declarator hform' hmem with hhead | hexpression
    · have hother : a.other = "=" := Option.some.inj hhead
      exact a.fresh (by rw [hother]; decide)
    · have hstatement : a.dialect.isStatement a.other = true := by
        rw [Alias.isStatement_other, hname]
        rfl
      simp [Alias.spell, isExpression, Value.symbol?, hstatement] at hexpression

end Declarators

/-! ## Programs -/

section Programs
variable {a : Alias} {S : Choice} {T T' : ScopeTable} {ns : List Node} {code : String}

theorem chosen_of_getElem? {sparing : Prop} {i : Nat} {n : Node}
    (hheads : ∀ i path, S (i :: path) = true → ∃ n, ns[i]? = some n ∧ HeadAt standard a.name n path)
    (hspares : sparing → ∀ i n, ns[i]? = some n → a.Spares (S.under i) n)
    (hfresh : ∀ n ∈ ns, .symbol a.other ∉ n.leaves) (hn : ns[i]? = some n) : a.Chosen sparing (S.under i) n := by
  refine ⟨fun path hpath => ?_, fun hs => hspares hs i n hn, hfresh n (List.mem_of_getElem? hn)⟩
  obtain ⟨m, hm, hhead⟩ := hheads i path hpath
  cases Option.some.inj (hn.symm.trans hm)
  exact hhead

theorem generate_of_spares (hcall : SparesCalls a)
    (h : ∀ i n, ns[i]? = some n → a.Chosen True (S.under i) n) (hcode : generate standard T ns = (.ok code, T')) :
    generate a.dialect T (a.respellFrom S 0 ns) = (.ok code, T') := by
  obtain ⟨codes, hcodes, rfl⟩ := generate_eq_ok_iff.1 hcode
  have heach : S.Each (a.Chosen True) 0 ns := Choice.each_of_getElem? fun i n hn => by
    rw [Nat.zero_add]
    exact h i n hn
  exact generate_eq_ok_iff.2 ⟨codes, nodes_simulates hcall ns S 0 .top heach rfl _ _ _ hcodes, rfl⟩

theorem spares_of_generate (h : ∀ i n, ns[i]? = some n → a.Chosen False (S.under i) n)
    (hcode : generate a.dialect T (a.respellFrom S 0 ns) = (.ok code, T')) :
    ∀ i n, ns[i]? = some n → a.Spares (S.under i) n := by
  intro i n hn hname before j es t hev hform
  have hmem : (a.respellFrom S 0 ns)[i]? = some (a.respell (S.under i) n) := by
    rw [Alias.getElem?_respellFrom, hn, Nat.zero_add]
    rfl
  have haccepts := (print_partOf_generate hcode (List.mem_of_getElem? hmem)).1
  by_contra hS
  exact not_accepts_respell hname (h i n hn) hev hform (by simpa using hS) haccepts

/-- **Special forms go by the tables of the dialect, with two exceptions.** Let a special form have another name, which is
not `call` if the form is a statement. As long as assignments in declarations keep their name, a program with code can be
respelt: the code stays the same, wherever the other name is used and whatever the layout. If one of them is respelt,
there is an error. -/
theorem generate_respell {ms : List Node} (hcall : a.other = "call" → standard.isStatement a.name = false)
    (hcode : generate standard T ns = (.ok code, T'))
    (hheads : ∀ i path, S (i :: path) = true → ∃ n, ns[i]? = some n ∧ HeadAt standard a.name n path)
    (hfresh : ∀ n ∈ ns, .symbol a.other ∉ n.leaves)
    (hms : ms.map Node.forget = (a.respellFrom S 0 ns).map Node.forget) :
    ((∀ i n, ns[i]? = some n → a.Spares (S.under i) n) →
        ∃ T₁, generate a.dialect T ms = (.ok code, T₁) ∧ T₁.SameButPositions T') ∧
      (¬ (∀ i n, ns[i]? = some n → a.Spares (S.under i) n) → ∃ e T₁, generate a.dialect T ms = (.error e, T₁)) := by
  obtain ⟨hsame, hscopes⟩ := generate_congr_forget (d := a.dialect) hms (T := T) rfl
  generalize generate a.dialect T ms = out at hsame hscopes
  obtain ⟨r, T₁⟩ := out
  constructor
  · intro hspares
    rw [generate_of_spares hcall (fun i n => chosen_of_getElem? hheads (fun _ => hspares) hfresh) hcode] at hsame hscopes
    cases r with
    | error e => exact hsame.elim
    | ok code' =>
      obtain rfl : code' = code := hsame
      exact ⟨T₁, rfl, hscopes⟩
  · intro hnot
    cases r with
    | error e => exact ⟨e, T₁, rfl⟩
    | ok code' =>
      generalize hrespelt : generate a.dialect T (a.respellFrom S 0 ns) = out at hsame
      obtain ⟨r', T₂⟩ := out
      cases r' with
      | error e => exact hsame.elim
      | ok code'' =>
        exact absurd (spares_of_generate (fun i n => chosen_of_getElem? hheads False.elim hfresh) hrespelt) hnot

/-- Two assignments by another name, one of them in a function, and one that is not accepted. -/
theorem generate_respell_set :
    let a : Alias := ⟨"=", "set", by decide, by decide⟩
    let t : Token := ⟨.atom, "", .start⟩
    let name (s : String) : Node := .leaf (.symbol s) t
    let assign (s x y : String) : Node := .list [name s, name x, name y] t
    (generate a.dialect .initial
        [.list [name "var", name "x"] t, assign "set" "x" "z", .list [name "fun", .list [name "y"] t, assign "set" "y" "x"] t]).1 =
        .ok "var x;\nx = z;\n(function(y) \x7b return y = x; \x7d);\n" ∧
      ∃ e, (generate a.dialect .initial [.list [name "var", assign "set" "x" "z"] t]).1 = .error e := by
  intro a t name assign
  constructor
  · have hcode : (generate standard .initial
        [.list [name "var", name "x"] t, assign "=" "x" "z", .list [name "fun", .list [name "y"] t, assign "=" "y" "x"] t]).1 =
        .ok "var x;\nx = z;\n(function(y) \x7b return y = x; \x7d);\n" := by cbv
    have hrespell := generate_respell (a := a) (S := fun path => decide (path ∈ [[1], [2, 2]])) (by decide)
      (Prod.ext hcode rfl) (fun i path hpath => ?heads) (by decide) rfl
    case heads =>
      rcases List.mem_pair.1 (of_decide_eq_true hpath) with heq | heq
      · cases heq
        exact ⟨_, rfl, .here⟩
      · cases heq
        exact ⟨_, rfl, .body (by decide) (by decide) rfl .here⟩
    obtain ⟨T₁, hsame, -⟩ := hrespell.1 fun i n hn _ before j es u hev hform => by
      refine decide_eq_false fun hpath => ?_
      rcases List.mem_pair.1 hpath with heq | heq
      · simp at heq
      · -- the only declaration is not in the function
        obtain ⟨rfl, rfl, -⟩ : i = 2 ∧ before = [] ∧ j = 2 := by simpa [List.append_eq_singleton_iff] using heq
        cases hn
        cases hev
        cases hform
    exact congrArg Prod.fst hsame
  · have hcode : (generate standard .initial [.list [name "var", assign "=" "x" "z"] t]).1 = .ok "var x = z;\n" := by cbv
    have hrespell := generate_respell (a := a) (S := fun path => decide (path = [0, 1])) (by decide)
      (Prod.ext hcode rfl) (fun i path hpath => ?heads) (by decide) rfl
    case heads =>
      cases of_decide_eq_true hpath
      exact ⟨_, rfl, .element (by decide) rfl .here⟩
    obtain ⟨e, T₁, herror⟩ := hrespell.2 fun hspares => by
      have hfalse := hspares 0 _ rfl rfl [] 1 _ _ (.here _) rfl
      cases hfalse
    exact ⟨e, congrArg Prod.fst herror⟩

/-- An assignment in a declaration under another name is an error, and with `call` as a name for a statement an operand
loses its parentheses. -/
theorem generate_respelt_differs :
    let set : Alias := ⟨"=", "set", by decide, by decide⟩
    let call : Alias := ⟨"when", "call", by decide, by decide⟩
    let code (d : Dialect) (text : String) := (generate d .initial (Reading.ofText d text.toList).nodes).1
    code standard "(var (= x 1))" = .ok "var x = 1;\n" ∧
      code set.dialect "(var (set x 1))" = .error ⟨⟨1, 7⟩, .declaratorHead "set"⟩ ∧
      code standard "(when x (f (+ 1 2)))" = .ok "if (x) \x7b f((1 + 2)); \x7d;\n" ∧
      code call.dialect "(call x (f (+ 1 2)))" = .ok "if (x) \x7b f(1 + 2); \x7d;\n" :=
  ⟨by cbv, by cbv, by cbv, by cbv⟩

end Programs
end Emit
end QuasiScript
