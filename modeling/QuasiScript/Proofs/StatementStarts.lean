import QuasiScript.Proofs.Nesting
import QuasiScript.Proofs.Statements

/-!
# How statements begin

A statement of the target that begins with a brace is a block, and one that begins with `function` declares a function
(`Target.MisreadStart`). Functions and objects have parentheses around them where they are statements themselves. They
have none where a statement only begins with them: as the first operand of an operator, and inserted into a template that
is nothing but the insertion (`Misread`). So statements that are misread are these, and sequences, which are blocks.
-/
namespace QuasiScript
open Dialect (standard)

namespace Target

/-- The text begins as a block or the declaration of a function does. -/
def MisreadStart (s : String) : Prop := "\x7b".toList <+: s.toList ∨ "function".toList <+: s.toList

instance : DecidablePred MisreadStart := fun _ => inferInstanceAs (Decidable (_ ∨ _))

/-- Behind a character that is not in it, nothing belongs to a beginning any more. -/
theorem prefix_append_cons_iff {l s t : List Char} {c : Char} (hc : c ∉ l) : l <+: s ++ c :: t ↔ l <+: s := by
  induction l generalizing s with
  | nil => simp
  | cons a l ih =>
    obtain ⟨hne, hc⟩ := not_or.1 (List.mem_cons.not.1 hc)
    cases s with
    | nil => simp [Ne.symm hne]
    | cons b s => rw [List.cons_append, List.cons_prefix_cons, List.cons_prefix_cons, ih hc]

theorem misreadStart_append_iff {s t : String} {c : Char} (ht : t.toList.head? = some c)
    (hc : c ∉ "\x7bfunction".toList) : MisreadStart (s ++ t) ↔ MisreadStart s := by
  obtain ⟨cs, hcs⟩ := List.head?_eq_some_iff.1 ht
  have hbrace : c ∉ "\x7b".toList := fun h => hc (List.mem_append_left "function".toList h)
  have hword : c ∉ "function".toList := fun h => hc (List.mem_append_right "\x7b".toList h)
  rw [MisreadStart, MisreadStart, String.toList_append, hcs, prefix_append_cons_iff hbrace, prefix_append_cons_iff hword]

theorem misreadStart_intercalate_iff {sep s : String} {c : Char} (hsep : sep.toList.head? = some c)
    (hc : c ∉ "\x7bfunction".toList) : ∀ ss : List String, MisreadStart (sep.intercalate (s :: ss)) ↔ MisreadStart s
  | [] => by rw [String.intercalate_singleton]
  | t :: ss => by
    obtain ⟨cs, hcs⟩ := List.head?_eq_some_iff.1 hsep
    rw [String.intercalate_cons_cons, String.append_assoc]
    exact misreadStart_append_iff (by simp [hcs]) hc

theorem not_misreadStart_quote (s : String) : ¬ MisreadStart (quote s) := by
  simp [MisreadStart, quote]

end Target

open Target (MisreadStart misreadStart_append_iff misreadStart_intercalate_iff not_misreadStart_quote)

/-! ## Leaves -/

theorem Value.not_misreadStart_number {text : String} {x : Double} (h : standard.atomValue text = .number text x) :
    ¬ MisreadStart text := by
  rintro (hbrace | hword)
  · have hchar := (Value.isAtom_number h).2.1 '\x7b' (hbrace.subset (by simp))
    exact absurd hchar (by decide)
  · obtain ⟨cs, hcs⟩ := hword
    have hparse : Numeral.parse? text.toList = none := by
      rw [← hcs, Numeral.parse?_eq_recognise?]
      simp [Numeral.recognise?, Numeral.recogniseBody?, Numeral.splitSign, Numeral.decimal?, Numeral.splitFraction]
    rcases Dialect.atomValue_of_parse?_none hparse with hv | ⟨v, hmem, -⟩
    · rw [h] at hv
      cases hv
    · have hnames : ∀ e ∈ standard.constants.entries, ¬ "function".toList <+: e.1.toList := by decide
      exact hnames _ hmem ⟨cs, hcs⟩

/-- What is read begins so only if it is a symbol that does. -/
theorem Value.not_misreadStart {v : Value} (h : v.Readable)
    (hsymbol : ∀ name, v = .symbol name → ¬ "function".toList <+: name.toList) : ¬ MisreadStart (Target.literal v) := by
  cases v with
  | number text x => exact not_misreadStart_number h
  | boolean b => cases b <;> decide
  | constant name literal =>
    have hliterals : ∀ e ∈ standard.constants.entries, ¬ MisreadStart (Target.literal e.2) := by decide
    obtain ⟨e, he, heq⟩ := List.mem_map.1 h
    rw [← heq]
    exact hliterals e he
  | symbol name =>
    rintro (hbrace | hword)
    · exact absurd (h.2.1 '\x7b' (hbrace.subset (by simp))) (by decide)
    · exact hsymbol name rfl hword
  | string s => exact not_misreadStart_quote s

namespace Node

mutual

def leaves : Node → List Value
  | .leaf v _ => [v]
  | .list es _ => leavesEach es

def leavesEach : List Node → List Value
  | [] => []
  | n :: ns => n.leaves ++ leavesEach ns

end

theorem mem_leavesEach {v : Value} {ns : List Node} : v ∈ leavesEach ns ↔ ∃ n ∈ ns, v ∈ n.leaves := by
  induction ns with
  | nil => simp [leavesEach]
  | cons n ns ih => rw [leavesEach, List.mem_append, ih]; simp

def Plain (n : Node) : Prop := ∀ v ∈ n.leaves, ¬ MisreadStart (Target.literal v)

theorem Plain.element {es : List Node} {t : Token} {n : Node} (h : (list es t).Plain) (hn : n ∈ es) : n.Plain :=
  fun v hv => h v (mem_leavesEach.2 ⟨n, hn, hv⟩)

end Node

namespace Marked
open Emit

theorem node_mem_of_elements {m e : Marked} (h : e ∈ m.elements) : ∃ es t, m.node = .list es t ∧ e.node ∈ es := by
  have hnodes : ∀ {ms : List Marked}, e ∈ ms → e.node ∈ nodes ms := by
    intro ms he
    induction ms with
    | nil => cases he
    | cons m ms ih =>
      rw [nodes]
      rcases List.mem_cons.1 he with rfl | he
      · exact List.mem_cons_self
      · exact List.mem_cons_of_mem _ (ih he)
  cases m with
  | leaf r v t => cases h
  | list r es t => exact ⟨nodes es, t, rfl, hnodes h⟩

theorem plain_of_at? : ∀ {path : List Nat} {m k : Marked}, m.at? path = some k → m.node.Plain → k.node.Plain
  | [], m, k, hk, h => by
    cases hk
    exact h
  | i :: path, m, k, hk, h => by
    obtain ⟨e, he, hk⟩ := Option.bind_eq_some_iff.1 hk
    obtain ⟨es, t, hm, hmem⟩ := node_mem_of_elements (List.mem_of_getElem? he)
    rw [hm] at h
    exact plain_of_at? hk (h.element hmem)

/-! ## What begins with a function or an object -/

/-- An expression that begins with a function or an object, unless something is put around it. -/
inductive Bare (d : Dialect) : Node → Prop
  | lambda {n : Node} : formOf d n = .lambda → Bare d n
  | object {n : Node} : formOf d n = .object → Bare d n
  | inserted {q u n : Node} {t t' : Token} : formOf d (.list [q, .list [u, n] t'] t) = .quasiquote →
      formOf d (.list [u, n] t') = .unquote → Bare d n → Bare d (.list [q, .list [u, n] t'] t)

/-- **A statement that begins with a function or an object** without being one: an operation whose first operand does,
or a template that is nothing but something inserted which does. -/
inductive Misread (d : Dialect) : Node → Prop
  | operation {name : String} {op t : Token} {a b : Node} {rest : List Node} :
      d.binaryOperators.contains name = true ∨ d.comparisons.contains name = true → Bare d a →
      Misread d (.list (.leaf (.symbol name) op :: a :: b :: rest) t)
  | template {n : Node} : formOf d n = .quasiquote → Bare d n → Misread d n

section Shapes
variable {d : Dialect} {name : String} {op t : Token} {args : List Node}

/-- The argument of a template inserts an expression that begins so, and is nothing else. -/
def InsertsBare (d : Dialect) (args : List Node) : Prop :=
  ∃ u n t, args = [.list [u, n] t] ∧ formOf d (.list [u, n] t) = .unquote ∧ Bare d n

theorem bare_form_iff : Bare d (.list (.leaf (.symbol name) op :: args) t) ↔
    d.form name = .lambda ∨ d.form name = .object ∨ d.form name = .quasiquote ∧ InsertsBare d args := by
  constructor
  · intro h
    cases h with
    | lambda h => exact .inl h
    | object h => exact .inr (.inl h)
    | inserted hq hu h => exact .inr (.inr ⟨hq, _, _, _, rfl, hu, h⟩)
  · rintro (h | h | ⟨hq, u, n, t', rfl, hu, h⟩)
    · exact .lambda h
    · exact .object h
    · exact .inserted hq hu h

theorem misread_form_iff : Misread d (.list (.leaf (.symbol name) op :: args) t) ↔
    ((d.binaryOperators.contains name = true ∨ d.comparisons.contains name = true) ∧
      ∃ a b rest, args = a :: b :: rest ∧ Bare d a) ∨ d.form name = .quasiquote ∧ InsertsBare d args := by
  constructor
  · intro h
    cases h with
    | operation hname h => exact .inl ⟨hname, _, _, _, rfl, h⟩
    | template hq h =>
      replace hq : d.form name = .quasiquote := hq
      exact .inr ⟨hq, by simpa [bare_form_iff, hq] using h⟩
  · rintro (⟨hname, a, b, rest, rfl, h⟩ | ⟨hq, h⟩)
    · exact .operation hname h
    · exact .template hq (bare_form_iff.2 (.inr (.inr ⟨hq, h⟩)))

end Shapes

/-! ## The first characters of a form -/

section Form
variable {d : Dialect} {name : String} {op : Token} {args : List Node}

theorem misreadStart_parenthesize_iff {wanted : Bool} {s : String} :
    MisreadStart (parenthesize wanted s) ↔ wanted = false ∧ MisreadStart s := by
  cases wanted <;> simp [parenthesize, MisreadStart]

theorem misreadStart_blockText (f : Frame) (prelude : Option String) (ss : List String) :
    MisreadStart (blockText f prelude ss) := by
  simp [blockText, MisreadStart]

theorem not_misreadStart_datumLeaf {v : Value} (h : ¬ MisreadStart (Target.literal v)) :
    ¬ MisreadStart (datumLeaf v) := by
  cases v with
  | symbol name => exact not_misreadStart_quote name
  | _ => exact h

/-- Most forms begin with a word or a bracket of their own, and assignments with a name. -/
theorem not_misreadStart_printList (hproper : Proper d args (d.form name)) (hplain : ∀ n ∈ args, n.Plain)
    (hform : d.form name ∈ [.declaration, .assignment, .conditional, .when, .array, .existence, .forLoop, .whileLoop,
      .untilLoop, .quote]) (tail : Bool) (p : Site) :
    ¬ MisreadStart (printList d (.leaf false (.symbol name) op :: markArguments d (d.form name) tail args) p) := by
  rw [printList]
  cases hname : d.form name with
  | declaration | array => simp [MisreadStart]
  | assignment =>
    rw [hname] at hproper
    obtain ⟨⟨v, t, m, rest, rfl⟩, -⟩ := hproper
    have hv := hplain (.leaf v t) (by simp) v (by simp [Node.leaves])
    simp only [markArguments, markFrom_zero, mark, printEach, print]
    rw [misreadStart_intercalate_iff (c := ' ') (by simp) (by decide)]
    simpa using hv
  | conditional =>
    rw [hname] at hproper
    obtain ⟨⟨test, es, t, rest, rfl, htest⟩, -⟩ := hproper
    simp only [markArguments, markClauses, markFrom_succ, printClauses, node_mark, if_neg htest]
    rw [misreadStart_intercalate_iff (c := '\n') (by simp [Frame.newline]) (by decide)]
    simp [MisreadStart]
  | «when» | whileLoop | untilLoop =>
    rw [hname] at hproper
    obtain ⟨test, b, body, rfl, -⟩ := hproper
    simp [markArguments, markFrom, printGuarded, MisreadStart]
  | existence =>
    rw [hname] at hproper
    obtain ⟨x, t, rfl⟩ := hproper
    simp only [markArguments, nodes_markFrom, existenceText, misreadStart_parenthesize_iff]
    simp [MisreadStart]
  | forLoop =>
    rw [hname] at hproper
    obtain ⟨v, t, lo, hi, b, body, rfl, -⟩ := hproper
    have hmark : markArguments d .forLoop tail (.leaf v t :: lo :: hi :: b :: body) =
        .leaf false v t :: mark d false lo :: mark d false hi :: markFrom d 0 false (b :: body) := rfl
    simp [hmark, printFor_cons, MisreadStart]
  | quote =>
    rcases args with _ | ⟨n, _ | ⟨m, rest⟩⟩
    · simp [markArguments, plainEach, printQuotation, MisreadStart]
    · cases n with
      | leaf v t => exact not_misreadStart_datumLeaf (hplain (.leaf v t) (by simp) v (by simp [Node.leaves]))
      | list es t => simp [markArguments, plainEach, plain, printQuotation, printDatum, MisreadStart]
    · simp [markArguments, plainEach, printQuotation, MisreadStart]
  | _ => simp [hname] at hform

end Form

/-! ## Operands and statements -/

/-- No name of an operator heads a statement or a special form. -/
theorem operator_standard {name target : String} (h : standard.binaryOperators.get? name = some target ∨
    standard.comparisons.get? name = some target) :
    standard.form name = .ordinary ∧ standard.isStatement name = false := by
  have hnames : ∀ e ∈ standard.binaryOperators.entries ++ standard.comparisons.entries,
      standard.form e.1 = .ordinary ∧ standard.isStatement e.1 = false := by decide
  refine hnames (name, target) (List.mem_append.2 ?_)
  exact h.imp Dialect.mem_of_get? Dialect.mem_of_get?

theorem statementLevel_of_statementPosition {p : Site} (h : p.frame.statementPosition = true) :
    p.frame.statementLevel standard = true := by
  rcases p with ⟨_ | name, depth⟩
  · rfl
  · obtain rfl : name = "begin" := by simpa [Site.frame, Frame.statementPosition] using h
    change standard.isStatement "begin" = true
    decide

def OperandStart (n : Node) : Prop :=
  ∀ q : Site, q.frame.statementLevel standard = false →
    (MisreadStart (print standard (mark standard false n) q) ↔ Bare standard n)

section Start
variable {name : String} {op t : Token} {args : List Node}

theorem misreadStart_operation_iff {target : String} (h : standard.binaryOperators.get? name = some target ∨
    standard.comparisons.get? name = some target) (hargs : ∀ a ∈ args, OperandStart a) (p : Site) :
    MisreadStart (printOperation standard name target (markFrom standard 0 false args) p) ↔
      p.frame.statementLevel standard = true ∧ ∃ a b rest, args = a :: b :: rest ∧ Bare standard a := by
  rcases args with _ | ⟨a, _ | ⟨b, rest⟩⟩
  · simp [markFrom, printOperation, MisreadStart]
  · have hminus : ¬ MisreadStart (minus a ++ print standard (mark standard false a) (p.under name)) := by
      cases a with
      | leaf v u =>
        simp only [minus]
        split <;> simp [MisreadStart]
      | list es u => simp [minus, MisreadStart]
    simp [markFrom, printOperation, misreadStart_parenthesize_iff, hminus]
  · simp only [markFrom_zero, Bool.false_and, printOperation, misreadStart_parenthesize_iff]
    have ha := hargs a (by simp) (p.under name) (operator_standard h).2
    rw [misreadStart_intercalate_iff (c := ' ') (by simp) (by decide), ha]
    simp

theorem misreadStart_quasiquote_iff {n : Node} (h : Template standard n) (hplain : n.Plain)
    (hn : ∀ u e t, n = .list [u, e] t → AcceptsValue standard e → OperandStart e) (p : Site) :
    MisreadStart (printDatum standard true (markTemplate standard n) p) ↔ InsertsBare standard [n] := by
  cases h with
  | leaf v t =>
    have hv := not_misreadStart_datumLeaf (hplain v (by simp [Node.leaves]))
    simp [markTemplate, printDatum, hv, InsertsBare]
  | inserted h =>
    obtain ⟨u, e, t, rfl, hform, he⟩ := h
    have hprint : printDatum standard true (markTemplate standard (.list [u, e] t)) p =
        print standard (mark standard false e) (p.under "unquote") := by
      simp [markTemplate, hform, printDatum, markFrom, printInserted, nodes]
    have hunquote : standard.isStatement "unquote" = false := by decide
    rw [hprint, hn u e t rfl he (p.under "unquote") hunquote]
    simp [InsertsBare, hform]
  | @list es t hu hs =>
    rw [markTemplate_of_ne hu hs, printDatum_of_ne (by simpa using hu) (by simpa using hs)]
    refine iff_of_false ?_ ?_
    · split <;> simp [MisreadStart]
    · rintro ⟨u, e, t', heq, hform, -⟩
      cases heq
      exact hu hform

/-- Operations begin with their first operand, and calls with a name. -/
theorem misreadStart_ordinary_iff (hform : standard.form name = .ordinary ∨ ∃ s, standard.form name = .unassigned s)
    (hname : ¬ MisreadStart name) (hargs : ∀ a ∈ args, OperandStart a) (tail : Bool) (p : Site) :
    MisreadStart
        (printList standard (.leaf false (.symbol name) op :: markArguments standard (standard.form name) tail args) p) ↔
      p.frame.statementLevel standard = true ∧ Misread standard (.list (.leaf (.symbol name) op :: args) t) := by
  have hquasi : standard.form name ≠ .quasiquote := by
    rcases hform with h | ⟨s, h⟩ <;> simp [h]
  have hmark : markArguments standard (standard.form name) tail args = markFrom standard 0 false args := by
    rcases hform with h | ⟨s, h⟩ <;> rw [h] <;> rfl
  rw [hmark, misread_form_iff]
  cases hbinary : standard.binaryOperators.get? name with
  | some target =>
    have hprint (ms : List Marked) : printList standard (.leaf false (.symbol name) op :: ms) p =
        printOperation standard name target ms p := by
      rcases hform with h | ⟨s, h⟩ <;> simp [printList, h, hbinary]
    rw [hprint, misreadStart_operation_iff (.inl hbinary) hargs]
    simp [Table.contains, hbinary, hquasi]
  | none =>
    cases hcomparison : standard.comparisons.get? name with
    | some target =>
      have hprint (ms : List Marked) : printList standard (.leaf false (.symbol name) op :: ms) p =
          printOperation standard name target ms p := by
        rcases hform with h | ⟨s, h⟩ <;> simp [printList, h, hbinary, hcomparison]
      rw [hprint, misreadStart_operation_iff (.inr hcomparison) hargs]
      simp [Table.contains, hcomparison, hquasi]
    | none =>
      refine iff_of_false ?_ (by simp [Table.contains, hbinary, hcomparison, hquasi])
      cases hunary : standard.unaryOperators.get? name with
      | some target =>
        have htargets : ∀ e ∈ standard.unaryOperators.entries, e.2 = "!" := by decide
        obtain rfl : target = "!" := htargets _ (Dialect.mem_of_get? hunary)
        rcases hform with h | ⟨s, h⟩ <;> simp [printList, h, hbinary, hcomparison, hunary, MisreadStart]
      | none =>
        have hprint (ms : List Marked) : printList standard (.leaf false (.symbol name) op :: ms) p =
            name ++ ("(" ++ (", ".intercalate (printEach standard ms (p.under "call")) ++ ")")) := by
          rcases hform with h | ⟨s, h⟩ <;> simp [printList, h, hbinary, hcomparison, hunary, String.append_assoc]
        rw [hprint, misreadStart_append_iff (c := '(') (by simp) (by decide)]
        exact hname

/-- **How a form begins**, in any place, from how its operands and what it inserts begin. -/
theorem misreadStart_form_iff (h : Accepts standard (.list (.leaf (.symbol name) op :: args) t))
    (hplain : Node.Plain (.list (.leaf (.symbol name) op :: args) t))
    (hargs : ∀ a ∈ args, AcceptsValue standard a → OperandStart a)
    (hinserted : ∀ u e t', args = [.list [u, e] t'] → AcceptsValue standard e → OperandStart e) (tail : Bool)
    (p : Site) :
    MisreadStart
        (printList standard (.leaf false (.symbol name) op :: markArguments standard (standard.form name) tail args) p) ↔
      standard.form name = .sequence ∨
        p.frame.statementPosition = false ∧ Bare standard (.list (.leaf (.symbol name) op :: args) t) ∨
        p.frame.statementLevel standard = true ∧ Misread standard (.list (.leaf (.symbol name) op :: args) t) := by
  have hproper := h.proper
  have hhead : ¬ MisreadStart name := hplain (.symbol name) (by simp [Node.leaves, Node.leavesEach])
  have hplains : ∀ n ∈ args, n.Plain := fun n hn => hplain.element (List.mem_cons_of_mem _ hn)
  -- operators are no special forms
  have hoperator : standard.form name ≠ .ordinary →
      ¬ (standard.binaryOperators.contains name = true ∨ standard.comparisons.contains name = true) := by
    rintro hne (hname | hname) <;> obtain ⟨target, htarget⟩ := Option.isSome_iff_exists.1 hname
    · exact hne (operator_standard (.inl htarget)).1
    · exact hne (operator_standard (.inr htarget)).1
  cases hform : standard.form name with
  | ordinary =>
    rw [hform] at hproper
    rw [← hform, misreadStart_ordinary_iff (t := t) (.inl hform) hhead fun a ha => hargs a ha (hproper a ha)]
    simp [bare_form_iff, hform]
  | unassigned s =>
    rw [hform] at hproper
    rw [← hform, misreadStart_ordinary_iff (t := t) (.inr ⟨s, hform⟩) hhead fun a ha => hargs a ha (hproper a ha)]
    simp [bare_form_iff, hform]
  | sequence =>
    rw [printList, hform]
    simp [misreadStart_blockText]
  | lambda =>
    rw [hform] at hproper hoperator
    obtain ⟨ps, u, b, body, rfl, -⟩ := hproper
    simp only [printList, hform, markArguments, markLambda, plain, printLambda, misreadStart_parenthesize_iff,
      bare_form_iff, misread_form_iff]
    simp [MisreadStart, hoperator]
  | object =>
    rw [hform] at hoperator
    have hbrace (es : List String) : MisreadStart (if es.isEmpty then "\x7b\x7d" else objectText p.frame es) := by
      split <;> simp [objectText, MisreadStart]
    simp only [printList, hform, misreadStart_parenthesize_iff, hbrace, bare_form_iff, misread_form_iff]
    simp [hoperator]
  | quasiquote =>
    rw [hform] at hproper hoperator
    obtain ⟨n, rfl, hn⟩ := hproper
    simp only [printList, hform, markArguments, markTemplates, printQuotation, bare_form_iff, misread_form_iff]
    rw [misreadStart_quasiquote_iff hn (hplains n (by simp)) (fun u e t' h => hinserted u e t' (by rw [h]))]
    -- whatever is inserted stands under the template, so it has no parentheses in any place
    cases hposition : p.frame.statementPosition with
    | false => simp [hoperator]
    | true => simp [hoperator, statementLevel_of_statementPosition hposition]
  | unquote | unquoteSplicing =>
    rw [hform] at hproper
    exact hproper.elim
  | _ =>
    refine iff_of_false ?_ ?_
    · rw [← hform]
      exact not_misreadStart_printList hproper hplains (by simp [hform]) tail p
    · simp [bare_form_iff, misread_form_iff, hform, hoperator]

end Start

/-- How an element that is not returned begins, in any place. -/
theorem misreadStart_print_iff {n : Node} (h : ∀ es t, n = .list es t → Accepts standard n) (hplain : n.Plain)
    (hsmaller : ∀ m, sizeOf m < sizeOf n → AcceptsValue standard m → m.Plain → OperandStart m) {tail : Bool}
    (hreturned : (mark standard tail n).returned = false) (p : Site) :
    MisreadStart (print standard (mark standard tail n) p) ↔
      formOf standard n = .sequence ∨ p.frame.statementPosition = false ∧ Bare standard n ∨
        p.frame.statementLevel standard = true ∧ Misread standard n := by
  rw [returned_mark_self] at hreturned
  cases n with
  | leaf v t =>
    obtain rfl : tail = false := by simpa [formOf, yields] using hreturned
    refine iff_of_false ?_ ?_
    · simpa [mark, print] using hplain v (by simp [Node.leaves])
    · rintro (h | ⟨-, h⟩ | ⟨-, h⟩)
      · cases h
      · cases h with
        | lambda h | object h => cases h
      · cases h with
        | template h _ => cases h
  | list es t =>
    have haccepts := h es t rfl
    rcases haccepts.head with ⟨es', t', args, rfl⟩ | ⟨name, op, args, rfl⟩
    · refine iff_of_false ?_ ?_
      · obtain ⟨r, ms, hmark⟩ := exists_mark_list (d := standard) es' t' false
        rw [mark_cons, hreturned, hmark, print, printList]
        simp [MisreadStart]
      · rintro (h | ⟨-, h | h | h⟩ | ⟨-, h | h⟩) <;> cases h
    · rw [print_mark_form hreturned]
      refine misreadStart_form_iff haccepts hplain ?_ ?_ tail p
      · intro a ha haccepts'
        have hmem : a ∈ .leaf (.symbol name) op :: args := List.mem_cons_of_mem _ ha
        refine hsmaller a ?_ haccepts' (hplain.element hmem)
        have := List.sizeOf_lt_of_mem hmem
        simp only [Node.list.sizeOf_spec]
        omega
      · rintro u e t' rfl haccepts'
        have hinner : Node.Plain (.list [u, e] t') := hplain.element (by simp)
        refine hsmaller e ?_ haccepts' (hinner.element (by simp))
        simp only [Node.list.sizeOf_spec, List.cons.sizeOf_spec]
        omega

/-- **How operands begin**: as a block or the declaration of a function does if they are bare, and only then. -/
theorem operandStart : ∀ {n : Node}, AcceptsValue standard n → n.Plain → OperandStart n
  | n, h, hplain => by
    intro q hq
    have hreturned : (mark standard false n).returned = false := by simp [returned_mark_self]
    have hposition : q.frame.statementPosition = false := by
      by_contra hposition
      simp [statementLevel_of_statementPosition (by simpa using hposition)] at hq
    rw [misreadStart_print_iff (fun _ _ _ => h.2) hplain (fun m hm hm' hplain' => operandStart hm' hplain') hreturned q]
    have hsequence : formOf standard n ≠ .sequence := by
      intro hform
      cases n with
      | leaf v t => cases hform
      | list es t =>
        obtain ⟨name, op, args, rfl, hname⟩ := h.2.named hform (by decide)
        rw [AcceptsValue, isExpression_of_form hname (by decide)] at h
        cases h.1
    simp [hq, hposition, hsequence]
termination_by n => sizeOf n

theorem not_misreadStart_of_returned {d : Dialect} {m : Marked} (h : m.returned = true) (p : Site) :
    ¬ MisreadStart (print d m p) := by
  cases m <;> obtain rfl : _ = true := h <;> simp [print, MisreadStart]

/-- **How statements begin.** -/
theorem misreadStart_statement_iff {n : Node} (h : ∀ es t, n = .list es t → Accepts standard n) (hplain : n.Plain)
    {tail : Bool} {p : Site} (hp : p.frame.statementPosition = true) :
    MisreadStart (print standard (mark standard tail n) p) ↔
      (mark standard tail n).returned = false ∧ (formOf standard n = .sequence ∨ Misread standard n) := by
  cases hreturned : (mark standard tail n).returned with
  | false =>
    rw [misreadStart_print_iff h hplain (fun m _ hm hplain' => operandStart hm hplain') hreturned p]
    simp [hp, statementLevel_of_statementPosition hp]
  | true =>
    exact iff_of_false (not_misreadStart_of_returned hreturned p) (by simp)

end Marked

/-! ## Programs -/

namespace Emit
open Marked
open Text (PartOf partOf_append_left partOf_join)

/-- Each node of an accepted program is accepted, and its text is a part of the code. -/
theorem print_partOf_generate {d : Dialect} {T T' : ScopeTable} {ns : List Node} {code : String} {n : Node}
    (h : generate d T ns = (.ok code, T')) (hn : n ∈ ns) :
    Accepts d n ∧ PartOf (print d (mark d false n) .top ++ ";") code := by
  obtain ⟨codes, hcodes, rfl⟩ := generate_eq_ok_iff.1 h
  refine ⟨nodes_accepts ns .top T codes T' hcodes n hn, ?_⟩
  have hprint : print d (mark d false n) .top ++ ";\n" ∈ codes.map (· ++ ";\n") := by
    rw [nodes_print ns .top rfl T codes T' hcodes, printEach_eq_map]
    exact List.mem_map_of_mem (List.mem_map_of_mem hn)
  refine PartOf.trans ?_ (partOf_join hprint)
  rw [show ";\n" = ";" ++ "\n" from rfl, ← String.append_assoc]
  exact partOf_append_left _ _

/-- **Which statements are misread.** In the code of an accepted program there is a text for every statement, with a
semicolon behind it. It begins as a block or the declaration of a function does if and only if the statement is not
returned, and is a sequence or begins with a function or an object without being one. Symbols may not begin with
`function`, nor may leaves that cannot be read begin so. -/
theorem generate_statement_starts {T T' : ScopeTable} {ns : List Node} {code : String}
    (h : generate standard T ns = (.ok code, T'))
    (hleaves : ∀ n ∈ ns, ∀ v ∈ n.leaves, v.Readable ∨ ¬ MisreadStart (Target.literal v))
    (hsymbols : ∀ n ∈ ns, ∀ name, .symbol name ∈ n.leaves → ¬ "function".toList <+: name.toList) :
    ∀ n ∈ ns, ∀ path e, StatementAt standard n path e →
      ∃ k p, (mark standard false n).at? path = some k ∧ k.node = e ∧ p.frame.statementPosition = true ∧
        PartOf (print standard k p ++ ";") code ∧
        (MisreadStart (print standard k p) ↔
          k.returned = false ∧ (formOf standard e = .sequence ∨ Misread standard e)) := by
  intro n hn path e hstatement
  obtain ⟨haccepts, hcode⟩ := print_partOf_generate h hn
  have hplain : n.Plain := by
    intro v hv
    rcases hleaves n hn v hv with hread | hv'
    · exact Value.not_misreadStart hread fun name hname => hsymbols n hn name (hname ▸ hv)
    · exact hv'
  cases hstatement with
  | top =>
    exact ⟨mark standard false n, .top, rfl, node_mark n false, rfl, hcode,
      misreadStart_statement_iff (fun _ _ _ => haccepts) hplain rfl⟩
  | @block before after fn e hev hblock =>
    obtain ⟨tail, hfn⟩ := at?_of_evaluated hev false
    obtain ⟨tail', he⟩ := at?_of_evaluated hblock.evaluated tail
    have hk : (mark standard false n).at? (before ++ after) = some (mark standard tail' e) := by
      rw [at?_append, hfn]
      exact he
    obtain ⟨depth, hpart⟩ := partOf_print_of_statement haccepts hev hblock hk .top
    have hform : ∀ es t, e = .list es t → Accepts standard e := by
      obtain ⟨es, t, rfl⟩ := hblock.exists_list
      exact (haccepts.of_evaluated hev es t rfl).of_evaluated hblock.evaluated
    have hplain' : e.Plain := by
      have := plain_of_at? hk
      rw [node_mark, node_mark] at this
      exact this hplain
    exact ⟨mark standard tail' e, ⟨.form "begin", depth⟩, hk, node_mark e tail', rfl,
      hpart.trans ((partOf_append_left _ _).trans hcode), misreadStart_statement_iff hform hplain' rfl⟩

/-- The same sum, first as a statement of its own, which is misread, and then as what the function returns. -/
theorem generate_statement_starts_sum :
    let t : Token := ⟨.atom, "", .start⟩
    let name (s : String) : Node := .leaf (.symbol s) t
    let sum : Node := .list [name "+", .list [name "object"] t, name "x"] t
    let n : Node := .list [name "fun", .list [] t, sum, sum] t
    (generate standard .initial [n]).1 = .ok "(function() \x7b \x7b\x7d + x;\n  return \x7b\x7d + x; \x7d);\n" ∧
      (∀ v ∈ n.leaves, v.Readable) ∧ (∀ name, .symbol name ∈ n.leaves → ¬ "function".toList <+: name.toList) ∧
      (∃ k p, (mark standard false n).at? [2] = some k ∧ p.frame.statementPosition = true ∧
        MisreadStart (print standard k p)) ∧
      ∃ k p, (mark standard false n).at? [3] = some k ∧ p.frame.statementPosition = true ∧
        ¬ MisreadStart (print standard k p) := by
  intro t name sum n
  have hcode : (generate standard .initial [n]).1 =
      .ok "(function() \x7b \x7b\x7d + x;\n  return \x7b\x7d + x; \x7d);\n" := by
    cbv
  have hleaves : n.leaves = ["fun", "+", "object", "x", "+", "object", "x"].map .symbol := rfl
  have hread : ∀ v ∈ n.leaves, v.Readable := by
    rw [hleaves]
    decide
  have hsymbols : ∀ name, .symbol name ∈ n.leaves → ¬ "function".toList <+: name.toList := by
    rw [hleaves]
    simp
  have hstarts := generate_statement_starts (Prod.ext hcode rfl) (by simpa using fun v hv => .inl (hread v hv))
    (by simpa using hsymbols) n (by simp)
  have hmisread : Misread standard sum := .operation (.inl (by decide)) (.object (by decide))
  have hbody (i : Nat) (hi : 2 ≤ i) (he : [name "fun", .list [] t, sum, sum][i]? = some sum) :
      StatementAt standard n [i] sum :=
    .block (.here n) (.body (by decide) hi he)
  obtain ⟨k, p, hk, -, hp, -, hiff⟩ := hstarts [2] sum (hbody 2 (by decide) rfl)
  obtain ⟨k', p', hk', -, hp', -, hiff'⟩ := hstarts [3] sum (hbody 3 (by decide) rfl)
  refine ⟨hcode, hread, hsymbols, ⟨k, p, hk, hp, hiff.2 ⟨?_, .inr hmisread⟩⟩, k', p', hk', hp', fun h => ?_⟩
  · cases hk
    rfl
  · cases hk'
    exact Bool.noConfusion (hiff'.1 h).1

/-- A sum of an object and a number begins as a block does. -/
theorem generate_misreads_sum :
    let ns := (Reading.ofText standard "(+ \x7b\x7d 1)".toList).nodes
    (generate standard .initial ns).1 = .ok "\x7b\x7d + 1;\n" ∧ MisreadStart "\x7b\x7d + 1;\n" ∧
      ns.map (formOf standard) = [.ordinary] ∧ (ns.flatMap Node.leaves).filterMap Value.symbol? = ["+", "object"] := by
  refine ⟨by cbv, by decide, by cbv, by cbv⟩

end Emit
end QuasiScript
