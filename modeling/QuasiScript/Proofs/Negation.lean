import QuasiScript.Proofs.Nesting

/-!
# Minus signs in front of minus signs

A negation is a minus sign in front of the code of its operand. If that code begins with a minus sign too, then the two
are read as one, a decrement. The operand is looked at for this only if it is a leaf, and then the signs are kept apart.
Most lists begin with a bracket, a word or a quotation mark. Those that do not are calls of a name with a minus sign in
front, quotations of a number or a constant with one, and templates that are nothing but the insertion of something with
one (`Signed`).
-/
namespace QuasiScript
open Dialect (standard)

namespace Target

def StartsMinus (s : String) : Prop := s.toList.head? = some '-'

instance : DecidablePred StartsMinus := fun s => inferInstanceAs (Decidable (s.toList.head? = some '-'))

theorem startsMinus_append_iff {s t : String} (ht : ¬ StartsMinus t) : StartsMinus (s ++ t) ↔ StartsMinus s := by
  by_cases hs : s = ""
  · subst hs
    rw [String.empty_append]
    exact iff_of_false ht (by decide)
  · have hne : s.toList ≠ [] := fun h => hs (String.toList_eq_nil_iff.1 h)
    rw [StartsMinus, StartsMinus, String.toList_append, List.head?_append_of_ne_nil _ hne]

theorem not_startsMinus_quote (s : String) : ¬ StartsMinus (quote s) := by
  simp [StartsMinus, quote]

end Target

namespace Emit
open Target (StartsMinus startsMinus_append_iff not_startsMinus_quote)

/-! ## What begins with a minus sign -/

/-- **A node whose code begins with a minus sign**, where operators have parentheses. -/
inductive Signed : Node → Prop
  | leaf {v : Value} {t : Token} : StartsMinus (Target.literal v) → Signed (.leaf v t)
  | call {name : String} {op t : Token} {args : List Node} : StartsMinus name → name ≠ "-" →
      Signed (.list (.leaf (.symbol name) op :: args) t)
  | quoted {q : Node} {v : Value} {t t' : Token} : formOf standard (.list [q, .leaf v t'] t) ∈ [.quote, .quasiquote] →
      v.symbol? = none → StartsMinus (Target.literal v) → Signed (.list [q, .leaf v t'] t)
  | inserted {q u n : Node} {t t' : Token} : formOf standard (.list [q, .list [u, n] t'] t) = .quasiquote →
      formOf standard (.list [u, n] t') = .unquote → Signed n → Signed (.list [q, .list [u, n] t'] t)

def SignedDatum (quasi : Bool) (n : Node) : Prop :=
  (∃ v t, n = .leaf v t ∧ v.symbol? = none ∧ StartsMinus (Target.literal v)) ∨
    quasi = true ∧ ∃ u e t, n = .list [u, e] t ∧ formOf standard n = .unquote ∧ Signed e

section Forms
variable {name : String} {op t : Token} {args : List Node} {f : Frame}

theorem signed_form_iff : Signed (.list (.leaf (.symbol name) op :: args) t) ↔
    StartsMinus name ∧ name ≠ "-" ∨
      ∃ n quasi, args = [n] ∧ standard.form name = (if quasi then .quasiquote else .quote) ∧ SignedDatum quasi n := by
  constructor
  · intro h
    cases h with
    | call h hne => exact .inl ⟨h, hne⟩
    | @quoted _ v _ t' hform hv h =>
      replace hform : standard.form name ∈ [.quote, .quasiquote] := hform
      have hdatum (quasi : Bool) : SignedDatum quasi (.leaf v t') := .inl ⟨v, t', rfl, hv, h⟩
      rcases List.mem_pair.1 hform with hform | hform
      · exact .inr ⟨_, false, rfl, hform, hdatum false⟩
      · exact .inr ⟨_, true, rfl, hform, hdatum true⟩
    | inserted hform hu h => exact .inr ⟨_, true, rfl, hform, .inr ⟨rfl, _, _, _, rfl, hu, h⟩⟩
  · rintro (⟨h, hne⟩ | ⟨n, quasi, rfl, hform, ⟨v, t', rfl, hv, h⟩ | ⟨rfl, u, e, t', rfl, hu, h⟩⟩)
    · exact .call h hne
    · refine .quoted ?_ hv h
      change standard.form name ∈ _
      cases quasi <;> simp [hform]
    · exact .inserted hform hu h

/-- No special form and no operator but the minus itself has a name that begins so. -/
theorem not_startsMinus_form (h : standard.form name ≠ .ordinary) : ¬ StartsMinus name := by
  have hnames : ∀ e ∈ standard.specialForms.entries, ¬ StartsMinus e.1 := by decide
  exact hnames _ (Dialect.mem_of_form rfl h)

theorem eq_minus_of_operator {target : String} (h : standard.binaryOperators.get? name = some target ∨
    standard.comparisons.get? name = some target ∨ standard.unaryOperators.get? name = some target)
    (hname : StartsMinus name) : name = "-" := by
  have hnames : ∀ e ∈ standard.binaryOperators.entries ++ (standard.comparisons.entries ++ standard.unaryOperators.entries),
      StartsMinus e.1 → e.1 = "-" := by decide
  refine hnames (name, target) ?_ hname
  rw [List.mem_append, List.mem_append]
  exact h.imp Dialect.mem_of_get? (.imp Dialect.mem_of_get? Dialect.mem_of_get?)

/-! ## How forms begin -/

theorem startsMinus_datumLeaf_iff {v : Value} :
    StartsMinus (datumLeaf v) ↔ v.symbol? = none ∧ StartsMinus (Target.literal v) := by
  cases v with
  | symbol name => simp [datumLeaf, Value.symbol?, not_startsMinus_quote]
  | _ => simp [datumLeaf, Value.symbol?]

/-- How an operand begins, wherever operators have parentheses. -/
def OperandSign (n : Node) : Prop :=
  ∀ f : Frame, f.statementLevel standard = false → Ensures (node standard n f) fun s => (StartsMinus s ↔ Signed n)

theorem datum_startsMinus (quasi : Bool) {n : Node}
    (hn : ∀ u e t, n = .list [u, e] t → isExpression standard e = true → OperandSign e) (f : Frame) :
    Ensures (datum standard quasi n f) fun s => (StartsMinus s ↔ SignedDatum quasi n) := by
  cases n with
  | leaf v t =>
    refine ensures_pure ?_
    rw [startsMinus_datumLeaf_iff]
    simp [SignedDatum]
  | list es t =>
    -- an array, unless the list inserts something
    have harray (hform : ¬ (quasi = true ∧ formOf standard (.list es t) = .unquote)) (s : String) :
        StartsMinus ("[" ++ s) ↔ SignedDatum quasi (.list es t) := by
      refine iff_of_false (by simp [StartsMinus]) ?_
      rintro (⟨v, t', h, -⟩ | ⟨hquasi, u, e, t', h, hu, -⟩)
      · cases h
      · exact hform ⟨hquasi, hu⟩
    simp only [datum]
    split
    · rename_i hform
      obtain ⟨hquasi, hform⟩ : quasi = true ∧ formOf standard (.list es t) = .unquote := by
        cases quasi with
        | false => cases hform
        | true => exact ⟨rfl, hform⟩
      rcases es with _ | ⟨u, _ | ⟨e, _ | ⟨m, rest⟩⟩⟩
      · cases hform
      · exact ensures_fail
      · refine (requireExpression_ensures e).bind fun _ he => (hn u e t rfl he (f.under "unquote") ?_).imp fun s hs => ?_
        · change standard.isStatement "unquote" = false
          decide
        · rw [hs]
          simp [SignedDatum, hquasi, hform]
      · exact ensures_fail
    · exact ensures_fail
    · rename_i hu _
      have hform : ¬ (quasi = true ∧ formOf standard (.list es t) = .unquote) := by
        rintro ⟨rfl, hform⟩
        exact hu hform
      refine ensures_ite (fun _ => ?_) fun _ => ?_
      · refine ensures_bind fun parts => ensures_pure ?_
        rw [show "[].concat(" = "[" ++ "].concat(" from rfl, String.append_assoc, String.append_assoc]
        exact harray hform _
      · refine ensures_bind fun parts => ensures_pure ?_
        rw [String.append_assoc]
        exact harray hform _

theorem quotation_startsMinus (quasi : Bool) (hargs : ∀ u e t, args = [.list [u, e] t] →
    isExpression standard e = true → OperandSign e) (hform : standard.form name = if quasi then .quasiquote else .quote) :
    Ensures (quotation standard name op quasi args f) fun s =>
      (StartsMinus s ↔ Signed (.list (.leaf (.symbol name) op :: args) t)) := by
  rcases args with _ | ⟨n, _ | ⟨m, rest⟩⟩
  · exact ensures_fail
  · refine (datum_startsMinus quasi (fun u e t' h => hargs u e t' (by rw [h])) f).imp fun s hs => ?_
    have hname : ¬ StartsMinus name := not_startsMinus_form (by rw [hform]; cases quasi <;> decide)
    rw [hs, signed_form_iff]
    refine ⟨fun h => .inr ⟨n, quasi, rfl, hform, h⟩, ?_⟩
    rintro (⟨h, -⟩ | ⟨m, quasi', hm, hform', h⟩)
    · exact absurd h hname
    · cases hm
      obtain rfl : quasi = quasi' := by
        rw [hform] at hform'
        revert hform'
        cases quasi <;> cases quasi' <;> decide
      exact h
  · exact ensures_fail

/-- Operations have parentheses here, and calls begin with a name. -/
theorem ordinary_startsMinus (hform : standard.form name = .ordinary) (hf : f.statementLevel standard = false) :
    Ensures (node standard (.list (.leaf (.symbol name) op :: args) t) f) fun s =>
      (StartsMinus s ↔ Signed (.list (.leaf (.symbol name) op :: args) t)) := by
  have hsigned : Signed (.list (.leaf (.symbol name) op :: args) t) ↔ StartsMinus name ∧ name ≠ "-" := by
    rw [signed_form_iff, or_iff_left]
    rintro ⟨n, quasi, -, h, -⟩
    rw [hform] at h
    cases quasi <;> cases h
  have hopen (s : String) : ¬ StartsMinus (parenthesize (!f.statementLevel standard) s) := by
    simp [hf, parenthesize, StartsMinus]
  rw [hsigned]
  simp only [node, hform]
  cases hbinary : standard.binaryOperators.get? name with
  | some target =>
    have hname : ¬ (StartsMinus name ∧ name ≠ "-") := fun h => h.2 (eq_minus_of_operator (.inl hbinary) h.1)
    rcases args with _ | ⟨n, _ | ⟨m, rest⟩⟩
    · exact ensures_fail
    · refine ensures_ite (fun _ => ?_) fun _ => ensures_fail
      exact ensures_bind fun _ => ensures_bind fun s => ensures_pure (iff_of_false (hopen _) hname)
    · exact ensures_bind fun _ => ensures_bind fun s => ensures_bind fun more =>
        ensures_pure (iff_of_false (hopen _) hname)
  | none =>
    cases hcomparison : standard.comparisons.get? name with
    | some target =>
      have hname : ¬ (StartsMinus name ∧ name ≠ "-") :=
        fun h => h.2 (eq_minus_of_operator (.inr (.inl hcomparison)) h.1)
      rcases args with _ | ⟨n, _ | ⟨m, _ | ⟨k, rest⟩⟩⟩
      · exact ensures_fail
      · exact ensures_fail
      · exact ensures_bind fun _ => ensures_bind fun s => ensures_bind fun s' =>
          ensures_pure (iff_of_false (hopen _) hname)
      · exact ensures_fail
    | none =>
      cases hunary : standard.unaryOperators.get? name with
      | some target =>
        have hname : ¬ (StartsMinus name ∧ name ≠ "-") := fun h => h.2 (eq_minus_of_operator (.inr (.inr hunary)) h.1)
        have htargets : ∀ e ∈ standard.unaryOperators.entries, e.2 = "!" := by decide
        obtain rfl : target = "!" := htargets _ (Dialect.mem_of_get? hunary)
        rcases args with _ | ⟨n, _ | ⟨m, rest⟩⟩
        · exact ensures_fail
        · exact ensures_bind fun _ => ensures_bind fun s =>
            ensures_pure (iff_of_false (by simp [StartsMinus]) hname)
        · exact ensures_fail
      | none =>
        have hne : name ≠ "-" := by
          rintro rfl
          exact absurd hbinary (by decide)
        refine ensures_bind fun values => ensures_pure ?_
        rw [String.append_assoc, String.append_assoc, startsMinus_append_iff (by simp [StartsMinus])]
        simp [hne]

/-- Other forms that can be operands begin with a bracket or a word. -/
theorem not_startsMinus_node (hform : standard.form name ∈ [.lambda, .array, .object, .existence, .unquote, .unquoteSplicing]) :
    Ensures (node standard (.list (.leaf (.symbol name) op :: args) t) f) fun s => ¬ StartsMinus s := by
  have hparenthesize {wanted : Bool} {s : String} (hs : ¬ StartsMinus s) : ¬ StartsMinus (parenthesize wanted s) := by
    cases wanted with
    | false => exact hs
    | true => simp [parenthesize, StartsMinus]
  simp only [node]
  cases hname : standard.form name with
  | lambda =>
    rcases args with _ | ⟨⟨v, u⟩ | ⟨ps, u⟩, _ | ⟨b, body⟩⟩
    case cons.list.cons =>
      refine ensures_bind fun scope => ensures_bind fun p => ensures_bind fun ss => ensures_pure (hparenthesize ?_)
      simp [StartsMinus]
    all_goals exact ensures_fail
  | array => exact ensures_bind fun values => ensures_pure (by simp [StartsMinus])
  | object =>
    refine ensures_ite (fun _ => ensures_bind fun es => ensures_pure (hparenthesize ?_)) fun _ => ensures_fail
    split <;> simp [objectText, StartsMinus]
  | existence =>
    rcases args with _ | ⟨n, _ | ⟨m, rest⟩⟩
    · exact ensures_fail
    · simp only [existence]
      cases n.symbol? with
      | none => exact ensures_fail
      | some x => exact ensures_pure (hparenthesize (by simp [StartsMinus]))
    · exact ensures_fail
  | unquote | unquoteSplicing => exact ensures_fail
  | _ => simp [hname] at hform

theorem form_startsMinus (hexpr : isExpression standard (.list (.leaf (.symbol name) op :: args) t) = true)
    (hinserted : ∀ u e t', args = [.list [u, e] t'] → isExpression standard e = true → OperandSign e)
    (hf : f.statementLevel standard = false) :
    Ensures (node standard (.list (.leaf (.symbol name) op :: args) t) f) fun s =>
      (StartsMinus s ↔ Signed (.list (.leaf (.symbol name) op :: args) t)) := by
  have hplain (hform : standard.form name ∉ [.ordinary, .quote, .quasiquote]) :
      ¬ Signed (.list (.leaf (.symbol name) op :: args) t) := by
    rw [signed_form_iff]
    rintro (⟨h, -⟩ | ⟨n, quasi, -, h, -⟩)
    · exact not_startsMinus_form (fun h => hform (by simp [h])) h
    · cases quasi <;> exact hform (by simp [h])
  cases hform : standard.form name with
  | ordinary => exact ordinary_startsMinus hform hf
  | quote =>
    simp only [node, hform]
    exact quotation_startsMinus false hinserted hform
  | quasiquote =>
    simp only [node, hform]
    exact quotation_startsMinus true hinserted hform
  | lambda | array | object | existence | unquote | unquoteSplicing =>
    refine (not_startsMinus_node (by simp [hform])).imp fun s hs => iff_of_false hs (hplain (by simp [hform]))
  | unassigned k =>
    have htable : ∀ e ∈ standard.specialForms.entries, e.2 ∈ Form.all := by decide
    have hmem := htable _ (Dialect.mem_of_form hform (by simp))
    simp [Form.all] at hmem
  | _ =>
    rw [isExpression_of_form hform (by decide)] at hexpr
    cases hexpr

end Forms

/-- The head of a signed list is a symbol. -/
theorem Signed.symbol {n : Node} {args : List Node} {t : Token} (h : Signed (.list (n :: args) t)) :
    ∃ name op, n = .leaf (.symbol name) op := by
  have hhead (hform : formOf standard (.list (n :: args) t) ≠ .ordinary) : ∃ name op, n = .leaf (.symbol name) op := by
    rcases n with ⟨_ | _ | _ | name | _, op⟩ | ⟨es, t'⟩
    case leaf.symbol => exact ⟨name, op, rfl⟩
    all_goals exact absurd rfl hform
  cases h with
  | call h hne => exact ⟨_, _, rfl⟩
  | quoted hform hv h => exact hhead fun h => by simp [h] at hform
  | inserted hform hu h => exact hhead (by simp [hform])

/-- **How operands begin.** -/
theorem operandSign : ∀ {n : Node}, isExpression standard n = true → OperandSign n
  | n, hexpr => by
    intro f hf
    have hsmaller : ∀ m : Node, sizeOf m < sizeOf n → isExpression standard m = true → OperandSign m :=
      fun m _ hm => operandSign hm
    rcases n with ⟨v, t⟩ | ⟨_ | ⟨⟨v, op⟩ | ⟨es, t'⟩, args⟩, t⟩
    · refine (leaf_ensures v t f).imp fun s hs => ?_
      rw [hs]
      exact ⟨.leaf, fun h => by cases h; assumption⟩
    · cases hexpr
    · cases v with
      | symbol name =>
        refine form_startsMinus hexpr ?_ hf
        rintro u e t' rfl he
        refine hsmaller e ?_ he
        simp only [Node.list.sizeOf_spec, List.cons.sizeOf_spec]
        omega
      | _ => exact ensures_fail
    · refine ensures_bind fun _ => ensures_bind fun callee => ensures_bind fun values => ensures_pure ?_
      refine iff_of_false (by simp [StartsMinus]) fun h => ?_
      obtain ⟨name, op, hname⟩ := h.symbol
      cases hname
termination_by n => sizeOf n

/-! ## Negations -/

theorem minus_append_eq {x : Node} {s : String} {c : Char} {cs : List Char} (hs : s.toList = c :: cs)
    (hsign : StartsMinus s ↔ Signed x) :
    ∃ c' cs', (minus x ++ s).toList = '-' :: c' :: cs' ∧ (c' = '-' ↔ (∃ es u, x = .list es u) ∧ Signed x) := by
  have hc : StartsMinus s ↔ c = '-' := by simp [StartsMinus, hs]
  cases x with
  | list es u => exact ⟨c, cs, by simp [minus, hs], by simp [← hc, hsign]⟩
  | leaf v u =>
    have hleaf : Signed (.leaf v u) ↔ StartsMinus (Target.literal v) := ⟨fun h => by cases h; assumption, .leaf⟩
    by_cases hv : StartsMinus (Target.literal v)
    · exact ⟨' ', c :: cs, by simp [minus, show (Target.literal v).toList.head? = some '-' from hv, hs], by simp⟩
    · refine ⟨c, cs, by simp [minus, show ¬ (Target.literal v).toList.head? = some '-' from hv, hs], ?_⟩
      rw [← hc, hsign, hleaf]
      simp [hv]

/-- **Which negations decrement.** Wherever a negation stands, its code is a minus sign, in parentheses or not, with
something behind it. That is another minus sign if and only if the operand is a list whose code begins with one. -/
theorem negation_doubles_iff {x : Node} (hx : x.Readable) {op t : Token} {f : Frame} {T T' : ScopeTable} {code : String}
    (h : exec (node standard (.list [.leaf (.symbol "-") op, x] t) f) T = (.ok code, T')) :
    ∃ c rest, code.toList = (if f.statementLevel standard then [] else ['(']) ++ '-' :: c :: rest ∧
      (c = '-' ↔ (∃ es u, x = .list es u) ∧ Signed x) := by
  have hminus : (f.under "-").statementLevel standard = false := by
    change standard.isStatement "-" = false
    decide
  have hcode : Ensures (operation standard "-" op "-" [x] f) fun code =>
      ∃ s, code = parenthesize (!f.statementLevel standard) (minus x ++ s) ∧ Brackets.Begins s ∧
        (StartsMinus s ↔ Signed x) := by
    simp only [operation, if_true]
    refine (requireExpression_ensures x).bind fun _ hexpr => ?_
    refine ((node_phrase x (f.under "-") hx).and (operandSign hexpr _ hminus)).bind_pure fun s hs => ?_
    exact ⟨s, rfl, hs.1.begins, hs.2⟩
  obtain ⟨s, rfl, ⟨c, hc, -⟩, hsign⟩ := hcode T code T' h
  obtain ⟨cs, hcs⟩ := List.head?_eq_some_iff.1 hc
  obtain ⟨c', cs', htext, hdouble⟩ := minus_append_eq hcs hsign
  cases hlevel : f.statementLevel standard with
  | true => exact ⟨c', cs', by simp [parenthesize, htext], hdouble⟩
  | false => exact ⟨c', cs' ++ [')'], by simp [parenthesize, htext], hdouble⟩

/-- A call of a name with a minus sign in front, inserted into a template, under a sum. -/
theorem negation_doubles_iff_template :
    let t : Token := ⟨.atom, "", .start⟩
    let name (s : String) : Node := .leaf (.symbol s) t
    let x : Node := .list [name "quasiquote", .list [name "unquote", .list [name "-f", name "a"] t] t] t
    let f : Frame := Frame.top.under "+"
    x.Readable ∧ exec (node standard (.list [name "-", x] t) f) .initial = (.ok "(--f(a))", .initial) ∧
      ∃ c rest, "(--f(a))".toList = '(' :: '-' :: c :: rest ∧ (c = '-' ↔ (∃ es u, x = .list es u) ∧ Signed x) := by
  intro t name x f
  have hx : x.Readable := by decide
  have hcode : exec (node standard (.list [name "-", x] t) f) .initial = (.ok "(--f(a))", .initial) := by cbv
  obtain ⟨c, rest, htext, hdouble⟩ := negation_doubles_iff hx hcode
  exact ⟨hx, hcode, c, rest, htext, hdouble⟩

/-- The negation of a quoted negative number is a decrement. -/
theorem generate_decrements_quoted :
    let reading := Reading.ofText standard "(- '-5)".toList
    reading.error = none ∧ (generate standard .initial reading.nodes).1 = .ok "--5;\n" := by
  refine ⟨by cbv, by cbv⟩

end Emit
end QuasiScript
