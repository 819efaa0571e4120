import QuasiScript.Proofs.Ensures
import QuasiScript.Proofs.Incremental
import QuasiScript.Proofs.LexicalScope
import QuasiScript.Proofs.Phrases
import QuasiScript.Proofs.RoundTrip

/-!
# Emitted text is balanced and laid out

Every code that is emitted at some depth is a phrase of that depth, and the code of an expression has no comma outside
of brackets (`node_phrase`). So the brackets of a program match and its lines are indented by its nesting
(`compiled_laidOut`).
-/
namespace QuasiScript
open Dialect (standard)

theorem Dialect.mem_of_form {d : Dialect} {name : String} {form : Form} (h : d.form name = form)
    (hne : form ≠ .ordinary) : (name, form) ∈ d.specialForms.entries := by
  refine mem_of_get? ?_
  unfold Dialect.form at h
  cases hget : d.specialForms.get? name with
  | some x =>
    rw [hget] at h
    exact congrArg some h
  | none =>
    rw [hget] at h
    exact absurd h.symm hne

namespace Emit
open Brackets

/-! ## The parts of an emission -/

section Parts
variable {k : Nat} {commas : Bool}

theorem parameters_phrase (scope : Int) : ∀ (ps : List Node) (i : Nat), Node.AllReadable ps →
    Ensures (parameters standard scope i ps) fun p =>
      (∀ s ∈ p.names, Phrase k false s) ∧ ∀ s ∈ p.prelude, Phrase (k + 1) true s
  | [], _, _ => ensures_pure ⟨by simp, by simp⟩
  | .list _ _ :: _, _, _ => ensures_fail
  | .leaf v t :: ps, i, h => by
    unfold parameters
    refine ensures_ite (fun _ => ?_) fun _ => ?_
    · rcases ps with _ | ⟨n, _ | ⟨m, rest⟩⟩
      · exact ensures_fail
      · cases n with
        | leaf r rt =>
          refine ensures_bind fun _ => ensures_pure ⟨by simp, fun s hs => ?_⟩
          cases hs
          exact phrase_collectRest (phrase_literal h.2.1) i
        | list es t => exact ensures_fail
      · cases n <;> exact ensures_fail
    · refine ensures_bind fun _ => (parameters_phrase scope ps (i + 1) h.2).bind_pure fun p hp => ?_
      exact ⟨List.forall_mem_cons.2 ⟨phrase_literal h.1, hp.1⟩, hp.2⟩

theorem existence_phrase (name : String) (op : Token) (f : Frame) : ∀ ns : List Node, Node.AllReadable ns →
    Ensures (existence standard name op ns f) (Phrase f.depth false)
  | [], _ => ensures_fail
  | [.leaf v t], h => by
    dsimp only [existence, Node.symbol?]
    cases hv : v.symbol? with
    | none => exact ensures_fail
    | some x =>
      obtain rfl := eq_symbol_of_symbol? hv
      have hx : ∀ {commas : Bool}, Phrase f.depth commas x := phrase_literal (v := .symbol x) h.1
      exact ensures_pure (phrase_parenthesize _ (phrase_existence hx) (phrase_existence hx).code)
  | [.list _ _], _ => ensures_fail
  | _ :: _ :: _, _ => ensures_fail

theorem phrase_minus (n : Node) : Phrase k false (minus n) := by
  have hminus : Phrase k false "-" := phrase_word (by decide) ⟨'-', rfl, by decide⟩
  cases n with
  | leaf v t =>
    dsimp only [minus]
    split
    · exact phrase_word (by decide) ⟨'-', rfl, by decide⟩
    · exact hminus
  | list es t => exact hminus

theorem code_operator {name target : String} (h : standard.binaryOperators.get? name = some target ∨
    standard.comparisons.get? name = some target) : Code k false (" " ++ target ++ " ") := by
  have hplain : ∀ e ∈ standard.binaryOperators.entries ++ standard.comparisons.entries,
      ∀ c ∈ e.2.toList, IsPlain false c := by decide
  have hblank : Code k false " " := .plain (by decide)
  have hmem : (name, target) ∈ standard.binaryOperators.entries ++ standard.comparisons.entries := by
    rw [List.mem_append]
    exact h.imp Dialect.mem_of_get? Dialect.mem_of_get?
  exact (hblank.append (.plain (hplain _ hmem))).append hblank

theorem phrase_unary {name target : String} (h : standard.unaryOperators.get? name = some target) :
    Phrase k false target := by
  have htable : ∀ e ∈ standard.unaryOperators.entries, e.2 = "!" := by decide
  obtain rfl := htable _ (Dialect.mem_of_get? h)
  exact phrase_word (by decide) ⟨'!', rfl, by decide⟩

def statementForms : List Form :=
  [.declaration, .assignment, .sequence, .conditional, .when, .forLoop, .whileLoop, .untilLoop]

theorem isExpression_of_form {name : String} {form : Form} (hform : standard.form name = form)
    (h : form ∈ statementForms) (op : Token) (args : List Node) (t : Token) :
    isExpression standard (.list (.leaf (.symbol name) op :: args) t) = false := by
  have htable : ∀ e ∈ standard.specialForms.entries, e.2 ∈ statementForms → standard.isStatement e.1 = true := by decide
  have hmem := Dialect.mem_of_form hform (by rintro rfl; exact absurd h (by decide))
  simp [isExpression, Value.symbol?, htable _ hmem h]

/-- What stands before a statement, and how deep it is. -/
theorem tailPlace_cases (n : Node) (f : Frame) : (tailPlace standard n f).2.depth = f.depth ∧
    ((tailPlace standard n f).1 = "" ∨ (tailPlace standard n f).1 = "return ") := by
  unfold tailPlace
  split <;> simp [Frame.under]

theorem key_phrase (n : Node) (h : n.Readable) : Ensures (key standard n) fun key => Phrase k false key.text := by
  cases n with
  | leaf v t => exact ensures_pure (phrase_key h)
  | list es t => exact ensures_fail

end Parts

/-! ## The recursion -/

mutual

/-- **An emitted code is a text of its depth that may begin a line**, and that of an expression has no comma outside of
brackets. -/
theorem node_phrase : ∀ (n : Node) (f : Frame), n.Readable →
    Ensures (node standard n f) (Phrase f.depth (!isExpression standard n))
  | .leaf v t, f, h => (leaf_ensures v t f).imp fun s hs => hs ▸ phrase_literal h
  | .list [] t, f, _ => ensures_fail
  | .list (.list es t :: args) o, f, h => by
    refine ensures_bind fun _ => (node_phrase (.list es t) (f.under "call") h.1).bind fun callee hcallee =>
      (operands_phrase args (f.under "call") h.2).bind_pure fun values hvalues => ?_
    have hcat : "(" ++ callee ++ ")(" = "(" ++ callee ++ ")" ++ "(" := by
      have hpair : ")(" = ")" ++ "(" := rfl
      simp only [hpair, String.append_assoc]
    rw [hcat]
    exact phrase_call (phrase_round hcallee.loose.code) hvalues
  | .list (.leaf (.symbol name) op :: args) o, f, h => by
    simp only [node]
    cases hform : standard.form name with
    | declaration =>
      rw [isExpression_of_form hform (by decide)]
      refine ensures_bind fun _ => (declarators_phrase args (f.under "var") h.2).bind_pure fun ds hds => ?_
      have hvar : Phrase f.depth true "var " := phrase_word (by decide) ⟨'v', rfl, by decide⟩
      exact hvar.append (code_intercalate (.plain (by decide)) fun s hs => (hds s hs).code)
    | assignment =>
      rw [isExpression_of_form hform (by decide)]
      refine (atLeast_ensures name op args 2).bind fun _ hlen => ensures_bind fun _ => ensures_bind fun _ =>
        (nodes_phrase args (f.under "=") h.2).bind_pure fun parts hparts => ?_
      have hphrases := forall_mem_of_forall₂ hparts fun _ _ _ => Phrase.loose
      refine ⟨code_intercalate (.plain (by decide)) fun s hs => (hphrases s hs).code, ?_⟩
      cases hparts with
      | nil => cases hlen
      | cons hs _ => exact begins_intercalate _ hs.begins _
    | lambda => exact (lambda_phrase name op args f h.2).imp fun _ => Phrase.mono
    | sequence =>
      refine (atLeast_ensures name op args 1).bind fun _ hlen =>
        (statements_phrase args f.deeper f.tail h.2).bind_pure fun body hbody => ?_
      exact phrase_blockText (by simp) hbody (List.ne_nil_of_length_pos hlen)
    | conditional =>
      refine (atLeast_ensures name op args 1).bind fun _ hlen =>
        (clauses_phrase 1 args f h.2).bind_pure fun parts hparts => ?_
      have helse : Code f.depth false (f.newline ++ "else ") := .line ⟨'e', rfl, by decide⟩ (.plain (by decide))
      refine Phrase.mono ⟨code_intercalate helse fun s hs => (forall_mem_of_forall₂ hparts (fun _ _ _ => id) s hs).code, ?_⟩
      cases hparts with
      | nil => cases hlen
      | cons hs _ => exact begins_intercalate _ hs.begins _
    | «when» =>
      refine (guarded_phrase name op "if (" "when" f.tail args f h.2 fun s hs => ?_).imp fun _ => Phrase.mono
      exact phrase_test "if " (by decide) ⟨'i', rfl, by decide⟩ hs
    | array =>
      refine (operands_phrase args (f.under "array") h.2).bind_pure fun values hvalues => ?_
      exact phrase_square (code_commas hvalues)
    | object =>
      refine ensures_ite (fun _ => ?_) fun _ => ensures_fail
      refine (entries_phrase [] args (f.under "object").deeper h.2).bind_pure fun es hes => ?_
      have htext : ∀ {commas : Bool}, Phrase f.depth commas (if es.isEmpty then "\x7b\x7d" else objectText f es) := by
        intro commas
        split
        · exact ⟨.brace (s := "") (.plain (by simp)), '\x7b', rfl, by decide⟩
        · exact phrase_objectText hes (by simpa using ‹¬ es.isEmpty = true›)
      exact phrase_parenthesize _ htext htext.code
    | existence => exact (existence_phrase name op f args h.2).imp fun _ => Phrase.mono
    | forLoop => exact (forLoop_phrase name op args f h.2).imp fun _ => Phrase.mono
    | whileLoop =>
      refine (guarded_phrase name op "while (" "while" false args f h.2 fun s hs => ?_).imp fun _ => Phrase.mono
      exact phrase_test "while " (by decide) ⟨'w', rfl, by decide⟩ hs
    | untilLoop =>
      refine (guarded_phrase name op "while (!" "not" false args f h.2 fun s hs => ?_).imp fun _ => Phrase.mono
      have hnot : Code f.depth true ("!" ++ s) := Code.append (.plain (by decide)) hs
      have htest : Phrase f.depth false ("while (" ++ ("!" ++ s) ++ ")") :=
        phrase_test "while " (by decide) ⟨'w', rfl, by decide⟩ hnot
      rwa [← String.append_assoc] at htest
    | quote => exact (quotation_phrase name op false args f h.2).imp fun _ => Phrase.mono
    | quasiquote => exact (quotation_phrase name op true args f h.2).imp fun _ => Phrase.mono
    | unquote => exact ensures_fail
    | unquoteSplicing => exact ensures_fail
    | ordinary | unassigned _ =>
      simp only
      cases hbinary : standard.binaryOperators.get? name with
      | some target =>
        exact (operation_phrase name op (fun _ => code_operator (.inl hbinary)) args f h.2).imp fun _ => Phrase.mono
      | none =>
        cases hcomparison : standard.comparisons.get? name with
        | some target =>
          exact (comparison_phrase name op (fun _ => code_operator (.inr hcomparison)) args f h.2).imp fun _ =>
            Phrase.mono
        | none =>
          cases hunary : standard.unaryOperators.get? name with
          | some target =>
            exact (unary_phrase name op (fun _ => phrase_unary hunary) args f h.2).imp fun _ => Phrase.mono
          | none =>
            refine (operands_phrase args (f.under "call") h.2).bind_pure fun values hvalues => ?_
            exact phrase_call (phrase_literal (v := .symbol name) h.1) hvalues
  | .list (.leaf (.number _ _) op :: _) _, _, _ => ensures_fail
  | .list (.leaf (.boolean _) op :: _) _, _, _ => ensures_fail
  | .list (.leaf (.constant _ _) op :: _) _, _, _ => ensures_fail
  | .list (.leaf (.string _) op :: _) _, _, _ => ensures_fail
termination_by structural n => n

theorem nodes_phrase : ∀ (ns : List Node) (f : Frame), Node.AllReadable ns →
    Ensures (nodes standard ns f) (List.Forall₂ (fun n => Phrase f.depth (!isExpression standard n)) ns)
  | [], _, _ => ensures_pure .nil
  | n :: ns, f, h => (node_phrase n f h.1).bind fun _ hs => (nodes_phrase ns f h.2).bind_pure fun _ hss => .cons hs hss
termination_by structural ns => ns

theorem operands_phrase : ∀ (ns : List Node) (f : Frame), Node.AllReadable ns →
    Ensures (operands standard ns f) fun ss => ∀ s ∈ ss, Phrase f.depth false s
  | [], _, _ => ensures_pure (by simp)
  | n :: ns, f, h => by
    refine (requireExpression_ensures n).bind fun _ hn => (node_phrase n f h.1).bind fun s hs =>
      (operands_phrase ns f h.2).bind_pure fun ss hss => ?_
    rw [hn] at hs
    exact List.forall_mem_cons.2 ⟨hs, hss⟩
termination_by structural ns => ns

theorem statements_phrase : ∀ (ns : List Node) (f : Frame) (tail : Bool), Node.AllReadable ns →
    Ensures (statements standard ns f tail) (List.Forall₂ (fun _ => Phrase f.depth true) ns)
  | [], _, _, _ => ensures_pure .nil
  | n :: ns, f, tail, h => by
    simp only [statements]
    generalize hp : (if (tail && ns.isEmpty) = true then tailPlace standard n f else ("", f.under "begin")) = place
    obtain ⟨hdepth, hlead⟩ : place.2.depth = f.depth ∧ (place.1 = "" ∨ place.1 = "return ") := by
      rw [← hp]
      split
      · exact tailPlace_cases n f
      · exact ⟨rfl, .inl rfl⟩
    refine (node_phrase n place.2 h.1).bind fun s hs => (statements_phrase ns f tail h.2).bind_pure fun ss hss => ?_
    refine .cons ?_ hss
    have hs : Phrase f.depth true s := hdepth ▸ hs.loose
    rcases hlead with hlead | hlead
    · rwa [hlead, String.empty_append]
    · have hreturn : Phrase f.depth true "return " := phrase_word (by decide) ⟨'r', rfl, by decide⟩
      rw [hlead]
      exact hreturn.append hs.code
termination_by structural ns => ns

theorem declarators_phrase : ∀ (ns : List Node) (f : Frame), Node.AllReadable ns →
    Ensures (declarators standard ns f) fun ss => ∀ s ∈ ss, Phrase f.depth true s
  | [], _, _ => ensures_pure (by simp)
  | .list es t :: rest, f, h => ensures_bind fun _ => (node_phrase (.list es t) f h.1).bind fun _ hs =>
      (declarators_phrase rest f h.2).bind_pure fun _ hss => List.forall_mem_cons.2 ⟨hs.loose, hss⟩
  | [.leaf v t], f, h => (leaf_ensures v t f).bind_pure fun s hs => by
      rw [hs, List.forall_mem_singleton]
      exact phrase_literal h.1
  | .leaf v t :: n :: rest, f, h => by
    simp only [declarators]
    refine (leaf_ensures v t f).bind fun s hs => ?_
    have hs : Phrase f.depth true s := hs ▸ phrase_literal h.1
    refine ensures_ite (fun _ => ?_) fun _ => ?_
    · refine ensures_bind fun _ => (node_phrase n (f.under "=") h.2.1).bind fun value hvalue =>
        (declarators_phrase rest f h.2.2).bind_pure fun more hmore => List.forall_mem_cons.2 ⟨?_, hmore⟩
      exact (hs.append (.plain (by decide))).append hvalue.loose.code
    · exact (declarators_phrase (n :: rest) f h.2).bind_pure fun more hmore => List.forall_mem_cons.2 ⟨hs, hmore⟩
termination_by structural ns => ns

theorem lambda_phrase (name : String) (op : Token) : ∀ (ns : List Node) (f : Frame), Node.AllReadable ns →
    Ensures (lambda standard name op ns f) (Phrase f.depth false)
  | .list ps _ :: b :: body, f, h => by
    refine ensures_bind fun scope => (parameters_phrase (k := f.depth) scope ps 0 h.1).bind fun p hp =>
      (statements_phrase (b :: body) (f.within scope).deeper true h.2).bind_pure fun ss hss => ?_
    have htext : ∀ {commas : Bool}, Phrase f.depth commas
        ("function(" ++ ", ".intercalate p.names ++ ") " ++ blockText f p.prelude ss) := by
      intro commas
      have hwords : ∀ c ∈ "function".toList, IsPlain false c := by decide
      have hnames : Phrase f.depth false ("function(" ++ ", ".intercalate p.names ++ ")") :=
        phrase_test "function" hwords ⟨'f', rfl, by decide⟩ (code_commas hp.1)
      exact phrase_headed hnames.mono (phrase_blockText hp.2 hss (by simp))
    exact phrase_parenthesize _ htext htext.code
  | .leaf _ t :: _ :: _, _, _ => ensures_fail
  | [], _, _ => ensures_fail
  | [.leaf _ _], _, _ => ensures_fail
  | [.list _ _], _, _ => ensures_fail
termination_by structural ns => ns

theorem clauses_phrase : ∀ (i : Nat) (ns : List Node) (f : Frame), Node.AllReadable ns →
    Ensures (clauses standard i ns f) (List.Forall₂ (fun _ => Phrase f.depth false) ns)
  | _, [], _, _ => ensures_pure .nil
  | _, .leaf _ t :: _, _, _ => ensures_fail
  | _, .list [] t :: _, _, _ => ensures_fail
  | _, .list [n] t :: _, _, _ => ensures_fail
  | i, .list (test :: b :: body) o :: rest, f, h => by
    have hrest : ∀ lead : String, (∀ s, Phrase f.depth false s → Phrase f.depth false (lead ++ s)) → Ensures (do
        let ss ← statements standard (b :: body) f.deeper f.tail
        let more ← clauses standard (i + 1) rest f
        pure ((lead ++ blockText f none ss) :: more))
        (List.Forall₂ (fun _ => Phrase f.depth false) (.list (test :: b :: body) o :: rest)) := by
      intro lead hlead
      refine (statements_phrase (b :: body) f.deeper f.tail h.1.2).bind fun ss hss =>
        (clauses_phrase (i + 1) rest f h.2).bind_pure fun more hmore => .cons ?_ hmore
      exact hlead _ (phrase_blockText (by simp) hss (by simp))
    simp only [clauses, pure_bind]
    refine ensures_ite (fun _ => ?_) fun _ => ?_
    · refine ensures_bind fun _ => hrest "" fun s hs => ?_
      rwa [String.empty_append]
    · refine ensures_bind fun _ => (node_phrase test (f.under "if") h.1.1).bind fun s hs => hrest _ fun t ht => ?_
      exact phrase_headed (phrase_test "if " (by decide) ⟨'i', rfl, by decide⟩ hs.loose.code) ht
termination_by structural _ ns => ns

theorem guarded_phrase (name : String) (op : Token) (lead role : String) (tail : Bool) :
    ∀ (ns : List Node) (f : Frame), Node.AllReadable ns →
      (∀ s, Code f.depth true s → Phrase f.depth false (lead ++ s ++ ")")) →
      Ensures (guarded standard name op lead role tail ns f) (Phrase f.depth false)
  | test :: b :: body, f, h, hlead => by
    refine ensures_bind fun _ => (node_phrase test (f.under role) h.1).bind fun s hs =>
      (statements_phrase (b :: body) f.deeper tail h.2).bind_pure fun ss hss => ?_
    exact phrase_headed (hlead s hs.loose.code) (phrase_blockText (by simp) hss (by simp))
  | [], _, _, _ => ensures_fail
  | [_], _, _, _ => ensures_fail
termination_by structural ns => ns

theorem entries_phrase : ∀ (seen : List String) (ns : List Node) (f : Frame), Node.AllReadable ns →
    Ensures (entries standard seen ns f) fun ss => ∀ s ∈ ss, Phrase f.depth false s
  | _, [], _, _ => ensures_pure (by simp)
  | _, [_], _, _ => ensures_pure (by simp)
  | seen, k :: n :: rest, f, h => by
    simp only [entries]
    refine (key_phrase (k := f.depth) k h.1).bind fun key hkey => ?_
    have hmore : Ensures (do
        requireExpression standard n
        let s ← node standard n f
        let more ← entries standard (key.name :: seen) rest f
        pure ((key.text ++ ": " ++ s) :: more)) fun ss => ∀ s ∈ ss, Phrase f.depth false s := by
      refine (requireExpression_ensures n).bind fun _ hn => (node_phrase n f h.2.1).bind fun s hs =>
        (entries_phrase (key.name :: seen) rest f h.2.2).bind_pure fun more hmore => List.forall_mem_cons.2 ⟨?_, hmore⟩
      rw [hn] at hs
      exact (hkey.append (.plain (by decide))).append hs.code
    exact ensures_ite (fun _ => ensures_bind fun _ => hmore) fun _ => hmore
termination_by structural _ ns => ns

theorem forLoop_phrase (name : String) (op : Token) : ∀ (ns : List Node) (f : Frame), Node.AllReadable ns →
    Ensures (forLoop standard name op ns f) (Phrase f.depth false)
  | .leaf v t :: lo :: hi :: b :: body, f, h => by
    refine ensures_bind fun scope => ensures_bind fun _ => ensures_bind fun _ => ensures_bind fun _ =>
      (node_phrase lo ((f.within scope).under "=") h.2.1).bind fun first hfirst =>
        (node_phrase hi ((f.within scope).under "<=") h.2.2.1).bind fun last hlast =>
          (statements_phrase (b :: body) (f.within scope).deeper false h.2.2.2).bind_pure fun ss hss => ?_
    exact phrase_counting (phrase_literal h.1) hfirst.loose hlast.loose (phrase_blockText (by simp) hss (by simp))
  | .list es t :: _ :: _ :: _ :: _, _, _ => ensures_fail
  | [], _, _ => ensures_fail
  | [n], _, _ => by cases n <;> exact ensures_fail
  | [n, _], _, _ => by cases n <;> exact ensures_fail
  | [n, _, _], _, _ => by cases n <;> exact ensures_fail
termination_by structural ns => ns

theorem operation_phrase (name : String) (op : Token) {target : String}
    (htarget : ∀ k, Code k false (" " ++ target ++ " ")) : ∀ (ns : List Node) (f : Frame), Node.AllReadable ns →
    Ensures (operation standard name op target ns f) (Phrase f.depth false)
  | [], _, _ => ensures_fail
  | [n], f, h => by
    refine ensures_ite (fun _ => ?_) fun _ => ensures_fail
    refine (requireExpression_ensures n).bind fun _ hn => (node_phrase n (f.under name) h.1).bind_pure fun s hs => ?_
    rw [hn] at hs
    have htext := (phrase_minus n).append hs.code
    exact phrase_parenthesize _ htext htext.loose.code
  | n :: m :: rest, f, h => by
    refine (requireAll_ensures (n :: m :: rest)).bind fun _ hall => (node_phrase n (f.under name) h.1).bind fun s hs =>
      (nodes_phrase (m :: rest) (f.under name) h.2).bind_pure fun more hmore => ?_
    have hphrases : ∀ s' ∈ s :: more, Phrase f.depth false s' := by
      obtain ⟨hn, hrest⟩ := List.forall_mem_cons.1 hall
      rw [hn] at hs
      refine List.forall_mem_cons.2 ⟨hs, forall_mem_of_forall₂ hmore fun n hn s hs => ?_⟩
      rwa [hrest n hn] at hs
    have htext : Phrase f.depth false ((" " ++ target ++ " ").intercalate (s :: more)) :=
      ⟨code_intercalate (htarget f.depth) fun s' hs' => (hphrases s' hs').code,
        begins_intercalate _ (hphrases s (by simp)).begins _⟩
    exact phrase_parenthesize _ htext htext.loose.code
termination_by structural ns => ns

theorem comparison_phrase (name : String) (op : Token) {target : String}
    (htarget : ∀ k, Code k false (" " ++ target ++ " ")) : ∀ (ns : List Node) (f : Frame), Node.AllReadable ns →
    Ensures (comparison standard name op target ns f) (Phrase f.depth false)
  | [n, m], f, h => by
    refine (requireAll_ensures [n, m]).bind fun _ hall => (node_phrase n (f.under name) h.1).bind fun s hs =>
      (node_phrase m (f.under name) h.2.1).bind_pure fun s' hs' => ?_
    rw [hall n (by simp)] at hs
    rw [hall m (by simp)] at hs'
    have htext := (hs.append (htarget f.depth)).append hs'.code
    have hcat : s ++ " " ++ target ++ " " ++ s' = s ++ (" " ++ target ++ " ") ++ s' := by
      simp only [String.append_assoc]
    rw [hcat]
    exact phrase_parenthesize _ htext htext.loose.code
  | [], _, _ => ensures_fail
  | [_], _, _ => ensures_fail
  | _ :: _ :: _ :: _, _, _ => ensures_fail
termination_by structural ns => ns

theorem unary_phrase (name : String) (op : Token) {target : String} (htarget : ∀ k, Phrase k false target) :
    ∀ (ns : List Node) (f : Frame), Node.AllReadable ns →
      Ensures (unary standard name op target ns f) (Phrase f.depth false)
  | [n], f, h => by
    refine (requireExpression_ensures n).bind fun _ hn => (node_phrase n (f.under name) h.1).bind_pure fun s hs => ?_
    rw [hn] at hs
    exact (htarget f.depth).append hs.code
  | [], _, _ => ensures_fail
  | _ :: _ :: _, _, _ => ensures_fail
termination_by structural ns => ns

theorem quotation_phrase (name : String) (op : Token) (quasi : Bool) : ∀ (ns : List Node) (f : Frame),
    Node.AllReadable ns → Ensures (quotation standard name op quasi ns f) (Phrase f.depth false)
  | [n], f, h => datum_phrase quasi n f h.1
  | [], _, _ => ensures_fail
  | _ :: _ :: _, _, _ => ensures_fail
termination_by structural ns => ns

theorem datum_phrase (quasi : Bool) : ∀ (n : Node) (f : Frame), n.Readable →
    Ensures (datum standard quasi n f) (Phrase f.depth false)
  | .leaf v _, _, h => ensures_pure (phrase_datumLeaf h)
  | .list es t, f, h => by
    simp only [datum]
    split
    · exact inserted_phrase "unquote" es f h
    · exact ensures_fail
    · refine ensures_ite (fun _ => ?_) fun _ => ?_
      · refine (splices_phrase es f h).bind_pure fun parts hparts => ?_
        have hcat : "[].concat(" = "[" ++ "" ++ "]" ++ ".concat" ++ "(" := rfl
        rw [hcat]
        exact phrase_call ((phrase_square (.plain (by simp))).append (.plain (by decide))) hparts
      · exact (data_phrase quasi es f h).bind_pure fun parts hparts => phrase_square (code_commas hparts)
termination_by structural n => n

theorem inserted_phrase (role : String) : ∀ (ns : List Node) (f : Frame), Node.AllReadable ns →
    Ensures (inserted standard role ns f) (Phrase f.depth false)
  | [_, n], f, h => by
    refine (requireExpression_ensures n).bind fun _ hn => (node_phrase n (f.under role) h.2.1).imp fun s hs => ?_
    rwa [hn] at hs
  | [], _, _ => ensures_pure (phrase_square (s := "") (.plain (by simp)))
  | [_], _, _ => ensures_fail
  | _ :: _ :: _ :: _, _, _ => ensures_fail
termination_by structural ns => ns

theorem data_phrase (quasi : Bool) : ∀ (ns : List Node) (f : Frame), Node.AllReadable ns →
    Ensures (data standard quasi ns f) fun ss => ∀ s ∈ ss, Phrase f.depth false s
  | [], _, _ => ensures_pure (by simp)
  | n :: ns, f, h => (datum_phrase quasi n f h.1).bind fun _ hs =>
      (data_phrase quasi ns f h.2).bind_pure fun _ hss => List.forall_mem_cons.2 ⟨hs, hss⟩
termination_by structural ns => ns

theorem splices_phrase : ∀ (ns : List Node) (f : Frame), Node.AllReadable ns →
    Ensures (splices standard ns f) fun ss => ∀ s ∈ ss, Phrase f.depth false s
  | [], _, _ => ensures_pure (by simp)
  | .leaf v _ :: ns, f, h => (splices_phrase ns f h.2).bind_pure fun _ hss =>
      List.forall_mem_cons.2 ⟨phrase_square (phrase_datumLeaf h.1).code, hss⟩
  | .list es t :: ns, f, h => by
    simp only [splices, pure_bind]
    refine ensures_ite (fun _ => ?_) fun _ => ?_
    · exact (inserted_phrase "unquote-splicing" es f h.1).bind fun s hs =>
        (splices_phrase ns f h.2).bind_pure fun ss hss => List.forall_mem_cons.2 ⟨hs, hss⟩
    · exact (datum_phrase true (.list es t) f h.1).bind fun s hs =>
        (splices_phrase ns f h.2).bind_pure fun ss hss => List.forall_mem_cons.2 ⟨phrase_square hs.loose.code, hss⟩
termination_by structural ns => ns

end

end Emit

/-! ## Programs -/

namespace Compilation
open Brackets

/-- **The code of a unit is balanced, and its lines follow the nesting.** It consists of one segment for each top-level
node, which ends in a semicolon and a line break with no bracket open. -/
theorem compiled_laidOut {T : ScopeTable} {name : String} {text : List Char} {code : String}
    (h : (ofText standard T name text).result = .ok code) :
    ∃ codes : List String, code = String.join (codes.map (· ++ ";\n")) ∧
      List.Forall₂ (fun n s => (∃ T T', Emit.exec (Emit.node standard n .top) T = (.ok s, T')) ∧
        Balanced (s ++ ";\n").toList) (Reading.ofText standard text).nodes codes ∧
      Balanced code.toList ∧ LaidOut code.toList := by
  have hread : (Reading.ofText standard text).error = none := by
    cases herror : (Reading.ofText standard text).error with
    | none => rfl
    | some e =>
      simp only [ofText, herror] at h
      cases h
  obtain ⟨codes, hexec, rfl⟩ := Emit.generate_eq_ok_iff.1 ((ofText_ok_iff hread name).1 ⟨h, rfl⟩)
  -- each code is emitted for its node, and is a text of depth zero
  have hcodes : List.Forall₂ (fun n s => (∃ T T', Emit.exec (Emit.node standard n .top) T = (.ok s, T')) ∧
      Phrase 0 true s) (Reading.ofText standard text).nodes codes := by
    refine Emit.nodes_ensures (fun n hn T s T' hs => ⟨⟨T, T', hs⟩, ?_⟩) T codes _ hexec
    exact (Emit.node_phrase n .top (Reading.ofText_readable text n hn) T s T' hs).loose
  refine ⟨codes, rfl, hcodes.imp fun n s hs => ⟨hs.1, (segment_laidOut hs.2).1⟩, program_laidOut ?_⟩
  exact Emit.forall_mem_of_forall₂ hcodes fun _ _ _ => And.right

theorem compiled_laidOut_function :
    (ofText standard .initial "unit" "(fun (x) \x7b a [x \"\x7d\"] \x7d)".toList).result =
        .ok "(function(x) \x7b return \x7b\n    a: [x, \"\x7d\"]\n  \x7d; \x7d);\n" ∧
      Balanced "(function(x) \x7b return \x7b\n    a: [x, \"\x7d\"]\n  \x7d; \x7d);\n".toList ∧
      LaidOut "(function(x) \x7b return \x7b\n    a: [x, \"\x7d\"]\n  \x7d; \x7d);\n".toList := by
  have h : (ofText standard .initial "unit" "(fun (x) \x7b a [x \"\x7d\"] \x7d)".toList).result =
      .ok "(function(x) \x7b return \x7b\n    a: [x, \"\x7d\"]\n  \x7d; \x7d);\n" := by cbv
  obtain ⟨codes, -, -, hlaid⟩ := compiled_laidOut h
  exact ⟨h, hlaid⟩

end Compilation
end QuasiScript
