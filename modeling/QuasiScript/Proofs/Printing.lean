import QuasiScript.Proofs.Ensures
import QuasiScript.Proofs.Marking

/-!
# Emission is marking and then printing

Whenever emission succeeds, it gives the text that is printed for the marked program (`node_print`): the flag that
emission carries down to the ends of function bodies says where the marks are.
-/
namespace QuasiScript

namespace Emit
open Marked

@[simp] theorem blockText_site (f : Frame) (prelude : Option String) (ss : List String) :
    blockText f.site.frame prelude ss = blockText f prelude ss := rfl

@[simp] theorem objectText_site (f : Frame) (ss : List String) : objectText f.site.frame ss = objectText f ss := rfl

section Print
variable {d : Dialect}

def passesTail : Form → Bool
  | .sequence | .conditional | .when => true
  | _ => false

theorem yields_of_passesTail {form : Form} (h : passesTail form = true) : yields form = false := by
  cases form with
  | sequence | conditional | «when» => rfl
  | _ => cases h

/-- The last element of a body is printed as it is marked. -/
theorem tailPlace_print (n : Node) (f : Frame) :
    ((tailPlace d n f).2.tail = true → passesTail (formOf d n) = true) ∧
      (tailPlace d n f).1 ++ print d (mark d (tailPlace d n f).2.tail n) (tailPlace d n f).2.site =
        print d (mark d true n) (f.site.under "begin") := by
  unfold tailPlace
  cases n with
  | leaf v t =>
    simp [formOf, mark, print, Frame.under]
  | list es t =>
    cases es with
    | nil => simp [formOf, Node.head?, mark, print, printList]
    | cons n args =>
      cases hform : formOf d (.list (n :: args) t) <;>
        simp [mark, hform, print, yields, Frame.under, Frame.site, Site.under, passesTail]

theorem parameters_print (scope : Int) : ∀ (ps : List Node) (i : Nat),
    Ensures (parameters d scope i ps) (· = parameterTexts i ps)
  | [], _ => ensures_pure rfl
  | .list _ _ :: _, _ => ensures_fail
  | .leaf v t :: ps, i => by
    unfold parameters parameterTexts
    refine ensures_ite (fun hv => ?_) fun hv => ?_
    · rcases ps with _ | ⟨n, _ | ⟨m, rest⟩⟩
      · exact ensures_fail
      · cases n with
        | leaf r rt => exact ensures_bind fun _ => ensures_pure (by simp [hv])
        | list es t => exact ensures_fail
      · cases n <;> exact ensures_fail
    · exact ensures_bind fun _ => (parameters_print scope ps (i + 1)).bind_pure fun p hp => by simp [hv, hp]

theorem existence_print (name : String) (op : Token) (f : Frame) : ∀ ns : List Node,
    Ensures (existence d name op ns f) (· = existenceText d f.site ns)
  | [] => ensures_fail
  | [n] => by
    dsimp only [existence]
    cases hn : n.symbol? with
    | none => exact ensures_fail
    | some x =>
      refine ensures_pure ?_
      simp only [existenceText, hn, Option.getD_some]
      rfl
  | _ :: _ :: _ => ensures_fail

/-- A form that is not returned itself is printed as it stands. -/
theorem print_mark_form {name : String} {tail : Bool} (hr : (tail && yields (d.form name)) = false) (op : Token)
    (args : List Node) (o : Token) (p : Site) :
    print d (mark d tail (.list (.leaf (.symbol name) op :: args) o)) p =
      printList d (.leaf false (.symbol name) op :: markArguments d (d.form name) tail args) p := by
  have hformOf : formOf d (.list (.leaf (.symbol name) op :: args) o) = d.form name := rfl
  rw [mark_cons, print, hformOf, hr]
  simp [mark]

section Template
variable {es : List Node} {t : Token}

theorem markTemplate_of_ne (hu : formOf d (.list es t) ≠ .unquote) (hs : formOf d (.list es t) ≠ .unquoteSplicing) :
    markTemplate d (.list es t) = .list false (markTemplates d es) t := by
  rw [markTemplate]
  split
  · exact absurd ‹_› hu
  · exact absurd ‹_› hs
  · rfl

theorem printDatum_of_ne {r : Bool} {ms : List Marked} {p : Site} (hu : formOf d (.list (Marked.nodes ms) t) ≠ .unquote)
    (hs : formOf d (.list (Marked.nodes ms) t) ≠ .unquoteSplicing) :
    printDatum d true (.list r ms t) p =
      if (Marked.nodes ms).any (isSpliced d) then "[].concat(" ++ ", ".intercalate (printSplices d ms p) ++ ")"
      else "[" ++ ", ".intercalate (printData d true ms p) ++ "]" := by
  simp only [printDatum, if_true, Bool.true_and]

end Template

mutual

/-- Nothing in quoted data is marked. -/
theorem datum_print_quoted : ∀ (n : Node) (f : Frame),
    Ensures (datum d false n f) (· = printDatum d false (plain n) f.site)
  | .leaf _ _, _ => ensures_pure rfl
  | .list es _, f => (data_print_quoted es f).bind_pure fun ss hss => by
      rw [hss, plain, printDatum]
      rfl

theorem data_print_quoted : ∀ (ns : List Node) (f : Frame),
    Ensures (data d false ns f) (· = printData d false (plainEach ns) f.site)
  | [], _ => ensures_pure rfl
  | n :: ns, f => (datum_print_quoted n f).bind fun s hs => (data_print_quoted ns f).bind_pure fun ss hss => by
      rw [hs, hss, plainEach, printData]

end

theorem quotation_print_quoted (name : String) (op : Token) (ns : List Node) (f : Frame) :
    Ensures (quotation d name op false ns f) (· = printQuotation d false (plainEach ns) f.site) := by
  rcases ns with _ | ⟨n, _ | ⟨_, _⟩⟩
  · exact ensures_fail
  · exact datum_print_quoted n f
  · exact ensures_fail

mutual

/-- **A code that is emitted is the printed text of the marked node.** -/
theorem node_print : ∀ (n : Node) (f : Frame), (f.tail = true → passesTail (formOf d n) = true) →
    Ensures (node d n f) (· = print d (mark d f.tail n) f.site)
  | .leaf v t, f, htail => by
    have hf : f.tail = false := by simpa [passesTail, formOf] using htail
    refine (leaf_ensures v t f).imp fun s hs => ?_
    simp [hs, hf, mark, print]
  | .list [] t, f, _ => ensures_fail
  | .list (.list es t :: args) o, f, htail => by
    have hform : formOf d (.list (.list es t :: args) o) = .ordinary := rfl
    have hf : f.tail = false := by simpa [passesTail, hform] using htail
    refine ensures_bind fun _ => (node_print (.list es t) (f.under "call") fun h => by cases h).bind fun callee hcallee =>
      (operands_print args (f.under "call") rfl).bind_pure fun values hvalues => ?_
    obtain ⟨r, ms, hmark⟩ := exists_mark_list (d := d) es t false
    rw [mark_cons, hform, hf, print, hmark, printList, ← hmark, hcallee, hvalues]
    simp [markArguments]
  | .list (.leaf (.symbol name) op :: args) o, f, htail => by
    have hformOf : formOf d (.list (.leaf (.symbol name) op :: args) o) = d.form name := rfl
    rw [hformOf] at htail
    -- at a tail stands a form that passes it inward, so the form itself is not returned
    have hr : (f.tail && yields (d.form name)) = false := by
      cases hf : f.tail with
      | false => rfl
      | true => exact yields_of_passesTail (htail hf)
    rw [print_mark_form hr]
    simp only [node]
    cases hform : d.form name with
    | declaration =>
      refine ensures_bind fun _ => (declarators_print args (f.under "var") rfl).bind_pure fun ds hds => ?_
      simp [hds, printList, hform, markArguments]
    | assignment =>
      refine ensures_bind fun _ => ensures_bind fun _ => ensures_bind fun _ =>
        (nodes_print args (f.under "=") rfl).bind_pure fun parts hparts => ?_
      simp [hparts, printList, hform, markArguments]
    | lambda =>
      refine (lambda_print name op args f).imp fun s hs => ?_
      simp [hs, printList, hform, markArguments]
    | sequence =>
      refine ensures_bind fun _ => (statements_print args f.deeper f.tail).bind_pure fun body hbody => ?_
      simp [hbody, printList, hform, markArguments]
    | conditional =>
      refine ensures_bind fun _ => (clauses_print 1 args f).bind_pure fun parts hparts => ?_
      simp [hparts, printList, hform, markArguments]
    | «when» =>
      refine (guarded_print name op "if (" "when" f.tail args f).imp fun s hs => ?_
      simp [hs, printList, hform, markArguments]
    | array =>
      refine (operands_print args (f.under "array") rfl).bind_pure fun values hvalues => ?_
      simp [hvalues, printList, hform, markArguments]
    | object =>
      refine ensures_ite (fun _ => ?_) fun _ => ensures_fail
      refine (entries_print [] args (f.under "object").deeper rfl).bind_pure fun es hes => ?_
      simp [hes, printList, hform, markArguments]
    | existence =>
      refine (existence_print name op f args).imp fun s hs => ?_
      simp [hs, printList, hform, markArguments]
    | forLoop =>
      refine (forLoop_print name op args f).imp fun s hs => ?_
      simp [hs, printList, hform, markArguments]
    | whileLoop =>
      refine (guarded_print name op "while (" "while" false args f).imp fun s hs => ?_
      rw [markFrom_false] at hs
      simp [hs, printList, hform, markArguments]
    | untilLoop =>
      refine (guarded_print name op "while (!" "not" false args f).imp fun s hs => ?_
      rw [markFrom_false] at hs
      simp [hs, printList, hform, markArguments]
    | quote =>
      refine (quotation_print_quoted name op args f).imp fun s hs => ?_
      simp [hs, printList, hform, markArguments]
    | quasiquote =>
      refine (quotation_print name op args f).imp fun s hs => ?_
      simp [hs, printList, hform, markArguments]
    | unquote => exact ensures_fail
    | unquoteSplicing => exact ensures_fail
    | ordinary | unassigned _ =>
      simp only
      cases hbinary : d.binaryOperators.get? name with
      | some target =>
        refine (operation_print name op target args f).imp fun s hs => ?_
        simp [hs, printList, hform, markArguments, hbinary]
      | none =>
        cases hcomparison : d.comparisons.get? name with
        | some target =>
          refine (comparison_print name op target args f).imp fun s hs => ?_
          simp [hs, printList, hform, markArguments, hbinary, hcomparison]
        | none =>
          cases hunary : d.unaryOperators.get? name with
          | some target =>
            refine (unary_print name op target args f).imp fun s hs => ?_
            simp [hs, printList, hform, markArguments, hbinary, hcomparison, hunary]
          | none =>
            refine (operands_print args (f.under "call") rfl).bind_pure fun values hvalues => ?_
            simp [hvalues, printList, hform, markArguments, hbinary, hcomparison, hunary]
  | .list (.leaf (.number _ _) op :: _) _, _, _ => ensures_fail
  | .list (.leaf (.boolean _) op :: _) _, _, _ => ensures_fail
  | .list (.leaf (.constant _ _) op :: _) _, _, _ => ensures_fail
  | .list (.leaf (.string _) op :: _) _, _, _ => ensures_fail
termination_by structural n => n

theorem nodes_print : ∀ (ns : List Node) (f : Frame), f.tail = false →
    Ensures (nodes d ns f) (· = printEach d (markFrom d 0 false ns) f.site)
  | [], _, _ => ensures_pure rfl
  | n :: ns, f, hf => (node_print n f fun h => by rw [hf] at h; cases h).bind fun s hs =>
      (nodes_print ns f hf).bind_pure fun ss hss => by
        simp [hs, hss, hf, markFrom_zero, printEach]
termination_by structural ns => ns

theorem operands_print : ∀ (ns : List Node) (f : Frame), f.tail = false →
    Ensures (operands d ns f) (· = printEach d (markFrom d 0 false ns) f.site)
  | [], _, _ => ensures_pure rfl
  | n :: ns, f, hf => ensures_bind fun _ => (node_print n f fun h => by rw [hf] at h; cases h).bind fun s hs =>
      (operands_print ns f hf).bind_pure fun ss hss => by
        simp [hs, hss, hf, markFrom_zero, printEach]
termination_by structural ns => ns

theorem statements_print : ∀ (ns : List Node) (f : Frame) (tail : Bool),
    Ensures (statements d ns f tail) (· = printEach d (markFrom d 0 tail ns) (f.site.under "begin"))
  | [], _, _ => ensures_pure rfl
  | n :: ns, f, tail => by
    simp only [statements]
    by_cases hlast : (tail && ns.isEmpty) = true
    · rw [if_pos hlast]
      obtain ⟨htail, hprint⟩ := tailPlace_print (d := d) n f
      refine (node_print n (tailPlace d n f).2 htail).bind fun s hs => (statements_print ns f tail).bind_pure fun ss hss => ?_
      rw [hs, hss, hprint, markFrom_zero, hlast, printEach]
    · rw [if_neg hlast]
      refine (node_print n (f.under "begin") fun h => by cases h).bind fun s hs =>
        (statements_print ns f tail).bind_pure fun ss hss => ?_
      rw [hs, hss, markFrom_zero, Bool.eq_false_iff.2 hlast, printEach]
      simp
termination_by structural ns => ns

theorem declarators_print : ∀ (ns : List Node) (f : Frame), f.tail = false →
    Ensures (declarators d ns f) (· = printDeclarators d (markFrom d 0 false ns) f.site)
  | [], _, _ => ensures_pure rfl
  | .list es t :: rest, f, hf => by
    refine ensures_bind fun _ => (node_print (.list es t) f fun h => by rw [hf] at h; cases h).bind fun s hs =>
      (declarators_print rest f hf).bind_pure fun ss hss => ?_
    obtain ⟨r, ms, hmark⟩ := exists_mark_list (d := d) es t false
    rw [markFrom_zero, Bool.false_and, hmark, printDeclarators, ← hmark, hs, hss, hf]
  | [.leaf v t], f, hf => (leaf_ensures v t f).bind_pure fun s hs => by
      simp [hs, markFrom, mark, printDeclarators]
  | .leaf v t :: n :: rest, f, hf => by
    simp only [declarators]
    refine (leaf_ensures v t f).bind fun s hs => ?_
    refine ensures_ite (fun hn => ?_) fun hn => ?_
    · refine ensures_bind fun _ => (node_print n (f.under "=") fun h => by cases h).bind fun value hvalue =>
        (declarators_print rest f hf).bind_pure fun more hmore => ?_
      simp [hs, hvalue, hmore, markFrom_zero, mark, printDeclarators, hn]
    · refine (declarators_print (n :: rest) f hf).bind_pure fun more hmore => ?_
      simp [hs, hmore, markFrom_zero, mark, printDeclarators, hn]
termination_by structural ns => ns

theorem lambda_print (name : String) (op : Token) : ∀ (ns : List Node) (f : Frame),
    Ensures (lambda d name op ns f) (· = printLambda d (markLambda d ns) f.site)
  | .list ps _ :: b :: body, f => by
    refine ensures_bind fun scope => (parameters_print scope ps 0).bind fun p hp =>
      (statements_print (b :: body) (f.within scope).deeper true).bind_pure fun ss hss => ?_
    rw [hp, hss, markLambda, plain, printLambda, nodes_plainEach]
    rfl
  | .leaf _ t :: _ :: _, _ => ensures_fail
  | [], _ => ensures_fail
  | [.leaf _ _], _ => ensures_fail
  | [.list _ _], _ => ensures_fail
termination_by structural ns => ns

theorem clauses_print : ∀ (i : Nat) (ns : List Node) (f : Frame),
    Ensures (clauses d i ns f) (· = printClauses d (markClauses d f.tail ns) f.site)
  | _, [], _ => ensures_pure rfl
  | _, .leaf _ t :: _, _ => ensures_fail
  | _, .list [] t :: _, _ => ensures_fail
  | _, .list [n] t :: _, _ => ensures_fail
  | i, .list (test :: b :: body) o :: rest, f => by
    have hrest : ∀ lead : String, Ensures (do
        let ss ← statements d (b :: body) f.deeper f.tail
        let more ← clauses d (i + 1) rest f
        pure ((lead ++ blockText f none ss) :: more))
        (· = (lead ++ blockText f none (printEach d (markFrom d 0 f.tail (b :: body)) (f.site.deeper.under "begin"))) ::
          printClauses d (markClauses d f.tail rest) f.site) := by
      intro lead
      refine (statements_print (b :: body) f.deeper f.tail).bind fun ss hss =>
        (clauses_print (i + 1) rest f).bind_pure fun more hmore => ?_
      rw [hss, hmore, Frame.site_deeper]
    simp only [clauses, pure_bind]
    refine ensures_ite (fun htest => ?_) fun htest => ?_
    · refine ensures_bind fun _ => (hrest "").imp fun s hs => ?_
      simp [hs, markClauses, markFrom_succ, printClauses, htest]
    · refine ensures_bind fun _ => (node_print test (f.under "if") fun h => by cases h).bind fun s hs =>
        (hrest _).imp fun t ht => ?_
      simp [hs, ht, markClauses, markFrom_succ, printClauses, htest]
termination_by structural _ ns => ns

theorem guarded_print (name : String) (op : Token) (lead role : String) (tail : Bool) : ∀ (ns : List Node) (f : Frame),
    Ensures (guarded d name op lead role tail ns f) (· = printGuarded d lead role (markFrom d 1 tail ns) f.site)
  | test :: b :: body, f => by
    refine ensures_bind fun _ => (node_print test (f.under role) fun h => by cases h).bind fun s hs =>
      (statements_print (b :: body) f.deeper tail).bind_pure fun ss hss => ?_
    rw [hs, hss, markFrom_succ, printGuarded]
    simp
  | [], _ => ensures_fail
  | [_], _ => ensures_fail
termination_by structural ns => ns

theorem entries_print : ∀ (seen : List String) (ns : List Node) (f : Frame), f.tail = false →
    Ensures (entries d seen ns f) (· = printEntries d (markFrom d 0 false ns) f.site)
  | _, [], _, _ => ensures_pure rfl
  | _, [.leaf _ _], _, _ => ensures_pure rfl
  | _, [.list _ _], _, _ => ensures_pure (by simp [markFrom, printEntries])
  | seen, .list es t :: n :: rest, f, _ => Ensures.bind (P := fun _ => False) ensures_fail fun _ h => h.elim
  | seen, .leaf v t :: n :: rest, f, hf => by
    have hmore : Ensures (do
        requireExpression d n
        let s ← node d n f
        let more ← entries d ((keyOf d v).name :: seen) rest f
        pure (((keyOf d v).text ++ ": " ++ s) :: more))
        (· = printEntries d (markFrom d 0 false (.leaf v t :: n :: rest)) f.site) := by
      refine ensures_bind fun _ => (node_print n f fun h => by rw [hf] at h; cases h).bind fun s hs =>
        (entries_print ((keyOf d v).name :: seen) rest f hf).bind_pure fun more hmore => ?_
      simp [hs, hmore, hf, markFrom_zero, mark, printEntries]
    exact ensures_ite (fun _ => ensures_bind fun _ => hmore) fun _ => hmore
termination_by structural _ ns => ns

theorem forLoop_print (name : String) (op : Token) : ∀ (ns : List Node) (f : Frame),
    Ensures (forLoop d name op ns f) (· = printFor d (markFrom d 0 false ns) f.site)
  | .leaf v t :: lo :: hi :: b :: body, f => by
    refine ensures_bind fun scope => ensures_bind fun _ => ensures_bind fun _ => ensures_bind fun _ =>
      (node_print lo ((f.within scope).under "=") fun h => by cases h).bind fun first hfirst =>
        (node_print hi ((f.within scope).under "<=") fun h => by cases h).bind fun last hlast =>
          (statements_print (b :: body) (f.within scope).deeper false).bind_pure fun ss hss => ?_
    have hmark : markFrom d 0 false (.leaf v t :: lo :: hi :: b :: body) =
        .leaf false v t :: mark d false lo :: mark d false hi :: markFrom d 0 false (b :: body) := rfl
    rw [hmark, printFor_cons, hfirst, hlast, hss]
    rfl
  | .list es t :: _ :: _ :: _ :: _, _ => ensures_fail
  | [], _ => ensures_fail
  | [n], _ => by cases n <;> exact ensures_fail
  | [n, _], _ => by cases n <;> exact ensures_fail
  | [n, _, _], _ => by cases n <;> exact ensures_fail
termination_by structural ns => ns

theorem operation_print (name : String) (op : Token) (target : String) : ∀ (ns : List Node) (f : Frame),
    Ensures (operation d name op target ns f) (· = printOperation d name target (markFrom d 0 false ns) f.site)
  | [], _ => ensures_fail
  | [n], f => by
    refine ensures_ite (fun _ => ?_) fun _ => ensures_fail
    refine ensures_bind fun _ => (node_print n (f.under name) fun h => by cases h).bind_pure fun s hs => ?_
    simp [hs, markFrom, printOperation]
  | n :: m :: rest, f => by
    refine ensures_bind fun _ => (node_print n (f.under name) fun h => by cases h).bind fun s hs =>
      (nodes_print (m :: rest) (f.under name) rfl).bind_pure fun more hmore => ?_
    simp [hs, hmore, markFrom_zero, printOperation]
termination_by structural ns => ns

theorem comparison_print (name : String) (op : Token) (target : String) : ∀ (ns : List Node) (f : Frame),
    Ensures (comparison d name op target ns f) (· = printOperation d name target (markFrom d 0 false ns) f.site)
  | [n, m], f => by
    refine ensures_bind fun _ => (node_print n (f.under name) fun h => by cases h).bind fun s hs =>
      (node_print m (f.under name) fun h => by cases h).bind_pure fun s' hs' => ?_
    simp [hs, hs', markFrom, printOperation, printEach, String.append_assoc]
  | [], _ => ensures_fail
  | [_], _ => ensures_fail
  | _ :: _ :: _ :: _, _ => ensures_fail
termination_by structural ns => ns

theorem unary_print (name : String) (op : Token) (target : String) : ∀ (ns : List Node) (f : Frame),
    Ensures (unary d name op target ns f)
      (· = target ++ String.join (printEach d (markFrom d 0 false ns) (f.site.under name)))
  | [n], f => by
    refine ensures_bind fun _ => (node_print n (f.under name) fun h => by cases h).bind_pure fun s hs => ?_
    simp [hs, markFrom, printEach]
  | [], _ => ensures_fail
  | _ :: _ :: _, _ => ensures_fail
termination_by structural ns => ns

theorem quotation_print (name : String) (op : Token) : ∀ (ns : List Node) (f : Frame),
    Ensures (quotation d name op true ns f) (· = printQuotation d true (markTemplates d ns) f.site)
  | [n], f => datum_print n f
  | [], _ => ensures_fail
  | _ :: _ :: _, _ => ensures_fail
termination_by structural ns => ns

theorem datum_print : ∀ (n : Node) (f : Frame),
    Ensures (datum d true n f) (· = printDatum d true (markTemplate d n) f.site)
  | .leaf v _, _ => ensures_pure rfl
  | .list es t, f => by
    simp only [datum, if_true, Bool.true_and]
    split
    · rename_i hform
      refine (inserted_print "unquote" es f).imp fun s hs => ?_
      simp [hs, markTemplate, hform, printDatum]
    · exact ensures_fail
    · rename_i hu hs
      rw [markTemplate_of_ne hu hs, printDatum_of_ne (by simpa using hu) (by simpa using hs), nodes_markTemplates]
      refine ensures_ite (fun hany => ?_) fun hany => ?_
      · refine (splices_print es f).bind_pure fun parts hparts => ?_
        rw [if_pos hany, hparts]
      · refine (data_print es f).bind_pure fun parts hparts => ?_
        rw [if_neg hany, hparts]
termination_by structural n => n

theorem inserted_print (role : String) : ∀ (ns : List Node) (f : Frame),
    Ensures (inserted d role ns f) (· = printInserted d role (markFrom d 0 false ns) f.site)
  | [_, n], f => by
    refine ensures_bind fun _ => (node_print n (f.under role) fun h => by cases h).imp fun s hs => ?_
    simp [hs, markFrom, printInserted]
  | [], _ => ensures_pure rfl
  | [_], _ => ensures_fail
  | _ :: _ :: _ :: _, _ => ensures_fail
termination_by structural ns => ns

theorem data_print : ∀ (ns : List Node) (f : Frame),
    Ensures (data d true ns f) (· = printData d true (markTemplates d ns) f.site)
  | [], _ => ensures_pure rfl
  | n :: ns, f => (datum_print n f).bind fun s hs => (data_print ns f).bind_pure fun ss hss => by
      rw [hs, hss, markTemplates, printData]
termination_by structural ns => ns

theorem splices_print : ∀ (ns : List Node) (f : Frame),
    Ensures (splices d ns f) (· = printSplices d (markTemplates d ns) f.site)
  | [], _ => ensures_pure rfl
  | .leaf v _ :: ns, f => (splices_print ns f).bind_pure fun ss hss => by
      rw [hss, markTemplates, markTemplate, printSplices]
  | .list es t :: ns, f => by
    simp only [splices, pure_bind]
    refine ensures_ite (fun hspliced => ?_) fun hspliced => ?_
    · refine (inserted_print "unquote-splicing" es f).bind fun s hs => (splices_print ns f).bind_pure fun ss hss => ?_
      have hform : formOf d (.list es t) = .unquoteSplicing := by simpa [isSpliced] using hspliced
      simp [hs, hss, markTemplates, markTemplate, hform, printSplices, hspliced]
    · refine (datum_print (.list es t) f).bind fun s hs => (splices_print ns f).bind_pure fun ss hss => ?_
      obtain ⟨ms, hmark⟩ : ∃ ms, markTemplate d (.list es t) = .list false ms t := ⟨_, rfl⟩
      have hnodes : Node.list (Marked.nodes ms) t = .list es t := by
        have := node_markTemplate (d := d) (.list es t)
        rwa [hmark, Marked.node] at this
      rw [hs, hss, markTemplates, hmark, printSplices, hnodes, if_neg hspliced]
termination_by structural ns => ns

end

end Print

end Emit
end QuasiScript
