import QuasiScript.Proofs.Returns

/-!
# What is evaluated in an accepted program is accepted

A form is emitted only if its arguments have the shape that it asks for, and if those that it evaluates are emitted too
(`Proper`). So everything that is evaluated in an accepted node is accepted, each list as a form of its own
(`Accepts.of_evaluated`), and what is true of the arguments of one accepted form is true of all forms of a program.
-/
namespace QuasiScript
namespace Emit
open Marked

variable {d : Dialect}

/-- There is code for the node, in some place. -/
def Accepts (d : Dialect) (n : Node) : Prop := ∃ f T code T', exec (node d n f) T = (.ok code, T')

/-- There is code for the node, and it can be used as a value. -/
def AcceptsValue (d : Dialect) (n : Node) : Prop := isExpression d n = true ∧ Accepts d n

theorem node_accepts (n : Node) (f : Frame) : Ensures (node d n f) fun _ => Accepts d n :=
  fun T s T' h => ⟨f, T, s, T', h⟩

theorem value_accepts {α : Type} {n : Node} {f : Frame} {k : String → Emit α} {P : α → Prop}
    (h : AcceptsValue d n → ∀ s, Ensures (k s) P) : Ensures (requireExpression d n >>= fun _ => node d n f >>= k) P :=
  (requireExpression_ensures n).bind fun _ hn => (node_accepts n f).bind fun s hs => h ⟨hn, hs⟩ s

/-! ## Arguments one after the other -/

theorem nodes_accepts (ns : List Node) (f : Frame) : Ensures (nodes d ns f) fun _ => ∀ n ∈ ns, Accepts d n := by
  induction ns with
  | nil => exact ensures_pure (by simp)
  | cons n ns ih =>
    refine (node_accepts n f).bind fun _ hn => ih.bind_pure fun _ hns => ?_
    exact List.forall_mem_cons.2 ⟨hn, hns⟩

theorem operands_accepts (ns : List Node) (f : Frame) :
    Ensures (operands d ns f) fun _ => ∀ n ∈ ns, AcceptsValue d n := by
  induction ns with
  | nil => exact ensures_pure (by simp)
  | cons n ns ih =>
    refine value_accepts fun hn _ => ih.bind_pure fun _ hns => ?_
    exact List.forall_mem_cons.2 ⟨hn, hns⟩

theorem statements_accepts (ns : List Node) (f : Frame) (tail : Bool) :
    Ensures (statements d ns f tail) fun _ => ∀ n ∈ ns, Accepts d n := by
  induction ns with
  | nil => exact ensures_pure (by simp)
  | cons n ns ih =>
    refine (node_accepts n _).bind fun _ hn => ih.bind_pure fun _ hns => ?_
    exact List.forall_mem_cons.2 ⟨hn, hns⟩

/-- All lists among declarators are emitted, initial values and assignments. -/
theorem declarators_accepts (f : Frame) : ∀ ns : List Node,
    Ensures (declarators d ns f) fun _ => ∀ es t, .list es t ∈ ns → Accepts d (.list es t)
  | [] => ensures_pure (by simp)
  | .list es t :: rest => by
    refine ensures_bind fun _ => (node_accepts (.list es t) f).bind fun _ hn =>
      (declarators_accepts f rest).bind_pure fun _ hrest => ?_
    intro es' t' hmem
    rcases List.mem_cons.1 hmem with heq | hmem
    · rw [heq]
      exact hn
    · exact hrest es' t' hmem
  | [.leaf v t] => ensures_bind fun _ => ensures_pure (by simp)
  | .leaf v t :: n :: rest => by
    simp only [declarators]
    refine ensures_bind fun _ => ensures_ite (fun _ => ?_) fun _ => ?_
    · refine value_accepts fun hn _ => (declarators_accepts f rest).bind_pure fun _ hrest => ?_
      intro es t hmem
      rcases List.mem_cons.1 hmem with heq | hmem
      · cases heq
      · rcases List.mem_cons.1 hmem with rfl | hmem
        · exact hn.2
        · exact hrest es t hmem
    · refine (declarators_accepts f (n :: rest)).bind_pure fun _ hrest => ?_
      intro es t hmem
      rcases List.mem_cons.1 hmem with heq | hmem
      · cases heq
      · exact hrest es t hmem

/-! ## Shapes of arguments -/

/-- A clause: a test, which may be `else`, and a body. -/
def Clause (d : Dialect) (n : Node) : Prop :=
  ∃ test b body t, n = .list (test :: b :: body) t ∧ (test.symbol? = some "else" ∨ AcceptsValue d test) ∧
    ∀ m ∈ b :: body, Accepts d m

/-- Keys that are atoms, each before a value. -/
def Entries (d : Dialect) : List Node → Prop
  | k :: n :: rest => (∃ v t, k = .leaf v t) ∧ AcceptsValue d n ∧ Entries d rest
  | _ => True

/-- A list that inserts code into a template. -/
def Insertion (d : Dialect) (form : Form) (n : Node) : Prop :=
  ∃ u e t, n = .list [u, e] t ∧ formOf d n = form ∧ AcceptsValue d e

/-- Quasiquoted data, in which every insertion has code. -/
inductive Template (d : Dialect) : Node → Prop
  | leaf (v : Value) (t : Token) : Template d (.leaf v t)
  | inserted {n : Node} : Insertion d .unquote n → Template d n
  | list {es : List Node} {t : Token} : formOf d (.list es t) ≠ .unquote → formOf d (.list es t) ≠ .unquoteSplicing →
      (∀ e ∈ es, isSpliced d e = false → Template d e) →
      (∀ e ∈ es, isSpliced d e = true → Insertion d .unquoteSplicing e) → Template d (.list es t)

/-- **The arguments that a form accepts.** -/
def Proper (d : Dialect) (args : List Node) : Form → Prop
  | .declaration => ∀ es t, .list es t ∈ args → Accepts d (.list es t)
  | .assignment => (∃ v t m rest, args = .leaf v t :: m :: rest) ∧ ∀ n ∈ args, Accepts d n
  | .lambda => ∃ ps t b body, args = .list ps t :: b :: body ∧ ∀ n ∈ b :: body, Accepts d n
  | .sequence => ∀ n ∈ args, Accepts d n
  | .conditional => (∃ test es t rest, args = .list (test :: es) t :: rest ∧ test.symbol? ≠ some "else") ∧
      ∀ n ∈ args, Clause d n
  | .when | .whileLoop | .untilLoop => ∃ test b body, args = test :: b :: body ∧ AcceptsValue d test ∧
      ∀ n ∈ b :: body, Accepts d n
  | .array => ∀ n ∈ args, AcceptsValue d n
  | .object => args.length % 2 = 0 ∧ Entries d args
  | .existence => ∃ x t, args = [.leaf (.symbol x) t]
  | .forLoop => ∃ v t lo hi b body, args = .leaf v t :: lo :: hi :: b :: body ∧ AcceptsValue d lo ∧ AcceptsValue d hi ∧
      ∀ n ∈ b :: body, Accepts d n
  | .quote => True
  | .quasiquote => ∃ n, args = [n] ∧ Template d n
  | .unquote | .unquoteSplicing => False
  | .ordinary | .unassigned _ => ∀ n ∈ args, AcceptsValue d n

theorem checkTarget_ensures (f : Frame) (n : Node) : Ensures (checkTarget d f n) fun _ => ∃ v t, n = .leaf v t := by
  cases n with
  | leaf v t => exact fun _ _ _ _ => ⟨v, t, rfl⟩
  | list es t => exact ensures_fail

theorem checkTargets_ensures (f : Frame) (ns : List Node) :
    Ensures (checkTargets d f ns) fun _ => ∀ n ∈ ns, ∃ v t, n = .leaf v t := by
  induction ns with
  | nil => exact ensures_pure (by simp)
  | cons n ns ih =>
    refine (checkTarget_ensures f n).bind fun _ hn => ih.imp fun _ hns => ?_
    exact List.forall_mem_cons.2 ⟨hn, hns⟩

theorem lambda_accepts (name : String) (op : Token) (args : List Node) (f : Frame) :
    Ensures (lambda d name op args f) fun _ => Proper d args .lambda := by
  rcases args with _ | ⟨⟨v, t⟩ | ⟨ps, t⟩, _ | ⟨b, body⟩⟩
  · exact ensures_fail
  · exact ensures_fail
  · exact ensures_fail
  · exact ensures_fail
  · exact ensures_bind fun _ => ensures_bind fun _ => (statements_accepts (b :: body) _ true).bind_pure fun _ hbody =>
      ⟨ps, t, b, body, rfl, hbody⟩

theorem clauses_accepts (i : Nat) (ns : List Node) (f : Frame) :
    Ensures (clauses d i ns f) fun _ => ∀ n ∈ ns, Clause d n := by
  induction ns generalizing i with
  | nil => exact ensures_pure (by simp)
  | cons n rest ih =>
    rcases n with ⟨v, t⟩ | ⟨_ | ⟨test, _ | ⟨b, body⟩⟩, t⟩
    · exact ensures_fail
    · exact ensures_fail
    · exact ensures_fail
    · have hrest : (test.symbol? = some "else" ∨ AcceptsValue d test) → ∀ lead : String, Ensures (do
          let ss ← statements d (b :: body) f.deeper f.tail
          let more ← clauses d (i + 1) rest f
          pure ((lead ++ blockText f none ss) :: more)) fun _ => ∀ n ∈ .list (test :: b :: body) t :: rest, Clause d n := by
        intro htest lead
        refine (statements_accepts (b :: body) f.deeper f.tail).bind fun _ hbody =>
          (ih (i + 1)).bind_pure fun _ hmore => ?_
        exact List.forall_mem_cons.2 ⟨⟨test, b, body, t, rfl, htest, hbody⟩, hmore⟩
      simp only [clauses, pure_bind]
      refine ensures_ite (fun helse => ?_) fun _ => ?_
      · exact ensures_bind fun _ => hrest (.inl helse) ""
      · exact value_accepts fun htest _ => hrest (.inr htest) _

/-- The first clause has a test. -/
theorem clauses_first : ∀ (ns : List Node) (f : Frame), Ensures (clauses d 1 ns f) fun _ =>
    ∀ n ∈ ns.head?, ∃ test es t, n = .list (test :: es) t ∧ test.symbol? ≠ some "else"
  | [], _ => ensures_pure (by simp)
  | .leaf _ _ :: _, _ => ensures_fail
  | .list [] _ :: _, _ => ensures_fail
  | .list [_] _ :: _, _ => ensures_fail
  | .list (test :: b :: body) t :: rest, f => by
    simp only [clauses, pure_bind]
    refine ensures_ite (fun _ => ?_) fun htest => ?_
    · exact Ensures.bind (P := fun _ => False) ensures_fail fun _ h => h.elim
    · rintro _ _ _ - n hn
      cases hn
      exact ⟨test, b :: body, t, rfl, htest⟩

theorem guarded_accepts (name : String) (op : Token) (lead role : String) (tail : Bool) (args : List Node) (f : Frame) :
    Ensures (guarded d name op lead role tail args f) fun _ => Proper d args .when := by
  rcases args with _ | ⟨test, _ | ⟨b, body⟩⟩
  · exact ensures_fail
  · exact ensures_fail
  · exact value_accepts fun htest _ => (statements_accepts (b :: body) _ tail).bind_pure fun _ hbody =>
      ⟨test, b, body, rfl, htest, hbody⟩

theorem entries_accepts : ∀ (seen : List String) (ns : List Node) (f : Frame),
    Ensures (entries d seen ns f) fun _ => Entries d ns
  | _, [], _ => ensures_pure trivial
  | _, [_], _ => ensures_pure trivial
  | seen, .list es t :: n :: rest, f => Ensures.bind (P := fun _ => False) ensures_fail fun _ h => h.elim
  | seen, .leaf v t :: n :: rest, f => by
    have hmore : Ensures (do
        requireExpression d n
        let s ← node d n f
        let more ← entries d ((keyOf d v).name :: seen) rest f
        pure (((keyOf d v).text ++ ": " ++ s) :: more)) fun _ => Entries d (.leaf v t :: n :: rest) :=
      value_accepts fun hn _ => (entries_accepts _ rest f).bind_pure fun _ hrest => ⟨⟨v, t, rfl⟩, hn, hrest⟩
    exact ensures_ite (fun _ => ensures_bind fun _ => hmore) fun _ => hmore

theorem forLoop_accepts (name : String) (op : Token) (args : List Node) (f : Frame) :
    Ensures (forLoop d name op args f) fun _ => Proper d args .forLoop := by
  rcases args with _ | ⟨⟨v, t⟩ | ⟨es, t⟩, _ | ⟨lo, _ | ⟨hi, _ | ⟨b, body⟩⟩⟩⟩
  case cons.leaf.cons.cons.cons =>
    refine ensures_bind fun scope => ensures_bind fun _ => (requireExpression_ensures lo).bind fun _ hlo =>
      (requireExpression_ensures hi).bind fun _ hhi => (node_accepts lo _).bind fun _ hlo' =>
        (node_accepts hi _).bind fun _ hhi' => (statements_accepts (b :: body) _ false).bind_pure fun _ hbody => ?_
    exact ⟨v, t, lo, hi, b, body, rfl, ⟨hlo, hlo'⟩, ⟨hhi, hhi'⟩, hbody⟩
  all_goals exact ensures_fail

theorem operation_accepts (name : String) (op : Token) (target : String) (args : List Node) (f : Frame) :
    Ensures (operation d name op target args f) fun _ => ∀ n ∈ args, AcceptsValue d n := by
  rcases args with _ | ⟨n, _ | ⟨m, rest⟩⟩
  · exact ensures_fail
  · refine ensures_ite (fun _ => value_accepts fun hn _ => ensures_pure ?_) fun _ => ensures_fail
    simpa using hn
  · refine (requireAll_ensures (n :: m :: rest)).bind fun _ hall => (node_accepts n _).bind fun _ hn =>
      (nodes_accepts (m :: rest) _).bind_pure fun _ hrest => ?_
    exact fun k hk => ⟨hall k hk, List.forall_mem_cons.2 ⟨hn, hrest⟩ k hk⟩

theorem comparison_accepts (name : String) (op : Token) (target : String) (args : List Node) (f : Frame) :
    Ensures (comparison d name op target args f) fun _ => ∀ n ∈ args, AcceptsValue d n := by
  rcases args with _ | ⟨n, _ | ⟨m, _ | ⟨k, rest⟩⟩⟩
  · exact ensures_fail
  · exact ensures_fail
  · refine (requireAll_ensures [n, m]).bind fun _ hall => (node_accepts n _).bind fun _ hn =>
      (node_accepts m _).bind_pure fun _ hm => ?_
    intro k hk
    refine ⟨hall k hk, ?_⟩
    rcases List.mem_pair.1 hk with rfl | rfl
    · exact hn
    · exact hm
  · exact ensures_fail

theorem unary_accepts (name : String) (op : Token) (target : String) (args : List Node) (f : Frame) :
    Ensures (unary d name op target args f) fun _ => ∀ n ∈ args, AcceptsValue d n := by
  rcases args with _ | ⟨n, _ | ⟨m, rest⟩⟩
  · exact ensures_fail
  · exact value_accepts fun hn _ => ensures_pure (by simpa using hn)
  · exact ensures_fail

theorem existence_accepts (name : String) (op : Token) (args : List Node) (f : Frame) :
    Ensures (existence d name op args f) fun _ => Proper d args .existence := by
  rcases args with _ | ⟨⟨v, t⟩ | ⟨es, t⟩, _ | ⟨m, rest⟩⟩
  · exact ensures_fail
  · cases v with
    | symbol x => exact ensures_pure ⟨x, t, rfl⟩
    | _ => exact ensures_fail
  · exact ensures_fail
  · exact ensures_fail
  · exact ensures_fail

/-! ## Templates -/

/-- The list that inserts something is not empty, as it has a form. -/
theorem inserted_accepts (role : String) {form : Form} (hform : form ≠ .ordinary) {t : Token} :
    ∀ {es : List Node} {f : Frame},
    formOf d (.list es t) = form → Ensures (inserted d role es f) fun _ => Insertion d form (.list es t)
  | [u, n], _, h => (requireExpression_ensures n).bind fun _ hn => (node_accepts n _).imp fun _ hn' =>
      ⟨u, n, t, rfl, h, hn, hn'⟩
  | [], _, h => absurd h.symm hform
  | [_], _, _ => ensures_fail
  | _ :: _ :: _ :: _, _, _ => ensures_fail

mutual

theorem datum_accepts : ∀ (n : Node) (f : Frame), Ensures (datum d true n f) fun _ => Template d n
  | .leaf v t, _ => ensures_pure (.leaf v t)
  | .list es t, f => by
    simp only [datum, if_true, Bool.true_and]
    split
    · rename_i hform
      exact (inserted_accepts "unquote" (by decide) hform).imp fun _ h => .inserted h
    · exact ensures_fail
    · rename_i hu hs
      refine ensures_ite (fun _ => ?_) fun hany => ?_
      · exact (splices_accepts es f).bind_pure fun _ hes => .list hu hs hes.1 hes.2
      · refine (data_accepts es f).bind_pure fun _ hes => .list hu hs (fun e he _ => hes e he) fun e he hspliced => ?_
        exact absurd (List.any_eq_true.2 ⟨e, he, hspliced⟩) hany

theorem data_accepts : ∀ (ns : List Node) (f : Frame), Ensures (data d true ns f) fun _ => ∀ n ∈ ns, Template d n
  | [], _ => ensures_pure (by simp)
  | n :: ns, f => (datum_accepts n f).bind fun _ hn => (data_accepts ns f).bind_pure fun _ hns =>
      List.forall_mem_cons.2 ⟨hn, hns⟩

theorem splices_accepts : ∀ (ns : List Node) (f : Frame), Ensures (splices d ns f) fun _ =>
    (∀ n ∈ ns, isSpliced d n = false → Template d n) ∧ ∀ n ∈ ns, isSpliced d n = true → Insertion d .unquoteSplicing n
  | [], _ => ensures_pure (by simp)
  | .leaf v t :: ns, f => (splices_accepts ns f).bind_pure fun _ hns =>
      ⟨List.forall_mem_cons.2 ⟨fun _ => .leaf v t, hns.1⟩, List.forall_mem_cons.2 ⟨fun h => (by cases h), hns.2⟩⟩
  | .list es t :: ns, f => by
    simp only [splices, pure_bind]
    refine ensures_ite (fun hspliced => ?_) fun hspliced => ?_
    · have hform : formOf d (.list es t) = .unquoteSplicing := by simpa [isSpliced] using hspliced
      refine (inserted_accepts "unquote-splicing" (by decide) hform).bind fun _ hn =>
        (splices_accepts ns f).bind_pure fun _ hns => ?_
      exact ⟨List.forall_mem_cons.2 ⟨fun h => absurd hspliced (by simp [h]), hns.1⟩,
        List.forall_mem_cons.2 ⟨fun _ => hn, hns.2⟩⟩
    · refine (datum_accepts (.list es t) f).bind fun _ hn => (splices_accepts ns f).bind_pure fun _ hns => ?_
      exact ⟨List.forall_mem_cons.2 ⟨fun _ => hn, hns.1⟩, List.forall_mem_cons.2 ⟨fun h => absurd h hspliced, hns.2⟩⟩

end

theorem quotation_accepts (name : String) (op : Token) (args : List Node) (f : Frame) :
    Ensures (quotation d name op true args f) fun _ => Proper d args .quasiquote := by
  rcases args with _ | ⟨n, _ | ⟨m, rest⟩⟩
  · exact ensures_fail
  · exact (datum_accepts n f).imp fun _ hn => ⟨n, rfl, hn⟩
  · exact ensures_fail

/-! ## Forms -/

/-- **The arguments of an accepted form are those that it accepts.** -/
theorem Accepts.proper {name : String} {op : Token} {args : List Node} {o : Token}
    (h : Accepts d (.list (.leaf (.symbol name) op :: args) o)) : Proper d args (d.form name) := by
  obtain ⟨f, T, code, T', hexec⟩ := h
  revert T code T'
  change Ensures (node d (.list (.leaf (.symbol name) op :: args) o) f) fun _ => Proper d args (d.form name)
  simp only [node]
  cases hform : d.form name with
  | declaration => exact ensures_bind fun _ => (declarators_accepts _ args).bind_pure fun _ h => h
  | assignment =>
    refine (atLeast_ensures name op args 2).bind fun _ hlength => ensures_bind fun _ =>
      (checkTargets_ensures f args.dropLast).bind fun _ hleaves => (nodes_accepts args _).bind_pure fun _ hargs => ?_
    obtain ⟨n, m, rest, rfl⟩ : ∃ n m rest, args = n :: m :: rest := by
      rcases args with _ | ⟨n, _ | ⟨m, rest⟩⟩
      · simp at hlength
      · simp at hlength
      · exact ⟨n, m, rest, rfl⟩
    obtain ⟨v, t, rfl⟩ := hleaves n (by simp)
    exact ⟨⟨v, t, m, rest, rfl⟩, hargs⟩
  | lambda => exact lambda_accepts name op args f
  | sequence => exact ensures_bind fun _ => (statements_accepts args _ _).bind_pure fun _ h => h
  | conditional =>
    refine (atLeast_ensures name op args 1).bind fun _ hlength => Ensures.bind_pure
      ((clauses_accepts 1 args f).and (clauses_first args f)) fun _ hclauses => ?_
    obtain ⟨n, rest, rfl⟩ := List.exists_cons_of_ne_nil (List.ne_nil_of_length_pos hlength)
    obtain ⟨test, es, t, rfl, htest⟩ := hclauses.2 n rfl
    exact ⟨⟨test, es, t, rest, rfl, htest⟩, hclauses.1⟩
  | «when» => exact guarded_accepts name op _ _ _ args f
  | array => exact (operands_accepts args _).bind_pure fun _ h => h
  | object =>
    exact ensures_ite (fun heven => (entries_accepts [] args _).bind_pure fun _ h => ⟨heven, h⟩) fun _ => ensures_fail
  | existence => exact existence_accepts name op args f
  | forLoop => exact forLoop_accepts name op args f
  | whileLoop => exact guarded_accepts name op _ _ _ args f
  | untilLoop => exact guarded_accepts name op _ _ _ args f
  | quote => exact fun _ _ _ _ => trivial
  | quasiquote => exact quotation_accepts name op args f
  | unquote => exact ensures_fail
  | unquoteSplicing => exact ensures_fail
  | ordinary | unassigned _ =>
    simp only
    split
    · exact operation_accepts name op _ args f
    · split
      · exact comparison_accepts name op _ args f
      · split
        · exact unary_accepts name op _ args f
        · exact (operands_accepts args _).bind_pure fun _ h => h

/-- A list that leads with a list is a call. -/
theorem Accepts.call {es args : List Node} {t o : Token} (h : Accepts d (.list (.list es t :: args) o)) :
    ∀ n ∈ .list es t :: args, AcceptsValue d n := by
  obtain ⟨f, T, code, T', hexec⟩ := h
  have hcall : Ensures (node d (.list (.list es t :: args) o) f) fun _ => ∀ n ∈ .list es t :: args, AcceptsValue d n :=
    value_accepts fun hcallee _ => (operands_accepts args _).bind_pure fun _ hargs =>
      List.forall_mem_cons.2 ⟨hcallee, hargs⟩
  exact hcall T code T' hexec

/-- What an accepted list leads with. -/
theorem Accepts.head {es : List Node} {t : Token} (h : Accepts d (.list es t)) :
    (∃ es' t' args, es = .list es' t' :: args) ∨ ∃ name op args, es = .leaf (.symbol name) op :: args := by
  obtain ⟨f, T, code, T', hexec⟩ := h
  rcases es with _ | ⟨⟨v, op⟩ | ⟨es', t'⟩, args⟩
  · cases hexec
  · cases v with
    | symbol name => exact .inr ⟨name, op, args, rfl⟩
    | _ => cases hexec
  · exact .inl ⟨es', t', args, rfl⟩

/-- A special form leads with its name. -/
theorem Accepts.named {es : List Node} {t : Token} {form : Form} (h : Accepts d (.list es t))
    (hform : formOf d (.list es t) = form) (hne : form ≠ .ordinary) :
    ∃ name op args, es = .leaf (.symbol name) op :: args ∧ d.form name = form := by
  rcases h.head with ⟨es', t', args, rfl⟩ | ⟨name, op, args, rfl⟩
  · exact absurd hform.symm hne
  · exact ⟨name, op, args, rfl, hform⟩

/-! ## All that is evaluated -/

theorem Entries.accepts : ∀ {ns : List Node}, ns.length % 2 = 0 → Entries d ns → ∀ {es : List Node} {t : Token},
    .list es t ∈ ns → Accepts d (.list es t)
  | [], _, _, _, _, hmem => by cases hmem
  | [_], heven, _, _, _, _ => by simp at heven
  | k :: n :: rest, heven, ⟨⟨v, u, hk⟩, hn, hrest⟩, es, t, hmem => by
    subst hk
    rcases List.mem_cons.1 hmem with heq | hmem
    · cases heq
    · rcases List.mem_cons.1 hmem with rfl | hmem
      · exact hn.2
      · refine hrest.accepts ?_ hmem
        rw [List.length_cons, List.length_cons] at heven
        omega

/-- A list among the elements of an accepted form that evaluates them is accepted. -/
theorem Accepts.element {es es' : List Node} {t t' : Token} (h : Accepts d (.list es t))
    (hform : formOf d (.list es t) ∉ [.lambda, .conditional, .quote, .quasiquote]) (hmem : .list es' t' ∈ es) :
    Accepts d (.list es' t') := by
  rcases h.head with ⟨es₁, t₁, args, rfl⟩ | ⟨name, op, args, rfl⟩
  · exact (h.call _ hmem).2
  · replace hmem : .list es' t' ∈ args := by simpa using hmem
    have hproper := h.proper
    have hformOf : formOf d (.list (.leaf (.symbol name) op :: args) t) = d.form name := rfl
    rw [hformOf] at hform
    cases hname : d.form name with
    | lambda | conditional | quote | quasiquote => simp [hname] at hform
    | declaration =>
      rw [hname] at hproper
      exact hproper es' t' hmem
    | assignment =>
      rw [hname] at hproper
      exact hproper.2 _ hmem
    | sequence =>
      rw [hname] at hproper
      exact hproper _ hmem
    | «when» | whileLoop | untilLoop =>
      rw [hname] at hproper
      obtain ⟨test, b, body, rfl, htest, hbody⟩ := hproper
      exact List.forall_mem_cons.2 ⟨htest.2, hbody⟩ _ hmem
    | object =>
      rw [hname] at hproper
      exact hproper.2.accepts hproper.1 hmem
    | existence =>
      rw [hname] at hproper
      obtain ⟨x, u, rfl⟩ := hproper
      simp at hmem
    | forLoop =>
      rw [hname] at hproper
      obtain ⟨v, u, lo, hi, b, body, rfl, hlo, hhi, hbody⟩ := hproper
      have hrest := List.forall_mem_cons.2 ⟨hlo.2, List.forall_mem_cons.2 ⟨hhi.2, hbody⟩⟩
      exact hrest _ (by simpa using hmem)
    | unquote | unquoteSplicing =>
      rw [hname] at hproper
      exact hproper.elim
    | array | ordinary | unassigned _ =>
      rw [hname] at hproper
      exact (hproper _ hmem).2

theorem Insertion.accepts {form : Form} (hform : form ≠ .ordinary) {es : List Node} {t : Token}
    (h : Insertion d form (.list es t)) {es' : List Node} {t' : Token} (hmem : .list es' t' ∈ es) :
    AcceptsValue d (.list es' t') := by
  obtain ⟨u, e, t, heq, hf, he⟩ := h
  obtain ⟨rfl, rfl⟩ := Node.list.inj heq
  obtain ⟨v, w, rfl⟩ := exists_leaf_of_formOf (d := d) (by rw [hf]; exact hform)
  obtain rfl : .list es' t' = e := by simpa using hmem
  exact he

theorem Template.accepts {n e : Node} {path : List Nat} (hun : Unquoted d n path e) :
    (Template d n ∨ Insertion d .unquoteSplicing n) → ∀ es t, e = .list es t → AcceptsValue d e := by
  induction hun with
  | @here es t i e hform he =>
    rintro hn es' t' rfl
    have hmem := List.mem_of_getElem? he
    rcases hn with hn | hn
    · cases hn with
      | inserted hn => exact hn.accepts (by decide) hmem
      | list hu hs => exact (hform.elim hu hs).elim
    · exact hn.accepts (by decide) hmem
  | @inside es t i e m path hu hs he _ ih =>
    rintro (hn | ⟨_, _, _, heq, hform, _⟩)
    · have hmem := List.mem_of_getElem? he
      cases hn with
      | inserted hn =>
        obtain ⟨_, _, _, _, hform, _⟩ := hn
        exact absurd hform hu
      | list _ _ htemplates hsplices =>
        refine ih ?_
        cases hspliced : isSpliced d e with
        | false => exact .inl (htemplates e hmem hspliced)
        | true => exact .inr (hsplices e hmem hspliced)
    · exact absurd hform hs

/-- From a leaf there is no step inward, so on the way to a list there are only lists. -/
theorem exists_list_of_evaluated {n : Node} {path : List Nat} {es : List Node} {t : Token}
    (h : Evaluated d n path (.list es t)) : ∃ es' t', n = .list es' t' := by
  cases h <;> exact ⟨_, _, rfl⟩

/-- **What is evaluated in an accepted node is accepted**, if it is a form. -/
theorem Accepts.of_evaluated {n m : Node} {path : List Nat} (hev : Evaluated d n path m) :
    Accepts d n → ∀ es t, m = .list es t → Accepts d m := by
  induction hev with
  | here n => exact fun h _ _ _ => h
  | element hform he hev ih =>
    rintro h es' t' rfl
    obtain ⟨es₁, t₁, rfl⟩ := exists_list_of_evaluated hev
    exact ih (h.element hform (List.mem_of_getElem? he)) _ _ rfl
  | @body es t i e m path hform hi he hev ih =>
    rintro h es' t' rfl
    obtain ⟨es₁, t₁, rfl⟩ := exists_list_of_evaluated hev
    obtain ⟨name, op, args, rfl, hname⟩ := h.named hform (by decide)
    have hproper := h.proper
    rw [hname] at hproper
    obtain ⟨ps, u, b, body, rfl, hbody⟩ := hproper
    refine ih (hbody _ ?_) _ _ rfl
    obtain ⟨k, rfl⟩ := Nat.exists_eq_add_of_le hi
    rw [Nat.add_comm, List.getElem?_cons_succ, List.getElem?_cons_succ] at he
    exact List.mem_of_getElem? he
  | @clause es cs t u i j e m path hform hcs he hev ih =>
    rintro h es' t' rfl
    obtain ⟨es₁, t₁, rfl⟩ := exists_list_of_evaluated hev
    obtain ⟨name, op, args, rfl, hname⟩ := h.named hform (by decide)
    have hproper := h.proper
    rw [hname] at hproper
    have hmem : .list cs u ∈ args := by simpa using List.mem_of_getElem? hcs
    obtain ⟨test, b, body, w, heq, htest, hbody⟩ := hproper.2 _ hmem
    obtain ⟨rfl, rfl⟩ := Node.list.inj heq
    refine ih ?_ _ _ rfl
    rcases List.mem_cons.1 (List.mem_of_getElem? he) with heq | hmem
    · rcases htest with helse | htest
      · rw [← heq] at helse
        cases helse
      · rw [heq]
        exact htest.2
    · exact hbody _ hmem
  | @unquoted es t i e e' m inner path hform he hun hev ih =>
    rintro h es' t' rfl
    obtain ⟨es₁, t₁, rfl⟩ := exists_list_of_evaluated hev
    obtain ⟨name, op, args, rfl, hname⟩ := h.named hform (by decide)
    have hproper := h.proper
    rw [hname] at hproper
    obtain ⟨n, rfl, hn⟩ := hproper
    rcases List.mem_pair.1 (List.mem_of_getElem? he) with rfl | rfl
    · cases hun
    · exact ih (Template.accepts hun (.inl hn) _ _ rfl).2 _ _ rfl

end Emit
end QuasiScript
