import QuasiScript.Emit.Writer
import QuasiScript.Proofs.Ensures

/-!
# Emission through a writer gives the same code

`Emit` computes the texts of the parts of a form and joins them, with line breaks that know how deep they are. Through a
writer the same code comes out, in every dialect: from a writer that is indented for some depth, writing a node has the
outcome and the scopes of emitting it at that depth, and if it succeeds, the writer has put out its text and is indented
as before (`node_puts`). A whole program therefore leaves its code in the writer, with no indentation
(`generate_writes`).

Writing and emitting run side by side. `Writes w m e Q` says that `m` and `e` have the same outcome and leave the same
scopes, from any, and that whatever `e` gives is related by `Q` to the writer that `m` leaves.
-/
namespace QuasiScript
open Text (spaces)

/-! ## Writers -/

namespace Writer

@[simp] theorem indentation_out (w : Writer) (s : String) : (w.out s).indentation = w.indentation := rfl

@[simp] theorem out_out (w : Writer) (s s' : String) : (w.out s).out s' = w.out (s ++ s') := by
  simp [out, String.append_assoc]

/-- To put out no text makes no difference if text follows. -/
theorem outIf_out (w : Writer) (s s' : String) : (if (s != "") = true then w.out s else w).out s' = w.out (s ++ s') := by
  by_cases hs : s = "" <;> simp [hs]

theorem newLine_out {w : Writer} (hw : w.startOfLine = false) (s : String) :
    w.newLine.out s = w.out ("\n" ++ w.indentation ++ s) := by
  simp [newLine, out, hw, String.append_assoc]

/-- On a line that is begun the indentation makes no difference. -/
theorem indent_out {w : Writer} (hw : w.startOfLine = false) (s : String) : w.indent.out s = (w.out s).indent := by
  simp [indent, out, hw]

theorem spaces_append (k : Nat) : spaces (2 * k) ++ "  " = spaces (2 * (k + 1)) := by
  rw [Nat.mul_succ, spaces, spaces, List.replicate_add, String.ofList_append]
  rfl

theorem indentation_indent {w : Writer} {k : Nat} (hw : w.indentation = spaces (2 * k)) :
    w.indent.indentation = spaces (2 * (k + 1)) := by
  rw [← spaces_append, ← hw]
  rfl

theorem unindent_indent {w : Writer} {k : Nat} (hw : w.indentation = spaces (2 * k)) : w.indent.unindent = w := by
  have hlength : 2 ≤ w.indent.indentation.length := by
    rw [indentation_indent hw, spaces, String.length_ofList, List.length_replicate]
    omega
  have hdrop : String.ofList (w.indent.indentation.toList.drop 2) = w.indentation := by
    rw [indentation_indent hw, hw, spaces, spaces, String.toList_ofList, List.drop_replicate]
    rfl
  rw [unindent, if_pos hlength, hdrop]
  rfl

def outAll (separator : Writer → Writer) (w : Writer) : Bool → List String → Writer
  | _, [] => w
  | first, s :: ss => ((w.separate first separator).out s).outAll separator false ss

theorem indentation_separate {g : Writer → Writer} {w : Writer} (h : (g w).indentation = w.indentation)
    (first : Bool) : (w.separate first g).indentation = w.indentation := by
  cases first with
  | true => rfl
  | false => exact h

/-- At some indentation, what a separator does amounts to a text. -/
def Separates (separator : Writer → Writer) (indentation text : String) : Prop :=
  ∀ (w : Writer) (s s' : String), w.indentation = indentation → (separator (w.out s)).out s' = w.out (s ++ text ++ s')

theorem separates_out (i text : String) : Separates (·.out text) i text := by
  intro w s s' _
  simp only [out_out, String.append_assoc]

theorem separates_newLine (i : String) : Separates newLine i ("\n" ++ i) := by
  intro w s s' hw
  rw [newLine_out rfl, out_out, show (w.out s).indentation = i from hw]
  simp only [String.append_assoc]

theorem separates_comma (i : String) : Separates (·.out "," |>.newLine) i ("," ++ ("\n" ++ i)) := by
  intro w s s' hw
  dsimp only
  rw [out_out, separates_newLine i w (s ++ ",") s' hw]
  simp only [String.append_assoc]

theorem separates_else (i : String) : Separates (·.newLine.out "else ") i ("\n" ++ i ++ "else ") := by
  intro w s s' hw
  rw [out_out, separates_newLine i w s _ hw]
  simp only [String.append_assoc]

section Rows
variable {separator : Writer → Writer} {text : String} {w : Writer} (h : Separates separator w.indentation text)
include h

theorem outAll_out (s : String) (ss : List String) :
    (w.out s).outAll separator false ss = w.out (text.intercalate (s :: ss)) := by
  induction ss generalizing s with
  | nil => rfl
  | cons s' ss ih =>
    rw [outAll, separate, if_neg Bool.false_ne_true, h w s s' rfl, ih]
    rfl

theorem outAll_of_ne_nil {ss : List String} (hss : ss ≠ []) :
    w.outAll separator true ss = w.out (text.intercalate ss) := by
  obtain ⟨s, ss, rfl⟩ := List.exists_cons_of_ne_nil hss
  exact outAll_out h s ss

/-- Before more text, a row is its texts with the separator between them. -/
theorem out_outAll (ss : List String) (s : String) :
    (w.outAll separator true ss).out s = w.out (text.intercalate ss ++ s) := by
  by_cases hss : ss = []
  · rw [hss, show text.intercalate [] = "" from rfl, String.empty_append]
    rfl
  · rw [outAll_of_ne_nil h hss, out_out]

/-- So it is after some text. -/
theorem outAll_out_true (s : String) (ss : List String) :
    (w.out s).outAll separator true ss = w.out (s ++ text.intercalate ss) := by
  by_cases hss : ss = []
  · rw [hss, show text.intercalate [] = "" from rfl, String.append_empty]
    rfl
  · rw [outAll_of_ne_nil (w := w.out s) h hss, out_out]

end Rows

end Writer

namespace Frame

def atDepth (f : Frame) (k : Nat) : Frame := { f with depth := k }

end Frame

namespace Writing
open Emit (Ensures)

/-! ## Side by side -/

section Writes
variable {α β : Type} {w : Writer} {Q : α → Writer → Prop} {R : β → Writer → Prop}

/-- **Writing goes as emitting does.** -/
def Writes (w : Writer) (m : Writing Unit) (e : Emit α) (Q : α → Writer → Prop) : Prop :=
  ∀ T : ScopeTable, ∃ w',
    m.run.run (T, w) = ((Emit.exec e T).1.map fun _ => (), (Emit.exec e T).2, w') ∧
      ∀ a, (Emit.exec e T).1 = .ok a → Q a w'

theorem run_bind (m : Writing α) (k : α → Writing β) (s : ScopeTable × Writer) :
    (m >>= k).run.run s =
      match m.run.run s with
      | (.ok a, s') => (k a).run.run s'
      | (.error e, s') => (.error e, s') := by
  have hb : (m >>= k).run.run s = StateT.run (ExceptT.bindCont k (m.run.run s).1) (m.run.run s).2 := rfl
  rw [hb]
  rcases m.run.run s with ⟨r, s'⟩
  cases r <;> rfl

theorem writes_pure {a : α} (h : Q a w) : Writes w (pure ()) (pure a) Q := by
  intro T
  refine ⟨w, rfl, fun b hb => ?_⟩
  cases hb
  exact h

theorem writes_fail {p : Position} {c : CompileCause} : Writes w (check (Emit.fail p c)) (Emit.fail p c) Q :=
  fun _ => ⟨w, rfl, fun _ h => by cases h⟩

theorem Writes.bind {m m' : Writing Unit} {e : Emit α} {e' : α → Emit β} (h : Writes w m e Q)
    (h' : ∀ a w', Q a w' → Writes w' m' (e' a) R) : Writes w (m >>= fun _ => m') (e >>= e') R := by
  intro T
  obtain ⟨w₁, hm, hQ⟩ := h T
  rw [run_bind, Emit.exec_bind, hm]
  rcases he : Emit.exec e T with ⟨r, T'⟩
  rw [he] at hQ
  cases r with
  | error err => exact ⟨w₁, rfl, fun _ h => by cases h⟩
  | ok a => exact h' a w₁ (hQ a rfl) T'

theorem Writes.map {m : Writing Unit} {e : Emit α} {g : α → β} (h : Writes w m e Q)
    (hg : ∀ a w', Q a w' → R (g a) w') : Writes w m (e >>= fun a => pure (g a)) R := by
  intro T
  obtain ⟨w', hm, hQ⟩ := h T
  rw [Emit.exec_bind]
  rcases he : Emit.exec e T with ⟨r, T'⟩
  rw [he] at hm hQ
  cases r with
  | error err => exact ⟨w', hm, fun _ h => by cases h⟩
  | ok a =>
    refine ⟨w', hm, fun b hb => ?_⟩
    cases hb
    exact hg a w' (hQ a rfl)

/-- What is checked is checked in both, and if it is passed, both may rely on it. -/
theorem writes_check {e : Emit α} {P : α → Prop} {m : α → Writing Unit} {e' : α → Emit β} (he : Ensures e P)
    (h : ∀ a, P a → Writes w (m a) (e' a) R) : Writes w (check e >>= m) (e >>= e') R := by
  intro T
  have hcheck : (check e).run.run (T, w) = ((Emit.exec e T).1, (Emit.exec e T).2, w) := rfl
  rw [run_bind, Emit.exec_bind, hcheck]
  rcases hT : Emit.exec e T with ⟨r, T'⟩
  cases r with
  | error err => exact ⟨w, rfl, fun _ h => by cases h⟩
  | ok a => exact h a (he T a T' hT) T'

theorem writes_check_any {e : Emit α} {m : α → Writing Unit} {e' : α → Emit β}
    (h : ∀ a, Writes w (m a) (e' a) R) : Writes w (check e >>= m) (e >>= e') R :=
  writes_check (P := fun _ => True) (fun _ _ _ _ => trivial) fun a _ => h a

theorem writes_put {change : Writer → Writer} {m : Writing Unit} {e : Emit α} (h : Writes (change w) m e Q) :
    Writes w (put change >>= fun _ => m) e Q := h

theorem writes_put_pure {change : Writer → Writer} {a : α} (h : Q a (change w)) : Writes w (put change) (pure a) Q := by
  intro T
  refine ⟨change w, rfl, fun b hb => ?_⟩
  cases hb
  exact h

theorem Writes.then_put {m : Writing Unit} {e : Emit α} {change : Writer → Writer} {g : α → β} (h : Writes w m e Q)
    (hg : ∀ a w', Q a w' → R (g a) (change w')) :
    Writes w (m >>= fun _ => put change) (e >>= fun a => pure (g a)) R :=
  h.bind fun a w' ha => writes_put_pure (hg a w' ha)

theorem Writes.and_ensures {m : Writing Unit} {e : Emit α} {P : α → Prop} (h : Writes w m e Q) (he : Ensures e P) :
    Writes w m e fun a w' => P a ∧ Q a w' := by
  intro T
  obtain ⟨w', hm, hQ⟩ := h T
  exact ⟨w', hm, fun a ha => ⟨he T a _ (Prod.ext ha rfl), hQ a ha⟩⟩

theorem writes_ite {c : Prop} [Decidable c] {m m' : Writing Unit} {e e' : Emit α} (h : c → Writes w m e Q)
    (h' : ¬ c → Writes w m' e' Q) : Writes w (if c then m else m') (if c then e else e') Q := by
  split
  · exact h ‹_›
  · exact h' ‹_›

theorem writes_ite_bind {c : Prop} [Decidable c] {m m' k : Writing Unit} {e e' : Emit α}
    (h : c → Writes w (m >>= fun _ => k) e Q) (h' : ¬ c → Writes w (m' >>= fun _ => k) e' Q) :
    Writes w ((if c then m else m') >>= fun _ => k) (if c then e else e') Q := by
  split
  · exact h ‹_›
  · exact h' ‹_›

end Writes

/-! ## Texts and rows -/

section Texts
variable {k : Nat} {m : Writing Unit}

/-- From any writer that is indented for a depth, the text of the emission is put out. -/
def Puts (k : Nat) (m : Writing Unit) (e : Emit String) : Prop :=
  ∀ w : Writer, w.indentation = spaces (2 * k) → Writes w m e fun s w' => w' = w.out s

def PutsAll (k : Nat) (separator : Writer → Writer) (first : Bool) (m : Writing Unit) (e : Emit (List String)) : Prop :=
  ∀ w : Writer, w.indentation = spaces (2 * k) → Writes w m e fun ss w' => w' = w.outAll separator first ss

/-- One more text at the head of a row. -/
theorem writes_cons {separator : Writer → Writer} {first : Bool} {m' : Writing Unit} {e : Emit String}
    {e' : Emit (List String)} {w : Writer} (hsep : (separator w).indentation = w.indentation)
    (hw : w.indentation = spaces (2 * k)) (h : Puts k m e) (h' : PutsAll k separator false m' e') :
    Writes (w.separate first separator) (m >>= fun _ => m') (e >>= fun s => e' >>= fun ss => pure (s :: ss))
      fun ss w' => w' = w.outAll separator first ss := by
  rw [← Writer.indentation_separate hsep first] at hw
  refine Writes.bind (h _ hw) fun s w' hs => ?_
  subst hs
  exact Writes.map (h' _ hw) fun ss w' hss => hss

/-- A row with commas, between other texts. -/
theorem PutsAll.enclosed {e : Emit (List String)} {w : Writer} (h : PutsAll k (·.out ", ") true m e)
    (hw : w.indentation = spaces (2 * k)) (before behind : String) :
    Writes (w.out before) (m >>= fun _ => out behind)
      (e >>= fun ss => pure (before ++ ", ".intercalate ss ++ behind)) fun s w' => w' = w.out s := by
  refine Writes.then_put (h _ hw) fun ss w' hss => ?_
  rw [hss, Writer.out_outAll (Writer.separates_out _ ", "), Writer.out_out, String.append_assoc]

/-- What stands in parentheses is put out between them. -/
theorem writes_parenthesized {e : Emit String} {w : Writer} (wanted : Bool)
    (h : ∀ w', w'.indentation = w.indentation →
      Writes w' m e fun s w'' => ∃ inner, s = Emit.parenthesize wanted inner ∧ w'' = w'.out inner) :
    Writes w (parenthesized wanted m) e fun s w' => w' = w.out s := by
  unfold parenthesized
  rw [← bind_pure e]
  refine writes_put ?_
  cases wanted with
  | false =>
    refine (h w rfl).then_put fun s w' hs => ?_
    obtain ⟨inner, rfl, rfl⟩ := hs
    rfl
  | true =>
    refine (h (w.out "(") rfl).then_put fun s w' hs => ?_
    obtain ⟨inner, rfl, rfl⟩ := hs
    simp [Emit.parenthesize, String.append_assoc]

/-- **A block indents what is in it and takes that back.** -/
theorem writes_block {e : Emit (List String)} {w : Writer} (prelude : Option String) (f : Frame)
    (hw : w.indentation = spaces (2 * k))
    (h : ∀ w' : Writer, w'.indentation = spaces (2 * (k + 1)) →
      Writes w' m e fun ss w'' => w'' = w'.outAll Writer.newLine true (ss.map (· ++ ";"))) :
    Writes w (block prelude m) e fun ss w' => w' = w.out (Emit.blockText (f.atDepth k) prelude ss) := by
  have hindent : (w.out "\x7b ").indent.indentation = spaces (2 * (k + 1)) := Writer.indentation_indent hw
  unfold block
  rw [← bind_pure e]
  refine writes_put (writes_put (writes_put ?_))
  cases prelude with
  | none =>
    refine (h (w.out "\x7b ").indent hindent).bind fun ss w' hss => writes_put (writes_put_pure ?_)
    rw [hss, Writer.out_outAll (Writer.separates_newLine _), hindent, Writer.indent_out rfl,
      Writer.unindent_indent (w := (w.out _).out _) hw]
    simp [Emit.blockText, Frame.newline, Frame.deeper, Frame.atDepth, String.append_assoc]
  | some line =>
    have hnewLine : ((w.out "\x7b ").indent.out line).newLine.indentation = spaces (2 * (k + 1)) := hindent
    refine (h ((w.out "\x7b ").indent.out line).newLine hnewLine).bind fun ss w' hss => writes_put (writes_put_pure ?_)
    rw [hss, Writer.out_outAll (Writer.separates_newLine _), Writer.separates_newLine _ _ _ _ hindent, hnewLine,
      Writer.indent_out rfl, Writer.unindent_indent (w := (w.out _).out _) hw]
    simp [Emit.blockText, Frame.newline, Frame.deeper, Frame.atDepth, String.append_assoc]

/-- So does an object with entries. -/
theorem writes_object {e : Emit (List String)} {w : Writer} (f : Frame) (hw : w.indentation = spaces (2 * k))
    (hne : Ensures e (· ≠ [])) (h : PutsAll (k + 1) (·.out "," |>.newLine) true m e) :
    Writes w (object m) e fun ss w' => w' = w.out (Emit.objectText (f.atDepth k) ss) := by
  have hindent : (w.out "\x7b").indent.indentation = spaces (2 * (k + 1)) := Writer.indentation_indent hw
  have hnewLine : (w.out "\x7b").indent.newLine.indentation = spaces (2 * (k + 1)) := hindent
  unfold object
  rw [← bind_pure e]
  refine writes_put (writes_put (writes_put ?_))
  refine ((h (w.out "\x7b").indent.newLine hnewLine).and_ensures hne).bind fun ss w' hss =>
    writes_put (writes_put (writes_put_pure ?_))
  obtain ⟨hne, rfl⟩ := hss
  rw [Writer.outAll_of_ne_nil (Writer.separates_comma _) hne, Writer.newLine_out (w := (w.out "\x7b").indent) rfl,
    Writer.indent_out rfl, Writer.unindent_indent (w := (w.out _).out _) hw, Writer.newLine_out rfl, hnewLine, hindent]
  simp [hw, Emit.objectText, Frame.newline, Frame.deeper, Frame.atDepth, String.append_assoc]

end Texts

/-! ## The recursion -/

section Parts
variable {d : Dialect} {k : Nat}

theorem checkTargets_atDepth (f : Frame) (ns : List Node) :
    Emit.checkTargets d (f.atDepth k) ns = Emit.checkTargets d f ns := by
  induction ns with
  | nil => rfl
  | cons n ns ih =>
    rw [Emit.checkTargets, Emit.checkTargets, ih]
    cases n <;> rfl

theorem tailPlace_atDepth (n : Node) (f : Frame) :
    Emit.tailPlace d n (f.atDepth k) = ((Emit.tailPlace d n f).1, (Emit.tailPlace d n f).2.atDepth k) := by
  unfold Emit.tailPlace
  split <;> rfl

theorem nodes_ne_nil {ns : List Node} (hns : 0 < ns.length) (f : Frame) : Ensures (Emit.nodes d ns f) (· ≠ []) := by
  obtain ⟨n, ns, rfl⟩ := List.exists_cons_of_length_pos hns
  exact Emit.ensures_bind fun _ => Emit.ensures_bind fun _ => Emit.ensures_pure (List.cons_ne_nil _ _)

theorem clauses_ne_nil {ns : List Node} (hns : 0 < ns.length) (i : Nat) (f : Frame) :
    Ensures (Emit.clauses d i ns f) (· ≠ []) := by
  obtain ⟨n, ns, rfl⟩ := List.exists_cons_of_length_pos hns
  rcases n with ⟨v, t⟩ | ⟨_ | ⟨test, _ | ⟨b, body⟩⟩, t⟩
  · exact Emit.ensures_fail
  · exact Emit.ensures_fail
  · exact Emit.ensures_fail
  · have hrest : ∀ lead : String, Ensures (do
        let ss ← Emit.statements d (b :: body) f.deeper f.tail
        let more ← Emit.clauses d (i + 1) ns f
        pure ((lead ++ Emit.blockText f none ss) :: more)) (· ≠ []) :=
      fun _ => Emit.ensures_bind fun _ => Emit.ensures_bind fun _ => Emit.ensures_pure (List.cons_ne_nil _ _)
    simp only [Emit.clauses, pure_bind]
    exact Emit.ensures_ite (fun _ => Emit.ensures_bind fun _ => hrest _)
      fun _ => Emit.ensures_bind fun _ => Emit.ensures_bind fun _ => hrest _

theorem entries_ne_nil {ns : List Node} (hns : 1 < ns.length) (seen : List String) (f : Frame) :
    Ensures (Emit.entries d seen ns f) (· ≠ []) := by
  obtain ⟨key, ns, rfl⟩ := List.exists_cons_of_length_pos (Nat.zero_lt_of_lt hns)
  obtain ⟨n, ns, rfl⟩ := List.exists_cons_of_length_pos (Nat.lt_of_succ_lt_succ hns)
  refine Emit.ensures_bind fun key => ?_
  have hrest : Ensures (do
      Emit.requireExpression d n
      let s ← Emit.node d n f
      let more ← Emit.entries d (key.name :: seen) ns f
      pure ((key.text ++ ": " ++ s) :: more)) (· ≠ []) :=
    Emit.ensures_bind fun _ => Emit.ensures_bind fun _ => Emit.ensures_bind fun _ =>
      Emit.ensures_pure (List.cons_ne_nil _ _)
  exact Emit.ensures_ite (fun _ => Emit.ensures_bind fun _ => hrest) fun _ => hrest

theorem leaf_puts (v : Value) (t : Token) (f : Frame) : Puts k (leaf d v t f) (Emit.leaf d v t (f.atDepth k)) := by
  intro w _
  have hcheck : Writes w (leaf d v t f) ((if f.declaring then Emit.declare d f.scope v t else pure ()) >>= fun _ =>
      pure (Target.literal v)) fun s w' => w' = w.out s := writes_check_any fun _ => writes_put_pure rfl
  have hdeclaring : (f.atDepth k).declaring = f.declaring := rfl
  unfold Emit.leaf
  rw [hdeclaring]
  by_cases hf : f.declaring = true
  · rw [if_pos hf] at hcheck ⊢
    exact hcheck
  · rw [if_neg hf] at hcheck ⊢
    exact hcheck

theorem existence_puts (name : String) (op : Token) (f : Frame) : ∀ ns : List Node,
    Puts k (existence d name op ns f) (Emit.existence d name op ns (f.atDepth k))
  | [], _, _ => writes_fail
  | [n], w, _ => by
    dsimp only [existence, Emit.existence]
    cases n.symbol? with
    | none => exact writes_fail
    | some x => exact writes_parenthesized _ fun w' _ => writes_put_pure ⟨_, rfl, rfl⟩
  | _ :: _ :: _, _, _ => writes_fail

end Parts

section Recursion
variable {d : Dialect}

mutual

/-- **Writing a node puts out its code, and leaves the indentation as it was.** -/
theorem node_puts : ∀ (n : Node) (f : Frame) (k : Nat), Puts k (node d n f) (Emit.node d n (f.atDepth k))
  | .leaf v t, f, _ => leaf_puts v t f
  | .list [] t, _, _ => fun _ _ => writes_fail
  | .list (.list es t :: args) o, f, k => by
    intro w hw
    refine writes_check_any fun _ => writes_put ?_
    refine Writes.bind (node_puts (.list es t) (f.under "call") k _ hw) fun callee w' hcallee => ?_
    subst hcallee
    refine writes_put (writes_put ?_)
    rw [Writer.out_out, Writer.out_out, Writer.out_out, String.append_assoc, show ")" ++ "(" = ")(" from rfl]
    exact (operands_puts true args (f.under "call") k).enclosed hw ("(" ++ callee ++ ")(") ")"
  | .list (.leaf (.symbol name) op :: args) o, f, k => by
    intro w hw
    simp only [node, Emit.node]
    cases hform : d.form name with
    | declaration =>
      refine writes_check_any fun _ => writes_put ?_
      refine Writes.map (declarators_puts true args (f.under "var") k _ hw) fun ds w' hds => ?_
      rw [hds, Writer.outAll_out_true (Writer.separates_out _ ", ")]
    | assignment =>
      refine writes_check (Emit.atLeast_ensures name op args 2) fun _ hargs => writes_check_any fun _ => ?_
      rw [checkTargets_atDepth]
      refine writes_check_any fun _ => ?_
      -- at the beginning of a line a row without texts is not the empty text, but there are parts
      have hparts := (nodes_puts " = " true args (f.under "=") k w hw).and_ensures (nodes_ne_nil (by omega) _)
      refine Writes.map hparts fun parts w' h => ?_
      obtain ⟨hne, rfl⟩ := h
      exact Writer.outAll_of_ne_nil (Writer.separates_out _ " = ") hne
    | lambda => exact lambda_puts name op args f k w hw
    | sequence =>
      refine writes_check_any fun _ => ?_
      exact Writes.map (writes_block none f hw (statements_puts true args f f.tail (k + 1))) fun ss w' hss => hss
    | conditional =>
      refine writes_check (Emit.atLeast_ensures name op args 1) fun _ hargs => ?_
      have hparts := (clauses_puts 1 args f k Nat.one_pos w hw).and_ensures (clauses_ne_nil hargs 1 _)
      refine Writes.map hparts fun parts w' h => ?_
      obtain ⟨hne, rfl⟩ := h
      exact (Writer.outAll_of_ne_nil (Writer.separates_else _) hne).trans (by rw [hw]; rfl)
    | «when» => exact guarded_puts name op "if (" "when" f.tail args f k w hw
    | array => exact writes_put ((operands_puts true args (f.under "array") k).enclosed hw "[" "]")
    | object =>
      refine writes_ite (fun heven => ?_) fun _ => writes_fail
      refine writes_parenthesized _ fun w' hw' => ?_
      by_cases hargs : args = []
      · subst hargs
        rw [show Emit.entries d [] [] ((f.atDepth k).under "object").deeper = pure [] from rfl, pure_bind, List.isEmpty_nil,
          if_pos rfl]
        exact writes_put_pure ⟨_, rfl, rfl⟩
      · rw [if_neg (by simpa using hargs)]
        have hlength : 1 < args.length := by
          have := List.length_pos_iff.2 hargs
          omega
        have hne := entries_ne_nil (d := d) hlength [] (f.under "object" |>.atDepth (k + 1))
        have hentries := writes_object f (hw'.trans hw) hne (entries_puts true [] args (f.under "object") (k + 1))
        refine Writes.map (hentries.and_ensures hne) fun es w'' hes => ⟨_, rfl, ?_⟩
        rw [hes.2, List.isEmpty_eq_false_iff.2 hes.1]
        rfl
    | existence => exact existence_puts name op f args w hw
    | forLoop => exact forLoop_puts name op args f k w hw
    | whileLoop => exact guarded_puts name op "while (" "while" false args f k w hw
    | untilLoop => exact guarded_puts name op "while (!" "not" false args f k w hw
    | quote => exact quotation_puts name op false args f k w hw
    | quasiquote => exact quotation_puts name op true args f k w hw
    | unquote => exact writes_fail
    | unquoteSplicing => exact writes_fail
    | ordinary | unassigned _ =>
      simp only
      cases d.binaryOperators.get? name with
      | some target => exact operation_puts name op target args f k w hw
      | none =>
        cases d.comparisons.get? name with
        | some target => exact comparison_puts name op target args f k w hw
        | none =>
          cases d.unaryOperators.get? name with
          | some target => exact unary_puts name op target args f k w hw
          | none =>
            refine writes_put (writes_put ?_)
            rw [Writer.out_out]
            exact (operands_puts true args (f.under "call") k).enclosed hw (name ++ "(") ")"
  | .list (.leaf (.number _ _) op :: _) _, _, _ => fun _ _ => writes_fail
  | .list (.leaf (.boolean _) op :: _) _, _, _ => fun _ _ => writes_fail
  | .list (.leaf (.constant _ _) op :: _) _, _, _ => fun _ _ => writes_fail
  | .list (.leaf (.string _) op :: _) _, _, _ => fun _ _ => writes_fail
termination_by structural n => n

theorem nodes_puts (separator : String) : ∀ (first : Bool) (ns : List Node) (f : Frame) (k : Nat),
    PutsAll k (·.out separator) first (nodes d separator first ns f) (Emit.nodes d ns (f.atDepth k))
  | _, [], _, _ => fun _ _ => writes_pure rfl
  | _, n :: ns, f, k => fun _ hw =>
    writes_put (writes_cons rfl hw (node_puts n f k) (nodes_puts separator false ns f k))
termination_by structural _ ns => ns

theorem operands_puts : ∀ (first : Bool) (ns : List Node) (f : Frame) (k : Nat),
    PutsAll k (·.out ", ") first (operands d first ns f) (Emit.operands d ns (f.atDepth k))
  | _, [], _, _ => fun _ _ => writes_pure rfl
  | _, n :: ns, f, k => fun _ hw =>
    writes_put (writes_check_any fun _ => writes_cons rfl hw (node_puts n f k) (operands_puts false ns f k))
termination_by structural _ ns => ns

theorem statements_puts : ∀ (first : Bool) (ns : List Node) (f : Frame) (tail : Bool) (k : Nat) (w : Writer),
    w.indentation = spaces (2 * k) → Writes w (statements d first ns f tail) (Emit.statements d ns (f.atDepth k) tail)
      fun ss w' => w' = w.outAll Writer.newLine first (ss.map (· ++ ";"))
  | _, [], _, _, _, _, _ => writes_pure rfl
  | first, n :: ns, f, tail, k, w, hw => by
    rw [← Writer.indentation_separate (g := Writer.newLine) rfl first] at hw
    simp only [statements, Emit.statements]
    -- where the last statement stands does not depend on the depth
    generalize hp : (if (tail && ns.isEmpty) = true then Emit.tailPlace d n f else ("", f.under "begin")) = place
    have hplace : (if (tail && ns.isEmpty) = true then Emit.tailPlace d n (f.atDepth k)
        else ("", (f.atDepth k).under "begin")) = (place.1, place.2.atDepth k) := by
      rw [← hp]
      split
      · exact tailPlace_atDepth n f
      · rfl
    rw [hplace]
    refine writes_put (writes_put (Writes.bind (node_puts n place.2 k _ ?_) fun s w' hs => writes_put ?_))
    · split <;> exact hw
    · rw [Writer.outIf_out] at hs
      subst hs
      refine Writes.map (statements_puts false ns f tail k _ hw) fun ss w' hss => ?_
      rw [hss, Writer.out_out]
      rfl
termination_by structural _ ns => ns

theorem declarators_puts : ∀ (first : Bool) (ns : List Node) (f : Frame) (k : Nat),
    PutsAll k (·.out ", ") first (declarators d first ns f) (Emit.declarators d ns (f.atDepth k))
  | _, [], _, _ => fun _ _ => writes_pure rfl
  | _, .list es t :: rest, f, k => fun _ hw =>
    writes_put (writes_check_any fun _ => writes_cons rfl hw (node_puts (.list es t) f k) (declarators_puts false rest f k))
  | first, [.leaf v t], f, k => by
    intro w hw
    rw [← Writer.indentation_separate (g := (·.out ", ")) rfl first] at hw
    exact writes_put (Writes.map (leaf_puts v t f _ hw) fun s w' hs => hs)
  | first, .leaf v t :: n :: rest, f, k => by
    intro w hw
    rw [← Writer.indentation_separate (g := (·.out ", ")) rfl first] at hw
    simp only [declarators, Emit.declarators]
    refine writes_put (Writes.bind (leaf_puts v t f _ hw) fun s w' hs => writes_ite (fun _ => ?_) fun _ => ?_)
    · subst hs
      refine writes_check_any fun _ => writes_put ?_
      refine Writes.bind (node_puts n (f.under "=") k _ hw) fun value w' hvalue => ?_
      subst hvalue
      refine Writes.map (declarators_puts false rest f k _ hw) fun ss w' hss => ?_
      rw [hss, Writer.out_out, Writer.out_out, ← String.append_assoc]
      rfl
    · subst hs
      exact Writes.map (declarators_puts false (n :: rest) f k _ hw) fun ss w' hss => hss
termination_by structural _ ns => ns

theorem lambda_puts (name : String) (op : Token) : ∀ (ns : List Node) (f : Frame) (k : Nat),
    Puts k (lambda d name op ns f) (Emit.lambda d name op ns (f.atDepth k))
  | .list ps _ :: b :: body, f, k => by
    intro w hw
    refine writes_check_any fun scope => writes_check_any fun p => ?_
    refine writes_parenthesized _ fun w' hw' => writes_put ?_
    refine Writes.map (writes_block p.prelude f (hw'.trans hw) (statements_puts true (b :: body) (f.within scope) true (k + 1)))
      fun ss w'' hss => ⟨_, rfl, ?_⟩
    rw [hss, Writer.out_out]
  | .leaf _ t :: _ :: _, _, _ => fun _ _ => writes_fail
  | [], _, _ => fun _ _ => writes_fail
  | [.leaf _ _], _, _ => fun _ _ => writes_fail
  | [.list _ _], _, _ => fun _ _ => writes_fail
termination_by structural ns => ns

theorem clauses_puts : ∀ (i : Nat) (ns : List Node) (f : Frame) (k : Nat),
    0 < i → PutsAll k (·.newLine.out "else ") (i == 1) (clauses d i ns f) (Emit.clauses d i ns (f.atDepth k))
  | _, [], _, _, _ => fun _ _ => writes_pure rfl
  | _, .leaf _ t :: _, _, _, _ => fun _ _ => writes_fail
  | _, .list [] t :: _, _, _, _ => fun _ _ => writes_fail
  | _, .list [n] t :: _, _, _, _ => fun _ _ => writes_fail
  | i, .list (test :: b :: body) o :: rest, f, k, hi => by
    intro w hw
    rw [← Writer.indentation_separate (g := (·.newLine.out "else ")) rfl (i == 1)] at hw
    simp only [clauses, Emit.clauses, pure_bind]
    -- only the clause with number one comes first
    have hmore := clauses_puts (i + 1) rest f k (Nat.succ_pos i)
    rw [show (i + 1 == 1) = false by simp; omega] at hmore
    have hblock : ∀ (lead : String) (w' : Writer), w'.indentation = spaces (2 * k) →
        (∀ s, w'.out s = (w.separate (i == 1) (·.newLine.out "else ")).out (lead ++ s)) → Writes w' (do
        block none (statements d true (b :: body) f f.tail)
        clauses d (i + 1) rest f) (do
        let ss ← Emit.statements d (b :: body) (f.atDepth k).deeper (f.atDepth k).tail
        let more ← Emit.clauses d (i + 1) rest (f.atDepth k)
        pure ((lead ++ Emit.blockText (f.atDepth k) none ss) :: more))
        fun ss w'' => w'' = w.outAll (·.newLine.out "else ") (i == 1) ss := by
      intro lead w' hw' hlead
      refine Writes.bind (writes_block none f hw' (statements_puts true (b :: body) f f.tail (k + 1))) fun ss w'' hss => ?_
      rw [hlead] at hss
      subst hss
      exact Writes.map (hmore _ hw) fun more w'' h => h
    refine writes_put (writes_ite_bind (fun _ => writes_check_any fun _ => ?_) fun _ => ?_)
    · exact hblock "" _ hw fun s => by rw [String.empty_append]
    · simp only [bind_assoc]
      refine writes_check_any fun _ => writes_put (Writes.bind (node_puts test (f.under "if") k _ hw) fun s w' hs => ?_)
      subst hs
      exact writes_put (hblock ("if (" ++ s ++ ") ") _ hw fun s' => by simp only [Writer.out_out, String.append_assoc])
termination_by structural _ ns => ns

theorem guarded_puts (name : String) (op : Token) (lead role : String) (tail : Bool) :
    ∀ (ns : List Node) (f : Frame) (k : Nat),
      Puts k (guarded d name op lead role tail ns f) (Emit.guarded d name op lead role tail ns (f.atDepth k))
  | test :: b :: body, f, k => by
    intro w hw
    refine writes_check_any fun _ => writes_put ?_
    refine Writes.bind (node_puts test (f.under role) k _ hw) fun s w' hs => writes_put ?_
    subst hs
    refine Writes.map (writes_block none f hw (statements_puts true (b :: body) f tail (k + 1))) fun ss w' hss => ?_
    rw [hss]
    simp only [Writer.out_out, String.append_assoc]
  | [], _, _ => fun _ _ => writes_fail
  | [_], _, _ => fun _ _ => writes_fail
termination_by structural ns => ns

theorem entries_puts : ∀ (first : Bool) (seen : List String) (ns : List Node) (f : Frame) (k : Nat),
    PutsAll k (·.out "," |>.newLine) first (entries d first seen ns f) (Emit.entries d seen ns (f.atDepth k))
  | _, _, [], _, _ => fun _ _ => writes_pure rfl
  | _, _, [_], _, _ => fun _ _ => writes_pure rfl
  | first, seen, key :: n :: rest, f, k => by
    intro w hw
    rw [← Writer.indentation_separate (g := (·.out "," |>.newLine)) rfl first] at hw
    refine writes_put (writes_check_any fun key => ?_)
    have hvalue : Writes (w.separate first (·.out "," |>.newLine)) (do
        check (Emit.requireExpression d n)
        out (key.text ++ ": ")
        node d n f
        entries d false (key.name :: seen) rest f) (do
        Emit.requireExpression d n
        let s ← Emit.node d n (f.atDepth k)
        let more ← Emit.entries d (key.name :: seen) rest (f.atDepth k)
        pure ((key.text ++ ": " ++ s) :: more)) fun ss w' => w' = w.outAll (·.out "," |>.newLine) first ss := by
      refine writes_check_any fun _ => writes_put (Writes.bind (node_puts n f k _ hw) fun s w' hs => ?_)
      subst hs
      refine Writes.map (entries_puts false (key.name :: seen) rest f k _ hw) fun more w' hmore => ?_
      rw [hmore, Writer.out_out]
      rfl
    by_cases hseen : key.name ∈ seen
    · simp only [if_pos hseen]
      exact writes_check_any fun _ => hvalue
    · simp only [if_neg hseen]
      exact writes_check_any (e := pure ()) fun _ => hvalue
termination_by structural _ _ ns => ns

theorem forLoop_puts (name : String) (op : Token) : ∀ (ns : List Node) (f : Frame) (k : Nat),
    Puts k (forLoop d name op ns f) (Emit.forLoop d name op ns (f.atDepth k))
  | .leaf v t :: lo :: hi :: b :: body, f, k => by
    intro w hw
    refine writes_check_any fun scope => writes_check_any fun _ => writes_check_any fun _ => writes_check_any fun _ => ?_
    dsimp only
    refine writes_put (Writes.bind (node_puts lo ((f.within scope).under "=") k _ hw) fun first w' hfirst => ?_)
    subst hfirst
    refine writes_put (Writes.bind (node_puts hi ((f.within scope).under "<=") k _ hw) fun last w' hlast => ?_)
    subst hlast
    refine writes_put (Writes.map (writes_block none f hw (statements_puts true (b :: body) (f.within scope) false (k + 1)))
      fun ss w' hss => ?_)
    rw [hss]
    simp only [Writer.out_out, String.append_assoc]
  | .list es t :: _ :: _ :: _ :: _, _, _ => fun _ _ => writes_fail
  | [], _, _ => fun _ _ => writes_fail
  | [n], _, _ => fun _ _ => by cases n <;> exact writes_fail
  | [n, _], _, _ => fun _ _ => by cases n <;> exact writes_fail
  | [n, _, _], _, _ => fun _ _ => by cases n <;> exact writes_fail
termination_by structural ns => ns

theorem operation_puts (name : String) (op : Token) (target : String) : ∀ (ns : List Node) (f : Frame) (k : Nat),
    Puts k (operation d name op target ns f) (Emit.operation d name op target ns (f.atDepth k))
  | [], _, _ => fun _ _ => writes_fail
  | [n], f, k => by
    intro w hw
    refine writes_ite (fun _ => writes_check_any fun _ => ?_) fun _ => writes_fail
    refine writes_parenthesized _ fun w' hw' => writes_put ?_
    refine Writes.map (node_puts n (f.under name) k _ (hw'.trans hw)) fun s w'' hs => ⟨_, rfl, ?_⟩
    rw [hs, Writer.out_out]
  | n :: m :: rest, f, k => by
    intro w hw
    refine writes_check_any fun _ => writes_parenthesized _ fun w' hw' => ?_
    have hw' := hw'.trans hw
    refine Writes.bind (node_puts n (f.under name) k w' hw') fun s w'' hs => ?_
    subst hs
    refine Writes.map (nodes_puts (" " ++ target ++ " ") false (m :: rest) (f.under name) k _ hw') fun more w'' hmore =>
      ⟨_, rfl, ?_⟩
    rw [hmore, Writer.outAll_out (Writer.separates_out _ _)]
termination_by structural ns => ns

theorem comparison_puts (name : String) (op : Token) (target : String) : ∀ (ns : List Node) (f : Frame) (k : Nat),
    Puts k (comparison d name op target ns f) (Emit.comparison d name op target ns (f.atDepth k))
  | [n, m], f, k => by
    intro w hw
    refine writes_check_any fun _ => writes_parenthesized _ fun w' hw' => ?_
    have hw' := hw'.trans hw
    refine Writes.bind (node_puts n (f.under name) k w' hw') fun s w'' hs => writes_put ?_
    subst hs
    refine Writes.map (node_puts m (f.under name) k _ hw') fun s' w'' hs' => ⟨_, rfl, ?_⟩
    rw [hs']
    simp only [Writer.out_out, String.append_assoc]
  | [], _, _ => fun _ _ => writes_fail
  | [_], _, _ => fun _ _ => writes_fail
  | _ :: _ :: _ :: _, _, _ => fun _ _ => writes_fail
termination_by structural ns => ns

theorem unary_puts (name : String) (op : Token) (target : String) : ∀ (ns : List Node) (f : Frame) (k : Nat),
    Puts k (unary d name op target ns f) (Emit.unary d name op target ns (f.atDepth k))
  | [n], f, k => by
    intro w hw
    refine writes_check_any fun _ => writes_put ?_
    refine Writes.map (node_puts n (f.under name) k _ hw) fun s w' hs => ?_
    rw [hs, Writer.out_out]
  | [], _, _ => fun _ _ => writes_fail
  | _ :: _ :: _, _, _ => fun _ _ => writes_fail
termination_by structural ns => ns

theorem quotation_puts (name : String) (op : Token) (quasi : Bool) : ∀ (ns : List Node) (f : Frame) (k : Nat),
    Puts k (quotation d name op quasi ns f) (Emit.quotation d name op quasi ns (f.atDepth k))
  | [n], f, k => datum_puts quasi n f k
  | [], _, _ => fun _ _ => writes_fail
  | _ :: _ :: _, _, _ => fun _ _ => writes_fail
termination_by structural ns => ns

theorem datum_puts (quasi : Bool) : ∀ (n : Node) (f : Frame) (k : Nat),
    Puts k (datum d quasi n f) (Emit.datum d quasi n (f.atDepth k))
  | .leaf v _, _, _ => by
    intro w _
    simp only [datum, Emit.datum]
    exact writes_put_pure rfl
  | .list es t, f, k => by
    intro w hw
    simp only [datum, Emit.datum]
    generalize (if quasi = true then Emit.formOf d (.list es t) else .ordinary) = form
    cases form with
    | unquote => exact inserted_puts "unquote" es f k w hw
    | unquoteSplicing => exact writes_fail
    | _ =>
      refine writes_ite (fun _ => writes_put ?_) fun _ => writes_put ?_
      · exact (splices_puts true es f k).enclosed hw "[].concat(" ")"
      · exact (data_puts quasi true es f k).enclosed hw "[" "]"
termination_by structural n => n

theorem inserted_puts (role : String) : ∀ (ns : List Node) (f : Frame) (k : Nat),
    Puts k (inserted d role ns f) (Emit.inserted d role ns (f.atDepth k))
  | [_, n], f, k => fun w hw => writes_check_any fun _ => node_puts n (f.under role) k w hw
  | [], _, _ => by
    intro w _
    simp only [inserted, Emit.inserted]
    exact writes_put_pure rfl
  | [_], _, _ => fun _ _ => writes_fail
  | _ :: _ :: _ :: _, _, _ => fun _ _ => writes_fail
termination_by structural ns => ns

theorem data_puts (quasi : Bool) : ∀ (first : Bool) (ns : List Node) (f : Frame) (k : Nat),
    PutsAll k (·.out ", ") first (data d quasi first ns f) (Emit.data d quasi ns (f.atDepth k))
  | _, [], _, _ => fun _ _ => writes_pure rfl
  | _, n :: ns, f, k => fun _ hw =>
    writes_put (writes_cons rfl hw (datum_puts quasi n f k) (data_puts quasi false ns f k))
termination_by structural _ ns => ns

theorem splices_puts : ∀ (first : Bool) (ns : List Node) (f : Frame) (k : Nat),
    PutsAll k (·.out ", ") first (splices d first ns f) (Emit.splices d ns (f.atDepth k))
  | _, [], _, _ => fun _ _ => writes_pure rfl
  | first, .leaf v _ :: ns, f, k => by
    intro w hw
    rw [← Writer.indentation_separate (g := (·.out ", ")) rfl first] at hw
    exact writes_put (writes_put (Writes.map (splices_puts false ns f k _ hw) fun ss w' hss => hss))
  | first, .list es t :: ns, f, k => by
    intro w hw
    have hw' := (Writer.indentation_separate (g := (·.out ", ")) rfl first).trans hw
    simp only [splices, Emit.splices, pure_bind]
    refine writes_put (writes_ite_bind (fun _ => ?_) fun _ => ?_)
    · exact writes_cons rfl hw (inserted_puts "unquote-splicing" es f k) (splices_puts false ns f k)
    · simp only [bind_assoc]
      refine writes_put (Writes.bind (datum_puts true (.list es t) f k _ hw') fun s w' hs => writes_put ?_)
      subst hs
      rw [Writer.out_out, Writer.out_out, ← String.append_assoc]
      exact Writes.map (splices_puts false ns f k _ hw') fun ss w' hss => hss
termination_by structural _ ns => ns

end

end Recursion

/-! ## Programs -/

section Programs
variable {d : Dialect}

theorem program_writes : ∀ (ns : List Node) (w : Writer), w.indentation = "" →
    Writes w (program d ns) (Emit.nodes d ns .top) fun codes w' =>
      w' = ⟨w.text ++ String.join (codes.map (· ++ ";\n")), "", w.startOfLine || !ns.isEmpty⟩
  | [], ⟨text, indentation, startOfLine⟩, hw => by
    obtain rfl : indentation = "" := hw
    exact writes_pure (by simp)
  | n :: ns, w, hw => by
    refine Writes.bind (node_puts n .top 0 w hw) fun code w' hcode => writes_put (writes_put ?_)
    subst hcode
    refine Writes.map (program_writes ns _ hw) fun codes w' hcodes => ?_
    rw [hcodes]
    simp [Writer.newLine, Writer.out, hw, String.append_assoc]

/-- **A program leaves its code in the writer, with no indentation**, or fails as it does without one. -/
theorem generate_writes (T : ScopeTable) (ns : List Node) :
    generate d T ns = ((Emit.generate d T ns).1.map fun code => ⟨code, "", !ns.isEmpty⟩, (Emit.generate d T ns).2) := by
  obtain ⟨w, hrun, hw⟩ := program_writes (d := d) ns .empty rfl T
  rw [generate, hrun, Emit.generate_eq]
  cases hcodes : (Emit.exec (Emit.nodes d ns .top) T).1 with
  | error e => rfl
  | ok codes =>
    rw [hw codes hcodes]
    simp [Except.map, Writer.empty]

end Programs

end Writing
end QuasiScript
