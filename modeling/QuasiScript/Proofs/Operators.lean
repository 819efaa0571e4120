import QuasiScript.Proofs.Emission
import QuasiScript.Proofs.Literals

/-!
# Parentheses keep the operator tree

The tree that an expression of the language stands for (`ofNode?`): an operator with several arguments is its fold
from the left, and a test for existence is written out. The text that is emitted for such an expression is read as that
tree and no other, under every form where leaves are not declarations. Under a statement operators stand without
parentheses; everywhere else a list is emitted so that no operator around it can pull it apart (`Stands`).
-/
namespace QuasiScript
open Dialect (standard)

namespace Emit
variable {d : Dialect} {T T' : ScopeTable} {f : Frame} {text : String}

/-! ## What successful emissions are made of -/

theorem requireExpression_ok_iff {n : Node} {u : Unit} :
    exec (requireExpression d n) T = (.ok u, T') ↔ isExpression d n = true ∧ T' = T := by
  unfold requireExpression
  split
  · rename_i hn
    simp [hn, eq_comm]
  · rename_i hn
    simp [hn]

theorem requireAll_ok_iff : ∀ {ns : List Node} {u : Unit} {T : ScopeTable},
    exec (requireAll d ns) T = (.ok u, T') ↔ (∀ n ∈ ns, isExpression d n = true) ∧ T' = T
  | [], _, _ => by
    rw [requireAll, exec_pure]
    constructor
    · rintro ⟨⟩
      exact ⟨by simp, rfl⟩
    · rintro ⟨-, rfl⟩
      rfl
  | n :: ns, u, T => by
    rw [requireAll, List.forall_mem_cons]
    constructor
    · intro h
      obtain ⟨_, T₁, hfirst, hrest⟩ := exec_bind_ok h
      obtain ⟨hn, rfl⟩ := requireExpression_ok_iff.1 hfirst
      obtain ⟨hns, rfl⟩ := requireAll_ok_iff.1 hrest
      exact ⟨⟨hn, hns⟩, rfl⟩
    · rintro ⟨⟨hn, hns⟩, rfl⟩
      rw [exec_bind_of_ok (a := ()) (requireExpression_ok_iff.2 ⟨hn, rfl⟩)]
      exact requireAll_ok_iff.2 ⟨hns, rfl⟩

theorem nodes_cons_ok {n : Node} {ns : List Node} {ss : List String}
    (h : exec (nodes d (n :: ns) f) T = (.ok ss, T')) :
    ∃ s rest T₁, ss = s :: rest ∧ exec (node d n f) T = (.ok s, T₁) ∧ exec (nodes d ns f) T₁ = (.ok rest, T') := by
  rw [nodes] at h
  obtain ⟨s, T₁, hs, h⟩ := exec_bind_ok h
  obtain ⟨rest, T₂, hrest, h⟩ := exec_bind_ok h
  cases h
  exact ⟨s, rest, T₁, rfl, hs, hrest⟩

theorem nodes_cons_of_ok {n : Node} {ns : List Node} {s : String} {ss : List String} {T₁ : ScopeTable}
    (hs : exec (node d n f) T = (.ok s, T₁)) (hss : exec (nodes d ns f) T₁ = (.ok ss, T')) :
    exec (nodes d (n :: ns) f) T = (.ok (s :: ss), T') := by
  rw [nodes, exec_bind_of_ok hs, exec_bind_of_ok hss, exec_pure]

/-- Operands are nodes that can be used as values. -/
theorem operands_ok_iff : ∀ {ns : List Node} {ss : List String} {T : ScopeTable},
    exec (operands d ns f) T = (.ok ss, T') ↔
      (∀ n ∈ ns, isExpression d n = true) ∧ exec (nodes d ns f) T = (.ok ss, T')
  | [], _, _ => by simp [operands, nodes]
  | n :: ns, ss, T => by
    rw [operands, List.forall_mem_cons]
    constructor
    · intro h
      obtain ⟨_, T₁, hcheck, h⟩ := exec_bind_ok h
      obtain ⟨s, T₂, hs, h⟩ := exec_bind_ok h
      obtain ⟨rest, T₃, hrest, h⟩ := exec_bind_ok h
      cases h
      obtain ⟨hn, rfl⟩ := requireExpression_ok_iff.1 hcheck
      obtain ⟨hns, hnodes⟩ := operands_ok_iff.1 hrest
      exact ⟨⟨hn, hns⟩, nodes_cons_of_ok hs hnodes⟩
    · rintro ⟨⟨hn, hns⟩, h⟩
      obtain ⟨s, rest, T₁, rfl, hs, hrest⟩ := nodes_cons_ok h
      rw [exec_bind_of_ok (a := ()) (requireExpression_ok_iff.2 ⟨hn, rfl⟩), exec_bind_of_ok hs,
        exec_bind_of_ok (operands_ok_iff.2 ⟨hns, hrest⟩), exec_pure]

theorem operands_bind_ok_iff {ns : List Node} {put : List String → String} :
    exec (operands d ns f >>= fun ss => pure (put ss)) T = (.ok text, T') ↔
      (∀ n ∈ ns, isExpression d n = true) ∧ ∃ ss, exec (nodes d ns f) T = (.ok ss, T') ∧ text = put ss := by
  constructor
  · intro h
    obtain ⟨ss, T₁, hss, h⟩ := exec_bind_ok h
    cases h
    obtain ⟨hns, hss⟩ := operands_ok_iff.1 hss
    exact ⟨hns, ss, hss, rfl⟩
  · rintro ⟨hns, ss, hss, rfl⟩
    rw [exec_bind_of_ok (operands_ok_iff.2 ⟨hns, hss⟩), exec_pure]

theorem operation_ok_iff {name target : String} {op : Token} {n m : Node} {ns : List Node} :
    exec (operation d name op target (n :: m :: ns) f) T = (.ok text, T') ↔
      (∀ x ∈ n :: m :: ns, isExpression d x = true) ∧
        ∃ ss, exec (nodes d (n :: m :: ns) (f.under name)) T = (.ok ss, T') ∧
          text = parenthesize (!f.statementLevel d) ((" " ++ target ++ " ").intercalate ss) := by
  rw [operation]
  constructor
  · intro h
    obtain ⟨_, T₁, hcheck, h⟩ := exec_bind_ok h
    obtain ⟨s, T₂, hs, h⟩ := exec_bind_ok h
    obtain ⟨ss, T₃, hss, h⟩ := exec_bind_ok h
    cases h
    obtain ⟨hall, rfl⟩ := requireAll_ok_iff.1 hcheck
    exact ⟨hall, _, nodes_cons_of_ok hs hss, rfl⟩
  · rintro ⟨hall, ss, hss, rfl⟩
    obtain ⟨s, rest, T₁, rfl, hs, hrest⟩ := nodes_cons_ok hss
    rw [exec_bind_of_ok (a := ()) (requireAll_ok_iff.2 ⟨hall, rfl⟩), exec_bind_of_ok hs, exec_bind_of_ok hrest,
      exec_pure]

theorem negative_ok_iff {target : String} {op : Token} {n : Node} :
    exec (operation d "-" op target [n] f) T = (.ok text, T') ↔
      isExpression d n = true ∧ ∃ s, exec (node d n (f.under "-")) T = (.ok s, T') ∧
        text = parenthesize (!f.statementLevel d) (minus n ++ s) := by
  rw [operation, if_pos rfl]
  constructor
  · intro h
    obtain ⟨_, T₁, hcheck, h⟩ := exec_bind_ok h
    obtain ⟨s, T₂, hs, h⟩ := exec_bind_ok h
    cases h
    obtain ⟨hn, rfl⟩ := requireExpression_ok_iff.1 hcheck
    exact ⟨hn, s, hs, rfl⟩
  · rintro ⟨hn, s, hs, rfl⟩
    rw [exec_bind_of_ok (a := ()) (requireExpression_ok_iff.2 ⟨hn, rfl⟩), exec_bind_of_ok hs, exec_pure]

theorem comparison_ok_iff {name target : String} {op : Token} {n m : Node} :
    exec (comparison d name op target [n, m] f) T = (.ok text, T') ↔
      (∀ x ∈ [n, m], isExpression d x = true) ∧
        ∃ ss, exec (nodes d [n, m] (f.under name)) T = (.ok ss, T') ∧
          text = parenthesize (!f.statementLevel d) ((" " ++ target ++ " ").intercalate ss) := by
  rw [comparison]
  constructor
  · intro h
    obtain ⟨_, T₁, hcheck, h⟩ := exec_bind_ok h
    obtain ⟨s, T₂, hs, h⟩ := exec_bind_ok h
    obtain ⟨s', T₃, hs', h⟩ := exec_bind_ok h
    cases h
    obtain ⟨hall, rfl⟩ := requireAll_ok_iff.1 hcheck
    refine ⟨hall, _, nodes_cons_of_ok hs (nodes_cons_of_ok hs' (by rw [nodes, exec_pure])), ?_⟩
    simp [String.append_assoc]
  · rintro ⟨hall, ss, hss, rfl⟩
    obtain ⟨s, rest, T₁, rfl, hs, hrest⟩ := nodes_cons_ok hss
    obtain ⟨s', rest, T₂, rfl, hs', hrest⟩ := nodes_cons_ok hrest
    rw [nodes] at hrest
    cases hrest
    rw [exec_bind_of_ok (a := ()) (requireAll_ok_iff.2 ⟨hall, rfl⟩), exec_bind_of_ok hs, exec_bind_of_ok hs', exec_pure]
    simp [String.append_assoc]

theorem unary_ok_iff {name target : String} (op : Token) {n : Node} :
    exec (unary d name op target [n] f) T = (.ok text, T') ↔
      isExpression d n = true ∧ ∃ s, exec (node d n (f.under name)) T = (.ok s, T') ∧ text = target ++ s := by
  rw [unary]
  constructor
  · intro h
    obtain ⟨_, T₁, hcheck, h⟩ := exec_bind_ok h
    obtain ⟨s, T₂, hs, h⟩ := exec_bind_ok h
    cases h
    obtain ⟨hn, rfl⟩ := requireExpression_ok_iff.1 hcheck
    exact ⟨hn, s, hs, rfl⟩
  · rintro ⟨hn, s, hs, rfl⟩
    rw [exec_bind_of_ok (a := ()) (requireExpression_ok_iff.2 ⟨hn, rfl⟩), exec_bind_of_ok hs, exec_pure]

end Emit

namespace Target

/-! ## The tree of an expression -/

def operators : Table BinaryOp :=
  ⟨[("+", .add), ("-", .sub), ("*", .mul), ("/", .div), ("mod", .rem), ("and", .and), ("or", .or)]⟩

def comparisons : Table BinaryOp :=
  ⟨[("equal?", .equal), ("unequal?", .unequal), ("<", .less), (">", .greater), ("<=", .atMost), (">=", .atLeast)]⟩

inductive Head where
  | operator (op : BinaryOp)
  | comparison (op : BinaryOp)
  | negation
  | existence
  | array
  | callee (f : Expr)

def Expr.existence (e : Expr) : Expr :=
  .binary .and (.binary .unequal (.unary .typeOf e) (.string "undefined")) (.binary .unequal e .null)

namespace Head

/-- A name is an operator, an array, or else the function to call, if it selects no other form. -/
def ofName? (A : Alphabet) (name : String) : Option Head :=
  match operators.get? name, comparisons.get? name with
  | some op, _ => some (.operator op)
  | none, some op => some (.comparison op)
  | none, none =>
    if name = "not" then some .negation
    else if name = "exists?" then some .existence
    else if name = "array" then some .array
    else if standard.specialForms.contains name then none
    else (reference? A name).map .callee

/-- The expression with some operands: more than two are taken from the left, and a difference of one is a negative. -/
def expr? : Head → List Expr → Option Expr
  | .operator op, a :: b :: es => some ((b :: es).foldl (.binary op) a)
  | .operator .sub, [a] => some (.unary .minus a)
  | .comparison op, [a, b] => some (.binary op a b)
  | .negation, [a] => some (.unary .not a)
  | .existence, [a] => some a.existence
  | .array, es => some (.array es)
  | .callee f, es => some (.call f es)
  | _, _ => none

end Head

mutual

/-- **The tree that a node stands for**, if the node is an expression made of literals, operators, arrays and calls. -/
def ofNode? (A : Alphabet) : Node → Option Expr
  | .leaf v _ => ofValue? A v
  | .list (.leaf (.symbol name) _ :: args) _ =>
    (Head.ofName? A name).bind fun h => (ofNodes? A args).bind h.expr?
  | .list _ _ => none

def ofNodes? (A : Alphabet) : List Node → Option (List Expr)
  | [] => some []
  | n :: ns => (ofNode? A n).bind fun e => (ofNodes? A ns).map (e :: ·)

end

mutual

/-- Whether a tree can be emitted: its operands can be used as values, and existence is asked of names. -/
def emittable : Node → Bool
  | .leaf _ _ => true
  | .list [] _ => false
  | .list (head :: args) _ => (head.symbol? != some "exists?" || args.all (·.symbol?.isSome)) && emittables args

def emittables : List Node → Bool
  | [] => true
  | n :: ns => Emit.isExpression standard n && emittable n && emittables ns

end

theorem emittables_iff {ns : List Node} : emittables ns = true ↔
    (∀ n ∈ ns, Emit.isExpression standard n = true) ∧ ∀ n ∈ ns, emittable n = true := by
  induction ns with
  | nil => simp [emittables]
  | cons n ns ih =>
    rw [emittables, Bool.and_eq_true, Bool.and_eq_true, ih, List.forall_mem_cons, List.forall_mem_cons]
    tauto

theorem emittables_of_emittable {head : Node} {args : List Node} {t : Token}
    (h : emittable (.list (head :: args) t) = true) :
    (∀ n ∈ args, Emit.isExpression standard n = true) ∧ ∀ n ∈ args, emittable n = true := by
  rw [emittable, Bool.and_eq_true] at h
  exact emittables_iff.1 h.2

variable {A : Alphabet}

theorem forall₂_ofNode? : ∀ {ns : List Node} {es : List Expr}, ofNodes? A ns = some es →
    List.Forall₂ (fun n e => ofNode? A n = some e) ns es
  | [], _, rfl => .nil
  | n :: ns, es, h => by
    rw [ofNodes?] at h
    obtain ⟨e, he, hmap⟩ := Option.bind_eq_some_iff.1 h
    obtain ⟨es, hes, rfl⟩ := Option.map_eq_some_iff.1 hmap
    exact .cons he (forall₂_ofNode? hes)

/-! ## Texts in their places -/

/-- The text of a node is read as its expression where it stands. Away from statements it is so as an operand, also
behind a minus sign. -/
def Stands (A : Alphabet) (f : Frame) (sign text : String) (e : Expr) : Prop :=
  if f.statementLevel standard then Writes A 0 text.toList e
  else Writes A 6 text.toList e ∧ Writes A 6 (sign ++ text).toList (.unary .minus e)

section Stands
variable {f : Frame} {text : String} {e : Expr}

theorem stands_operand (h : Writes A 6 text.toList e) (hm : ∃ c ∈ text.toList.head?, c ≠ '-') :
    Stands A f "-" text e := by
  unfold Stands
  split
  · exact h.loosen (by decide)
  · refine ⟨h, ?_⟩
    rw [String.toList_append]
    exact h.minus hm

theorem Stands.writes {sign : String} (h : Stands A f sign text e) : Writes A 0 text.toList e := by
  unfold Stands at h
  split at h
  · exact h
  · exact h.1.loosen (by decide)

theorem stands_parenthesize (h : Writes A 0 text.toList e) :
    Stands A f "-" (Emit.parenthesize (!f.statementLevel standard) text) e := by
  unfold Stands
  split
  · rename_i hlevel
    simpa [hlevel, Emit.parenthesize] using h
  · rename_i hlevel
    have hparen : (Emit.parenthesize (!f.statementLevel standard) text).toList = '(' :: (text.toList ++ [')']) := by
      simp [hlevel, Emit.parenthesize]
    have h6 : Writes A 6 (Emit.parenthesize (!f.statementLevel standard) text).toList e := by
      rw [hparen]
      exact h.paren.loosen (by decide)
    refine ⟨h6, ?_⟩
    rw [String.toList_append]
    exact h6.minus ⟨'(', by rw [hparen]; rfl, by decide⟩

theorem stands_literal {v : Value} (t : Token) (h : ofValue? A v = some e) :
    Stands A f (Emit.minus (.leaf v t)) (literal v) e := by
  have hw := writes_literal h
  by_cases hm : (literal v).toList.head? = some '-'
  · unfold Stands
    split
    · exact hw.loosen (by decide)
    · refine ⟨hw, ?_⟩
      rw [Emit.minus, if_pos hm, String.toList_append]
      exact hw.blank.minus ⟨' ', rfl, by decide⟩
  · rw [Emit.minus, if_neg hm]
    obtain ⟨c, hc, -⟩ := hw.head
    refine stands_operand hw ⟨c, hc, ?_⟩
    rintro rfl
    exact hm hc

end Stands

/-! ## Lists are emitted so that they stand -/

theorem under_of_not_isStatement (f : Frame) {name : String} (h : standard.isStatement name = false) :
    (f.under name).statementLevel standard = false ∧ (f.under name).declaring = false := by
  refine ⟨h, ?_⟩
  simp only [Frame.declaring, Frame.under, beq_eq_false_iff_ne]
  rintro ⟨⟩
  exact absurd h (by decide)

/-- Wherever leaves are no declarations, the text of a node stands for a tree. -/
structure Faithful (A : Alphabet) (n : Node) (e : Expr) : Prop where
  stands : ∀ ⦃f : Frame⦄ ⦃T T' : ScopeTable⦄ ⦃text : String⦄, f.declaring = false →
    Emit.exec (Emit.node standard n f) T = (.ok text, T') → Stands A f (Emit.minus n) text e
  succeeds : ∀ (f : Frame) (T : ScopeTable), f.declaring = false → emittable n = true →
    ∃ text, Emit.exec (Emit.node standard n f) T = (.ok text, T)

theorem leaf_faithful {v : Value} {e : Expr} (t : Token) (h : ofValue? A v = some e) : Faithful A (.leaf v t) e := by
  have hnode : ∀ f T, f.declaring = false → Emit.exec (Emit.node standard (.leaf v t) f) T = (.ok (literal v), T) := by
    intro f T hf
    simp [Emit.node, Emit.leaf, hf]
  constructor
  · intro f T T' text hf hexec
    rw [hnode f T hf] at hexec
    cases hexec
    exact stands_literal t h
  · intro f T hf _
    exact ⟨_, hnode f T hf⟩

section Lists
variable {name : String} {args : List Node} {es : List Expr} {e : Expr} {f : Frame} {T T' : ScopeTable}
variable {o t : Token}

/-- Away from statements a text is an operand, also behind a minus sign. -/
theorem Faithful.operand {n : Node} (h : Faithful A n e)
    (hf : f.statementLevel standard = false ∧ f.declaring = false) {s : String}
    (hs : Emit.exec (Emit.node standard n f) T = (.ok s, T')) :
    Writes A 6 s.toList e ∧ Writes A 6 (Emit.minus n ++ s).toList (.unary .minus e) := by
  have hstands := h.stands hf.2 hs
  rwa [Stands, if_neg (Bool.eq_false_iff.1 hf.1)] at hstands

theorem nodes_write (hf : f.statementLevel standard = false ∧ f.declaring = false)
    (h : List.Forall₂ (Faithful A) args es) : ∀ {ss : List String} {T : ScopeTable},
      Emit.exec (Emit.nodes standard args f) T = (.ok ss, T') → List.Forall₂ (Writes A 6) (ss.map String.toList) es := by
  induction h with
  | nil =>
    intro ss T hss
    rw [Emit.nodes] at hss
    cases hss
    exact .nil
  | cons hn _ ih =>
    intro ss T hss
    obtain ⟨s, rest, T₁, rfl, hs, hrest⟩ := Emit.nodes_cons_ok hss
    exact .cons (hn.operand hf hs).1 (ih hrest)

theorem nodes_succeed (hf : f.declaring = false) (T : ScopeTable) (h : List.Forall₂ (Faithful A) args es)
    (ha : ∀ n ∈ args, emittable n = true) : ∃ ss, Emit.exec (Emit.nodes standard args f) T = (.ok ss, T) := by
  induction h with
  | nil => exact ⟨[], by rw [Emit.nodes, Emit.exec_pure]⟩
  | cons hn _ ih =>
    obtain ⟨hfirst, hrest⟩ := List.forall_mem_cons.1 ha
    obtain ⟨s, hs⟩ := hn.succeeds f T hf hfirst
    obtain ⟨ss, hss⟩ := ih hrest
    exact ⟨s :: ss, Emit.nodes_cons_of_ok hs hss⟩

/-- A list that is emitted as the texts of its operands put together stands for a tree if they put together do. -/
theorem list_faithful {role : String} (put : Frame → List String → String) (hrole : standard.isStatement role = false)
    (hargs : List.Forall₂ (Faithful A) args es)
    (hnode : ∀ f T T' text,
      Emit.exec (Emit.node standard (.list (.leaf (.symbol name) o :: args) t) f) T = (.ok text, T') ↔
        (∀ n ∈ args, Emit.isExpression standard n = true) ∧
          ∃ ss, Emit.exec (Emit.nodes standard args (f.under role)) T = (.ok ss, T') ∧ text = put f ss)
    (hput : ∀ f ss, List.Forall₂ (Writes A 6) (ss.map String.toList) es → Stands A f "-" (put f ss) e) :
    Faithful A (.list (.leaf (.symbol name) o :: args) t) e where
  stands f T T' text _ h := by
    obtain ⟨-, ss, hss, rfl⟩ := (hnode f T T' text).1 h
    exact hput f ss (nodes_write (under_of_not_isStatement f hrole) hargs hss)
  succeeds f T _ h := by
    obtain ⟨hvalues, hall⟩ := emittables_of_emittable h
    obtain ⟨ss, hss⟩ := nodes_succeed (under_of_not_isStatement f hrole).2 T hargs hall
    exact ⟨_, (hnode f T T _).2 ⟨hvalues, ss, hss, rfl⟩⟩

/-- The same for one operand, which may stand behind a minus sign. -/
theorem singleton_faithful {n : Node} {a : Expr} {put : Frame → String → String}
    (hname : standard.isStatement name = false) (hn : Faithful A n a)
    (hnode : ∀ f T T' text,
      Emit.exec (Emit.node standard (.list [.leaf (.symbol name) o, n] t) f) T = (.ok text, T') ↔
        Emit.isExpression standard n = true ∧
          ∃ s, Emit.exec (Emit.node standard n (f.under name)) T = (.ok s, T') ∧ text = put f s)
    (hput : ∀ f s, Writes A 6 s.toList a → Writes A 6 (Emit.minus n ++ s).toList (.unary .minus a) →
      Stands A f "-" (put f s) e) :
    Faithful A (.list [.leaf (.symbol name) o, n] t) e where
  stands f T T' text _ h := by
    obtain ⟨-, s, hs, rfl⟩ := (hnode f T T' text).1 h
    obtain ⟨hoperand, hminus⟩ := hn.operand (under_of_not_isStatement f hname) hs
    exact hput f s hoperand hminus
  succeeds f T _ h := by
    obtain ⟨hvalues, hall⟩ := emittables_of_emittable h
    obtain ⟨s, hs⟩ := hn.succeeds _ T (under_of_not_isStatement f hname).2 (hall n (by simp))
    exact ⟨_, (hnode f T T _).2 ⟨hvalues n (by simp), s, hs, rfl⟩⟩

/-- Operands joined by an operator stand for its fold from the left. -/
theorem stands_join {op : BinaryOp} {ss : List String} {a : Expr}
    (h : List.Forall₂ (Writes A 6) (ss.map String.toList) (a :: es)) :
    Stands A f "-" (Emit.parenthesize (!f.statementLevel standard)
      ((" " ++ String.ofList op.spelling ++ " ").intercalate ss)) (es.foldl (.binary op) a) := by
  have hlevel := op.level_le
  cases ss with
  | nil => cases h
  | cons s ss =>
    cases h with
    | cons hs hss =>
      have hjoin := (Writes.join op hss (hs.loosen (by omega))).loosen (Nat.zero_le _)
      refine stands_parenthesize ?_
      simpa using hjoin

theorem expr?_operator_singleton {op : BinaryOp} {a : Expr} (h : (Head.operator op).expr? [a] = some e) :
    op = .sub ∧ e = .unary .minus a := by
  cases op with
  | sub =>
    cases h
    exact ⟨rfl, rfl⟩
  | _ => cases h

theorem operator_faithful {op : BinaryOp} (hname : operators.get? name = some op)
    (hargs : List.Forall₂ (Faithful A) args es) (he : (Head.operator op).expr? es = some e) :
    Faithful A (.list (.leaf (.symbol name) o :: args) t) e := by
  have hspec : ∀ p ∈ operators.entries, standard.form p.1 = .ordinary ∧ standard.isStatement p.1 = false ∧
      standard.binaryOperators.get? p.1 = some (String.ofList p.2.spelling) ∧ (p.2 = .sub → p.1 = "-") := by decide
  obtain ⟨hform, hstatement, hop, hsub⟩ := hspec _ (Dialect.mem_of_get? hname)
  cases hargs with
  | nil => cases he
  | cons hn hrest =>
    cases hrest with
    | nil =>
      obtain ⟨rfl, rfl⟩ := expr?_operator_singleton he
      obtain rfl := hsub rfl
      refine singleton_faithful hstatement hn (fun f T T' text => ?_) fun f s _ hminus =>
        stands_parenthesize (hminus.loosen (by decide))
      simp only [Emit.node, hform, hop]
      exact Emit.negative_ok_iff
    | cons hm hrest =>
      cases he
      refine list_faithful _ hstatement (.cons hn (.cons hm hrest)) (fun f T T' text => ?_) fun f ss => stands_join
      simp only [Emit.node, hform, hop]
      exact Emit.operation_ok_iff

theorem comparison_faithful {op : BinaryOp} (hname : comparisons.get? name = some op)
    (hargs : List.Forall₂ (Faithful A) args es) (he : (Head.comparison op).expr? es = some e) :
    Faithful A (.list (.leaf (.symbol name) o :: args) t) e := by
  have hspec : ∀ p ∈ comparisons.entries, standard.form p.1 = .ordinary ∧ standard.isStatement p.1 = false ∧
      standard.binaryOperators.get? p.1 = none ∧
      standard.comparisons.get? p.1 = some (String.ofList p.2.spelling) := by decide
  obtain ⟨hform, hstatement, hbinary, hop⟩ := hspec _ (Dialect.mem_of_get? hname)
  match es, hargs, he with
  | [a, b], .cons hn (.cons hm .nil), rfl =>
    refine list_faithful _ hstatement (.cons hn (.cons hm .nil)) (fun f T T' text => ?_) fun f ss => stands_join
    simp only [Emit.node, hform, hbinary, hop]
    exact Emit.comparison_ok_iff

theorem negation_faithful (hargs : List.Forall₂ (Faithful A) args es) (he : Head.negation.expr? es = some e) :
    Faithful A (.list (.leaf (.symbol "not") o :: args) t) e := by
  match es, hargs, he with
  | [a], .cons hn .nil, rfl =>
    refine singleton_faithful (by decide) hn (fun f T T' text => Emit.unary_ok_iff o) fun f s hs _ => ?_
    have hnot : Writes A 6 ("!" ++ s).toList (.unary .not a) := by
      rw [String.toList_append]
      exact hs.not
    exact stands_operand hnot ⟨'!', by simp, by decide⟩

theorem writes_existence {x : List Char} {a : Expr} (h : Writes A 7 x a) :
    Writes A 0 ("typeof ".toList ++ x ++ " !== \"undefined\" && ".toList ++ x ++ " !== null".toList) a.existence := by
  have hquote : (quote "undefined").toList = "\"undefined\"".toList := by decide
  have hstring : Writes A 3 (quote "undefined").toList (.string "undefined") :=
    (Writes.string "undefined").loosen (by decide)
  have hnull : Writes A 3 "null".toList .null := (writes_word (by decide) (by decide) rfl).loosen (by decide)
  have htype := Writes.binary .unequal ((h.loosen (by decide)).typeOf.loosen (by decide)) hstring
  have hvalue := Writes.binary .unequal (h.loosen (by decide)) hnull
  have := (Writes.binary .and (htype.loosen (by decide)) hvalue).loosen (Nat.zero_le _)
  rw [hquote] at this
  simpa [BinaryOp.spelling, Expr.existence] using this

theorem existence_faithful (htrees : List.Forall₂ (fun n e => ofNode? A n = some e) args es)
    (he : Head.existence.expr? es = some e) : Faithful A (.list (.leaf (.symbol "exists?") o :: args) t) e := by
  obtain ⟨n, a, ha, rfl, rfl⟩ : ∃ n a, ofNode? A n = some a ∧ args = [n] ∧ e = a.existence := by
    match es, htrees, he with
    | [a], .cons ha .nil, rfl => exact ⟨_, a, ha, rfl, rfl⟩
  have hnode : ∀ f, Emit.node standard (.list [.leaf (.symbol "exists?") o, n] t) f =
      Emit.existence standard "exists?" o [n] f := fun f => rfl
  -- only the name of a variable gets through
  have hname : ∀ x, n.symbol? = some x → reference? A x = some a := by
    intro x hx
    cases n with
    | list es t => cases hx
    | leaf v t =>
      cases v with
      | symbol name =>
        cases hx
        exact ha
      | _ => cases hx
  constructor
  · intro f T T' text _ h
    rw [hnode, Emit.existence] at h
    split at h
    · rename_i x hx
      cases h
      refine stands_parenthesize ?_
      have := writes_existence (writes_reference (hname x hx)).1
      simpa using this
    · cases h
  · intro f T _ h
    have hhead : (Node.leaf (.symbol "exists?") o).symbol? = some "exists?" := rfl
    rw [hnode, Emit.existence]
    cases hx : n.symbol? with
    | some x => exact ⟨_, rfl⟩
    | none => simp [emittable, hhead, hx] at h

theorem writes_operands {ss : List String} (h : List.Forall₂ (Writes A 6) (ss.map String.toList) es) :
    List.Forall₂ (Writes A 0) (ss.map String.toList) es :=
  h.imp fun _ _ hs => hs.loosen (Nat.zero_le _)

theorem array_faithful (hargs : List.Forall₂ (Faithful A) args es) :
    Faithful A (.list (.leaf (.symbol "array") o :: args) t) (.array es) := by
  have hrole : standard.isStatement "array" = false := by decide
  refine list_faithful (fun _ ss => "[" ++ ", ".intercalate ss ++ "]") hrole hargs ?_ ?_
  · intro f T T' text
    simp only [Emit.node, show standard.form "array" = .array by decide]
    exact Emit.operands_bind_ok_iff
  · intro f ss hss
    have harray := (Writes.array (writes_operands hss)).loosen (l := 6) (by decide)
    exact stands_operand (by simpa using harray) ⟨'[', by simp, by decide⟩

theorem get?_eq_none {α β : Type} {t : Table α} {u : Table β} (h : ∀ s ∈ t.names, (u.get? s).isSome = true)
    (hu : u.get? name = none) : t.get? name = none := by
  cases ht : t.get? name with
  | none => rfl
  | some a =>
    have := h name (List.mem_map_of_mem (f := Prod.fst) (Dialect.mem_of_get? ht))
    rw [hu] at this
    cases this

theorem callee_faithful {callee : Expr} (hoperator : operators.get? name = none)
    (hcomparison : comparisons.get? name = none) (hnot : name ≠ "not")
    (hform : standard.specialForms.contains name = false) (hcallee : reference? A name = some callee)
    (hargs : List.Forall₂ (Faithful A) args es) :
    Faithful A (.list (.leaf (.symbol name) o :: args) t) (.call callee es) := by
  have hordinary : standard.form name = .ordinary := by
    rw [Table.contains, Option.isSome_eq_false_iff, Option.isNone_iff_eq_none] at hform
    rw [Dialect.form, hform]
    rfl
  have hbinary : standard.binaryOperators.get? name = none := get?_eq_none (by decide) hoperator
  have hcompare : standard.comparisons.get? name = none := get?_eq_none (by decide) hcomparison
  have hunary : standard.unaryOperators.get? name = none := by
    cases hu : standard.unaryOperators.get? name with
    | none => rfl
    | some s =>
      have honly : ∀ p ∈ standard.unaryOperators.entries, p.1 = "not" := by decide
      exact absurd (honly _ (Dialect.mem_of_get? hu)) hnot
  have hrole : standard.isStatement "call" = false := by decide
  refine list_faithful (fun _ ss => name ++ "(" ++ ", ".intercalate ss ++ ")") hrole hargs ?_ ?_
  · intro f T T' text
    simp only [Emit.node, hordinary, hbinary, hcompare, hunary]
    exact Emit.operands_bind_ok_iff
  · intro f ss hss
    obtain ⟨hname, c, hc, hminus⟩ := writes_reference hcallee
    have hcall := (hname.call (writes_operands hss)).loosen (l := 6) (by decide)
    refine stands_operand (by simpa using hcall) ?_
    simpa using Writes.head_append (p := (· ≠ '-')) ⟨c, hc, hminus⟩ ('(' :: (", ".intercalate ss ++ ")").toList)

/-- One step: if the arguments of a list are faithful, so is the list. -/
theorem faithful_of_args (htree : ofNode? A (.list (.leaf (.symbol name) o :: args) t) = some e)
    (hargs : ∀ {es}, List.Forall₂ (fun n e => ofNode? A n = some e) args es → List.Forall₂ (Faithful A) args es) :
    Faithful A (.list (.leaf (.symbol name) o :: args) t) e := by
  rw [ofNode?] at htree
  obtain ⟨head, hhead, hbind⟩ := Option.bind_eq_some_iff.1 htree
  obtain ⟨es, hes, he⟩ := Option.bind_eq_some_iff.1 hbind
  have htrees := forall₂_ofNode? hes
  have hargs := hargs htrees
  unfold Head.ofName? at hhead
  split at hhead
  · rename_i hop
    cases hhead
    exact operator_faithful hop hargs he
  · rename_i hop
    cases hhead
    exact comparison_faithful hop hargs he
  · rename_i hoperator hcomparison
    split_ifs at hhead with hnot hexists harray hform
    · cases hhead
      subst hnot
      exact negation_faithful hargs he
    · cases hhead
      subst hexists
      exact existence_faithful htrees he
    · cases hhead
      cases he
      subst harray
      exact array_faithful hargs
    · obtain ⟨callee, hcallee, rfl⟩ := Option.map_eq_some_iff.1 hhead
      cases he
      exact callee_faithful hoperator hcomparison hnot (Bool.eq_false_iff.2 hform) hcallee hargs

end Lists

mutual

/-- **Every node is faithful to its tree.** -/
theorem node_faithful : ∀ (n : Node) {e : Expr}, ofNode? A n = some e → Faithful A n e
  | .leaf _ t, _, h => leaf_faithful t h
  | .list (.leaf v _ :: args) _, _, h => by
    cases v with
    | symbol name => exact faithful_of_args h fun htrees => nodes_faithful args htrees
    | _ => cases h
  | .list [] _, _, h => by cases h
  | .list (.list _ _ :: _) _, _, h => by cases h
termination_by structural n => n

theorem nodes_faithful : ∀ (ns : List Node) {es : List Expr}, List.Forall₂ (fun n e => ofNode? A n = some e) ns es →
    List.Forall₂ (Faithful A) ns es
  | [], _, .nil => .nil
  | n :: ns, _, .cons h hs => .cons (node_faithful n h) (nodes_faithful ns hs)
termination_by structural ns => ns

end

/-- **Emission keeps the operator tree.** Where leaves are no declarations, the text of an expression is read as its
tree and as nothing else, whatever characters its identifiers are made of, and there is a text if its operands can be
used as values. -/
theorem emitted_parses_iff (A : Alphabet) {n : Node} {e : Expr} (htree : ofNode? A n = some e) {f : Frame}
    (hf : f.declaring = false) (T : ScopeTable) :
    (∀ text T', Emit.exec (Emit.node standard n f) T = (.ok text, T') → ∀ e', Parses A text e' ↔ e' = e) ∧
      (emittable n = true → ∃ text, Emit.exec (Emit.node standard n f) T = (.ok text, T)) := by
  have hn := node_faithful n htree
  refine ⟨fun text T' h e' => ?_, hn.succeeds f T hf⟩
  have hparses := (hn.stands hf h).writes.parses
  constructor
  · intro h'
    exact h'.unique hparses
  · rintro rfl
    exact hparses

theorem emitted_parses_iff_product :
    let t : Token := ⟨.atom, "", .start⟩
    let leaf (s : String) : Node := .leaf (standard.atomValue s) t
    let sum : Node := .list [leaf "+", leaf "a.b", leaf "1", leaf "-2"] t
    let n : Node := .list [leaf "*", sum, .list [leaf "-", leaf "-5"] t] t
    let tree : Expr := .binary .mul
      (.binary .add (.binary .add (.member (.name "a") "b") (.number "1")) (.unary .minus (.number "2")))
      (.unary .minus (.unary .minus (.number "5")))
    ofNode? .plain n = some tree ∧ Frame.top.declaring = false ∧
      Emit.exec (Emit.node standard n .top) .initial = (.ok "(a.b + 1 + -2) * (- -5)", .initial) ∧
      ∀ e, Parses .plain "(a.b + 1 + -2) * (- -5)" e ↔ e = tree := by
  intro t leaf sum n tree
  have htree : ofNode? .plain n = some tree := rfl
  have hexec : Emit.exec (Emit.node standard n .top) .initial = (.ok "(a.b + 1 + -2) * (- -5)", .initial) := rfl
  have htop : Frame.top.declaring = false := by decide
  exact ⟨htree, htop, hexec, (emitted_parses_iff .plain htree htop .initial).1 _ _ hexec⟩

end Target
end QuasiScript
