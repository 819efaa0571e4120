import QuasiScript.Proofs.Layout
import QuasiScript.Proofs.ValuePositions

/-!
# Other names for special forms

A special form may be given another name: the tables then hold what they held, and the new name as they hold the old one
(`Alias.dialect`). A program may use the new name in place of the old one wherever the head of a list selects a form
(`HeadAt`), and in as many of these places as it likes (`Alias.respell`).
-/
namespace QuasiScript
open Dialect (standard)

def Dialect.vocabulary (d : Dialect) : List String :=
  d.specialForms.names ++ d.constants.names ++ d.binaryOperators.names ++ d.unaryOperators.names ++ d.comparisons.names ++
    d.statements ++ d.reserved

/-- **Another name for a special form.** -/
structure Alias where
  name : String
  other : String
  special : name ∈ standard.specialForms.names
  fresh : other ∉ standard.vocabulary

namespace Table
variable {α : Type}

theorem get?_set_self (t : Table α) (name : String) (value : α) : (t.set name value).get? name = some value := by
  simp [get?, set]

theorem get?_set_of_ne (t : Table α) {name x : String} (value : α) (h : x ≠ name) :
    (t.set name value).get? x = t.get? x := by
  have hne : (x == name) = false := by simpa using h
  have hfilter : ∀ es : List (String × α), (es.filter fun e => e.1 != name).lookup x = es.lookup x := by
    intro es
    induction es with
    | nil => rfl
    | cons e es ih =>
      rw [List.filter_cons]
      split
      · rw [List.lookup_cons, List.lookup_cons, ih]
      · rename_i he
        obtain rfl : e.1 = name := by simpa using he
        rw [ih, List.lookup_cons, hne]
  simp only [get?, set, erase, List.lookup_cons, hne, hfilter]

end Table

namespace Alias
variable (a : Alias)

def dialect : Dialect :=
  { standard with
    specialForms := standard.specialForms.set a.other (standard.form a.name)
    statements := if standard.isStatement a.name then a.other :: standard.statements else standard.statements }

variable {a}

theorem ne_other {x : String} (h : x ∈ standard.vocabulary) : x ≠ a.other := fun hx => a.fresh (hx ▸ h)

@[simp] theorem form_other : a.dialect.form a.other = standard.form a.name := by
  simp [Dialect.form, dialect, Table.get?_set_self]

theorem form_of_ne {x : String} (h : x ≠ a.other) : a.dialect.form x = standard.form x := by
  simp [Dialect.form, dialect, Table.get?_set_of_ne _ _ h]

@[simp] theorem isStatement_other : a.dialect.isStatement a.other = standard.isStatement a.name := by
  have hother : a.other ∉ standard.statements := fun h => a.fresh (by simp [Dialect.vocabulary, h])
  unfold dialect Dialect.isStatement
  split <;> simp_all

theorem isStatement_of_ne {x : String} (h : x ≠ a.other) : a.dialect.isStatement x = standard.isStatement x := by
  unfold dialect Dialect.isStatement
  split <;> simp_all

/-- The operands of a call are emitted under the name `call`, which must not become that of a statement. -/
theorem isStatement_call (hcall : a.other = "call" → standard.isStatement a.name = false) :
    a.dialect.isStatement "call" = standard.isStatement "call" := by
  by_cases h : "call" = a.other
  · rw [h, isStatement_other, hcall h.symm, ← h]
    rfl
  · exact isStatement_of_ne h

/-- The name of a special form selects one. -/
theorem form_name : standard.form a.name ≠ .ordinary ∧ ∀ k, standard.form a.name ≠ .unassigned k := by
  have hall : ∀ x ∈ standard.specialForms.names, standard.form x ∈ Form.all.tail := by decide
  have hname := hall a.name a.special
  constructor
  · rintro h
    rw [h] at hname
    exact absurd hname (by decide)
  · rintro k h
    rw [h] at hname
    simp [Form.all] at hname

end Alias

/-! ## Heads that select forms -/

namespace Emit

mutual

/-- **A head selects a form**: the path leads to a list with this head that is evaluated or inserts code into a
template. -/
inductive HeadAt (d : Dialect) (name : String) : Node → List Nat → Prop
  | here {op : Token} {args : List Node} {t : Token} : HeadAt d name (.list (.leaf (.symbol name) op :: args) t) []
  | element {es : List Node} {t : Token} {i : Nat} {e : Node} {path : List Nat} :
      formOf d (.list es t) ∉ [.lambda, .conditional, .quote, .quasiquote] → es[i]? = some e → HeadAt d name e path →
      HeadAt d name (.list es t) (i :: path)
  | body {es : List Node} {t : Token} {i : Nat} {e : Node} {path : List Nat} :
      formOf d (.list es t) = .lambda → 2 ≤ i → es[i]? = some e → HeadAt d name e path →
      HeadAt d name (.list es t) (i :: path)
  | clause {es cs : List Node} {t u : Token} {i j : Nat} {e : Node} {path : List Nat} :
      formOf d (.list es t) = .conditional → es[i]? = some (.list cs u) → cs[j]? = some e → HeadAt d name e path →
      HeadAt d name (.list es t) (i :: j :: path)
  | template {es : List Node} {t : Token} {i : Nat} {e : Node} {path : List Nat} :
      formOf d (.list es t) = .quasiquote → es[i]? = some e → TemplateHeadAt d name e path →
      HeadAt d name (.list es t) (i :: path)

/-- The same in a template, where only lists that insert code have a form. -/
inductive TemplateHeadAt (d : Dialect) (name : String) : Node → List Nat → Prop
  | here {op : Token} {args : List Node} {t : Token} : d.form name = .unquote ∨ d.form name = .unquoteSplicing →
      TemplateHeadAt d name (.list (.leaf (.symbol name) op :: args) t) []
  | inserted {es : List Node} {t : Token} {i : Nat} {e : Node} {path : List Nat} :
      formOf d (.list es t) = .unquote ∨ formOf d (.list es t) = .unquoteSplicing → es[i]? = some e →
      HeadAt d name e path → TemplateHeadAt d name (.list es t) (i :: path)
  | inside {es : List Node} {t : Token} {i : Nat} {e : Node} {path : List Nat} :
      formOf d (.list es t) ≠ .unquote → formOf d (.list es t) ≠ .unquoteSplicing → es[i]? = some e →
      TemplateHeadAt d name e path → TemplateHeadAt d name (.list es t) (i :: path)

end

/-- One step inward from a list that is evaluated, by its form. -/
theorem HeadAt.inward {d : Dialect} {name : String} {es : List Node} {t : Token} {i : Nat} {path : List Nat}
    (h : HeadAt d name (.list es t) (i :: path)) :
    match formOf d (.list es t) with
    | .lambda => 2 ≤ i ∧ ∃ e, es[i]? = some e ∧ HeadAt d name e path
    | .conditional => ∃ cs u j e path', path = j :: path' ∧ es[i]? = some (.list cs u) ∧ cs[j]? = some e ∧
        HeadAt d name e path'
    | .quote => False
    | .quasiquote => ∃ e, es[i]? = some e ∧ TemplateHeadAt d name e path
    | _ => ∃ e, es[i]? = some e ∧ HeadAt d name e path := by
  cases h with
  | @element _ _ _ e _ hform he hhead =>
    generalize formOf d (.list es t) = form at hform
    cases form with
    | lambda | conditional | quote | quasiquote => simp at hform
    | _ => exact ⟨e, he, hhead⟩
  | body hform hi he hhead =>
    rw [hform]
    exact ⟨hi, _, he, hhead⟩
  | clause hform hcs he hhead =>
    rw [hform]
    exact ⟨_, _, _, _, _, rfl, hcs, he, hhead⟩
  | template hform he hhead =>
    rw [hform]
    exact ⟨_, he, hhead⟩

end Emit

/-! ## Choices -/

abbrev Choice : Type := List Nat → Bool

namespace Choice

def under (S : Choice) (i : Nat) : Choice := fun path => S (i :: path)

def beyond (S : Choice) (before : List Nat) : Choice := fun path => S (before ++ path)

def Each (P : Choice → Node → Prop) (S : Choice) : Nat → List Node → Prop
  | _, [] => True
  | i, n :: ns => P (S.under i) n ∧ Each P S (i + 1) ns

theorem each_of_getElem? {P : Choice → Node → Prop} {S : Choice} {ns : List Node} {i : Nat}
    (h : ∀ j n, ns[j]? = some n → P (S.under (i + j)) n) : Each P S i ns := by
  induction ns generalizing i with
  | nil => trivial
  | cons n ns ih =>
    refine ⟨h 0 n rfl, ih fun j m hm => ?_⟩
    rw [Nat.add_assoc, Nat.add_comm 1 j]
    exact h (j + 1) m hm

end Choice

namespace Alias

def spell (a : Alias) (chosen : Bool) (v : Value) : Value := if chosen then .symbol a.other else v

mutual

/-- **The node with the other name** at the heads of the chosen lists. -/
def respell (a : Alias) (S : Choice) : Node → Node
  | .leaf v t => .leaf v t
  | .list es t => .list (respellElements a S es) t
termination_by structural n => n

def respellElements (a : Alias) (S : Choice) : List Node → List Node
  | [] => []
  | .leaf v op :: args => .leaf (a.spell (S []) v) op :: respellFrom a S 1 args
  | .list es t :: args => respell a (S.under 0) (.list es t) :: respellFrom a S 1 args
termination_by structural ns => ns

def respellFrom (a : Alias) (S : Choice) : Nat → List Node → List Node
  | _, [] => []
  | i, n :: ns => respell a (S.under i) n :: respellFrom a S (i + 1) ns
termination_by structural _ ns => ns

end

section Respell
variable {a : Alias} {S : Choice}

theorem respellElements_of_not (h : S [] = false) (es : List Node) : a.respellElements S es = a.respellFrom S 0 es := by
  rcases es with _ | ⟨⟨v, op⟩ | ⟨es, u⟩, args⟩
  · rfl
  · rw [respellElements, respellFrom, respell, h]
    rfl
  · rw [respellElements, respellFrom]

@[simp] theorem length_respellFrom (a : Alias) (S : Choice) (i : Nat) (ns : List Node) :
    (a.respellFrom S i ns).length = ns.length := by
  induction ns generalizing i with
  | nil => rfl
  | cons n ns ih => simp [respellFrom, ih]

theorem getElem?_respellFrom (a : Alias) (S : Choice) (ns : List Node) (i j : Nat) :
    (a.respellFrom S i ns)[j]? = ns[j]?.map (a.respell (S.under (i + j))) := by
  induction ns generalizing i j with
  | nil => rfl
  | cons n ns ih =>
    cases j with
    | zero => rfl
    | succ j =>
      rw [respellFrom, List.getElem?_cons_succ, List.getElem?_cons_succ, ih, Nat.add_assoc, Nat.add_comm 1 j]

/-- A list that is an element is respelt as what it is by itself. -/
theorem getElem?_respellElements {es cs : List Node} {u : Token} {i : Nat} (h : es[i]? = some (.list cs u)) :
    (a.respellElements S es)[i]? = some (a.respell (S.under i) (.list cs u)) := by
  rcases es with _ | ⟨⟨v, op⟩ | ⟨es, t⟩, args⟩
  · cases h
  · cases i with
    | zero => cases h
    | succ i =>
      rw [List.getElem?_cons_succ] at h
      rw [respellElements, List.getElem?_cons_succ, getElem?_respellFrom, h, Nat.add_comm]
      rfl
  · cases i with
    | zero =>
      cases h
      rfl
    | succ i =>
      rw [List.getElem?_cons_succ] at h
      rw [respellElements, List.getElem?_cons_succ, getElem?_respellFrom, h, Nat.add_comm]
      rfl

mutual

theorem respell_of_none : ∀ (n : Node) (S : Choice), (∀ path, S path = false) → a.respell S n = n
  | .leaf _ _, _, _ => rfl
  | .list es t, S, h => by rw [respell, respellElements_of_none es S h]
termination_by structural n => n

theorem respellElements_of_none : ∀ (ns : List Node) (S : Choice), (∀ path, S path = false) → a.respellElements S ns = ns
  | [], _, _ => rfl
  | .leaf v op :: args, S, h => by
    rw [respellElements, h, respellFrom_of_none args S 1 fun i path _ => h (i :: path)]
    rfl
  | .list es t :: args, S, h => by
    rw [respellElements, respell_of_none (.list es t) (S.under 0) fun path => h (0 :: path),
      respellFrom_of_none args S 1 fun i path _ => h (i :: path)]
termination_by structural ns => ns

theorem respellFrom_of_none : ∀ (ns : List Node) (S : Choice) (i : Nat), (∀ j path, i ≤ j → S (j :: path) = false) →
    a.respellFrom S i ns = ns
  | [], _, _, _ => rfl
  | n :: ns, S, i, h => by
    rw [respellFrom, respell_of_none n (S.under i) fun path => h i path (Nat.le_refl i),
      respellFrom_of_none ns S (i + 1) fun j path hj => h j path (by omega)]
termination_by structural ns => ns

end

end Respell

/-! ## Choices that may be made -/

section Chosen
open Emit Marked
variable (a : Alias)

/-- No assignment that stands in a declaration is respelt. -/
def Spares (S : Choice) (n : Node) : Prop :=
  a.name = "=" → ∀ before i es t, Evaluated standard n before (.list es t) →
    formOf standard (.list es t) = .declaration → S (before ++ [i]) = false

/-- **A choice of heads to respell** in a node that is evaluated. All of them are the name of the form, and the other name
is not in the node. -/
structure Chosen (sparing : Prop) (S : Choice) (n : Node) : Prop where
  heads : ∀ path, S path = true → HeadAt standard a.name n path
  spares : sparing → a.Spares S n
  fresh : .symbol a.other ∉ n.leaves

structure ChosenTemplate (sparing : Prop) (S : Choice) (n : Node) : Prop where
  heads : ∀ path, S path = true → TemplateHeadAt standard a.name n path
  spares : sparing → ∀ inner e, Unquoted standard n inner e → a.Spares (S.beyond inner) e
  fresh : .symbol a.other ∉ n.leaves

variable {a} {sparing : Prop} {S : Choice} {es : List Node} {t : Token} {i : Nat} {e : Node}

theorem Chosen.head {n : Node} (h : a.Chosen sparing S n) (hS : S [] = true) :
    ∃ op args t, n = .list (.leaf (.symbol a.name) op :: args) t := by
  cases h.heads [] hS with
  | here => exact ⟨_, _, _, rfl⟩

theorem ChosenTemplate.head {n : Node} (h : a.ChosenTemplate sparing S n) (hS : S [] = true) :
    ∃ op args t, n = .list (.leaf (.symbol a.name) op :: args) t := by
  cases h.heads [] hS with
  | here => exact ⟨_, _, _, rfl⟩

theorem fresh_of_getElem? (h : .symbol a.other ∉ Node.leaves (.list es t)) (he : es[i]? = some e) :
    .symbol a.other ∉ e.leaves :=
  fun hmem => h (Node.mem_leavesEach.2 ⟨e, List.mem_of_getElem? he, hmem⟩)

theorem Chosen.element (h : a.Chosen sparing S (.list es t))
    (hform : formOf standard (.list es t) ∉ [.lambda, .conditional, .quote, .quasiquote]) (he : es[i]? = some e) :
    a.Chosen sparing (S.under i) e := by
  refine ⟨fun path hpath => ?_, fun hs hname before j es' t' hev hdecl => ?_, fresh_of_getElem? h.fresh he⟩
  · cases h.heads (i :: path) hpath with
    | element _ he' hhead =>
      cases Option.some.inj (he.symm.trans he')
      exact hhead
    | body hform' | clause hform' | template hform' => exact absurd (by simp [hform']) hform
  · exact h.spares hs hname (i :: before) j es' t' (.element hform he hev) hdecl

theorem Chosen.elements (h : a.Chosen sparing S (.list es t))
    (hform : formOf standard (.list es t) ∉ [.lambda, .conditional, .quote, .quasiquote]) :
    S.Each (a.Chosen sparing) 0 es := by
  refine Choice.each_of_getElem? fun j n hn => ?_
  rw [Nat.zero_add]
  exact h.element hform hn

theorem Chosen.body_element (h : a.Chosen sparing S (.list es t)) (hform : formOf standard (.list es t) = .lambda)
    (hi : 2 ≤ i) (he : es[i]? = some e) : a.Chosen sparing (S.under i) e := by
  refine ⟨fun path hpath => ?_, fun hs hname before k es' t' hev hdecl => ?_, fresh_of_getElem? h.fresh he⟩
  · have hinward := (h.heads (i :: path) hpath).inward
    rw [hform] at hinward
    obtain ⟨-, e', he', hhead⟩ := hinward
    cases Option.some.inj (he.symm.trans he')
    exact hhead
  · exact h.spares hs hname (i :: before) k es' t' (.body hform hi he hev) hdecl

/-- In a function only the body is evaluated. -/
theorem Chosen.body (h : a.Chosen sparing S (.list es t)) (hform : formOf standard (.list es t) = .lambda) :
    (∀ path, S (1 :: path) = false) ∧ S.Each (a.Chosen sparing) 2 (es.drop 2) := by
  constructor
  · intro path
    by_contra hpath
    have hinward := (h.heads (1 :: path) (by simpa using hpath)).inward
    rw [hform] at hinward
    exact absurd hinward.1 (by omega)
  · refine Choice.each_of_getElem? fun j n hn => ?_
    rw [List.getElem?_drop] at hn
    exact h.body_element hform (by omega) hn

theorem Chosen.clause_element {cs : List Node} {u : Token} {j : Nat} (h : a.Chosen sparing S (.list es t))
    (hform : formOf standard (.list es t) = .conditional) (hcs : es[i]? = some (.list cs u)) (he : cs[j]? = some e) :
    a.Chosen sparing ((S.under i).under j) e := by
  refine ⟨fun path hpath => ?_, fun hs hname before k es' t' hev hdecl => ?_, ?_⟩
  · have hinward := (h.heads (i :: j :: path) hpath).inward
    rw [hform] at hinward
    obtain ⟨_, _, _, _, _, hpath', hcs', he', hhead⟩ := hinward
    cases hpath'
    cases Option.some.inj (hcs.symm.trans hcs')
    cases Option.some.inj (he.symm.trans he')
    exact hhead
  · exact h.spares hs hname (i :: j :: before) k es' t' (.clause hform hcs he hev) hdecl
  · exact fresh_of_getElem? (fresh_of_getElem? h.fresh hcs) he

/-- A clause is no form, but its elements are evaluated. -/
theorem Chosen.clause {cs : List Node} {u : Token} (h : a.Chosen sparing S (.list es t))
    (hform : formOf standard (.list es t) = .conditional) (hcs : es[i]? = some (.list cs u)) :
    S [i] = false ∧ (S.under i).Each (a.Chosen sparing) 0 cs := by
  constructor
  · by_contra hpath
    have hinward := (h.heads [i] (by simpa using hpath)).inward
    rw [hform] at hinward
    obtain ⟨_, _, _, _, _, hnil, -⟩ := hinward
    cases hnil
  · refine Choice.each_of_getElem? fun j n hn => ?_
    rw [Nat.zero_add]
    exact h.clause_element hform hcs hn

theorem Chosen.quoted (h : a.Chosen sparing S (.list es t)) (hform : formOf standard (.list es t) = .quote) (path : List Nat) :
    S (i :: path) = false := by
  by_contra hpath
  have hinward := (h.heads (i :: path) (by simpa using hpath)).inward
  rw [hform] at hinward
  exact hinward

theorem Chosen.template (h : a.Chosen sparing S (.list es t)) (hform : formOf standard (.list es t) = .quasiquote)
    (he : es[i]? = some e) : a.ChosenTemplate sparing (S.under i) e := by
  refine ⟨fun path hpath => ?_, fun hs inner e' hun hname before k es' t' hev hdecl => ?_, fresh_of_getElem? h.fresh he⟩
  · have hinward := (h.heads (i :: path) hpath).inward
    rw [hform] at hinward
    obtain ⟨e', he', hhead⟩ := hinward
    cases Option.some.inj (he.symm.trans he')
    exact hhead
  · have hpath := h.spares hs hname (i :: (inner ++ before)) k es' t' (.unquoted hform he hun hev) hdecl
    rw [List.cons_append, List.append_assoc] at hpath
    exact hpath

theorem ChosenTemplate.inserted (h : a.ChosenTemplate sparing S (.list es t))
    (hform : formOf standard (.list es t) = .unquote ∨ formOf standard (.list es t) = .unquoteSplicing)
    (he : es[i]? = some e) : a.Chosen sparing (S.under i) e := by
  refine ⟨fun path hpath => ?_, fun hs hname before k es' t' hev hdecl => ?_, fresh_of_getElem? h.fresh he⟩
  · cases h.heads (i :: path) hpath with
    | inserted _ he' hhead =>
      cases Option.some.inj (he.symm.trans he')
      exact hhead
    | inside hu hs => exact absurd hform (not_or.2 ⟨hu, hs⟩)
  · exact h.spares hs [i] e (.here hform he) hname before k es' t' hev hdecl

theorem ChosenTemplate.inside_element (h : a.ChosenTemplate sparing S (.list es t))
    (hu : formOf standard (.list es t) ≠ .unquote) (hus : formOf standard (.list es t) ≠ .unquoteSplicing)
    (he : es[i]? = some e) : a.ChosenTemplate sparing (S.under i) e := by
  refine ⟨fun path hpath => ?_, fun hs inner e' hun => ?_, fresh_of_getElem? h.fresh he⟩
  · cases h.heads (i :: path) hpath with
    | inserted hform => exact (hform.elim hu hus).elim
    | inside _ _ he' hhead =>
      cases Option.some.inj (he.symm.trans he')
      exact hhead
  · exact h.spares hs (i :: inner) e' (.inside hu hus he hun)

theorem ChosenTemplate.inside (h : a.ChosenTemplate sparing S (.list es t)) (hu : formOf standard (.list es t) ≠ .unquote)
    (hus : formOf standard (.list es t) ≠ .unquoteSplicing) : S [] = false ∧ S.Each (a.ChosenTemplate sparing) 0 es := by
  constructor
  · by_contra hpath
    cases h.heads [] (by simpa using hpath) with
    | here hform => exact hform.elim hu hus
  · refine Choice.each_of_getElem? fun j n hn => ?_
    rw [Nat.zero_add]
    exact h.inside_element hu hus hn

end Chosen

end Alias
end QuasiScript
