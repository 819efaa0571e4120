import QuasiScript.Proofs.Nesting
import QuasiScript.Proofs.TargetValues

/-!
# Quasiquotation keeps its meaning

A quasiquoted node is a template. Given the values of the expressions that it unquotes, it stands for a datum
(`template`): a symbol for its name, another leaf for its literal, an unquoted expression for its value, and a list for
an array, into which spliced values put their elements and other elements themselves. The text that is emitted for the
template evaluates to this datum (`quasiquote_evaluates`), whichever of the two ways of writing arrays it takes.
-/
namespace QuasiScript
open Dialect (standard)

namespace Emit
open Target (Val IsLiteral Semantics)
open Brackets (Operand Phrase phrase_datumLeaf scanWith_code)

/-! ## Templates -/

def unquoted? (form : Form) : Node → Option Node
  | .list [op, e] t => if formOf standard (.list [op, e] t) = form then some e else none
  | _ => none

mutual

/-- The expressions that a template unquotes, each with the name of the form that it stands in. -/
def unquotes : Node → List (String × Node)
  | .leaf _ _ => []
  | .list es t =>
    match unquoted? .unquote (.list es t) with
    | some e => [("unquote", e)]
    | none => unquotesEach es
termination_by structural n => n

def unquotesEach : List Node → List (String × Node)
  | [] => []
  | n :: ns =>
    (match unquoted? .unquoteSplicing n with
      | some e => [("unquote-splicing", e)]
      | none => unquotes n) ++ unquotesEach ns
termination_by structural ns => ns

end

section Template
variable {ω : Type}

def leafValue : Value → Val ω
  | .symbol name => .string name
  | .string contents => .string contents
  | v => .literal (Target.literal v)

def elements : Val ω → List (Val ω)
  | .array vs => vs
  | _ => []

mutual

/-- **The datum of a template**, given the values of expressions. -/
def template (value : Node → Val ω) : Node → Val ω
  | .leaf v _ => leafValue v
  | .list es t =>
    match unquoted? .unquote (.list es t) with
    | some e => value e
    | none => .array (templates value es)
termination_by structural n => n

def templates (value : Node → Val ω) : List Node → List (Val ω)
  | [] => []
  | n :: ns =>
    (match unquoted? .unquoteSplicing n with
      | some e => elements (value e)
      | none => [template value n]) ++ templates value ns
termination_by structural ns => ns

end

end Template

def Emits (n : Node) (f : Frame) (s : String) : Prop := ∃ T T', exec (node standard n f) T = (.ok s, T')

/-! ## The parts of a template -/

theorem operand_of_phrase {k : Nat} {s : String} (h : Phrase k false s) : Operand s :=
  ⟨h.begins, scanWith_code h.code fun hcommas => by cases hcommas⟩

theorem unquoted?_eq_none {form : Form} {n : Node} (h : formOf standard n ≠ form) : unquoted? form n = none := by
  unfold unquoted?
  split
  · rw [if_neg h]
  · rfl

/-- What an unquoting list inserts is the code of its expression. -/
theorem inserted_emits (role : String) (f : Frame) {form : Form} : ∀ {es : List Node} {t : Token},
    formOf standard (.list es t) = form → form ≠ .ordinary →
    Ensures (inserted standard role es f) fun s => ∃ e, unquoted? form (.list es t) = some e ∧ Emits e (f.under role) s
  | [], _, hform, hne => absurd hform.symm hne
  | [_], _, _, _ => ensures_fail
  | [op, e], t, hform, _ => by
    refine ensures_bind fun _ => fun T s T' hs => ⟨e, ?_, T, T', hs⟩
    rw [unquoted?, if_pos hform]
  | _ :: _ :: _ :: _, _, _, _ => ensures_fail

section Means
variable {ω : Type} {S : Semantics ω} {sole : Prop} {value : Node → Val ω} {f : Frame}

/-- The expressions have the values that are given for them, and those that are spliced have arrays. -/
structure Assigned (S : Semantics ω) (sole : Prop) (value : Node → Val ω) (f : Frame) (es : List (String × Node)) :
    Prop where
  means : ∀ role e s, (role, e) ∈ es → Emits e (f.under role) s → S.Means sole s (value e)
  array : ∀ e, ("unquote-splicing", e) ∈ es → ∃ vs, value e = .array vs

theorem Assigned.left {es es' : List (String × Node)} (h : Assigned S sole value f (es ++ es')) :
    Assigned S sole value f es :=
  ⟨fun role e s he => h.means role e s (List.mem_append_left es' he), fun e he => h.array e (List.mem_append_left es' he)⟩

theorem Assigned.right {es es' : List (String × Node)} (h : Assigned S sole value f (es ++ es')) :
    Assigned S sole value f es' :=
  ⟨fun role e s he => h.means role e s (List.mem_append_right es he), fun e he => h.array e (List.mem_append_right es he)⟩

theorem means_datumLeaf {v : Value} (hv : v.Readable) : S.Means sole (datumLeaf v) (leafValue v) := by
  rcases Value.isAtom_literal hv with ⟨s, rfl⟩ | ⟨hne, hall, hatom⟩
  · exact Semantics.means_quote
  · have hliteral : v.symbol? = none → IsLiteral (Target.literal v) := fun h => ⟨hne, hall, by rwa [hatom]⟩
    cases v with
    | symbol _ | string _ => exact Semantics.means_quote
    | number _ _ | boolean _ | constant _ _ => exact Semantics.means_literal (hliteral rfl)

/-- An array of one item. -/
theorem means_singleton {s : String} {v : Val ω} (hs : Operand s) (h : S.Means sole s v) :
    S.Means sole ("[" ++ s ++ "]") (.array [v]) := by
  have harray : S.Means sole ("[" ++ ", ".intercalate [s] ++ "]") (.array [v]) :=
    Semantics.means_array (by simpa using hs) (.cons h .nil)
  simpa using harray

mutual

theorem datum_means : ∀ n : Node, n.Readable → Assigned S sole value f (unquotes n) →
    Ensures (datum standard true n f) (S.Means sole · (template value n))
  | .leaf v _, hn, _ => ensures_pure (means_datumLeaf hn)
  | .list es t, hn, h => by
    simp only [datum, if_true]
    split
    · rename_i hform
      refine (inserted_emits "unquote" f hform (by simp)).imp fun s hs => ?_
      obtain ⟨e, he, hemits⟩ := hs
      rw [unquotes, he] at h
      rw [template, he]
      exact h.means "unquote" e s (by simp) hemits
    · exact ensures_fail
    · rename_i hunquote _
      have hnone : unquoted? .unquote (.list es t) = none := unquoted?_eq_none hunquote
      rw [unquotes, hnone] at h
      rw [template, hnone]
      refine ensures_ite (fun _ => ?_) fun hany => ?_
      · refine ((splices_phrase es f hn).and (splices_means es hn h)).bind_pure ?_
        rintro ss ⟨hss, vs, hvs, heq⟩
        rw [← heq]
        exact Semantics.means_concat (fun s hs => operand_of_phrase (hss s hs)) hvs
      · have hordinary : ∀ n ∈ es, isSpliced standard n = false := by simpa using hany
        refine ((data_phrase true es f hn).and (data_means es hn hordinary h)).bind_pure ?_
        rintro ss ⟨hss, hvs⟩
        exact Semantics.means_array (fun s hs => operand_of_phrase (hss s hs)) hvs
termination_by structural n => n

theorem data_means : ∀ ns : List Node, Node.AllReadable ns → (∀ n ∈ ns, isSpliced standard n = false) →
    Assigned S sole value f (unquotesEach ns) →
    Ensures (data standard true ns f) (List.Forall₂ (S.Means sole) · (templates value ns))
  | [], _, _, _ => ensures_pure .nil
  | n :: ns, hns, hordinary, h => by
    obtain ⟨hn, hordinary⟩ := List.forall_mem_cons.1 hordinary
    have hnone : unquoted? .unquoteSplicing n = none := unquoted?_eq_none (by simpa [isSpliced] using hn)
    rw [unquotesEach, hnone] at h
    rw [templates, hnone]
    exact (datum_means n hns.1 h.left).bind fun s hs =>
      (data_means ns hns.2 hordinary h.right).bind_pure fun ss hss => .cons hs hss
termination_by structural ns => ns

/-- The arguments of a concatenation are arrays with the elements that the elements of the template stand for. -/
theorem splices_means : ∀ ns : List Node, Node.AllReadable ns → Assigned S sole value f (unquotesEach ns) →
    Ensures (splices standard ns f) fun ss =>
      ∃ vs, List.Forall₂ (S.Means sole) ss vs ∧ vs.flatMap Val.spread = templates value ns
  | [], _, _ => ensures_pure ⟨[], .nil, rfl⟩
  | .leaf v t :: ns, hns, h => by
    refine (splices_means ns hns.2 h.right).bind_pure fun ss hss => ?_
    obtain ⟨vs, hvs, heq⟩ := hss
    have hleaf : S.Means sole ("[" ++ datumLeaf v ++ "]") (.array [leafValue v]) :=
      means_singleton (operand_of_phrase (k := 0) (phrase_datumLeaf hns.1)) (means_datumLeaf hns.1)
    refine ⟨_, .cons hleaf hvs, ?_⟩
    rw [List.flatMap_cons, heq, templates]
    rfl
  | .list es t :: ns, hns, h => by
    rw [unquotesEach] at h
    have hrest := splices_means ns hns.2 h.right
    simp only [splices, pure_bind]
    refine ensures_ite (fun hspliced => ?_) fun hspliced => ?_
    · have hform : formOf standard (.list es t) = .unquoteSplicing := by simpa [isSpliced] using hspliced
      refine (inserted_emits "unquote-splicing" f hform (by simp)).bind fun s hs => hrest.bind_pure fun ss hss => ?_
      obtain ⟨e, he, hemits⟩ := hs
      obtain ⟨vs, hvs, heq⟩ := hss
      rw [he] at h
      obtain ⟨ws, hws⟩ := h.array e (by simp)
      refine ⟨_, .cons (h.means _ e s (by simp) hemits) hvs, ?_⟩
      rw [List.flatMap_cons, heq, templates, he]
      simp only [hws, Val.spread, elements]
    · have hnone : unquoted? .unquoteSplicing (.list es t) = none :=
        unquoted?_eq_none (by simpa [isSpliced] using hspliced)
      rw [hnone] at h
      refine ((datum_phrase true (.list es t) f hns.1).and (datum_means (.list es t) hns.1 h.left)).bind
        fun s hs => hrest.bind_pure fun ss hss => ?_
      obtain ⟨vs, hvs, heq⟩ := hss
      refine ⟨_, .cons (means_singleton (operand_of_phrase hs.1) hs.2) hvs, ?_⟩
      rw [List.flatMap_cons, heq, templates, hnone]
      rfl
termination_by structural ns => ns

end

end Means

/-- **The code of a template evaluates to its datum**, for all values of the expressions that it unquotes, if those that
are spliced have arrays. Where the expressions have no other values, neither has the code. A template that has been read
is readable (`Reading.ofText_readable`). -/
theorem quasiquote_evaluates {ω : Type} (S : Semantics ω) (value : Node → Val ω) {n : Node} {op t : Token} {f : Frame}
    {T T' : ScopeTable} {text : String} (hn : n.Readable)
    (h : exec (node standard (.list [.leaf (.symbol "quasiquote") op, n] t) f) T = (.ok text, T'))
    (hvalue : ∀ role e s, (role, e) ∈ unquotes n → Emits e (f.under role) s → S.Evaluates s (value e))
    (harray : ∀ e, ("unquote-splicing", e) ∈ unquotes n → ∃ vs, value e = .array vs) :
    S.Evaluates text (template value n) ∧
      ((∀ role e s v, (role, e) ∈ unquotes n → Emits e (f.under role) s → S.Evaluates s v → v = value e) →
        ∀ v, S.Evaluates text v → v = template value n) := by
  have hdatum : exec (datum standard true n f) T = (.ok text, T') := h
  constructor
  · have hassigned : Assigned S False value f (unquotes n) :=
      ⟨fun role e s he hs => ⟨hvalue role e s he hs, False.elim⟩, harray⟩
    exact (datum_means n hn hassigned T text T' hdatum).1
  · intro hsole
    have hassigned : Assigned S True value f (unquotes n) :=
      ⟨fun role e s he hs => ⟨hvalue role e s he hs, fun _ w => hsole role e s w he hs⟩, harray⟩
    exact (datum_means n hn hassigned T text T' hdatum).2 trivial

/-- In `(a (b ,x) ,@xs)` the array that `x` has is one element of a list, and those of `xs` are elements of their own. -/
theorem quasiquote_evaluates_nested :
    let t : Token := ⟨.atom, "", ⟨1, 1⟩⟩
    let unquote (name x : String) : Node := .list [.leaf (.symbol name) t, .leaf (.symbol x) t] t
    let n : Node := .list [.leaf (.symbol "a") t, .list [.leaf (.symbol "b") t, unquote "unquote" "x"] t,
      unquote "unquote-splicing" "xs"] t
    let S : Semantics Empty := .ofOther fun s v =>
      s = "x" ∧ v = .array [.literal "1"] ∨ s = "xs" ∧ v = .array [.string "c", .array []]
    exec (node standard (.list [.leaf (.symbol "quasiquote") t, n] t) .top) .initial =
        (.ok "[].concat([\"a\"], [[\"b\", x]], xs)", .initial) ∧
      S.Evaluates "[].concat([\"a\"], [[\"b\", x]], xs)"
        (.array [.string "a", .array [.string "b", .array [.literal "1"]], .string "c", .array []]) := by
  intro t unquote n S
  let value : Node → Val Empty := fun e =>
    if e.symbol? = some "x" then .array [.literal "1"] else .array [.string "c", .array []]
  have hexec : exec (node standard (.list [.leaf (.symbol "quasiquote") t, n] t) .top) .initial =
      (.ok "[].concat([\"a\"], [[\"b\", x]], xs)", .initial) := rfl
  have hunquotes : unquotes n = [("unquote", .leaf (.symbol "x") t), ("unquote-splicing", .leaf (.symbol "xs") t)] := rfl
  have hvalue : ∀ role e s, (role, e) ∈ unquotes n → Emits e (Frame.top.under role) s → S.Evaluates s (value e) := by
    rintro role e s he ⟨T, T', hs⟩
    rw [hunquotes, List.mem_cons, List.mem_singleton] at he
    rcases he with he | he
    · cases he
      rw [leaf_ensures _ _ _ T s T' hs]
      exact .other rfl (.inl ⟨rfl, rfl⟩)
    · cases he
      rw [leaf_ensures _ _ _ T s T' hs]
      exact .other rfl (.inr ⟨rfl, rfl⟩)
  have harray : ∀ e, ("unquote-splicing", e) ∈ unquotes n → ∃ vs, value e = .array vs := by
    intro e _
    dsimp only [value]
    split
    · exact ⟨_, rfl⟩
    · exact ⟨_, rfl⟩
  exact ⟨hexec, (quasiquote_evaluates S value (by decide) hexec hvalue harray).1⟩

end Emit
end QuasiScript
